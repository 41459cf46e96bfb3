import PallaSync.Listings
import PallaSync.Parts
import PallaSync.Revocations

/-!
# Devices that are barred

A request is authenticated in one transaction and executed in later ones, so
that a device may be revoked, or its generation may pass, while its requests are
under way. Every call under way was authenticated in some earlier state of the
run (`underWay_admitted`). That does not suffice for it to be served: whatever
a device that is barred by then still has under way, and whatever it sends
later, comes to nothing but evidence of a rejection (`barred_denied`).
-/

namespace PallaSync

open Atomic Machine

/-! ## Calls under way -/

/-- The request a task is part of, as long as it is under way. -/
def Task.call? : Task → Option Call
  | .start call _ | .shape call | .items call _ | .itemAudit call _ _ _ | .audit call _ => some call
  | .erase _ | .finish _ | .notices | .done _ => none

/-- A call without its body, which is parsed after it was authenticated. -/
def Call.bodiless (call : Call) : Call := { call with value := .null }

/-- The request `q` is let in as `call`. -/
structure World.Admits (X : Crypto) (w : World) (q : Request) (o : Oracle) (call : Call) :
    Prop where
  routed : q.route ≠ .request
  bodiless : call.bodiless = q.call call.chain call.auth
  authentic : ∃ proposed desk, requestChain X q = .ok (call.chain, proposed) ∧
    authenticate (w.relay X) (w.store call.chain) w.barrier w.desk q call.chain proposed
      (o.now 0) (o.now 1) = (.ok call.auth, desk)

theorem World.Admits.of_bodiless {X : Crypto} {w : World} {q : Request} {o : Oracle}
    {call call' : Call} (h : w.Admits X q o call') (heq : call.bodiless = call'.bodiless) :
    w.Admits X q o call := by
  have hchain : call.chain = call'.chain := (congrArg Call.chain heq :)
  have hauth : call.auth = call'.auth := (congrArg Call.auth heq :)
  refine ⟨h.routed, ?_, ?_⟩
  · rw [heq, hchain, hauth]
    exact h.bodiless
  · rw [hchain, hauth]
    exact h.authentic

/-- The call of a task was under way before. -/
def World.Continues (w : World) (task : Task) : Prop :=
  ∀ call, task.call? = some call →
    ∃ before ∈ w.tasks, ∃ call', before.call? = some call' ∧ call.bodiless = call'.bodiless

section Calls

variable {X : Crypto} {w w' : World} {i : Nat} {task : Task}

theorem World.Continues.ended (h : task.call? = none) : w.Continues task := fun call hcall => by
  rw [h] at hcall
  cases hcall

theorem World.Continues.of_task {call : Call} (ht : w.tasks[i]? = some task)
    (hcall : task.call? = some call) {task' : Task}
    (h : ∀ call', task'.call? = some call' → call'.bodiless = call.bodiless) :
    w.Continues task' := fun call' hcall' =>
  ⟨task, List.mem_of_getElem? ht, call, hcall, h call' hcall'⟩

theorem continues_setTask (hw : w'.tasks = w.tasks) (h : w.Continues task) :
    ∀ t ∈ (w'.setTask i task).tasks, w.Continues t := by
  intro t ht
  obtain hmem | rfl := List.mem_or_eq_of_mem_set (show t ∈ w'.tasks.set i task from ht)
  · exact fun call hcall => ⟨t, hw ▸ hmem, call, hcall, rfl⟩
  · exact h

theorem Turn.task_call (call : Call) (turn : Turn) {call' : Call}
    (h : (turn.task call).call? = some call') : call' = call := by
  cases turn <;> first | exact (Option.some.inj h).symm | cases h

theorem stepExecute_call {R : Relay} {o : Oracle} {call call' : Call} {st : Store}
    (h : (stepExecute R o call st).2.call? = some call') : call' = call := by
  unfold stepExecute at h
  split at h
  · cases h
  · split at h
    · dsimp only at h
      split at h <;> cases h
    · dsimp only at h
      split at h
      · cases h
      · exact (Option.some.inj h).symm

theorem stepStart_continues {call : Call} {value : Except ApiError Json} {o : Oracle}
    {faults : Faults} (ht : w.tasks[i]? = some (.start call value)) :
    ∀ t ∈ (w.stepStart X i call value o faults).tasks, w.Continues t := by
  unfold World.stepStart
  dsimp only
  split
  · exact continues_setTask rfl (.ended rfl)
  · rename_i call₁ hstart
    obtain ⟨v, rfl, rfl⟩ := startCheck_ok hstart
    split
    · split
      · exact continues_setTask rfl (.ended rfl)
      · refine continues_setTask rfl (.of_task ht rfl fun call' h => ?_)
        rw [← Option.some.inj h]
        rfl
    · split
      · exact continues_setTask rfl (.ended rfl)
      · refine continues_setTask rfl (.of_task ht rfl fun call' h => ?_)
        rw [stepExecute_call h]
        rfl

theorem stepTask_continues {o : Oracle} {faults : Faults} :
    ∀ t ∈ (w.stepTask X i o faults).tasks, w.Continues t := by
  unfold World.stepTask
  dsimp only
  split
  · rename_i call value ht
    exact stepStart_continues ht
  · rename_i call ht
    refine continues_setTask rfl (.of_task ht rfl fun call' h => ?_)
    unfold stepShape at h
    dsimp only at h
    split at h
    · cases h
    · rw [← Option.some.inj h]
  · rename_i call p ht
    split
    · exact continues_setTask rfl (.ended rfl)
    · exact continues_setTask rfl (.of_task ht rfl fun call' h => by rw [Turn.task_call call _ h])
  · rename_i call p r e ht
    exact continues_setTask rfl (.of_task ht rfl fun call' h => by rw [Turn.task_call call _ h])
  · rename_i call e ht
    refine continues_setTask rfl (.ended ?_)
    unfold stepAudit
    split
    · rfl
    · split <;> rfl
  · unfold World.stepErase
    dsimp only
    split
    · refine continues_setTask rfl (.ended ?_)
      split <;> rfl
    · exact continues_setTask rfl (.ended rfl)
  · unfold World.stepFinish
    dsimp only
    split
    · rename_i w' hw'
      refine continues_setTask (World.mapStores_ok hw' "").2.2 (.ended ?_)
      split <;> rfl
    · refine continues_setTask rfl (.ended ?_)
      split <;> rfl
  · unfold World.stepNotices
    split
    · rename_i w' hw'
      exact continues_setTask (World.mapStores_ok hw' "").2.2 (.ended rfl)
    · exact continues_setTask rfl (.ended rfl)
  · exact fun t ht call hcall => ⟨t, ht, call, hcall, rfl⟩
  · exact fun t ht call hcall => ⟨t, ht, call, hcall, rfl⟩

/-- The task of a request that arrives: answered, or let in. -/
theorem stepRequest_spawns (q : Request) (o : Oracle) :
    ∃ task, (w.stepRequest X q o).tasks = w.tasks ++ [task] ∧
      ∀ call, task.call? = some call → w.Admits X q o call := by
  have hend : ∀ {reply : Reply} call, (Task.done reply).call? = some call → w.Admits X q o call :=
    fun call h => by cases h
  unfold World.stepRequest World.stepEnrollment
  dsimp only
  split
  · split
    · exact ⟨_, rfl, hend⟩
    · split
      · exact ⟨_, rfl, hend⟩
      · split
        · exact ⟨_, rfl, hend⟩
        · split
          · exact ⟨_, rfl, hend⟩
          · exact ⟨_, rfl, hend⟩
  · rename_i hroute
    split
    · exact ⟨_, rfl, hend⟩
    · rename_i id proposed hchain
      split
      · exact ⟨_, rfl, hend⟩
      · rename_i auth desk hauth
        refine ⟨_, rfl, fun call h => ?_⟩
        obtain rfl := (Option.some.inj h).symm
        exact ⟨hroute, rfl, proposed, desk, hchain, hauth⟩

/-- A call that is under way was under way before, or is that of a request
that was let in. -/
theorem step_calls (ev : Event) {call : Call} (ht : task ∈ (w.step X ev).tasks)
    (hcall : task.call? = some call) :
    (∃ before ∈ w.tasks, ∃ call', before.call? = some call' ∧ call.bodiless = call'.bodiless) ∨
      ∃ q o, ev = .request q o ∧ w.Admits X q o call := by
  cases ev with
  | request q o =>
      obtain ⟨t, htasks, hadmits⟩ := stepRequest_spawns (X := X) (w := w) q o
      rw [show (w.step X (.request q o)).tasks = _ from htasks] at ht
      obtain ht | ht := List.mem_append.mp ht
      · exact .inl ⟨task, ht, call, hcall, rfl⟩
      · obtain rfl := List.mem_singleton.mp ht
        exact .inr ⟨q, o, rfl, hadmits call hcall⟩
  | resume i o faults => exact .inl (stepTask_continues _ ht call hcall)
  | complete =>
      obtain ht | ht := List.mem_append.mp (show task ∈ w.tasks ++ [_] from ht)
      · exact .inl ⟨task, ht, call, hcall, rfl⟩
      · rw [List.mem_singleton.mp ht] at hcall
        cases hcall
  | retention o =>
      refine .inl ⟨task, ?_, call, hcall, rfl⟩
      change task ∈ (w.stepRetention X o).tasks at ht
      unfold World.stepRetention at ht
      split at ht
      · rename_i w' hw'
        rwa [(World.mapStores_ok hw' "").2.2] at ht
      · exact ht
  | restart settings t =>
      rw [List.mem_singleton.mp (show task ∈ [_] from ht)] at hcall
      cases hcall

end Calls

/-- Every call that is under way belongs to a request of the run that was let
in: its token was checked and its nonce reserved in the state before. -/
theorem underWay_admitted (X : Crypto) (cfg : RelayConfig) (es : List Event) {task : Task}
    {call : Call} (ht : task ∈ (World.after X cfg es).tasks) (hcall : task.call? = some call) :
    ∃ es₁ q o es₂, es = es₁ ++ .request q o :: es₂ ∧ (World.after X cfg es₁).Admits X q o call := by
  induction es using List.reverseRecOn generalizing task call with
  | nil => cases ht
  | append_singleton es ev ih =>
      rw [World.after, run_append] at ht
      obtain ⟨before, hbefore, call', hcall', heq⟩ | ⟨q, o, rfl, hadmits⟩ := step_calls ev ht hcall
      · obtain ⟨es₁, q, o, es₂, rfl, hadmits⟩ := ih hbefore hcall'
        exact ⟨es₁, q, o, es₂ ++ [ev], by simp, hadmits.of_bodiless heq⟩
      · exact ⟨es, q, o, [], rfl, hadmits⟩

/-- A call that is executed is under way. -/
theorem acting_underWay {w : World} {ev : Event} {call : Call} (h : w.acting ev = some call) :
    ∃ task ∈ w.tasks, ∃ call', task.call? = some call' ∧ call.bodiless = call'.bodiless := by
  cases ev with
  | resume i o faults =>
      rw [World.acting] at h
      split at h
      · rename_i call₀ value ht
        obtain ⟨v, -, rfl⟩ := Option.map_eq_some_iff.mp h
        exact ⟨_, List.mem_of_getElem? ht, call₀, rfl, rfl⟩
      · rename_i call₀ p ht
        obtain rfl := Option.some.inj h
        exact ⟨_, List.mem_of_getElem? ht, call₀, rfl, rfl⟩
      · cases h
  | request _ _ | complete | retention _ | restart _ _ => cases h

/-! ## Evidence of rejections -/

/-- A chain without its place in the transparency chain. -/
def Chain.unmarked (c : Chain) : Chain := { c with transparencyIndex := 0, transparencyHash := "" }

/-- Evidence of rejections was added, and published, and that is all. -/
structure Store.Rejects (st st' : Store) : Prop where
  rest : { st' with chain := st.chain, transparency := st.transparency, heads := st.heads } = st
  chain : st'.chain.map Chain.unmarked = st.chain.map Chain.unmarked
  kept : ∀ r ∈ st.transparency, r ∈ st'.transparency
  added : ∀ r ∈ st'.transparency, r ∈ st.transparency ∨ r.entry.operation = .reject

section Evidence

variable {R : Relay} {w w' : Work} {u : Unit}

end Evidence

/-! ## Changes -/

/-- The chain but for its evidence: its row, the registry and the receipts. -/
structure Store.SameStanding (st st' : Store) : Prop where
  chain : st'.chain.map Chain.unmarked = st.chain.map Chain.unmarked
  registry : st'.registry = st.registry
  receipts : st'.receipts = st.receipts

section Changes

variable {X : Crypto} {R : Relay} {L L' : Ledger} {st st' : Store}

/-- What neither evidence nor expiry touches. -/
structure Ledger.SameStanding (L L' : Ledger) : Prop where
  chain : L'.chain.unmarked = L.chain.unmarked
  registry : L'.registry = L.registry
  receipts : L'.receipts = L.receipts

theorem Ledger.SameStanding.trans {M : Ledger} (h : L.SameStanding M) (h' : M.SameStanding L') :
    L.SameStanding L' :=
  ⟨h'.chain.trans h.chain, h'.registry.trans h.registry, h'.receipts.trans h.receipts⟩

theorem Step.sameStanding {m : Move} (h : Step X m L L')
    (hm : m.isEvidence ∨ ∃ e, m = .expire e) : L.SameStanding L' := by
  obtain hm | ⟨e, rfl⟩ := hm
  · cases h with
    | evidence hw =>
        obtain ⟨te, -, hchain⟩ := hw.noted
        exact ⟨by rw [hchain]; rfl, hw.registry, hw.receipts⟩
    | _ => exact hm.elim
  · cases h with
    | expire _ hblank _ hchain => exact ⟨by rw [hchain], hblank.registry, hblank.receipts⟩

theorem Steps.sameStanding {ms : List Move} (h : Steps X ms L L')
    (hms : ∀ m ∈ ms, m.isEvidence ∨ ∃ e, m = .expire e) : L.SameStanding L' :=
  h.preserves (P := L.SameStanding) (C := fun m => m.isEvidence ∨ ∃ e, m = .expire e)
    (fun _ _ _ hm hs hM => hM.trans (hs.sameStanding hm)) hms ⟨rfl, rfl, rfl⟩

/-- Without a call there is only evidence, expiry and the enrollment endpoint. -/
theorem Commit.sameStanding (h : Commit R none st st') (hdel : st'.deletion = none) :
    st.SameStanding st' := by
  cases h with
  | @evidence ms _ mid b hc hms hm hs =>
      obtain ⟨c, hc⟩ := Option.isSome_iff_exists.mp hc
      have hsame := hm.steps.sameStanding fun m h => .inl (hms m h)
      have hchain : mid.chain.unmarked = c.unmarked := by
        have h := hsame.chain
        simp only [Store.ledger_chain, hc, Option.getD_some] at h
        exact h
      refine ⟨?_, ?_, ?_⟩
      · rw [hs.stored, hs.chain, hc]
        exact congrArg some hchain
      · exact (congrArg Ledger.registry hs.ledger).trans hsame.registry
      · exact (congrArg Ledger.receipts hs.ledger).trans hsame.receipts
  | enrollment _ hs =>
      exact ⟨by rw [hs.chain], congrArg Ledger.registry hs.ledger,
        congrArg Ledger.receipts hs.ledger⟩
  | expire _ hm =>
      have hsame := hm.steps.sameStanding fun m h => by
        obtain ⟨e, -, rfl⟩ := List.mem_map.mp h
        exact .inr ⟨e, rfl⟩
      exact ⟨by rw [hm.chain], hsame.registry, hsame.receipts⟩
  | erase =>
      have hst : st.deletion = none := by
        cases hd : st.deletion with
        | none => rfl
        | some d =>
            unfold Store.erase at hdel
            split at hdel
            · exact hd.symm.trans hdel
            · exact hd.symm.trans hdel
      rw [erase_still hst]
      exact ⟨rfl, rfl, rfl⟩
  | finish hf =>
      obtain ⟨rfl, -⟩ := finish_still hf hdel
      exact ⟨rfl, rfl, rfl⟩

end Changes

/-- The row of an undeleted chain, its registry and its receipts change only
when a call is executed whose request was let in before, in the same run. -/
theorem changes_authenticated (X : Crypto) (cfg : RelayConfig) (es : List Event) (ev : Event)
    (id : String) (hdel : (storeAfter X cfg (es ++ [ev]) id).deletion = none)
    (hchange : ¬(storeAfter X cfg es id).SameStanding (storeAfter X cfg (es ++ [ev]) id)) :
    ∃ call es₁ q o es₂, (World.after X cfg es).acting ev = some call ∧ call.chain = id ∧
      es = es₁ ++ .request q o :: es₂ ∧ (World.after X cfg es₁).Admits X q o call := by
  have hafter : storeAfter X cfg (es ++ [ev]) id = ((World.after X cfg es).step X ev).store id := by
    rw [storeAfter, World.after, run_snoc]
    rfl
  obtain hsame | ⟨cause, hcommit, hcause⟩ := step_commit X (World.after X cfg es) ev id
  · rw [hafter, hsame] at hchange
    exact absurd ⟨rfl, rfl, rfl⟩ hchange
  · cases cause with
    | none =>
        rw [hafter] at hdel hchange
        exact absurd (hcommit.sameStanding hdel) hchange
    | some call =>
        obtain ⟨hacting, hchain⟩ := hcause call rfl
        obtain ⟨task, ht, call', hcall', heq⟩ := acting_underWay hacting
        obtain ⟨es₁, q, o, es₂, hes, hadmits⟩ := underWay_admitted X cfg es ht hcall'
        exact ⟨call, es₁, q, o, es₂, hacting, hchain, hes, hadmits.of_bodiless heq⟩

namespace Sample

theorem rotationCommit_facts :
    ((storeAfter crypto cfg (rotationArrived ++ [rotationCommit]) chainId).deletion.isNone &&
      decide ((storeAfter crypto cfg rotationArrived chainId).chain.map (·.epoch) = some epoch0) &&
      decide ((storeAfter crypto cfg (rotationArrived ++ [rotationCommit]) chainId).chain.map
        (·.epoch) = some epoch1) && decide (epoch1 ≠ epoch0)) = true := by
  decide +kernel

end Sample

/-- The chain takes a new epoch because a request of its admin was let in. -/
theorem changes_authenticated_rotation : ∃ call es₁ q o es₂,
    (World.after Sample.crypto Sample.cfg rotationArrived).acting rotationCommit =
      some call ∧ rotationArrived = es₁ ++ .request q o :: es₂ ∧
    (World.after Sample.crypto Sample.cfg es₁).Admits Sample.crypto q o call := by
  have hfacts := Sample.rotationCommit_facts
  simp only [Bool.and_eq_true, Option.isNone_iff_eq_none, decide_eq_true_eq] at hfacts
  obtain ⟨⟨⟨hdel, hbefore⟩, hafter⟩, hne⟩ := hfacts
  obtain ⟨c, hc, hepoch⟩ := Option.map_eq_some_iff.mp hbefore
  obtain ⟨c', hc', hepoch'⟩ := Option.map_eq_some_iff.mp hafter
  have hchange : ¬(storeAfter Sample.crypto Sample.cfg rotationArrived
      Sample.chainId).SameStanding (storeAfter Sample.crypto Sample.cfg
        (rotationArrived ++ [rotationCommit]) Sample.chainId) := fun hsame => by
    have hchain := hsame.chain
    rw [hc, hc'] at hchain
    have he : c'.epoch = c.epoch := (congrArg Chain.epoch (Option.some.inj hchain) :)
    exact hne (by rw [← hepoch', he, hepoch])
  obtain ⟨call, es₁, q, o, es₂, hacting, -, hes, hadmits⟩ := changes_authenticated Sample.crypto
    Sample.cfg rotationArrived rotationCommit Sample.chainId hdel hchange
  exact ⟨call, es₁, q, o, es₂, hacting, hes, hadmits⟩

/-! ## Barred devices -/

/-- A device that is revoked, or of a generation that the chain has left. -/
def Store.Bars (st : Store) (d : String) : Prop :=
  st.status d = some .revoked ∨
    ∃ x c, st.object .device d = some x ∧ st.chain = some c ∧ n x "generation" < c.generation

/-- A route is open to a device: it is registered, of the chain's generation,
and active, or it waits for its keys and the route is one that it may use then. -/
def Store.Serves (st : Store) (d : String) (route : Route) : Prop :=
  ∃ c x status, st.chain = some c ∧ st.object .device d = some x ∧
    n x "generation" = c.generation ∧ st.status d = some status ∧
    (status = .active ∨ status = .pendingKeys ∧ route.whilePending = true)

section Standing

variable {X : Crypto} {st : Store} {c : Chain} {d : String} {auth : Auth}

theorem deviceState_ok {route : Route} (h : deviceState st c d route = .ok ()) :
    ∃ x status, st.object .device d = some x ∧ n x "generation" = c.generation ∧
      st.status d = some status ∧
      (status = .active ∨ status = .pendingKeys ∧ route.whilePending = true) := by
  simp only [deviceState, Check.bind_ok, Check.require_ok, Check.failIf_ok,
    bne_eq_false_iff_eq] at h
  obtain ⟨x, hx, _, hgen, status, hstatus, _, hrevoked, hpending⟩ := h
  refine ⟨x, status, hx, hgen, hstatus, ?_⟩
  cases status with
  | active => exact .inl rfl
  | pendingKeys => exact .inr ⟨rfl, by simpa using hpending⟩
  | revoked => cases hrevoked

theorem Store.Bars.excludes {x : Json} {status : Status} (h : st.Bars d) (hc : st.chain = some c)
    (hx : st.object .device d = some x) (hgen : n x "generation" = c.generation)
    (hstatus : st.status d = some status) (hrevoked : status ≠ .revoked) : False := by
  obtain h | ⟨x', c', hx', hc', hlt⟩ := h
  · exact hrevoked (Option.some.inj (hstatus.symm.trans h))
  · obtain rfl := Option.some.inj (hx.symm.trans hx')
    obtain rfl := Option.some.inj (hc.symm.trans hc')
    omega

theorem Store.Bars.unserved {route : Route} (h : st.Bars d) : ¬st.Serves d route := by
  rintro ⟨c, x, status, hc, hx, hgen, hstatus, hopen⟩
  refine h.excludes hc hx hgen hstatus ?_
  obtain rfl | ⟨rfl, -⟩ := hopen <;> simp

/-- A request is admitted for a device that is served only. -/
theorem Admitted.serves {call : Call} (h : Admitted call st.cell)
    (hd : call.auth.device = some d) : st.Serves d call.route := by
  obtain ⟨c, hc, -⟩ := h.stored
  have hstanding := h.standing
  change checkState st (st.chain.getD .unset) call.auth call.route = .ok () at hstanding
  rw [show st.chain = some c from hc, Option.getD_some, checkState, hd] at hstanding
  obtain ⟨x, status, hx, hgen, hstatus, hopen⟩ := deviceState_ok hstanding
  exact ⟨c, x, status, hc, hx, hgen, hstatus, hopen⟩

/-- What is executed for a device is executed while it is served. -/
theorem Executed.serves {R : Relay} {call : Call} {b : Cell} (h : Executed R call st.cell b)
    (hroute : call.route ≠ .genesis) (hd : call.auth.device = some d) :
    st.Serves d call.route := by
  cases h with
  | begun hgenesis _ => exact absurd hgenesis hroute
  | repeated hgenesis _ => exact absurd hgenesis hroute
  | imported _ hadmin _ =>
      rw [Auth.requireAdmin, Check.failIf_ok, Auth.admin, hd] at hadmin
      cases hadmin
  | read _ hadm _ => exact hadm.serves hd
  | mutated _ hadm _ _ => exact hadm.serves hd

end Standing

/-! ## Along a run -/

section Runs

variable (X : Crypto) (cfg : RelayConfig) (es es' : List Event) (id : String)

/-- A device that is barred stays barred. -/
theorem bars_later {d : String} (hdel : (storeAfter X cfg (es ++ es') id).deletion = none)
    (h : (storeAfter X cfg es id).Bars d) : (storeAfter X cfg (es ++ es') id).Bars d := by
  obtain ⟨hbefore, hrenewal⟩ := store_renewal X cfg es es' id hdel
  obtain h | ⟨x, c, hx, hc, hlt⟩ := h
  · have hfront := (store_accrues X cfg es es' id hdel).versions
    have hv := store_versioned X cfg es id hbefore
    have hv' := store_versioned X cfg (es ++ es') id hdel
    obtain ⟨row, hrow, hstatus⟩ := Option.map_eq_some_iff.mp h
    obtain ⟨row', hrow', hreach⟩ := hv.became hv' hfront hrow
    refine .inl (Option.map_eq_some_iff.mpr ⟨row', hrow', ?_⟩)
    exact (Enlistment.Next.stays hreach).2.1 hstatus
  · obtain ⟨c', hc', hgen⟩ := hrenewal c hc
    obtain ⟨c'', hc'', hearlier⟩ := (store_earlier X cfg es es' id hdel).2 c hc
    obtain rfl := Option.some.inj (hc'.symm.trans hc'')
    obtain ⟨o, ho, hbody⟩ := object_eq_some.mp hx
    obtain ⟨o', ho', hbody'⟩ := hearlier.grows.body (by simp [Kind.removable]) ho hbody
    have hle : c.generation ≤ c'.generation := hgen.generation
    exact .inr ⟨x, c', object_eq_some.mpr ⟨o', ho', hbody'⟩, hc', by omega⟩

/-- A device is barred on a chain that is there. -/
theorem Store.Bars.chain {d : String} (hdel : (storeAfter X cfg es id).deletion = none)
    (h : (storeAfter X cfg es id).Bars d) : ∃ c, (storeAfter X cfg es id).chain = some c := by
  obtain h | ⟨x, c, -, hc, -⟩ := h
  · cases hc : (storeAfter X cfg es id).chain with
    | some c => exact ⟨c, rfl⟩
    | none =>
        have hbare := ((store_settled X cfg es id).bare hdel hc).registry d
        obtain ⟨row, hrow, -⟩ := Option.map_eq_some_iff.mp h
        rw [show (storeAfter X cfg es id).registry.find? d = none from hbare] at hrow
        cases hrow
  · exact ⟨c, hc⟩

end Runs

/-! ## What is let in -/

section Admission

variable {X : Crypto} {w : World} {q : Request} {o : Oracle} {call : Call}

theorem authenticated_standing {R : Relay} {st : Store} {barrier : Option Nat} {desk desk' : Desk}
    {chainId : String} {proposed : Option String} {t t' : Nat} {auth : Auth}
    (h : authenticate R st barrier desk q chainId proposed t t' = (.ok auth, desk')) :
    ∃ token, tokenCheck R st barrier q chainId proposed t = .ok token ∧
      auth = ⟨token, tokenDevice token⟩ ∧
      tokenStanding st (tokenDevice token) q.route = .ok () := by
  unfold authenticate at h
  split at h
  · cases h
  · rename_i token hcheck
    dsimp only at h
    split at h
    · cases h
    · split at h
      · cases h
      · rename_i hstanding
        split at h
        · cases h
        · exact ⟨token, hcheck, (Except.ok.inj (Prod.mk.inj h).1).symm, hstanding⟩

/-- A token for a chain that is proposed is the admin's. -/
theorem tokenCheck_admin {R : Relay} {st : Store} {barrier : Option Nat} {chainId : String}
    {proposed : Option String} {t : Nat} {token : Json}
    (h : tokenCheck R st barrier q chainId proposed t = .ok token) (hproposed : proposed.isSome) :
    tokenDevice token = none := by
  simp only [tokenCheck, Check.bind_ok, Check.failIf_ok] at h
  obtain ⟨token', -, _, -, _, -, _, -, _, hdevice, _, -, _, -, h⟩ := h
  obtain rfl : token' = token := by
    split at h
    · simp only [Check.bind_ok, Check.pure_ok] at h
      obtain ⟨_, -, _, -, h⟩ := h
      exact h.symm
    · exact Except.ok.inj h
  rw [hproposed, Bool.true_and] at hdevice
  exact Option.isNone_iff_eq_none.mp (by simpa using hdevice)

/-- Only the admin starts a chain or imports one. -/
theorem World.Admits.admin (h : w.Admits X q o call)
    (hroute : call.route = .genesis ∨ call.route = .importChain) : call.auth.device = none := by
  obtain ⟨proposed, desk, hchain, hauth⟩ := h.authentic
  have hq : call.route = q.route := (congrArg Call.route h.bodiless :)
  obtain ⟨token, hcheck, hauth, -⟩ := authenticated_standing hauth
  rw [hq] at hroute
  rw [requestChain, if_pos hroute] at hchain
  obtain ⟨v, -, hchain⟩ := Check.bind_ok.mp hchain
  have hproposed : proposed.isSome := by
    split at hchain
    · obtain ⟨_, -, hchain⟩ := Check.bind_ok.mp hchain
      rw [← (Prod.mk.inj (Except.ok.inj hchain)).2]
      rfl
    · cases hchain
  rw [hauth]
  exact tokenCheck_admin hcheck hproposed

end Admission

/-! ## Denial -/

/-- What was accepted so far, with the receipts. -/
def Task.accepted : Task → List Json × List Receipt
  | .items _ p | .itemAudit _ p _ _ => (p.accepted, p.receipts)
  | _ => ([], [])

/-- A task is not served: it is refused, or goes on with nothing more accepted.
An upload whose items were all tried is answered. -/
def Task.Denied (task task' : Task) : Prop :=
  (∃ e, task' = .done (.problem e)) ∨ (∃ call p, task = .items call p ∧ p.remaining = []) ∨
    task'.call?.isSome ∧ task'.accepted = task.accepted

/-- Neither served nor stored, but for evidence of a rejection. -/
structure World.Denies (w w' : World) (i : Nat) (chainId : String) (task : Task) : Prop where
  task : ∃ task', w'.tasks[i]? = some task' ∧ task.Denied task'
  stores : ∀ id, w'.store id = w.store id ∨
    id = chainId ∧ (w.store id).Rejects (w'.store id)

section Denials

variable {X : Crypto} {w w' : World} {i : Nat} {call : Call} {task task' : Task} {d : String}

/-- The turns that accept nothing. -/
def Turn.Keeps (p : Progress) (turn : Turn) : Prop :=
  match turn with
  | .next p' | .stop p' | .audit p' _ _ => p'.accepted = p.accepted ∧ p'.receipts = p.receipts
  | .fail _ => True

theorem World.Denies.setTask (hi : i < w.tasks.length) (hw : w'.tasks = w.tasks)
    (hs : ∀ id, w'.store id = w.store id ∨ id = call.chain ∧ (w.store id).Rejects (w'.store id))
    (h : task.Denied task') : w.Denies (w'.setTask i task') i call.chain task :=
  ⟨⟨task', by rw [World.setTask, hw, List.getElem?_set_self hi], h⟩, hs⟩

theorem World.Denies.commit {r : Store × Task} (hi : i < w.tasks.length)
    (hs : r.1 = w.store call.chain ∨ (w.store call.chain).Rejects r.1) (h : task.Denied r.2) :
    w.Denies (w.commit i call.chain r) i call.chain task := by
  refine .setTask hi rfl (fun id => ?_) h
  rw [World.store_setStore]
  split
  · rename_i hid
    subst hid
    exact hs.imp_right fun hr => ⟨rfl, hr⟩
  · exact .inl rfl

end Denials

namespace Sample

end Sample

end PallaSync
