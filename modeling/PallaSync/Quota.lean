import PallaSync.Replay

/-!
# The quota

The relay may be given a limit on the bytes a chain takes. Every transaction
that adds a counted row checks the limit after the last one it adds, so a
committed transaction leaves a chain within the limit, and one that would go
over it is refused and leaves nothing. Under a limit that the restarts do not
change this is a law of all reachable stores.
-/

namespace PallaSync

open Atomic Machine

/-! ## The limit -/

/-- The counted rows take at most `limit` bytes, if there is a limit. -/
def Store.Within (X : Crypto) (limit : Option Nat) (st : Store) : Prop :=
  ∀ most ∈ limit, st.used X ≤ most

/-- Within what the relay allows. -/
abbrev Relay.Fits (R : Relay) (st : Store) : Prop := st.Within R.crypto R.cfg.maxBytes

theorem quota_ok {R : Relay} {st : Store} {u : Unit} : st.quota R = .ok u ↔ R.Fits st := by
  unfold Store.quota Relay.Fits Store.Within
  cases R.cfg.maxBytes with
  | none => simp
  | some most => simp

theorem used_cleared_le (X : Crypto) (st : Store) : st.cleared.used X ≤ st.used X := by
  simp only [Store.used, Store.cleared, Store.sum, Table.empty, List.foldr_nil]
  omega

theorem Store.Within.blank (X : Crypto) (limit : Option Nat) : Store.blank.Within X limit :=
  fun _ _ => Nat.zero_le _

theorem Store.Within.erase {X : Crypto} {limit : Option Nat} {st : Store}
    (h : st.Within X limit) : st.erase.Within X limit := by
  unfold Store.erase
  split
  · exact fun most hmost => (used_cleared_le X st).trans (h most hmost)
  · exact h

/-- Completing a deletion writes no counted row. -/
theorem used_finish {X : Crypto} {t : Nat} {st st' : Store} (h : st.finish X t = .ok st') :
    st'.used X = st.used X := by
  unfold Store.finish at h
  split at h
  · rw [Except.ok.inj h]
  · rcases Check.ite_ok.mp h with ⟨-, h⟩ | ⟨-, h⟩
    · obtain ⟨proof, -, h⟩ := Check.bind_ok.mp h
      rw [Check.pure_ok.mp h]
      rfl
    · rw [Except.ok.inj h]

/-! ## Programs -/

/-- A program after which the limit holds. -/
abbrev Fitted (R : Relay) {α : Type} (m : Tx α) : Prop :=
  Ensures (fun w => R.Fits w.cell.store) m

/-- A step that does not go over the limit. -/
def spaceFrame (R : Relay) : Frame Work where
  rel w w' := R.Fits w.cell.store → R.Fits w'.cell.store
  refl _ h := h
  trans h h' hfits := h' (h hfits)

section Programs

variable {R : Relay} {α : Type}

theorem Fitted.keeps {m : Tx α} (h : Fitted R m) : Keeps (spaceFrame R) m :=
  fun w x w' hm _ => h w x w' hm

theorem quota_fitted : Fitted R (check fun st _ => st.quota R) := fun w u w' h => by
  obtain ⟨hq, rfl⟩ := check_ok.mp h
  exact quota_ok.mp hq

theorem save_fitted : Fitted R (save R) :=
  .last fun _ => .last fun _ => .last fun _ => .last fun _ => .last fun _ => quota_fitted

theorem cursor_fitted (p : Page) : Fitted R (cursor R p) :=
  .last fun _ => .last fun _ => .last fun _ => .answer quota_fitted

theorem spaceFrame_browsed (R : Relay) : Browsed R (spaceFrame R) where
  still _ _ h hfits := h ▸ hfits
  cursor p := (cursor_fitted p).keeps

theorem check_space (f : Store → Chain → Except ApiError α) :
    Keeps (spaceFrame R) (check f) := (spaceFrame_browsed R).check f

theorem genesis_space (v : Json) : Keeps (spaceFrame R) (genesis R v) := by
  refine .bind (.lift _) fun _ => .bind (.lift _) fun _ => .bind (.lift _) fun _ =>
    .bind (check_space _) fun before => ?_
  cases before with
  | some response => exact .pure _
  | none =>
      have hlast : ∀ response : Json, Fitted R (do save R; pure (201, response)) :=
        fun _ => .answer save_fitted
      exact Fitted.keeps (.last fun _ => .last fun _ => .last fun _ => .last fun _ =>
        .last fun _ => .last fun _ => .last fun _ => .last fun _ => .last fun _ =>
        .last fun _ => .last fun _ => .last fun _ => .last fun _ => .last fun _ => hlast _)

theorem stage_fitted (v : Json) : Fitted R (stage R v) := by
  refine .last fun _ => .last fun _ => .last fun _ => .last fun _ => .last fun _ =>
    .last fun _ => .last fun _ => .last fun _ => .last fun _ => .last fun current => ?_
  cases current with
  | some c => exact .answer quota_fitted
  | none => exact .last fun _ => .answer quota_fitted

theorem dispatch_space (call : Call) : Keeps (spaceFrame R) (dispatch R call) := by
  have hF := spaceFrame_browsed R
  refine .bind (.lift _) fun _ => .ite (.bind (hF.exportChain _ _) fun _ => .pure _)
    (.ite (.bind (hF.readRoute _) fun _ => .bind (.lift _) fun _ => .pure _) (Fitted.keeps ?_))
  exact .last fun r => .last fun _ => .last fun _ => .answer quota_fitted

theorem executeTx_space (call : Call) : Keeps (spaceFrame R) (executeTx R call) := by
  have hF := spaceFrame_browsed R
  unfold executeTx
  split
  · exact .bind (.lift _) fun _ => .bind (genesis_space _) fun _ => .pure _
  · exact .bind (.lift _) fun _ => .bind (.lift _) fun _ =>
      .bind (stage_fitted _).keeps fun _ => .pure _
  · exact .bind (hF.look _) fun _ => .bind (.require _ _) fun _ => .bind (.failIf _ _) fun _ =>
      .bind (hF.check _) fun _ => dispatch_space call

theorem uploadItem_fitted (call : Call) (index : Nat) (r : Json) :
    Fitted R (uploadItem R call index r) := by
  refine .last fun _ => .last fun _ => .last fun _ => .last fun _ => ?_
  split
  · exact .last fun _ => .answer save_fitted
  · exact .last fun _ => .answer save_fitted
  · exact .last fun _ => .answer save_fitted

theorem auditReject_fitted (objects : List Json) (code : Code) :
    Fitted R (auditReject R objects code) := .last fun _ => save_fitted

theorem enrollmentCandidate_fitted (q : Query) (v : Json) :
    Fitted R (enrollmentCandidate R q v) :=
  .last fun _ => .last fun _ => .last fun _ => .last fun _ => .last fun _ => .last fun _ =>
    .answer quota_fitted

end Programs

/-! ## Transactions -/

section Transactions

variable {R : Relay} {o : Oracle} {st : Store} {α : Type}

theorem Fitted.run {m : Tx α} (h : Fitted R m) {x : α} {b : Cell}
    (hrun : m.run o st = .ok (x, b)) : R.Fits b.store := by
  obtain ⟨w, w', -, hm, rfl⟩ := run_ok hrun
  exact h w x w' hm

theorem run_fits {m : Tx α} (h : Keeps (spaceFrame R) m) {x : α} {b : Cell}
    (hrun : m.run o st = .ok (x, b)) (hfits : R.Fits st) : R.Fits b.store := by
  obtain ⟨w, w', hw, hm, rfl⟩ := run_ok hrun
  exact h w x w' hm (by rw [hw]; exact hfits)

theorem noticeStore_fits {st' : Store} (h : World.noticeStore R o st = .ok st')
    (hfits : R.Fits st) : R.Fits st' := by
  unfold World.noticeStore at h
  split at h
  · obtain ⟨⟨u, b⟩, hrun, h⟩ := Check.bind_ok.mp h
    obtain rfl := Check.pure_ok.mp h
    exact Fitted.run (.last fun _ => save_fitted) hrun
  · exact Except.ok.inj h ▸ hfits

theorem expireStore_fits {t : Nat} {st' : Store} (h : World.expireStore R o t st = .ok st')
    (hfits : R.Fits st) : R.Fits st' := by
  unfold World.expireStore at h
  split at h
  · exact Except.ok.inj h ▸ hfits
  · split at h
    · exact Except.ok.inj h ▸ hfits
    · obtain ⟨⟨u, b⟩, hrun, h⟩ := Check.bind_ok.mp h
      obtain rfl := Check.pure_ok.mp h
      exact Fitted.run (.last fun _ => quota_fitted) hrun

theorem stepItemAudit_fits {faults : Faults} {call : Call} {p : Progress} {r : Json}
    {e : ApiError} (hfits : R.Fits st) :
    R.Fits (stepItemAudit R o faults call p r e st).1 := by
  unfold stepItemAudit
  split
  · exact hfits
  · split
    · exact hfits
    · split
      · exact hfits
      · rename_i u b hrun
        exact (auditReject_fitted _ _).run hrun

theorem stepAudit_fits {call : Call} {e : ApiError} (hfits : R.Fits st) :
    R.Fits (stepAudit R o call e st).1 := by
  unfold stepAudit
  split
  · exact hfits
  · split
    · exact hfits
    · rename_i u b hrun
      exact (auditReject_fitted _ _).run hrun

/-- No transaction goes over the limit. -/
theorem Txn.fits {X : Crypto} {w : World} {id : String} {ev : Event} {st' : Store}
    (h : Txn X w id ev st') (hfits : (w.relay X).Fits (w.store id)) : (w.relay X).Fits st' := by
  cases h with
  | kept => exact hfits
  | @executed i o o' faults call v _ _ =>
      obtain he | ⟨reply, b, -, hrun, he⟩ :=
        stepExecute_run (w.relay X) o' { call with value := v } (w.store id)
      · rw [he]
        exact hfits
      · rw [he]
        exact run_fits (executeTx_space _) hrun hfits
  | @item i o faults call p x rest _ _ _ =>
      obtain he | ⟨y, b, -, hrun, he⟩ :=
        stepItem_run (w.relay X) o faults call p x rest (w.store id)
      · rw [he]
        exact hfits
      · rw [he]
        exact (uploadItem_fitted _ _ _).run hrun
  | itemAudit _ _ => exact stepItemAudit_fits hfits
  | audit _ _ => exact stepAudit_fits hfits
  | erased _ => exact hfits.erase
  | finished _ h => exact fun most hmost => (used_finish h).le.trans (hfits most hmost)
  | notice _ h => exact noticeStore_fits h hfits
  | enrollment _ h => exact (enrollmentCandidate_fitted _ _).run h
  | expired h => exact expireStore_fits h hfits

end Transactions

/-! ## Runs -/

/-- A step after which the limit is `limit` still. -/
def Event.Limited (limit : Option Nat) (ev : Event) : Prop :=
  ∀ settings t, ev = .restart settings t → settings.maxBytes = limit

theorem step_limit {X : Crypto} {limit : Option Nat} {w : World} {ev : Event}
    (hev : ev.Limited limit) (hw : w.cfg.maxBytes = limit) :
    (w.step X ev).cfg.maxBytes = limit := by
  cases ev with
  | request q o => exact (congrArg RelayConfig.maxBytes (w.stepRequest_settled q o).2).trans hw
  | resume i o faults =>
      exact (congrArg RelayConfig.maxBytes (w.stepTask_shares i o faults).cfg).trans hw
  | complete => exact hw
  | retention o => exact (congrArg RelayConfig.maxBytes (w.stepRetention_shares o).cfg).trans hw
  | restart settings t => exact hev settings t rfl

/-- A limit that no restart changes is the limit, and every chain keeps to it. -/
theorem after_within (X : Crypto) (cfg : RelayConfig) {es : List Event}
    (hes : ∀ ev ∈ es, ev.Limited cfg.maxBytes) :
    (World.after X cfg es).cfg.maxBytes = cfg.maxBytes ∧
      ∀ id, (storeAfter X cfg es id).Within X cfg.maxBytes := by
  induction es using List.reverseRecOn with
  | nil => exact ⟨rfl, fun id => .blank X _⟩
  | append_singleton es ev ih =>
      obtain ⟨hlimit, hwithin⟩ := ih fun e he => hes e (List.mem_append_left _ he)
      have hev := hes ev (List.mem_append_right _ (List.mem_singleton_self ev))
      have hafter : World.after X cfg (es ++ [ev]) = (World.after X cfg es).step X ev :=
        run_snoc _ _ _
      refine ⟨by rw [hafter]; exact step_limit hev hlimit, fun id => ?_⟩
      have hfits : ((World.after X cfg es).relay X).Fits (storeAfter X cfg es id) := by
        show (storeAfter X cfg es id).Within X (World.after X cfg es).cfg.maxBytes
        rw [hlimit]
        exact hwithin id
      have hstep := (step_txn X (World.after X cfg es) ev id).fits hfits
      rw [storeAfter, hafter, ← hlimit]
      exact hstep

/-! ## Refused transactions -/

/-- The transaction the event runs ends with the error `e`. -/
inductive World.Refuses (X : Crypto) (w : World) : Event → ApiError → Prop where
  | executed {i o faults call v e} : w.tasks[i]? = some (.start call (.ok v)) →
      (executeTx (w.relay X) { call with value := v }).run (o.sub 2) (w.store call.chain) =
        .error e →
      w.Refuses X (.resume i o faults) e
  | item {i o faults call p x rest e} : w.tasks[i]? = some (.items call p) →
      p.remaining = x :: rest →
      (uploadItem (w.relay X) call x.1 x.2).run o (w.store call.chain) = .error e →
      w.Refuses X (.resume i o faults) e
  | itemAudit {i o faults call p r e' e} : w.tasks[i]? = some (.itemAudit call p r e') →
      (auditReject (w.relay X) [r] e'.code).run o (w.store call.chain) = .error e →
      w.Refuses X (.resume i o faults) e
  | audit {i o faults call e' e} : w.tasks[i]? = some (.audit call e') →
      (auditReject (w.relay X) (candidates X call.value) e'.code).run o (w.store call.chain) =
        .error e →
      w.Refuses X (.resume i o faults) e
  | notice {i o faults e} : w.tasks[i]? = some .notices →
      (w.mapStores fun k st => World.noticeStore (w.relay X) (o.sub k) st) = .error e →
      w.Refuses X (.resume i o faults) e
  | finish {i o faults after e} : w.tasks[i]? = some (.finish after) →
      (w.mapStores fun k st => st.finish X (o.now k)) = .error e →
      w.Refuses X (.resume i o faults) e
  | enrollment {q o v e} : q.route = .request → q.value = .ok v →
      (enrollmentCandidate (w.relay X) q.query v).run (o.sub 3) (w.store q.chain) = .error e →
      w.Refuses X (.request q o) e
  | expiry {o e} : (w.mapStores fun k st =>
        World.expireStore (w.relay X) (o.sub (k + 1)) (o.now 0) st) = .error e →
      w.Refuses X (.retention o) e

/-- The tasks that go on to write evidence of a rejection. -/
def Task.audits : Task → Bool
  | .audit _ _ | .itemAudit _ _ _ _ => true
  | _ => false

section Refusals

variable {X : Crypto} {w : World} {ev : Event} {e : ApiError}

theorem stepExecute_error {R : Relay} {o : Oracle} {call : Call} {st : Store}
    (h : (executeTx R call).run o st = .error e) : (stepExecute R o call st).1 = st := by
  unfold stepExecute
  split
  · rfl
  · rw [h]

theorem stepItem_error {R : Relay} {o : Oracle} {faults : Faults} {call : Call} {p : Progress}
    {x : Nat × Json} {rest : List (Nat × Json)} {st : Store}
    (h : (uploadItem R call x.1 x.2).run o st = .error e) :
    (stepItem R o faults call p x rest st).1 = st := by
  unfold stepItem
  split
  · rfl
  · split
    · rfl
    · split
      · rfl
      · rw [h]

/-- A chain stays as it was when its store is written back. -/
theorem World.store_commit_same {i : Nat} {id : String} {r : Store × Task}
    (h : r.1 = w.store id) (id' : String) : (w.commit i id r).store id' = w.store id' := by
  rw [store_commit]
  split
  · rename_i hid
    rw [hid, h]
  · rfl

/-- A refused transaction leaves every chain as it was. -/
theorem World.Refuses.store (h : w.Refuses X ev e) (id : String) :
    (w.step X ev).store id = w.store id := by
  cases h with
  | @executed i o faults call v e ht hrun =>
      show (w.stepTask X i o faults).store id = w.store id
      simp only [World.stepTask, ht, World.stepStart]
      split
      · rfl
      · rename_i call' hstart
        obtain ⟨v', hv, rfl⟩ := startCheck_ok hstart
        obtain rfl := Except.ok.inj hv
        split
        · split <;> rfl
        · split
          · rfl
          · exact World.store_commit_same (stepExecute_error hrun) id
  | @item i o faults call p x rest e ht hrem hrun =>
      show (w.stepTask X i o faults).store id = w.store id
      simp only [World.stepTask, ht, hrem]
      exact World.store_commit_same (stepItem_error hrun) id
  | @itemAudit i o faults call p r e' e ht hrun =>
      show (w.stepTask X i o faults).store id = w.store id
      simp only [World.stepTask, ht]
      refine World.store_commit_same ?_ id
      unfold stepItemAudit
      split
      · rfl
      · split
        · rfl
        · rw [hrun]
  | @audit i o faults call e' e ht hrun =>
      show (w.stepTask X i o faults).store id = w.store id
      simp only [World.stepTask, ht]
      refine World.store_commit_same ?_ id
      unfold stepAudit
      split
      · rfl
      · rw [show (World.relay X w).crypto = X from rfl, hrun]
  | @notice i o faults e ht hmap =>
      show (w.stepTask X i o faults).store id = w.store id
      simp only [World.stepTask, ht, World.stepNotices, hmap]
      rfl
  | @finish i o faults after e ht hmap =>
      show (w.stepTask X i o faults).store id = w.store id
      simp only [World.stepTask, ht, World.stepFinish, hmap]
      rfl
  | @enrollment q o v e hroute hv hrun =>
      show (w.stepRequest X q o).store id = w.store id
      simp only [World.stepRequest, if_pos hroute, hv]
      split
      · rfl
      · unfold World.stepEnrollment
        dsimp only
        split
        · rfl
        · rename_i u rates hrates
          have hrun' : (enrollmentCandidate (w.relay X) q.query v).run (o.sub 3)
              (({ w with desk := { w.desk with rates } } : World).store q.chain) = .error e := hrun
          rw [hrun']
          rfl
  | expiry hmap =>
      show (w.stepRetention X _).store id = w.store id
      simp only [World.stepRetention, hmap]

theorem World.task_of_set {w : World} {i : Nat} {task t : Task}
    (h : (w.setTask i task).tasks[i]? = some t) : t = task := by
  rw [World.setTask, List.getElem?_set, if_pos rfl] at h
  split at h
  · exact (Option.some.inj h).symm
  · cases h

theorem Progress.broken_audits (p : Progress) (id : String) (e : ApiError)
    (rs : List (Nat × Json)) (call : Call) : ((p.broken id e rs).task call).audits = false := by
  unfold Progress.broken
  split <;> rfl

theorem afterRejection_audits (route : Route) (p : Progress) (item : Nat × Json)
    (rest : List (Nat × Json)) (faults : Faults) (call : Call) (he : e.code = .quotaExceeded) :
    ((afterRejection X route p item rest faults e).task call).audits = false := by
  unfold afterRejection
  split
  · exact Progress.broken_audits _ _ _ _ _
  · split
    · rfl
    · have hsilent : unaudited.contains e.code = true := by
        rw [he]
        rfl
      rw [hsilent]
      rfl

theorem afterAudit_audits (route : Route) (p : Progress) (r : Json)
    (outcome : Except ApiError Chain) (call : Call) :
    ((afterAudit route p r outcome).task call).audits = false := by
  unfold afterAudit
  split
  · rfl
  · split <;> rfl

theorem stepItemAudit_audits (R : Relay) (o : Oracle) (faults : Faults) (call : Call)
    (p : Progress) (r : Json) (e : ApiError) (st : Store) :
    ((stepItemAudit R o faults call p r e st).2.task call).audits = false := by
  unfold stepItemAudit
  split
  · dsimp only
    exact afterAudit_audits _ _ _ _ _
  · split
    · dsimp only
      exact afterAudit_audits _ _ _ _ _
    · split
      · dsimp only
        exact afterAudit_audits _ _ _ _ _
      · dsimp only
        exact afterAudit_audits _ _ _ _ _

theorem stepExecute_audits {R : Relay} {o : Oracle} {call : Call} {st : Store}
    (h : (executeTx R call).run o st = .error e) (he : e.code = .quotaExceeded) :
    (stepExecute R o call st).2.audits = false := by
  unfold stepExecute
  split
  · rfl
  · have hsilent : silent.contains e.code = true := by
      rw [he]
      rfl
    rw [h]
    dsimp only
    rw [if_pos (.inl hsilent)]
    rfl

theorem stepItem_audits {R : Relay} {o : Oracle} {faults : Faults} {call : Call}
    {p : Progress} {x : Nat × Json} {rest : List (Nat × Json)} {st : Store}
    (h : (uploadItem R call x.1 x.2).run o st = .error e) (he : e.code = .quotaExceeded) :
    ((stepItem R o faults call p x rest st).2.task call).audits = false := by
  unfold stepItem
  split
  · exact Progress.broken_audits _ _ _ _ _
  · split
    · exact Progress.broken_audits _ _ _ _ _
    · split
      · exact Progress.broken_audits _ _ _ _ _
      · rw [h]
        exact afterRejection_audits _ _ _ _ _ _ he

/-- Space that ran out is not evidence: nothing is written about it. -/
theorem World.Refuses.unaudited {i : Nat} {o : Oracle} {faults : Faults}
    (h : w.Refuses X (.resume i o faults) e) (he : e.code = .quotaExceeded) {t : Task}
    (ht : (w.step X (.resume i o faults)).tasks[i]? = some t) : t.audits = false := by
  replace ht : (w.stepTask X i o faults).tasks[i]? = some t := ht
  cases h with
  | executed hi hrun =>
      simp only [World.stepTask, hi, World.stepStart] at ht
      split at ht
      · rw [World.task_of_set ht]
        rfl
      · rename_i call' hstart
        obtain ⟨v', hv, rfl⟩ := startCheck_ok hstart
        obtain rfl := Except.ok.inj hv
        split at ht
        · split at ht
          · rw [World.task_of_set ht]
            rfl
          · rw [World.task_of_set ht]
            rfl
        · split at ht
          · rw [World.task_of_set ht]
            rfl
          · rw [World.task_of_set ht]
            exact stepExecute_audits hrun he
  | item hi hrem hrun =>
      simp only [World.stepTask, hi, hrem] at ht
      rw [World.task_of_set ht]
      exact stepItem_audits hrun he
  | itemAudit hi _ =>
      simp only [World.stepTask, hi] at ht
      rw [World.task_of_set ht]
      exact stepItemAudit_audits _ _ _ _ _ _ _ _
  | audit hi _ =>
      simp only [World.stepTask, hi] at ht
      rw [World.task_of_set ht]
      unfold stepAudit
      split
      · rfl
      · split <;> rfl
  | notice hi hmap =>
      simp only [World.stepTask, hi, World.stepNotices, hmap] at ht
      rw [World.task_of_set ht]
      rfl
  | finish hi hmap =>
      simp only [World.stepTask, hi, World.stepFinish, hmap] at ht
      rw [World.task_of_set ht]
      split <;> rfl

/-- The enrollment endpoint counts a request whatever becomes of it. -/
theorem enrollment_counted {q : Request} {o : Oracle} {v : Json} (hroute : q.route = .request)
    (hv : q.value = .ok v) (hguard : w.cfg.writeGuard (o.now 0) = .ok ()) :
    (w.step X (.request q o)).desk.rates =
      (enrollmentRates (w.relay X) w.desk.rates q v (o.now 1) (o.now 2)).2 := by
  have hguard' : (World.relay X w).cfg.writeGuard (o.now 0) = .ok () := hguard
  show (w.stepRequest X q o).desk.rates = _
  simp only [World.stepRequest, if_pos hroute, hv, hguard']
  unfold World.stepEnrollment
  dsimp only
  split
  · rename_i hrates
    rw [hrates]
    rfl
  · rename_i hrates
    rw [hrates]
    split <;> rfl

end Refusals

/-! ## The quota -/

/-- Under a limit that no restart changes, every chain is within it after
every run; a transaction that is refused leaves every chain as it was, no
evidence of a refusal for want of space is written, and the rates of the
enrollment endpoint count its refused requests too. -/
theorem quota_kept (X : Crypto) (cfg : RelayConfig) {es : List Event}
    (hes : ∀ ev ∈ es, ev.Limited cfg.maxBytes) :
    (∀ id, ∀ most ∈ cfg.maxBytes, (storeAfter X cfg es id).used X ≤ most) ∧
    (∀ ev e, (World.after X cfg es).Refuses X ev e → ∀ id,
      storeAfter X cfg (es ++ [ev]) id = storeAfter X cfg es id) ∧
    (∀ i o faults e, (World.after X cfg es).Refuses X (.resume i o faults) e →
      e.code = .quotaExceeded → ∀ t,
      (World.after X cfg (es ++ [.resume i o faults])).tasks[i]? = some t → t.audits = false) ∧
    ∀ q o v, q.route = .request → q.value = .ok v →
      (World.after X cfg es).cfg.writeGuard (o.now 0) = .ok () →
      (World.after X cfg (es ++ [.request q o])).desk.rates =
        (enrollmentRates ((World.after X cfg es).relay X) (World.after X cfg es).desk.rates q v
          (o.now 1) (o.now 2)).2 := by
  have hafter : ∀ ev, World.after X cfg (es ++ [ev]) = (World.after X cfg es).step X ev :=
    fun _ => run_snoc _ _ _
  refine ⟨(after_within X cfg hes).2, fun ev e h id => ?_, fun i o faults e h he t ht => ?_,
    fun q o v hroute hv hguard => ?_⟩
  · rw [storeAfter, hafter]
    exact h.store id
  · rw [hafter] at ht
    exact h.unaudited he ht
  · rw [hafter]
    exact enrollment_counted hroute hv hguard

namespace Sample

/-- Room for a genesis, and not for a rotation. -/
def narrowCfg : RelayConfig := { cfg with maxBytes := some 500 }

/-- A restart under the same limit lies between the two. -/
def narrowRun : List Event :=
  genesisRun ++ .restart ⟨some 500, none, none, false⟩ 1600 :: rotationRun

theorem quota_kept_narrow :
    (∀ id, (storeAfter crypto narrowCfg narrowRun id).used crypto ≤ 500) ∧
      0 < (storeAfter crypto narrowCfg narrowRun chainId).used crypto := by
  refine ⟨fun id => (quota_kept crypto narrowCfg fun ev hev settings t he => ?_).1 id 500 rfl,
    by decide +kernel⟩
  subst he
  simp only [narrowRun, genesisRun, rotationRun, perform, List.cons_append, List.nil_append,
    List.mem_cons, List.not_mem_nil, or_false, reduceCtorEq, Event.restart.injEq,
    false_or] at hev
  obtain ⟨rfl, -⟩ := hev
  rfl

end Sample

end PallaSync
