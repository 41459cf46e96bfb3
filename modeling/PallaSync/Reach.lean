import PallaSync.Course
import PallaSync.Lib.Runs

/-!
# Runs of the relay

A run is any list of events from a relay that was just installed, so a
statement about `World.after` is one about every interleaving of requests,
maintenance and restarts. `store_invariant` is the induction behind the laws
of a chain's store, `store_keeps` the one behind what an earlier and a later
store of one run have in common; both ask for one commit only.
-/

namespace PallaSync

open Machine

/-! ## The tasks under way -/

/-- An upload whose batch passed its checks: the admin posts no event records. -/
structure Call.Batched (call : Call) : Prop where
  bound : call.Bound
  upload : call.route.isUpload = true
  posted : call.route = .recordsPost → call.auth.admin = false

/-- What a task will execute names its own chain. -/
def Task.Bound : Task → Prop
  | .start call value => ∀ v, value = .ok v → ({ call with value := v } : Call).Bound
  | .shape call => call.Bound ∧ call.route.isUpload = true
  | .items call _ => call.Batched
  | .itemAudit call _ _ _ => call.Batched
  | _ => True

/-- The tasks are about their chains, the disclosed limits are those of `cfg`. -/
structure World.Bounded (cfg : RelayConfig) (w : World) : Prop where
  limits : w.cfg.limits = cfg.limits
  tasks : ∀ t ∈ w.tasks, t.Bound

namespace World.Bounded

variable {X : Crypto} {cfg : RelayConfig} {w : World} {i : Nat} {t : Task}

theorem setTask (h : w.Bounded cfg) (ht : t.Bound) : (w.setTask i t).Bounded cfg := by
  refine ⟨h.limits, fun x hx => ?_⟩
  obtain hx | rfl := List.mem_or_eq_of_mem_set hx
  · exact h.tasks x hx
  · exact ht

theorem spawn (h : w.Bounded cfg) (ht : t.Bound) : (w.spawn t).Bounded cfg := by
  refine ⟨h.limits, fun x hx => ?_⟩
  obtain hx | hx := List.mem_append.mp hx
  · exact h.tasks x hx
  · exact List.mem_singleton.mp hx ▸ ht

theorem setStore (h : w.Bounded cfg) (id : String) (st : Store) :
    (w.setStore id st).Bounded cfg := ⟨h.limits, h.tasks⟩

theorem desk (h : w.Bounded cfg) (desk : Desk) : ({ w with desk } : World).Bounded cfg :=
  ⟨h.limits, h.tasks⟩

theorem commit {id : String} {r : Store × Task} (h : w.Bounded cfg) (ht : r.2.Bound) :
    (w.commit i id r).Bounded cfg :=
  (h.setStore id r.1).setTask ht

theorem mapStores {w' : World} {f : Nat → Store → Except ApiError Store} (h : w.Bounded cfg)
    (hm : w.mapStores f = .ok w') : w'.Bounded cfg := by
  obtain ⟨-, hc, ht⟩ := World.mapStores_ok hm ""
  exact ⟨hc ▸ h.limits, ht ▸ h.tasks⟩

end World.Bounded

theorem Turn.task_bound {call : Call} (h : call.Batched) (turn : Turn) :
    (turn.task call).Bound := by
  cases turn <;> first | exact h | exact trivial

/-- The call of an authenticated request, before its body is parsed. -/
def Request.call (q : Request) (id : String) (auth : Auth) : Call where
  route := q.route
  chain := id
  param := q.param
  query := q.query
  value := .null
  auth := auth

/-- An authenticated request is bound to the chain its body names. -/
theorem requestChain_bound {X : Crypto} {q : Request} {id : String} {proposed : Option String}
    (h : requestChain X q = .ok (id, proposed)) (auth : Auth) :
    (Task.start (q.call id auth) q.value).Bound := by
  intro v hv hroute
  unfold requestChain at h
  have hboot : q.route = .genesis ∨ q.route = .importChain := hroute
  rw [if_pos hboot, hv] at h
  obtain ⟨w, hw, h⟩ := Check.bind_ok.mp h
  obtain rfl := Except.ok.inj hw
  split at h
  · rename_i p hp
    obtain ⟨_, -, h⟩ := Check.bind_ok.mp h
    cases h
    exact ⟨p, hp, rfl⟩
  · cases h

/-! ## Steps -/

section Steps

variable {X : Crypto} {cfg : RelayConfig} {w : World}

theorem stepStart_bounded (h : w.Bounded cfg) {i : Nat} {call : Call}
    {value : Except ApiError Json} {o : Oracle} {faults : Faults}
    (ht : (Task.start call value).Bound) : (w.stepStart X i call value o faults).Bounded cfg := by
  unfold World.stepStart
  dsimp only
  split
  · exact h.setTask trivial
  · rename_i call' hstart
    obtain ⟨v, rfl, rfl⟩ := startCheck_ok hstart
    split
    · split
      · exact h.setTask trivial
      · rename_i hup _ _ _
        exact (h.desk _).setTask ⟨ht v rfl, hup⟩
    · split
      · exact h.setTask trivial
      · refine h.commit ?_
        unfold stepExecute
        split
        · exact trivial
        · split
          · split <;> exact trivial
          · split <;> exact trivial

theorem stepShape_bound {R : Relay} {call : Call} {st : Store} (h : call.Bound)
    (hup : call.route.isUpload = true) : (stepShape R call st).Bound := by
  unfold stepShape
  dsimp only
  split
  · exact trivial
  · rename_i records hready
    obtain ⟨_, hitems, -⟩ := Check.bind_ok.mp hready
    refine ⟨h, hup, fun hroute => ?_⟩
    simp only [uploadItems, hroute, reduceCtorEq, if_false, Check.bind_ok, Check.failIf_ok,
      beq_self_eq_true, Bool.true_and] at hitems
    obtain ⟨_, -, _, hadmin, -⟩ := hitems
    exact hadmin

theorem stepTask_bounded (h : w.Bounded cfg) {i : Nat} {o : Oracle} {faults : Faults} :
    (w.stepTask X i o faults).Bounded cfg := by
  have hmem : ∀ {t}, w.tasks[i]? = some t → t.Bound := fun ht =>
    h.tasks _ (List.mem_of_getElem? ht)
  unfold World.stepTask
  dsimp only
  split
  · rename_i call value ht
    exact stepStart_bounded h (hmem ht)
  · rename_i call ht
    exact h.setTask (stepShape_bound (hmem ht).1 (hmem ht).2)
  · rename_i call p ht
    split
    · exact h.setTask trivial
    · exact h.commit (Turn.task_bound (hmem ht) _)
  · rename_i call p r e ht
    exact h.commit (Turn.task_bound (hmem ht) _)
  · refine h.commit ?_
    unfold stepAudit
    split
    · exact trivial
    · split <;> exact trivial
  · rename_i after ht
    have he : (w.mapped fun _ st => st.erase).Bounded cfg := ⟨h.limits, h.tasks⟩
    unfold World.stepErase
    dsimp only
    split
    · exact he.setTask (by split <;> exact trivial)
    · exact he.setTask trivial
  · rename_i after ht
    unfold World.stepFinish
    dsimp only
    split
    · rename_i w' hw'
      exact (h.mapStores hw').setTask (by split <;> exact trivial)
    · exact h.setTask (by split <;> exact trivial)
  · unfold World.stepNotices
    split
    · rename_i w' hw'
      exact (h.mapStores hw').setTask trivial
    · exact h.setTask trivial
  · exact h
  · exact h

theorem stepEnrollment_bounded (h : w.Bounded cfg) {q : Request} {v : Json} {o : Oracle} :
    (w.stepEnrollment X q v o).Bounded cfg := by
  unfold World.stepEnrollment
  dsimp only
  split
  · exact (h.desk _).spawn trivial
  · split
    · exact (h.desk _).spawn trivial
    · exact ((h.desk _).setStore _ _).spawn trivial

theorem stepRequest_bounded (h : w.Bounded cfg) {q : Request} {o : Oracle} :
    (w.stepRequest X q o).Bounded cfg := by
  unfold World.stepRequest
  dsimp only
  split
  · split
    · exact h.spawn trivial
    · split
      · exact h.spawn trivial
      · exact stepEnrollment_bounded h
  · split
    · exact h.spawn trivial
    · rename_i id proposed hchain
      split
      · exact (h.desk _).spawn trivial
      · exact (h.desk _).spawn (requestChain_bound hchain _)

theorem step_bounded (h : w.Bounded cfg) (ev : Event) : (w.step X ev).Bounded cfg := by
  cases ev with
  | request q o => exact stepRequest_bounded h
  | resume i o faults => exact stepTask_bounded h
  | complete => exact h.spawn trivial
  | retention o =>
      show (w.stepRetention X o).Bounded cfg
      unfold World.stepRetention
      split
      · rename_i w' hw'
        exact h.mapStores hw'
      · exact h
  | restart settings t => exact ⟨h.limits, by simp [World.step, World.stepRestart, Task.Bound]⟩

/-- An executing call is about its chain. -/
theorem acting_bound (h : w.Bounded cfg) {ev : Event} {call : Call}
    (hact : w.acting ev = some call) : call.Bound := by
  cases ev with
  | resume i o faults =>
      simp only [World.acting] at hact
      split at hact
      · rename_i call' value ht
        obtain ⟨v, hv, rfl⟩ := Option.map_eq_some_iff.mp hact
        cases value with
        | ok x =>
            cases hv
            exact h.tasks _ (List.mem_of_getElem? ht) v rfl
        | error e => cases hv
      · rename_i call' p ht
        cases hact
        exact Call.Batched.bound (h.tasks (.items call p) (List.mem_of_getElem? ht))
      · cases hact
  | request q o | complete | retention o | restart settings t => cases hact

/-- The item of an upload belongs to a checked batch. -/
theorem uploading_batched (h : w.Bounded cfg) {ev : Event} {call : Call} {x : Nat × Json}
    (hup : w.uploading ev = some (call, x)) : call.Batched := by
  cases ev with
  | resume i o faults =>
      rw [World.uploading] at hup
      split at hup
      · rename_i call' p ht
        obtain ⟨y, -, hy⟩ := Option.map_eq_some_iff.mp hup
        cases hy
        exact h.tasks (.items call p) (List.mem_of_getElem? ht)
      · cases hup
  | request q o | complete | retention o | restart settings t => cases hup

end Steps

/-! ## Runs -/

/-- The relay after the events `es`, from its installation. -/
def World.after (X : Crypto) (cfg : RelayConfig) (es : List Event) : World :=
  run (World.step X) (.initial cfg) es

/-- The store of chain `id` after the events `es`. -/
abbrev storeAfter (X : Crypto) (cfg : RelayConfig) (es : List Event) (id : String) : Store :=
  (World.after X cfg es).store id

theorem initial_bounded (cfg : RelayConfig) : (World.initial cfg).Bounded cfg :=
  ⟨rfl, by simp [World.initial]⟩

theorem after_bounded (X : Crypto) (cfg : RelayConfig) (es : List Event) :
    (World.after X cfg es).Bounded cfg :=
  run_invariant (initial_bounded cfg) (fun _ ev h => step_bounded h ev) es

/-- A commit of chain `id` by a relay with the primitives `X` and the limits
of `cfg`. -/
structure CommitOn (X : Crypto) (cfg : RelayConfig) (id : String) (cause : Option Call)
    (st st' : Store) (R : Relay) : Prop where
  crypto : R.crypto = X
  limits : R.cfg.limits = cfg.limits
  commit : Commit R cause st st'
  bound : ∀ call, cause = some call → call.chain = id ∧ call.Bound

section Rules

variable {X : Crypto} {cfg : RelayConfig} {id : String}

/-- A step is a commit of the chain or leaves it alone. -/
theorem step_commitOn {w : World} (h : w.Bounded cfg) (ev : Event) (id : String) :
    (w.step X ev).store id = w.store id ∨
      ∃ R cause, CommitOn X cfg id cause (w.store id) ((w.step X ev).store id) R ∧
        ∀ call, cause = some call → w.acting ev = some call := by
  obtain he | ⟨cause, hc, hcause⟩ := step_commit X w ev id
  · exact .inl he
  · refine .inr ⟨_, cause, ⟨rfl, h.limits, hc, fun call hcall => ?_⟩,
      fun call hcall => (hcause call hcall).1⟩
    obtain ⟨hact, hid⟩ := hcause call hcall
    exact ⟨hid, acting_bound h hact⟩

/-- What every commit preserves holds of every reachable store. -/
theorem store_invariant {P : Store → Prop} (h0 : P .blank)
    (hstep : ∀ R cause st st', CommitOn X cfg id cause st st' R → P st → P st')
    (es : List Event) : P (storeAfter X cfg es id) := by
  refine (run_invariant (I := fun w : World => w.Bounded cfg ∧ P (w.store id))
    ⟨initial_bounded cfg, h0⟩ (fun w ev h => ⟨step_bounded h.1 ev, ?_⟩) es).2
  obtain he | ⟨R, cause, hc, -⟩ := step_commitOn (X := X) h.1 ev id
  · exact he ▸ h.2
  · exact hstep R cause _ _ hc h.2

/-- What an earlier and a later store of one run have in common. -/
theorem store_keeps {P : Store → Prop} {K : Store → Store → Prop} (h0 : P .blank)
    (hstep : ∀ R cause st st', CommitOn X cfg id cause st st' R → P st → P st')
    (hrefl : ∀ st, P st → K st st)
    (hkeep : ∀ R cause st t t', P st → P t → K st t → CommitOn X cfg id cause t t' R → K st t')
    (es es' : List Event) :
    K (storeAfter X cfg es id) (storeAfter X cfg (es ++ es') id) := by
  have hP : P (storeAfter X cfg es id) := store_invariant h0 hstep es
  unfold storeAfter World.after
  rw [run_append]
  refine run_keeps (I := fun w : World => w.Bounded cfg ∧ P (w.store id))
    (K := fun w w' : World => K (w.store id) (w'.store id)) ⟨after_bounded X cfg es, hP⟩
    (fun w ev h => ⟨step_bounded h.1 ev, ?_⟩) (fun w h => hrefl _ h.2)
    (fun w w' ev h h' hk => ?_) es'
  · obtain he | ⟨R, cause, hc, -⟩ := step_commitOn (X := X) h.1 ev id
    · exact he ▸ h.2
    · exact hstep R cause _ _ hc h.2
  · obtain he | ⟨R, cause, hc, -⟩ := step_commitOn (X := X) h'.1 ev id
    · exact he ▸ hk
    · exact hkeep R cause _ _ _ h.2 h'.2 hk hc

end Rules

/-! ## Ledgers along a run -/

section Ledgers

variable {X : Crypto} {R : Relay} {cfg : RelayConfig} {id : String} {a : Cell} {L L' : Ledger}
  {cause : Option Call}

/-- The moves of a chain that goes on. -/
def Move.passes (m : Move) : Prop := (∀ c, m ≠ .found c) ∧ ∀ d, m ≠ .evidence .delete d

theorem Move.passes_of_ordinary {m : Move} (h : m.ordinary = true) : m.passes := by
  refine ⟨fun c he => ?_, fun d he => ?_⟩
  · subst he
    cases h
  · subst he
    cases h

/-- Every passage is a list of moves. -/
theorem Passage.steps (h : Passage R cause a L') :
    ∃ ms, Steps R.crypto ms a.ledger L' ∧ ∀ m ∈ ms, m.passes := by
  have hord : ∀ {ms : List Move}, (∀ m ∈ ms, m.ordinary = true) → ∀ m ∈ ms, m.passes :=
    fun h m hm => Move.passes_of_ordinary (h m hm)
  cases h with
  | ordinary h =>
      obtain ⟨ms, hms, hs⟩ := h
      exact ⟨ms, hs, hord hms⟩
  | rotated _ _ h _ he =>
      subst he
      obtain ⟨ms, hms, hs⟩ := h
      refine ⟨_, hs.append (.single .setEpoch), fun m hm => ?_⟩
      obtain hm | hm := List.mem_append.mp hm
      · exact hord hms m hm
      · obtain rfl := List.mem_singleton.mp hm
        exact ⟨nofun, nofun⟩
  | pruned _ _ h he =>
      subst he
      refine ⟨_, h.first.steps.append h.second.steps, fun m hm => ?_⟩
      simp only [List.cons_append, List.nil_append, List.append_assoc, List.mem_cons,
        List.mem_append, List.mem_map, List.not_mem_nil, or_false] at hm
      obtain rfl | rfl | ⟨_, -, rfl⟩ | ⟨_, -, rfl⟩ | rfl := hm <;> exact ⟨nofun, nofun⟩
  | expired h =>
      refine ⟨_, h, fun m hm => ?_⟩
      obtain ⟨e, -, rfl⟩ := List.mem_map.mp hm
      exact ⟨nofun, nofun⟩
  | reseeded _ _ hp hfree h _ h' =>
      obtain ⟨ms, hms, hs⟩ := h
      obtain ⟨ms', hms', hs'⟩ := h'
      refine ⟨_, .cons (.reincarnate hp.chainId hfree) (hs.append (.cons .setEpoch hs')),
        fun m hm => ?_⟩
      simp only [List.mem_cons, List.mem_append] at hm
      obtain rfl | hm | rfl | hm := hm
      · exact ⟨nofun, nofun⟩
      · exact hord hms m hm
      · exact ⟨nofun, nofun⟩
      · exact hord hms' m hm

/-- The chain and its transparency chain keep their identifiers. -/
theorem Step.ids {m : Move} (h : Step X m L L') (hm : ∀ c, m ≠ .found c) :
    L'.chain.chainId = L.chain.chainId ∧ L'.chain.transparencyId = L.chain.transparencyId := by
  by_cases ho : m.ordinary = true
  · exact ⟨(h.sameTerms ho).chainId, (h.sameTerms ho).transparencyId⟩
  · cases h with
    | setEpoch => exact ⟨rfl, rfl⟩
    | prune _ _ _ _ hc => exact ⟨by rw [hc], by rw [hc]⟩
    | handoff _ he => exact ⟨by rw [he], by rw [he]⟩
    | expire _ _ _ hc => exact ⟨by rw [hc], by rw [hc]⟩
    | found _ _ => exact absurd rfl (hm _)
    | reincarnate hid _ => exact ⟨hid, rfl⟩
    | evidence hw => exact ⟨hw.sameTerms.chainId, hw.sameTerms.transparencyId⟩
    | log _ _ | enlist _ _ | partAgain | part _ | stage _ _ | revoke _ | activate _ =>
        exact absurd rfl ho

/-- Every passage keeps the agreement. -/
theorem Passage.settled (h : Passage R cause a L') (hs : Settled R.crypto id a.ledger) :
    Settled R.crypto id L' := by
  obtain ⟨ms, hsteps, hms⟩ := h.steps
  refine ⟨?_, hs.sound.steps hsteps⟩
  refine hsteps.preserves (P := fun M => M.chain.chainId = id) (fun m M M' hm hstep hM => ?_)
    hms hs.chainId
  exact (hstep.ids hm.1).1.trans hM

/-- The row a chain is founded with. -/
structure Founding (X : Crypto) (id : String) (c : Chain) : Prop where
  row : ∃ p e logId tid notice, { c with writable := true } = Chain.new X p e logId tid notice
  chainId : c.chainId = id

theorem Founding.settled {c : Chain} (h : Founding X id c) (hb : L.Bare) (hc : L.chain = c)
    (ho : Ordinary X L L') : Settled X id L' := by
  subst hc
  obtain ⟨p, e, logId, tid, notice, hrow⟩ := h.row
  refine ⟨ho.sameTerms.chainId.trans h.chainId, ?_⟩
  obtain ⟨ms, -, hs⟩ := ho
  exact (Sound.found hb hrow).steps hs

theorem blank_holds (P : Ledger → Prop) : Store.blank.Holds P := fun _ =>
  ⟨fun _ => rfl, fun _ => rfl, fun _ => rfl, fun _ => rfl, fun _ => rfl, fun _ => rfl⟩

theorem Store.Holds.ledger {P : Ledger → Prop} {st : Store} {c : Chain} (h : st.Holds P)
    (hdel : st.deletion = none) (hc : st.chain = some c) : P (st.ledger c) := by
  have h := h hdel
  rw [hc] at h
  exact h

theorem Store.Holds.bare {P : Ledger → Prop} {st : Store} (h : st.Holds P)
    (hdel : st.deletion = none) (hc : st.chain = none) : (st.ledger .unset).Bare := by
  have h := h hdel
  rw [hc] at h
  exact h

theorem Store.Holds.imp {P Q : Ledger → Prop} {st : Store} (h : st.Holds P)
    (hPQ : ∀ L, P L → Q L) : st.Holds Q := fun hdel => by
  have h := h hdel
  split at h
  · exact h
  · exact hPQ _ h

section Laws

variable {P : Ledger → Prop}
  (hfound : ∀ L L', Founding X id L.chain → L.Bare → Ordinary X L L' → P L')
  (hpass : ∀ R cause a L', R.crypto = X → R.cfg.limits = cfg.limits → Passage R cause a L' →
    Settled X id a.ledger → P a.ledger → P L')

include hfound hpass

/-- A law that foundings establish and passages preserve is kept by every
commit. -/
theorem CommitOn.holds {st st' : Store}
    (hc : CommitOn X cfg id cause st st' R) (hst : st.Holds fun L => Settled X id L ∧ P L) :
    st'.Holds fun L => Settled X id L ∧ P L := fun hdel => by
  obtain rfl := hc.crypto
  obtain ⟨hd, hcourse⟩ := hc.commit.course hdel hc.bound (hst.imp fun _ h => h.1)
  have hP := hst hd
  cases hcourse with
  | absent hnone hnone' hl =>
      rw [hnone] at hP
      rw [hnone', hl]
      exact hP
  | founded hnone hsome hrow hid ho =>
      rename_i c c' p e logId tid notice
      rw [hnone] at hP
      rw [hsome]
      have hb : (st.ledger c).Bare :=
        ⟨hP.objects, hP.registry, hP.log, hP.receipts, hP.transparency, hP.handoffs⟩
      have hf : Founding R.crypto id (st.ledger c).chain := ⟨⟨_, _, _, _, _, hrow⟩, hid⟩
      exact ⟨hf.settled hb rfl ho, hfound _ _ hf hb ho⟩
  | passed hsome hsome' h =>
      rw [hsome] at hP
      rw [hsome']
      exact ⟨h.settled hP.1, hpass R _ _ _ rfl hc.limits h hP.1 hP.2⟩

/-- Such a law holds of every undeleted chain at any time. -/
theorem ledger_invariant (es : List Event) :
    (storeAfter X cfg es id).Holds fun L => Settled X id L ∧ P L :=
  store_invariant (blank_holds _) (fun _ _ _ _ hc hst => hc.holds hfound hpass hst) es

end Laws

/-- The ledger of every undeleted chain agrees with itself at any time. -/
theorem store_settled (X : Crypto) (cfg : RelayConfig) (es : List Event) (id : String) :
    (storeAfter X cfg es id).Holds (Settled X id) :=
  (ledger_invariant (P := fun _ => True) (fun _ _ _ _ _ => trivial)
    (fun _ _ _ _ _ _ _ _ _ => trivial) es).imp fun _ h => h.1

/-- A chain that is there and not deleted later was there already undeleted,
and its ledgers are related by `K`. -/
def Store.Keeps (K : Ledger → Ledger → Prop) (st st' : Store) : Prop :=
  st'.deletion = none → st.deletion = none ∧
    ∀ c, st.chain = some c → ∃ c', st'.chain = some c' ∧ K (st.ledger c) (st'.ledger c')

/-- What passages preserve of an earlier ledger, a run preserves. -/
theorem ledger_keeps {K : Ledger → Ledger → Prop} (hrefl : ∀ L, Settled X id L → K L L)
    (hpass : ∀ R cause L a L', R.crypto = X → Settled X id L → Settled X id a.ledger →
      K L a.ledger → Passage R cause a L' → K L L') (es es' : List Event) :
    (storeAfter X cfg es id).Keeps K (storeAfter X cfg (es ++ es') id) := by
  refine store_keeps (P := Store.Holds (Settled X id)) (blank_holds _)
    (fun R cause st st' hc hP => ?_)
    (fun st hP hdel => ⟨hdel, fun c hc => ⟨c, hc, hrefl _ (hP.ledger hdel hc)⟩⟩)
    (fun R cause st t t' hst ht hk hc hdel => ?_) es es'
  · exact (hc.holds (P := fun _ => True) (fun _ _ _ _ _ => trivial)
      (fun _ _ _ _ _ _ _ _ _ => trivial) (hP.imp fun _ h => ⟨h, trivial⟩)).imp fun _ h => h.1
  · obtain rfl := hc.crypto
    obtain ⟨hd, hcourse⟩ := hc.commit.course hdel hc.bound ht
    obtain ⟨hd', hk⟩ := hk hd
    refine ⟨hd', fun c hsome => ?_⟩
    obtain ⟨c', hc', hK⟩ := hk c hsome
    have hL := hst.ledger hd' hsome
    have hM := ht.ledger hd hc'
    cases hcourse with
    | absent hnone _ _ => exact absurd (hc'.symm.trans hnone) (by simp)
    | founded hnone _ _ _ _ => exact absurd (hc'.symm.trans hnone) (by simp)
    | passed hthere hthere' h =>
        obtain rfl := Option.some.inj (hc'.symm.trans hthere)
        exact ⟨_, hthere', hpass R _ _ _ _ rfl hL hM hK h⟩

end Ledgers

end PallaSync
