import PallaSync.Sample

/-!
# The line of epochs

The epochs of a chain follow one another on a single hash-linked line,
whatever requests compete for the next place: `epoch_line` says so of every
step of every run, and that the same place is taken twice only where the
relay's hash collides.
-/

namespace PallaSync

/-! ## One step of the line -/

/-- The terms of the chain after a step that executed `cause`. -/
inductive LineStep (X : Crypto) (cause : Option Call) (c c' : Chain) : Prop where
  | same : c'.epoch = c.epoch → c'.parameters = c.parameters → LineStep X cause c c'
  | rotated {call} : cause = some call → call.route = .epochsPost ∨ call.route = .revoke →
      c'.parameters = c.parameters → c'.epoch = call.value.get "epoch" → Succeeds X c c'.epoch →
      LineStep X cause c c'
  | reseeded {call} : cause = some call → call.route = .reseed → Renews X c c'.parameters →
      c'.epoch = call.value.get "epoch" → Succeeds X c c'.epoch → LineStep X cause c c'

/-- The moves that may change the epoch or the parameters. -/
def Move.renews : Move → Bool
  | .setEpoch _ | .found _ | .reincarnate .. => true
  | _ => false

theorem Step.terms {X : Crypto} {m : Move} {L L' : Ledger} (h : Step X m L L')
    (hm : m.renews = false) :
    L'.chain.epoch = L.chain.epoch ∧ L'.chain.parameters = L.chain.parameters := by
  by_cases ho : m.ordinary = true
  · exact ⟨(h.sameTerms ho).epoch, (h.sameTerms ho).parameters⟩
  · cases h with
    | prune _ _ _ _ hc => exact ⟨by rw [hc], by rw [hc]⟩
    | handoff _ he => exact ⟨by rw [he], by rw [he]⟩
    | expire _ _ _ hc => exact ⟨by rw [hc], by rw [hc]⟩
    | setEpoch | found _ _ | reincarnate _ _ => cases hm
    | evidence hw => exact ⟨hw.sameTerms.epoch, hw.sameTerms.parameters⟩
    | log _ _ | enlist _ _ | partAgain | part _ | stage _ _ | revoke _ | activate _ =>
        exact absurd rfl ho

theorem Steps.terms {X : Crypto} {ms : List Move} {L L' : Ledger} (h : Steps X ms L L')
    (hms : ∀ m ∈ ms, m.renews = false) :
    L'.chain.epoch = L.chain.epoch ∧ L'.chain.parameters = L.chain.parameters :=
  h.preserves (P := fun M => M.chain.epoch = L.chain.epoch ∧
      M.chain.parameters = L.chain.parameters)
    (fun _ _ _ hm hs hM => ⟨(hs.terms hm).1.trans hM.1, (hs.terms hm).2.trans hM.2⟩) hms
    ⟨rfl, rfl⟩

/-- A prune changes neither the epoch nor the parameters. -/
theorem Pruned.terms {R : Relay} {v comp : Json} {rows : List HandoffRow} {expired : List Nat}
    {a mid b : Cell} (h : Pruned R v comp rows expired a mid b) :
    b.chain.epoch = a.chain.epoch ∧ b.chain.parameters = a.chain.parameters := by
  refine (h.first.steps.append h.second.steps).terms fun m hm => ?_
  simp only [List.cons_append, List.nil_append, List.append_assoc, List.mem_cons,
    List.mem_append, List.mem_map, List.not_mem_nil, or_false] at hm
  obtain rfl | rfl | ⟨_, -, rfl⟩ | ⟨_, -, rfl⟩ | rfl := hm <;> rfl

theorem Passage.lineStep {R : Relay} {cause : Option Call} {a : Cell} {L' : Ledger}
    (h : Passage R cause a L') : LineStep R.crypto cause a.chain L'.chain := by
  cases h with
  | ordinary h => exact .same h.sameTerms.epoch h.sameTerms.parameters
  | rotated hcause hroute h hs he =>
      subst he
      exact .rotated hcause hroute h.sameTerms.parameters rfl hs
  | pruned _ _ h he =>
      subst he
      exact .same h.terms.1 h.terms.2
  | expired h =>
      have hc : L'.chain = a.chain := h.expire_chain
      exact .same (by rw [hc]) (by rw [hc])
  | reseeded hcause hroute hp _ h hs h' =>
      have hparams : L'.chain.parameters = _ := h'.sameTerms.parameters.trans h.sameTerms.parameters
      have hepoch : L'.chain.epoch = _ := h'.sameTerms.epoch
      refine .reseeded hcause hroute ?_ hepoch (hepoch ▸ hs)
      rw [hparams]
      exact hp

/-- The number of the epoch grows by one where the epoch changes. -/
theorem LineStep.number {X : Crypto} {cause : Option Call} {c c' : Chain}
    (h : LineStep X cause c c') :
    c'.epoch = c.epoch ∨ n c'.epoch "epoch" = n c.epoch "epoch" + 1 := by
  cases h with
  | same he _ => exact .inl he
  | rotated _ _ _ _ hs => exact .inr hs.number
  | reseeded _ _ _ _ hs => exact .inr hs.number

theorem LineStep.number_le {X : Crypto} {cause : Option Call} {c c' : Chain}
    (h : LineStep X cause c c') : n c.epoch "epoch" ≤ n c'.epoch "epoch" := by
  obtain he | he := h.number
  · rw [he]
  · omega

/-! ## Runs -/

/-- The epoch number does not go back in a run. -/
theorem store_number_le (X : Crypto) (cfg : RelayConfig) (es es' : List Event) (id : String) :
    (storeAfter X cfg es id).Keeps
      (fun L L' => n L.chain.epoch "epoch" ≤ n L'.chain.epoch "epoch")
      (storeAfter X cfg (es ++ es') id) :=
  ledger_keeps (K := fun L L' => n L.chain.epoch "epoch" ≤ n L'.chain.epoch "epoch")
    (fun _ _ => Nat.le_refl _)
    (fun _ _ _ _ _ _ _ _ hK hp => Nat.le_trans hK hp.lineStep.number_le) es es'

/-- A step after `es` replaces the epoch of the row `c` by `e`. -/
structure Commits (X : Crypto) (cfg : RelayConfig) (id : String) (es : List Event) (ev : Event)
    (c : Chain) (e : Json) : Prop where
  kept : (storeAfter X cfg (es ++ [ev]) id).deletion = none
  before : (storeAfter X cfg es id).chain = some c
  after : ∃ c', (storeAfter X cfg (es ++ [ev]) id).chain = some c' ∧ c'.epoch = e
  changes : e ≠ c.epoch

section Line

variable {X : Crypto} {cfg : RelayConfig} {id : String} {es es' : List Event} {ev ev' : Event}
  {c c' : Chain} {e e' : Json}

theorem step_lineStep (hdel : (storeAfter X cfg (es ++ [ev]) id).deletion = none)
    (hc : (storeAfter X cfg es id).chain = some c)
    (hc' : (storeAfter X cfg (es ++ [ev]) id).chain = some c') :
    LineStep X ((World.after X cfg es).acting ev) c c' := by
  have hstep : storeAfter X cfg (es ++ [ev]) id = ((World.after X cfg es).step X ev).store id := by
    rw [storeAfter, World.after, Machine.run_snoc]
    rfl
  rw [hstep] at hdel hc'
  obtain he | ⟨R, cause, hcom, hact⟩ :=
    step_commitOn (X := X) (after_bounded X cfg es) ev id
  · rw [he] at hc'
    obtain rfl := Option.some.inj (hc.symm.trans hc')
    exact .same rfl rfl
  · obtain rfl := hcom.crypto
    obtain ⟨-, hcourse⟩ := hcom.commit.course hdel hcom.bound (store_settled _ cfg es id)
    cases hcourse with
    | absent hnone _ _ => exact absurd (hc.symm.trans hnone) (by simp)
    | founded hnone _ _ _ _ => exact absurd (hc.symm.trans hnone) (by simp)
    | passed hsome hsome' h =>
        obtain rfl := Option.some.inj (hsome.symm.trans hc)
        obtain rfl := Option.some.inj (hsome'.symm.trans hc')
        cases h.lineStep with
        | same he hp => exact .same he hp
        | rotated hcause hroute hp he hs => exact .rotated (hact _ hcause) hroute hp he hs
        | reseeded hcause hroute hp he hs => exact .reseeded (hact _ hcause) hroute hp he hs

theorem Commits.succeeds (h : Commits X cfg id es ev c e) : Succeeds X c e := by
  obtain ⟨c', hc', rfl⟩ := h.after
  cases step_lineStep h.kept h.before hc' with
  | same he _ => exact absurd he h.changes
  | rotated _ _ _ _ hs => exact hs
  | reseeded _ _ _ _ hs => exact hs

/-- A later commit finds a later epoch. -/
theorem Commits.later (h : Commits X cfg id es ev c e)
    (h' : Commits X cfg id (es ++ ev :: es') ev' c' e') :
    n c.epoch "epoch" < n c'.epoch "epoch" := by
  obtain ⟨d, hd, rfl⟩ := h.after
  have hsplit : es ++ ev :: es' = (es ++ [ev]) ++ es' := by simp
  have hundeleted : (storeAfter X cfg ((es ++ [ev]) ++ es') id).deletion = none :=
    hsplit ▸ (store_number_le X cfg (es ++ ev :: es') [ev'] id h'.kept).1
  obtain ⟨-, hkeeps⟩ := store_number_le X cfg (es ++ [ev]) es' id hundeleted
  obtain ⟨d', hd', hle⟩ := hkeeps d hd
  rw [← hsplit] at hd'
  obtain rfl := Option.some.inj (hd'.symm.trans h'.before)
  have hnumber := h.succeeds.number
  have hle : n d.epoch "epoch" ≤ n d'.epoch "epoch" := hle
  omega

end Line

/-- In every run, every step keeps the epoch and the parameters of a chain or
takes them one place further on their line, by the request it executes; and
two commits that name the same predecessor are commits on two epochs of the
chain with the same hash. -/
theorem epoch_line (X : Crypto) (cfg : RelayConfig) (id : String) :
    (∀ es ev c c', (storeAfter X cfg (es ++ [ev]) id).deletion = none →
      (storeAfter X cfg es id).chain = some c →
      (storeAfter X cfg (es ++ [ev]) id).chain = some c' →
      LineStep X ((World.after X cfg es).acting ev) c c') ∧
    ∀ es ev es' ev' c e c' e', Commits X cfg id es ev c e →
      Commits X cfg id (es ++ ev :: es') ev' c' e' →
      s e "previous_epoch_hash" = s e' "previous_epoch_hash" →
      c.epoch ≠ c'.epoch ∧ X.objectHash c.epoch = X.objectHash c'.epoch := by
  refine ⟨fun es ev c c' hdel hc hc' => step_lineStep hdel hc hc',
    fun es ev es' ev' c e c' e' h h' hprev => ⟨fun he => ?_, ?_⟩⟩
  · have hlt := h.later h'
    rw [he] at hlt
    exact lt_irrefl _ hlt
  · exact h.succeeds.previous.symm.trans (hprev.trans h'.succeeds.previous)

section Samples

open Sample

/-- The last step of a rotation, on the chain of `genesisRun`. -/
def rotationArrived : List Event := genesisRun ++ rotationRun.dropLast

def rotationCommit : Event := .resume 1 (oracle 1500 3) .none

/-- The rotation takes the chain one place further. -/
theorem epoch_line_rotation : ∃ c c',
    (storeAfter crypto cfg rotationArrived chainId).chain = some c ∧
      (storeAfter crypto cfg (rotationArrived ++ [rotationCommit]) chainId).chain = some c' ∧
      c'.epoch = epoch1 ∧
      LineStep crypto ((World.after crypto cfg rotationArrived).acting rotationCommit) c c' := by
  have hbefore : (storeAfter crypto cfg rotationArrived chainId).chain.isSome = true := by
    decide +kernel
  have hafter : (storeAfter crypto cfg (rotationArrived ++ [rotationCommit])
        chainId).deletion.isNone = true ∧
      (storeAfter crypto cfg (rotationArrived ++ [rotationCommit]) chainId).chain.map
        (·.epoch) = some epoch1 := by
    decide +kernel
  obtain ⟨c, hc⟩ := Option.isSome_iff_exists.mp hbefore
  obtain ⟨c', hc', hepoch⟩ := Option.map_eq_some_iff.mp hafter.2
  exact ⟨c, c', hc, hc', hepoch, (epoch_line crypto cfg chainId).1 rotationArrived rotationCommit
    c c' (Option.isNone_iff_eq_none.mp hafter.1) hc hc'⟩

end Samples

end PallaSync
