import PallaSync.Succession

/-!
# Acts

`Passage` forgets what a request checked before it moved the ledger. Where a
law depends on the checks, it is proved over acts instead: an act is what one
committed transaction does to a stored chain before its row is written back,
with the checks it passed. `step_acted` says that a step of the relay is one
act at most, and `store_invariant_of` carries a law of the store over every run
whose steps all meet a side condition.
-/

namespace PallaSync

open Machine

/-- What a committed transaction does to a stored chain. -/
inductive Act (R : Relay) : Option Call → Cell → Cell → Prop where
  | still {cause a b} : Still a b → Act R cause a b
  | imported {call a mid b} : call.route = .importChain →
      Imported R call.value a mid b → Still mid b → Act R (some call) a b
  | mutated {call a b} : call.route.isGet = false → Admitted call a → Mutated R call a b →
      b.store.deletion = none → Act R (some call) a b
  | item {call index r a b} : uploaderActive a.store a.chain call.auth = .ok () →
      ItemMoved R call index r a b → Act R (some call) a b
  | evidence {ms a b} : (∀ m ∈ ms, m.isEvidence) → Moves R.crypto ms a b → Act R none a b
  | expired {t a b} : Moves R.crypto ((a.store.due t).map .expire) a b → Act R none a b

/-- What a committed transaction does to an undeleted chain. -/
inductive Acted (R : Relay) (id : String) (cause : Option Call) (st st' : Store) : Prop where
  | absent : st.chain = none → st'.chain = none → (∀ c, st'.ledger c = st.ledger c) →
      Acted R id cause st st'
  | begun {call c b} : st.chain = none → cause = some call → call.route = .genesis →
      Begun R call.value c st.cell b → c.chainId = id → st'.chain = some b.chain →
      st'.ledger b.chain = b.ledger → Acted R id cause st st'
  | staged {call mid b} : st.chain = none → cause = some call → call.route = .importChain →
      Imported R call.value st.cell mid b → StagedOnly R.crypto call.value mid b →
      b.chain.chainId = id → st'.chain = some b.chain → st'.ledger b.chain = b.ledger →
      Acted R id cause st st'
  | acted {c b} : st.chain = some c → Act R cause ⟨st, c⟩ b → st'.chain = some b.chain →
      st'.ledger b.chain = b.ledger → Acted R id cause st st'

section Commits

variable {R : Relay} {id : String} {st st' : Store} {a b mid : Cell} {call : Call}
  {cause : Option Call}

theorem Store.cell_of {c : Chain} (hc : st.chain = some c) : st.cell = ⟨st, c⟩ := by
  rw [Store.cell, hc, Option.getD_some]

/-- A transaction that touched nothing of the ledger. -/
theorem acted_still (hc : st'.chain = st.chain) (hl : ∀ c, st'.ledger c = st.ledger c) :
    Acted R id cause st st' := by
  cases hst : st.chain with
  | none => exact .absent hst (hc.trans hst) hl
  | some c =>
      have hstill : Still (⟨st, c⟩ : Cell) ⟨{ st with chain := some c }, c⟩ :=
        ⟨rfl, hst.symm, rfl⟩
      exact .acted hst (.still hstill) (hc.trans hst) (hl c)

theorem Still.acted (h : Still st.cell b) : Acted R id cause st b.store :=
  acted_still h.chain fun _ => Store.ledger_congr h.ledger _

/-- An act that was written back. -/
theorem acted_saved {c : Chain} (hc : st.chain = some c) (h : Act R cause st.cell mid)
    (hs : Saved mid b) : Acted R id cause st b.store := by
  rw [Store.cell_of hc] at h
  refine .acted hc h (hs.chain ▸ hs.stored) ?_
  rw [← hs.ledger, ← hs.chain]

theorem Executed.acted (h : Executed R call st.cell b) (hdel : b.store.deletion = none)
    (hid : call.chain = id) (hbound : call.Bound) : Acted R id (some call) st b.store := by
  cases h with
  | begun hroute h =>
      obtain ⟨p, hp, hpid⟩ := hbound (.inl hroute)
      rw [hroute] at hp
      cases hp
      obtain ⟨logId, tid, notice, hc⟩ := h.chain
      have hchain : _ = s (call.value.get "parameters") "chain_id" := congrArg Chain.chainId hc
      exact .begun h.absent rfl hroute h (hchain.trans (hpid.trans hid)) h.stored rfl
  | repeated _ h => exact h.acted
  | imported hroute _ h =>
      rcases h.row with ⟨hsome, hstill⟩ | ⟨hnone, hstaged⟩
      · obtain ⟨c, hc⟩ := Option.isSome_iff_exists.mp hsome
        have hb : b.store.chain = some c := by
          rw [hstill.chain, h.path.unsaved.chain]
          exact hc
        have hrow : b.chain = c := by
          have hmid := (h.path.staged c).1
          rw [Store.cell_of hc] at hmid
          exact (congrArg Ledger.chain hstill.ledger).trans hmid
        exact .acted hc (.imported hroute (Store.cell_of hc ▸ h) hstill) (hrow ▸ hb) rfl
      · obtain ⟨p, hp, hpid⟩ := hbound (.inr hroute)
        rw [hroute] at hp
        have hlast : terminalParameters call.value = p := by
          rw [terminalParameters, List.getLastD_eq_getLast?, show
            (PallaSync.a call.value "parameters_history").getLast? = some p from hp,
            Option.getD_some]
        obtain ⟨logId, tid, notice, hc⟩ := hstaged.chain
        have hchain : _ = s (terminalParameters call.value) "chain_id" :=
          congrArg Chain.chainId hc
        exact .staged hnone rfl hroute h hstaged (hchain.trans (hlast ▸ hpid.trans hid))
          hstaged.stored rfl
  | read _ _ h => exact h.acted
  | mutated hroute hadm h hs =>
      obtain ⟨c, hc, -⟩ := hadm.stored
      exact acted_saved hc (.mutated hroute hadm h (hs.deletion ▸ hdel)) hs

/-- Every committed transaction on an undeleted chain, with what it checked;
and a deletion is for good. -/
theorem Commit.acted (h : Commit R cause st st') (hdel : st'.deletion = none)
    (hcause : ∀ call, cause = some call → call.chain = id ∧ call.Bound) :
    st.deletion = none ∧ Acted R id cause st st' := by
  cases h with
  | execute hd h =>
      obtain ⟨hid, hbound⟩ := hcause _ rfl
      exact ⟨hd, h.acted hdel hid hbound⟩
  | item hc hd hact h hs =>
      obtain ⟨c, hc⟩ := Option.isSome_iff_exists.mp hc
      exact ⟨hd, acted_saved hc (.item hact h) hs⟩
  | evidence hc hms h hs =>
      obtain ⟨c, hc⟩ := Option.isSome_iff_exists.mp hc
      exact ⟨h.deletion.symm.trans (hs.deletion.symm.trans hdel),
        acted_saved hc (.evidence hms h) hs⟩
  | enrollment hd h => exact ⟨hd, h.acted⟩
  | expire hc h =>
      rename_i t b
      obtain ⟨c, hc⟩ := Option.isSome_iff_exists.mp hc
      have hrow : b.chain = c := by
        have hm := h.steps.expire_chain
        rw [Store.cell_of hc] at hm
        exact hm
      rw [Store.cell_of hc] at h
      refine ⟨h.deletion.symm.trans hdel, .acted hc (.expired h) ?_ rfl⟩
      rw [h.chain, hrow]
      exact hc
  | erase =>
      by_cases hd : st.deletion = none
      · rw [erase_still hd]
        exact ⟨hd, acted_still rfl fun _ => rfl⟩
      · refine absurd ?_ hd
        rw [← hdel]
        unfold Store.erase
        split <;> rfl
  | finish h =>
      obtain ⟨rfl, hd⟩ := finish_still h hdel
      exact ⟨hd, acted_still rfl fun _ => rfl⟩

/-- An act is a passage. -/
theorem Act.passage (h : Act R cause a b) (hs : Sound R.crypto a.ledger) :
    Passage R cause a b.ledger := by
  cases h with
  | still h => exact .ordinary (h.ledger ▸ .refl _)
  | imported _ h hstill =>
      obtain ⟨hc, hpath⟩ := h.path.staged a.chain
      rw [hstill.ledger, Cell.ledger, hc]
      exact .ordinary hpath
  | mutated _ _ h hdel => exact h.passage hdel hs
  | item _ h => exact .ordinary h.ordinary
  | evidence hms h =>
      exact .ordinary (h.ordinary fun m hm => Move.ordinary_of_isEvidence (hms m hm))
  | expired h => exact .expired h.steps

/-- An act keeps the epoch and the parameters, or is a rotation or a re-seed. -/
theorem Act.terms (h : Act R cause a b) :
    (b.chain.epoch = a.chain.epoch ∧ b.chain.parameters = a.chain.parameters) ∨
    (∃ call, cause = some call ∧ (call.route = .epochsPost ∨ call.route = .revoke) ∧
      Rotated R call.auth call.value call.targetDevice a b) ∨
    ∃ call, cause = some call ∧ call.route = .reseed ∧
      ∃ imported c mid, Reseeded R call.value imported c a mid b := by
  have kept : b.ledger.chain = a.ledger.chain ∨ SameTerms a.ledger b.ledger →
      b.chain.epoch = a.chain.epoch ∧ b.chain.parameters = a.chain.parameters := by
    rintro (hc | ht)
    · exact ⟨congrArg Chain.epoch hc, congrArg Chain.parameters hc⟩
    · exact ⟨ht.epoch, ht.parameters⟩
  cases h with
  | still h => exact .inl (kept (.inl (congrArg Ledger.chain h.ledger)))
  | imported _ h hstill =>
      have hc := congrArg Ledger.chain hstill.ledger
      exact .inl (kept (.inl (hc.trans (h.path.staged a.chain).1)))
  | item _ h => exact .inl (kept (.inr h.ordinary.sameTerms))
  | evidence hms h =>
      exact .inl (kept (.inr (h.ordinary fun m hm =>
        Move.ordinary_of_isEvidence (hms m hm)).sameTerms))
  | expired h => exact .inl (kept (.inl h.steps.expire_chain))
  | mutated _ _ h hdel =>
      cases h with
      | still h => exact .inl (kept (.inl (congrArg Ledger.chain h.ledger)))
      | rotated hr h => exact .inr (.inl ⟨_, rfl, hr, h⟩)
      | reseeded hr _ h => exact .inr (.inr ⟨_, rfl, hr, _, _, _, h⟩)
      | deleted _ hd _ _ => exact absurd (hdel.symm.trans hd) (by simp)
      | enrolled hr h hst =>
          refine .inl (kept (.inr ?_))
          have hm : SameTerms a.ledger _ := (h.moves.ordinary fun m hm => (by
            simp only [List.cons_append, List.mem_cons, List.mem_append, List.mem_map] at hm
            obtain rfl | ⟨_, -, rfl⟩ | ⟨_, -, rfl⟩ := hm <;> rfl)).sameTerms
          exact hst.ledger ▸ hm
      | acknowledged _ h =>
          exact .inl (kept (.inr (h.moves.ordinary (by simp [Move.ordinary])).sameTerms))
      | snapshotted _ h =>
          exact .inl (kept (.inr (h.moves.ordinary (by simp [Move.ordinary])).sameTerms))
      | pruned _ _ h => exact .inl h.terms

/-- A rotation keeps the parameters. -/
theorem Rotated.parameters {auth : Auth} {v : Json} {device : Option String}
    (h : Rotated R auth v device a b) : b.chain.parameters = a.chain.parameters := by
  obtain ⟨M, M', entry, r, hc⟩ := h.committed
  obtain ⟨N, hN, hb⟩ := hc.split
  have hrow : b.chain = (N.atEpoch (epochCommit v).epoch).chain := congrArg Ledger.chain hb
  rw [hrow]
  exact hN.sameTerms.parameters

end Commits

/-! ## Acts along a run -/

section Runs

variable {X : Crypto} {cfg : RelayConfig} {id : String} {w : World} {ev : Event}
  {C : World → Event → Prop}

/-- A step that leaves a chain undeleted leaves its store alone, or is one
act on it. -/
theorem step_acted (X : Crypto) (h : w.Bounded cfg) (ev : Event) (id : String)
    (hdel : ((w.step X ev).store id).deletion = none) :
    (w.store id).deletion = none ∧ ((w.step X ev).store id = w.store id ∨
      ∃ cause, Acted (w.relay X) id cause (w.store id) ((w.step X ev).store id) ∧
        ∀ call, cause = some call → w.acting ev = some call ∧ call.chain = id) := by
  obtain he | ⟨cause, hc, hcause⟩ := step_commit X w ev id
  · exact ⟨he ▸ hdel, .inl he⟩
  · have hbound : ∀ call, cause = some call → call.chain = id ∧ call.Bound := fun call hcall =>
      ⟨(hcause call hcall).2, acting_bound h (hcause call hcall).1⟩
    obtain ⟨hd, hacted⟩ := hc.acted hdel hbound
    exact ⟨hd, .inr ⟨cause, hacted, hcause⟩⟩

theorem step_settled (X : Crypto) (h : w.Bounded cfg) (hs : (w.store id).Holds (Settled X id))
    (ev : Event) : ((w.step X ev).store id).Holds (Settled X id) := by
  obtain he | ⟨R, cause, hc, -⟩ := step_commitOn (X := X) h ev id
  · exact he ▸ hs
  · exact (hc.holds (P := fun _ => True) (fun _ _ _ _ _ => trivial)
      (fun _ _ _ _ _ _ _ _ _ => trivial) (hs.imp fun _ h => ⟨h, trivial⟩)).imp fun _ h => h.1

/-- A law of a chain's store that is kept by every step that meets `C` holds
after every run whose steps all meet `C`. -/
theorem store_invariant_of {Q : Store → Prop} (h0 : Q .blank)
    (hstep : ∀ w ev, w.Bounded cfg → (w.store id).Holds (Settled X id) → C w ev →
      Q (w.store id) → Q ((w.step X ev).store id)) {es : List Event}
    (hes : StepsMeet (World.step X) C (World.initial cfg) es) : Q (storeAfter X cfg es id) :=
  (run_invariant_of (I := fun w : World => (w.Bounded cfg ∧ (w.store id).Holds (Settled X id)) ∧
      Q (w.store id))
    ⟨⟨initial_bounded cfg, blank_holds _⟩, h0⟩
    (fun w ev h hC => ⟨⟨step_bounded h.1.1 ev, step_settled X h.1.1 h.1.2 ev⟩,
      hstep w ev h.1.1 h.1.2 hC h.2⟩) hes).2

end Runs

end PallaSync
