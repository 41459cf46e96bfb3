import PallaSync.Acts
import PallaSync.Beside

/-!
# Staged imports

A staged import names the terminal parameters and epoch it was verified
against. Nothing renews it: it stays the terms of the chain only while no
rotation commits, and `staged_import_current` says exactly that.
-/

namespace PallaSync

open Atomic Machine

/-! ## Staleness -/

/-- The staged import has the hashes of the chain's parameters and epoch. -/
def Import.Current (X : Crypto) (i : Import) (c : Chain) : Prop :=
  X.objectHash i.parameters = c.parametersHash X ∧ X.objectHash i.epoch = c.epochHash X

/-- Every staged import of an undeleted chain is current, and one that is not
there has none. -/
def Store.Fresh (X : Crypto) (st : Store) : Prop :=
  st.deletion = none →
    (st.chain = none → st.imports = none) ∧
    ∀ c i, st.chain = some c → st.imports = some i → i.Current X c

/-- No rotation that passes its checks runs on chain `id` while an import is
staged for it. -/
def Unrotated (X : Crypto) (id : String) (w : World) (ev : Event) : Prop :=
  ∀ call, w.acting ev = some call → call.chain = id →
    call.route = .epochsPost ∨ call.route = .revoke → (w.store id).imports.isSome →
    epochCheck (w.relay X) (w.store id) ((w.store id).chain.getD .unset) call.auth call.value
      call.targetDevice ≠ .ok ()

section Staleness

variable {X : Crypto} {cfg : RelayConfig} {id : String}

theorem terminalHead_current {st : Store} {p e : Json} {c : Chain} (hc : st.chain = some c)
    (h : terminalHead X st p e = .ok ()) :
    c.parametersHash X = X.objectHash p ∧ c.epochHash X = X.objectHash e := by
  simp only [terminalHead, Check.bind_ok, Check.failIf_ok, hc, Option.any_some,
    Bool.or_eq_false_iff, bne_eq_false_iff_eq] at h
  obtain ⟨_, ⟨⟨hp, he⟩, -⟩, -⟩ := h
  exact ⟨hp, he⟩

/-- An import stages what it found to be the terms of the chain. -/
theorem Imported.fresh {R : Relay} {v : Json} {st : Store} {mid b : Cell} {logId : String}
    (h : Imported R v st.cell mid b)
    (himports : b.store.imports = st.imports.or (some ⟨logId, terminalParameters v,
      terminalEpoch v⟩))
    (hfresh : st.deletion = none → (st.chain = none → st.imports = none) ∧
      ∀ c i, st.chain = some c → st.imports = some i → i.Current R.crypto c)
    (hdel : st.deletion = none) : b.store.Fresh R.crypto := by
  obtain ⟨hnone, hcurrent⟩ := hfresh hdel
  intro _
  rcases h.row with ⟨hsome, hstill⟩ | ⟨habsent, hstaged⟩
  · have hchain : b.store.chain = st.chain := hstill.chain.trans h.path.unsaved.chain
    have hsome : st.chain.isSome := hsome
    rw [hchain, himports]
    refine ⟨fun hn => ?_, fun c i hc hi => ?_⟩
    · rw [hn] at hsome
      cases hsome
    · cases hold : st.imports with
      | some old =>
          rw [hold] at hi
          cases hi
          exact hcurrent c _ hc hold
      | none =>
          rw [hold] at hi
          cases hi
          have hhead := terminalHead_current hc h.head
          exact ⟨hhead.1.symm, hhead.2.symm⟩
  · obtain ⟨l, tid, notice, hrow⟩ := hstaged.chain
    have habsent : st.chain = none := habsent
    rw [hstaged.stored, himports, hnone habsent, hrow]
    refine ⟨fun hn => (by cases hn), fun c i hc hi => ?_⟩
    cases hc
    cases hi
    exact ⟨rfl, rfl⟩

/-- The steps that leave the staged import alone. -/
theorem Acted.fresh {w : World} {ev : Event} {cause : Option Call} {st' : Store}
    (hacted : Acted (w.relay X) id cause (w.store id) st')
    (hcause : ∀ call, cause = some call → w.acting ev = some call ∧ call.chain = id)
    (hs : (w.store id).Holds (Settled X id)) (hC : Unrotated X id w ev)
    (hkept : st'.imports = (w.store id).imports)
    (hreseed : ∀ call, w.acting ev = some call → call.route = .reseed →
      st'.chain = (w.store id).chain)
    (h : (w.store id).Fresh X) (hdel : (w.store id).deletion = none) : st'.Fresh X := by
  obtain ⟨hnone, hcurrent⟩ := h hdel
  intro _
  rw [hkept]
  cases hacted with
  | absent habsent habsent' _ =>
      refine ⟨fun _ => hnone habsent, fun c i hc _ => ?_⟩
      rw [habsent'] at hc
      cases hc
  | begun habsent _ _ _ _ _ _ | staged habsent _ _ _ _ _ _ _ =>
      refine ⟨fun _ => hnone habsent, fun c i _ hi => ?_⟩
      rw [hnone habsent] at hi
      cases hi
  | acted hsome hact hsome' _ =>
      rename_i c b _
      refine ⟨fun hn => ?_, fun c' i hc' hi => ?_⟩
      · rw [hsome'] at hn
        cases hn
      · obtain rfl := Option.some.inj (hsome'.symm.trans hc')
        have hold := hcurrent c i hsome hi
        have hsound : Sound X ((w.store id).ledger c) := (hs.ledger hdel hsome).sound
        obtain ⟨he, hp⟩ | ⟨call, hcall, hroute, hrot⟩ | ⟨call, hcall, hroute, -⟩ := hact.terms
        · exact ⟨hold.1.trans (congrArg X.objectHash hp).symm,
            hold.2.trans (congrArg X.objectHash he).symm⟩
        · refine absurd hrot.checked ?_
          have hnot := hC call (hcause call hcall).1 (hcause call hcall).2 hroute (by rw [hi]; rfl)
          rw [hsome] at hnot
          exact hnot
        · have hsame := hreseed call (hcause call hcall).1 hroute
          rw [hsome', hsome] at hsame
          obtain rfl := Option.some.inj hsame
          exact hold

theorem step_fresh {w : World} {ev : Event} (hw : w.Bounded cfg)
    (hs : (w.store id).Holds (Settled X id)) (hC : Unrotated X id w ev)
    (h : (w.store id).Fresh X) : ((w.step X ev).store id).Fresh X := by
  intro hdel'
  obtain ⟨hdel, hstep⟩ := step_acted X hw ev id hdel'
  suffices hf : ((w.step X ev).store id).Fresh X from hf hdel'
  cases (step_txn X w ev id).aside hdel' with
  | kept hb hreseed _ =>
      obtain he | ⟨cause, hacted, hcause⟩ := hstep
      · exact he ▸ h
      · exact hacted.fresh hcause hs hC hb.imports hreseed h hdel
  | imported hact _ hroute himp hst hb =>
      rw [hst] at hb ⊢
      exact himp.fresh hb.imports h hdel
  | reseeded hact _ hroute hb =>
      have himports : ((w.step X ev).store id).imports = none := hb.imports
      exact fun _ => ⟨fun _ => himports, fun c i _ hi => (by rw [himports] at hi; cases hi)⟩
  | uploaded hup hst =>
      have himports : ((w.step X ev).store id).imports = (w.store id).imports :=
        hst ▸ hup.beside.imports
      intro _
      rw [himports, hst, hup.saved.stored]
      refine ⟨fun hn => (by cases hn), fun c i hc hi => ?_⟩
      cases hc
      obtain ⟨hnone, hcurrent⟩ := h hdel
      cases hold : (w.store id).chain with
      | none =>
          rw [hnone hold] at hi
          cases hi
      | some c =>
          have hterms := hup.moved.ordinary.sameTerms
          have hcur := hcurrent c i hold hi
          have hcell : (w.store id).cell.chain = c := by rw [Store.cell_of hold]
          refine ⟨hcur.1.trans ?_, hcur.2.trans ?_⟩
          · rw [hup.saved.chain]
            exact congrArg X.objectHash (hterms.parameters.trans (congrArg _ hcell)).symm
          · rw [hup.saved.chain]
            exact congrArg X.objectHash (hterms.epoch.trans (congrArg _ hcell)).symm

/-- In every run in which no rotation commits between a staging and its
re-seed, the staged parameters and epoch are those of the chain, so that
neither a further staging under the chain's head nor the re-seed's comparison
can fail on them; or else the hash of one of them has a second preimage. -/
theorem staged_import_current (X : Crypto) (cfg : RelayConfig) (id : String) (es : List Event)
    (hes : StepsMeet (World.step X) (Unrotated X id) (World.initial cfg) es)
    (hdel : (storeAfter X cfg es id).deletion = none) {c : Chain} {i : Import}
    (hc : (storeAfter X cfg es id).chain = some c)
    (hi : (storeAfter X cfg es id).imports = some i) :
    (i.parameters = c.parameters ∧ i.epoch = c.epoch ∧
      terminalHead X (storeAfter X cfg es id) c.parameters c.epoch = .ok ()) ∨
    (i.parameters ≠ c.parameters ∧ X.objectHash i.parameters = X.objectHash c.parameters) ∨
    (i.epoch ≠ c.epoch ∧ X.objectHash i.epoch = X.objectHash c.epoch) := by
  have hfresh : (storeAfter X cfg es id).Fresh X :=
    store_invariant_of (C := Unrotated X id) (fun _ => ⟨fun _ => rfl, fun _ _ hc => by cases hc⟩)
      (fun w ev hw hs hC h => step_fresh hw hs hC h) hes
  obtain ⟨hp, he⟩ := (hfresh hdel).2 c i hc hi
  by_cases hpar : i.parameters = c.parameters
  · by_cases hep : i.epoch = c.epoch
    · refine .inl ⟨hpar, hep, ?_⟩
      simp only [terminalHead, Check.bind_ok, Check.failIf_ok, hc, hi, Option.any_some,
        Chain.parametersHash, Chain.epochHash, Chain.adminPublicKey, hpar, hep, bne_self_eq_false,
        Bool.or_self]
      exact ⟨(), trivial, trivial⟩
    · exact .inr (.inr ⟨hep, he⟩)
  · exact .inr (.inl ⟨hpar, hp⟩)

end Staleness

namespace Sample

/-- A rotation of a chain with a staged import. -/
def overtakenImport : List Event :=
  genesisRun ++ perform 1 1 (importRequest [epoch0]) ++ perform 2 2 rotationRequest

theorem renewedImport_facts :
    (stepsAll (World.step crypto) (fun w ev => (w.acting ev).all fun call =>
        !(decide (call.route = .epochsPost) || decide (call.route = .revoke)) ||
          (w.store call.chain).imports.isNone) (.initial cfg) renewedImport &&
      (storeAfter crypto cfg renewedImport chainId).deletion.isNone &&
      (storeAfter crypto cfg renewedImport chainId).chain.any (fun c =>
        decide (c.parameters = parameters 0 .null) && decide (c.epoch = epoch1)) &&
      (storeAfter crypto cfg renewedImport chainId).imports.any fun i =>
        decide (i.parameters = parameters 0 .null) && decide (i.epoch = epoch1)) = true := by
  decide +kernel

end Sample

/-- A staging after a rotation names the rotated epoch, and can be repeated. -/
theorem staged_import_current_run :
    ∃ c, (storeAfter Sample.crypto Sample.cfg Sample.renewedImport Sample.chainId).chain = some c ∧
      terminalHead Sample.crypto
        (storeAfter Sample.crypto Sample.cfg Sample.renewedImport Sample.chainId)
        c.parameters c.epoch = .ok () := by
  have hfacts := Sample.renewedImport_facts
  simp only [Bool.and_eq_true, Option.isNone_iff_eq_none] at hfacts
  obtain ⟨⟨⟨hmeet, hdel⟩, hchain⟩, himport⟩ := hfacts
  obtain ⟨c, hc, hterms⟩ := (Option.any_eq_true _ _).mp hchain
  obtain ⟨i, hi, hstaged⟩ := (Option.any_eq_true _ _).mp himport
  simp only [Bool.and_eq_true, decide_eq_true_eq] at hterms hstaged
  have hunrotated : StepsMeet (World.step Sample.crypto) (Unrotated Sample.crypto Sample.chainId)
      (World.initial Sample.cfg) Sample.renewedImport := by
    refine stepsMeet_of_all (fun w ev hcalls call hcall hid hroute himports => ?_) hmeet
    rw [hcall, Option.all_some] at hcalls
    rw [hid] at hcalls
    obtain hr | hr := hroute <;> rw [hr] at hcalls <;> simp at hcalls
    all_goals
      rw [hcalls] at himports
      cases himports
  refine ⟨c, hc, ?_⟩
  rcases staged_import_current Sample.crypto Sample.cfg Sample.chainId Sample.renewedImport
    hunrotated hdel hc hi with ⟨-, -, hhead⟩ | ⟨hne, -⟩ | ⟨hne, -⟩
  · exact hhead
  · exact absurd (hstaged.1.trans hterms.1.symm) hne
  · exact absurd (hstaged.2.trans hterms.2.symm) hne

/-- A rotation leaves the import staged before it behind: the head of the
chain can no longer be staged, and no re-seed passes its comparison. -/
theorem rotation_strands_import : ∃ es c i,
    (storeAfter Sample.crypto Sample.cfg es Sample.chainId).deletion = none ∧
    (storeAfter Sample.crypto Sample.cfg es Sample.chainId).chain = some c ∧
    (storeAfter Sample.crypto Sample.cfg es Sample.chainId).imports = some i ∧
    i.epoch ≠ c.epoch ∧
    terminalHead Sample.crypto (storeAfter Sample.crypto Sample.cfg es Sample.chainId)
      c.parameters c.epoch = .error (err .importConflict) := by
  have hrun : ((storeAfter Sample.crypto Sample.cfg Sample.overtakenImport
        Sample.chainId).deletion.isNone &&
      (storeAfter Sample.crypto Sample.cfg Sample.overtakenImport Sample.chainId).chain.any
        (fun c => (storeAfter Sample.crypto Sample.cfg Sample.overtakenImport
          Sample.chainId).imports.any fun i => decide (i.epoch ≠ c.epoch) &&
            decide (terminalHead Sample.crypto (storeAfter Sample.crypto Sample.cfg
              Sample.overtakenImport Sample.chainId) c.parameters c.epoch =
                .error (err .importConflict)))) = true := by
    decide +kernel
  simp only [Bool.and_eq_true, Option.isNone_iff_eq_none] at hrun
  obtain ⟨hdel, hchain⟩ := hrun
  obtain ⟨c, hc, himport⟩ := (Option.any_eq_true _ _).mp hchain
  obtain ⟨i, hi, hfacts⟩ := (Option.any_eq_true _ _).mp himport
  simp only [Bool.and_eq_true, decide_eq_true_eq] at hfacts
  exact ⟨_, c, i, hdel, hc, hi, hfacts.1, hfacts.2⟩

end PallaSync
