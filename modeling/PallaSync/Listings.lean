import PallaSync.LogPages
import PallaSync.Revocations
import PallaSync.Roster
import PallaSync.Lib.Keyset

/-!
# Listings, page by page

A listing of objects pins the chain at its first page, and shows an object if it
had a position then. Which objects these are does not change while the
generation lasts (`Placements`), and neither does what is shown of them: a
device is shown as it stood in the version of the registry the first page names
(`Store.Versioned.as_of`). So the pages of a listing are the pages of one list of
rows in the order of their keys.
-/

namespace PallaSync

open Atomic Machine

/-! ## Positions -/

/-- The object has a position in the log `logId` up to `head`, or in another log. -/
def ObjectRow.placedUpTo (logId : String) (head : Nat) (r : ObjectRow) : Bool :=
  r.logId.any fun l => l != logId || r.relaySeq.any (· ≤ head)

/-- A later ledger, in the same log: since the earlier one no object got a
position that the earlier one had. -/
structure Placements (L L' : Ledger) : Prop where
  logId : L'.chain.logId = L.chain.logId
  headSeq : L.chain.headSeq ≤ L'.chain.headSeq
  old : ∀ q o', L'.objects.find? q = some o' →
    o'.placedUpTo L.chain.logId L.chain.headSeq = true →
    ∃ o, L.objects.find? q = some o ∧ o.logId = o'.logId ∧ o.relaySeq = o'.relaySeq

namespace Placements

variable {X : Crypto} {L M M' L' : Ledger}

theorem refl (L : Ledger) : Placements L L := ⟨rfl, le_rfl, fun _ o ho _ => ⟨o, ho, rfl, rfl⟩⟩

/-- The positions of the objects are the same. -/
theorem congr (h : Placements L M) (hl : M'.chain.logId = M.chain.logId)
    (hs : M.chain.headSeq ≤ M'.chain.headSeq)
    (ho : ∀ q o', M'.objects.find? q = some o' → o'.logId.isSome →
      ∃ o, M.objects.find? q = some o ∧ o.logId = o'.logId ∧ o.relaySeq = o'.relaySeq) :
    Placements L M' := by
  refine ⟨hl.trans h.logId, h.headSeq.trans hs, fun q o' ho' hplaced => ?_⟩
  have hsome : o'.logId.isSome := by
    unfold ObjectRow.placedUpTo at hplaced
    cases hlog : o'.logId with
    | none => rw [hlog] at hplaced; cases hplaced
    | some l => rfl
  obtain ⟨o, hold, hlog, hseq⟩ := ho q o' ho' hsome
  have hbefore : o.placedUpTo L.chain.logId L.chain.headSeq = true := by
    rw [ObjectRow.placedUpTo, hlog, hseq]
    exact hplaced
  obtain ⟨o₀, h₀, hlog₀, hseq₀⟩ := h.old q o hold hbefore
  exact ⟨o₀, h₀, hlog₀.trans hlog, hseq₀.trans hseq⟩

theorem frame (h : Placements L M) (hc : M'.chain.logId = M.chain.logId)
    (hs : M.chain.headSeq ≤ M'.chain.headSeq) (ho : M'.objects = M.objects) : Placements L M' :=
  h.congr hc hs fun _ o' ho' _ => ⟨o', ho ▸ ho', rfl, rfl⟩

/-- A new position comes after the head. -/
theorem fresh {kind : Kind} {v : Json} {e : LogEntry} {te : TransparencyEntry} {r : Receipt}
    (h : Placements L M) (hf : Fresh X kind v e te r M M') : Placements L M' := by
  refine ⟨?_, ?_, fun q o' ho' hplaced => ?_⟩
  · rw [hf.chain]
    exact h.logId
  · rw [hf.chain]
    exact h.headSeq.trans (Nat.le_succ _)
  · have hlate (o : ObjectRow) (hl : o.logId = some M.chain.logId)
        (hs : o.relaySeq = some (M.chain.headSeq + 1)) :
        ¬o.placedUpTo L.chain.logId L.chain.headSeq = true := by
      have hhead := h.headSeq
      simp only [ObjectRow.placedUpTo, hl, hs, h.logId, Option.any_some, bne_self_eq_false,
        Bool.false_or, decide_eq_true_eq]
      omega
    rw [hf.objects] at ho'
    split at ho'
    · cases hold : M.objects.find? q with
      | none =>
          rw [hold] at ho'
          obtain rfl := Option.some.inj ho'
          exact absurd hplaced (hlate _ rfl rfl)
      | some o =>
          rw [hold, adoptedRow_some] at ho'
          split at ho'
          · obtain rfl := Option.some.inj ho'
            exact absurd hplaced (hlate _ rfl rfl)
          · obtain rfl := Option.some.inj ho'
            exact h.old q o hold hplaced
    · exact h.old q o' ho' hplaced

theorem blanked {o : ObjectRow → Bool} {l : LogRow → Bool} (h : Placements L M)
    (hb : Blanked o l M M') (hc : M'.chain.logId = M.chain.logId)
    (hs : M.chain.headSeq ≤ M'.chain.headSeq) : Placements L M' := by
  refine h.congr hc hs fun q o' ho' _ => ?_
  rw [hb.objects] at ho'
  obtain ⟨x, hx, rfl⟩ := Option.map_eq_some_iff.mp ho'
  refine ⟨x, hx, ?_, ?_⟩ <;> split <;> rfl

theorem logged {kind : Kind} {v : Json} {entry : Option LogEntry} {r : Receipt}
    (h : Placements L M) (hl : Logged X kind v entry r M M') : Placements L M' := by
  cases hl with
  | again _ => exact h
  | fresh hf => exact h.fresh hf

/-- The moves of one generation. -/
theorem step {m : Move} (h : Placements L M) (hs : Step X m M M') (hfound : ∀ c, m ≠ .found c)
    (hnew : ∀ p l, m ≠ .reincarnate p l) : Placements L M' := by
  cases hs with
  | log _ hl => exact h.logged hl
  | enlist hl hr =>
      rw [hr.rest]
      exact (h.logged hl).frame rfl le_rfl rfl
  | partAgain => exact h
  | part hp =>
      have hchain := hp.chain
      refine h.congr (by rw [hchain]; rfl) (by rw [hchain]; exact le_rfl) fun q o' ho' hsome => ?_
      rw [hp.objects] at ho'
      split at ho'
      · obtain rfl := Option.some.inj ho'
        cases hsome
      · exact ⟨o', ho', rfl, rfl⟩
  | evidence hw =>
      obtain ⟨te, -, hc⟩ := hw.noted
      exact h.frame (by rw [hc]; rfl) (by rw [hc]; exact le_rfl) hw.objects
  | stage _ hst =>
      rw [hst.rest]
      refine h.congr rfl le_rfl fun q o' ho' hsome => ?_
      rw [show _ = _ from hst.objects q] at ho'
      split at ho'
      · cases hold : M.objects.find? q with
        | none =>
            rw [hold, Option.getD_none] at ho'
            obtain rfl := Option.some.inj ho'
            cases hsome
        | some o =>
            rw [hold, Option.getD_some] at ho'
            obtain rfl := Option.some.inj ho'
            exact ⟨o, rfl, rfl, rfl⟩
      · exact ⟨o', ho', rfl, rfl⟩
  | revoke hw | activate hw =>
      rw [hw.rest]
      exact h.frame rfl le_rfl rfl
  | setEpoch => exact h.frame rfl le_rfl rfl
  | prune hb _ _ _ hc => exact h.blanked hb (by rw [hc]) (by rw [hc])
  | handoff _ he =>
      rw [he]
      exact h.frame rfl le_rfl rfl
  | expire _ hb _ hc => exact h.blanked hb (by rw [hc]) (by rw [hc])
  | found _ _ => exact absurd rfl (hfound _)
  | reincarnate _ _ => exact absurd rfl (hnew _ _)

theorem steps {ms : List Move} (h : Placements L M) (hs : Steps X ms M M')
    (hms : ∀ m ∈ ms, (∀ c, m ≠ .found c) ∧ ∀ p l, m ≠ .reincarnate p l) : Placements L M' :=
  hs.preserves (fun _ _ _ hm hs h => h.step hs hm.1 hm.2) hms h

theorem ordinary (h : Placements L M) (ho : Ordinary X M M') : Placements L M' := by
  refine ho.preserves (fun m _ _ hm hs h => h.step hs (fun c he => ?_) fun p l he => ?_) h
  · subst he
    cases hm
  · subst he
    cases hm

end Placements

/-! ## Generations -/

/-- The generation does not go back, and while it lasts positions stay. -/
structure Renewal (L L' : Ledger) : Prop where
  generation : L.chain.generation ≤ L'.chain.generation
  placements : L'.chain.generation = L.chain.generation → Placements L L'

theorem Renewal.refl (L : Ledger) : Renewal L L := ⟨le_rfl, fun _ => .refl L⟩

section Renewals

variable {X : Crypto} {R : Relay} {cause : Option Call} {a : Cell} {L L' M : Ledger}

theorem Renewal.same (h : Renewal L M) (hp : L'.chain.parameters = M.chain.parameters)
    (hk : Placements L M → Placements L L') : Renewal L L' := by
  have hgen : L'.chain.generation = M.chain.generation := by
    rw [Chain.generation, hp, Chain.generation]
  exact ⟨by rw [hgen]; exact h.generation, fun he => hk (h.placements (by rw [← hgen, he]))⟩

theorem Passage.renewal (hp : Passage R cause a L') (h : Renewal L a.ledger) : Renewal L L' := by
  cases hp with
  | ordinary ho => exact h.same ho.sameTerms.parameters fun hk => hk.ordinary ho
  | rotated _ _ ho _ he =>
      subst he
      exact h.same ho.sameTerms.parameters fun hk => (hk.ordinary ho).frame rfl le_rfl rfl
  | pruned _ _ hpr he =>
      subst he
      refine h.same hpr.terms.2 fun hk => ?_
      refine hk.steps (hpr.first.steps.append hpr.second.steps) fun m hm => ?_
      simp only [List.cons_append, List.nil_append, List.append_assoc, List.mem_cons,
        List.mem_append, List.mem_map, List.not_mem_nil, or_false] at hm
      obtain rfl | rfl | ⟨_, -, rfl⟩ | ⟨_, -, rfl⟩ | rfl := hm <;> exact ⟨nofun, nofun⟩
  | expired hs =>
      refine h.same (by rw [hs.expire_chain]) fun hk => hk.steps hs fun m hm => ?_
      obtain ⟨e, -, rfl⟩ := List.mem_map.mp hm
      exact ⟨nofun, nofun⟩
  | @reseeded call logId notice N _ _ hrenews _ hfirst _ hsecond =>
      have hparameters : L'.chain.parameters = call.value.get "parameters" :=
        hsecond.sameTerms.parameters.trans hfirst.sameTerms.parameters
      have hgen : L'.chain.generation = a.chain.generation + 1 := by
        rw [Chain.generation, hparameters]
        exact hrenews.generation
      have hle : L.chain.generation ≤ a.chain.generation := h.generation
      exact ⟨by omega, fun he => absurd he (by omega)⟩

/-- Generations along a run. -/
theorem store_renewal (X : Crypto) (cfg : RelayConfig) (es es' : List Event) (id : String) :
    (storeAfter X cfg es id).Keeps Renewal (storeAfter X cfg (es ++ es') id) :=
  ledger_keeps (K := Renewal) (fun L _ => .refl L)
    (fun _ _ _ _ _ _ _ _ hK hp => hp.renewal hK) es es'

end Renewals

/-! ## Registered devices -/

/-- The record of a registered device has a position. -/
def Ledger.Placed (L : Ledger) : Prop :=
  ∀ id, (L.registry.find? id).isSome →
    ∃ o, L.objects.find? (.device, id) = some o ∧ o.logId.isSome

section Devices

variable {X : Crypto} {L L' M : Ledger}

theorem Ledger.Placed.grows (h : L.Placed) (hg : Grows L L') (hr : L'.registry = L.registry) :
    L'.Placed := fun id hid => by
  obtain ⟨o, ho, hs⟩ := h id (hr ▸ hid)
  obtain ⟨o', ho', hl⟩ := hg.objects _ o ho
  exact ⟨o', ho', by rw [(hl.placed hs).1]; exact hs⟩

theorem adoptedRow_placed {kind : Kind} {v : Json} {l : String} {i : Nat}
    (x : Option ObjectRow) : (adoptedRow X kind v l i x).logId.isSome := by
  cases x with
  | none => rfl
  | some o =>
      rw [adoptedRow_some]
      split
      · rfl
      · rename_i h
        simpa [Option.isNone_iff_eq_none, ← Option.isSome_iff_ne_none] using h

theorem Step.placed {m : Move} (hs : Step X m L L') (henrolled : L.Enrolled) (h : L.Placed) :
    L'.Placed := by
  have hg := hs.grows
  cases hs with
  | log _ hl => exact h.grows hg hl.registry
  | enlist hl hr =>
      have hM := h.grows hl.grows hl.registry
      rw [hr.rest]
      intro id hid
      rw [show _ = _ from hr.find? id] at hid
      split at hid
      · rename_i he
        obtain ⟨e, te, -, hf⟩ := henrolled.fresh hl hr
        rw [he]
        exact ⟨_, (hf.objects _).trans (if_pos rfl), adoptedRow_placed _⟩
      · exact hM id hid
  | partAgain => exact h
  | part hp => exact h.grows hg hp.registry
  | evidence hw => exact h.grows hg hw.registry
  | stage _ hst => exact h.grows hg (by rw [hst.rest])
  | revoke hw | activate hw =>
      intro id hid
      rw [hw.find?, Option.isSome_map] at hid
      rw [hw.rest]
      exact h id hid
  | setEpoch => exact h.grows hg rfl
  | prune hb _ _ _ _ => exact h.grows hg hb.registry
  | handoff _ he => exact h.grows hg (by rw [he])
  | expire _ hb _ _ => exact h.grows hg hb.registry
  | found _ _ => exact h.grows hg rfl
  | reincarnate _ _ => exact h.grows hg rfl

theorem Passage.placed {R : Relay} {cause : Option Call} {a : Cell} (hp : Passage R cause a L')
    (hs : Sound R.crypto a.ledger) (h : a.ledger.Placed) : L'.Placed := by
  obtain ⟨ms, hsteps, -⟩ := hp.steps
  exact (hsteps.preserves (P := fun M => Sound R.crypto M ∧ M.Placed) (C := fun _ => True)
    (fun _ _ _ _ hm hM => ⟨hM.1.step hm, hm.placed hM.1.enrolled hM.2⟩) (fun _ _ => trivial)
    ⟨hs, h⟩).2

/-- Registered devices have a record with a position, at any time. -/
theorem store_placed (X : Crypto) (cfg : RelayConfig) (es : List Event) (id : String) :
    (storeAfter X cfg es id).Holds fun L => Settled X id L ∧ L.Placed := by
  refine ledger_invariant (fun L L' hf hb ho => ?_) (fun R cause a L' hX _ hp hs h => ?_) es
  · obtain ⟨ms, -, hsteps⟩ := ho
    obtain ⟨p, e, logId, tid, notice, hrow⟩ := hf.row
    refine (hsteps.preserves (P := fun M => Sound X M ∧ M.Placed) (C := fun _ => True)
      (fun _ _ _ _ hm hM => ⟨hM.1.step hm, hm.placed hM.1.enrolled hM.2⟩) (fun _ _ => trivial)
      ⟨Sound.found hb hrow, fun id hid => ?_⟩).2
    rw [show (_ : Option RegistryRow) = none from hb.registry id] at hid
    cases hid
  · subst hX
    exact hp.placed hs.sound h

end Devices

/-! ## Generations of the rows -/

/-- Registered devices stay, and so does the generation of their rows. -/
def Ledger.RowsStay (L L' : Ledger) : Prop :=
  ∀ id row, L.registry.find? id = some row →
    ∃ row', L'.registry.find? id = some row' ∧ row'.generation = row.generation

section Generations

variable {X : Crypto} {L L' M : Ledger}

theorem Ledger.RowsStay.of_eq (h : L'.registry = L.registry) : L.RowsStay L' :=
  fun _ row hrow => ⟨row, h ▸ hrow, rfl⟩

theorem Ledger.RowsStay.trans (h : L.RowsStay M) (h' : M.RowsStay L') : L.RowsStay L' := by
  intro id row hrow
  obtain ⟨row₁, hrow₁, hgen⟩ := h id row hrow
  obtain ⟨row', hrow', hgen'⟩ := h' id row₁ hrow₁
  exact ⟨row', hrow', hgen'.trans hgen⟩

theorem Registered.rowsStay {d : Json} {seq : Nat} {status : Status}
    (h : Registered d seq status L L') : L.RowsStay L' := by
  intro id row hrow
  by_cases he : id = s d "device_id"
  · rw [he, h.free] at hrow
    cases hrow
  · exact ⟨row, by rw [h.find?, if_neg he, hrow], rfl⟩

theorem Rewritten.rowsStay {f : RegistryRow → RegistryRow} (h : Rewritten f L L')
    (hf : ∀ row, (f row).generation = row.generation) : L.RowsStay L' := by
  intro id row hrow
  exact ⟨f row, by rw [h.find?, hrow, Option.map_some], hf row⟩

theorem Step.rowsStay {m : Move} (hs : Step X m L L') : L.RowsStay L' := by
  cases hs with
  | log _ hl => exact .of_eq hl.registry
  | enlist hl hr => exact (Ledger.RowsStay.of_eq hl.registry).trans hr.rowsStay
  | partAgain => exact .of_eq rfl
  | part hp => exact .of_eq hp.registry
  | evidence hw => exact .of_eq hw.registry
  | stage _ hst => exact .of_eq (by rw [hst.rest])
  | revoke hw =>
      refine hw.rowsStay fun row => ?_
      unfold RegistryRow.revokeAt
      split <;> rfl
  | activate hw =>
      refine hw.rowsStay fun row => ?_
      unfold RegistryRow.activateAs
      split <;> rfl
  | setEpoch => exact .of_eq rfl
  | prune hb _ _ _ _ => exact .of_eq hb.registry
  | handoff _ he => exact .of_eq (by rw [he])
  | expire _ hb _ _ => exact .of_eq hb.registry
  | found _ _ => exact .of_eq rfl
  | reincarnate _ _ => exact .of_eq rfl

theorem Passage.rowsStay {R : Relay} {cause : Option Call} {a : Cell}
    (hp : Passage R cause a L') : a.ledger.RowsStay L' := by
  obtain ⟨ms, hsteps, -⟩ := hp.steps
  exact hsteps.preserves (P := a.ledger.RowsStay) (C := fun _ => True)
    (fun _ _ _ _ hm hM => hM.trans hm.rowsStay) (fun _ _ => trivial) (.of_eq rfl)

/-- However a run goes on, the rows of the registry keep their generation. -/
theorem store_rowsStay (X : Crypto) (cfg : RelayConfig) (es es' : List Event) (id : String) :
    (storeAfter X cfg es id).Keeps Ledger.RowsStay (storeAfter X cfg (es ++ es') id) :=
  ledger_keeps (fun _ _ => .of_eq rfl)
    (fun _ _ _ _ _ _ _ _ hK hp => hK.trans hp.rowsStay) es es'

/-- A registered device is of an undeleted chain that is there. -/
theorem registered_chain (X : Crypto) (cfg : RelayConfig) (es : List Event) (id : String)
    {d : String} {row : RegistryRow} (hdel : (storeAfter X cfg es id).deletion = none)
    (hrow : (storeAfter X cfg es id).registry.find? d = some row) :
    ∃ c, (storeAfter X cfg es id).chain = some c := by
  have hholds := store_settled X cfg es id hdel
  cases hc : (storeAfter X cfg es id).chain with
  | some c => exact ⟨c, rfl⟩
  | none =>
      rw [hc] at hholds
      exact absurd (hrow.symm.trans (hholds.registry d)) (by simp)

end Generations

/-! ## Versions along a run -/

theorem store_versioned (X : Crypto) (cfg : RelayConfig) (es : List Event) (id : String)
    (hdel : (storeAfter X cfg es id).deletion = none) : (storeAfter X cfg es id).Versioned :=
  (store_accrues X cfg [] es id hdel).versioned blank_versioned

/-- What a later history says of an earlier version is what the registry said
then. Since then a registered device was activated, unless it was revoked, or
revoked for good, and nothing else became of it; its row is of the generation it
was of. -/
theorem registry_versions (X : Crypto) (cfg : RelayConfig) (es es' : List Event) (id d : String)
    (hdel : (storeAfter X cfg (es ++ es') id).deletion = none) :
    ((storeAfter X cfg (es ++ es') id).copiesUpTo d
        (storeAfter X cfg es id).registryHistory.length).getLast? =
      ((storeAfter X cfg es id).registry.find? d).map RegistryRow.enlistment ∧
    ∀ row, (storeAfter X cfg es id).registry.find? d = some row →
      ∃ row', (storeAfter X cfg (es ++ es') id).registry.find? d = some row' ∧
        Relation.ReflTransGen Enlistment.Next row.enlistment row'.enlistment ∧
        row'.enrolledSeq = row.enrolledSeq ∧ (row.status = .revoked → row'.status = .revoked) ∧
        (row'.status = .pendingKeys → row'.enlistment = row.enlistment) ∧
        row'.generation = row.generation := by
  have hbefore := (store_earlier X cfg es es' id hdel).1
  have hfront := (store_accrues X cfg es es' id hdel).versions
  have hv := store_versioned X cfg es id hbefore
  have hv' := store_versioned X cfg (es ++ es') id hdel
  refine ⟨hv.upTo_current hv' hfront d, fun row hrow => ?_⟩
  obtain ⟨row', hrow', hreach⟩ := hv.became hv' hfront hrow
  obtain ⟨hseq, hrevoked, hpending⟩ := Enlistment.Next.stays hreach
  refine ⟨row', hrow', hreach, hseq, hrevoked, hpending, ?_⟩
  obtain ⟨c, hc⟩ := registered_chain X cfg es id hbefore hrow
  obtain ⟨c', -, hstay⟩ := (store_rowsStay X cfg es es' id hdel).2 c hc
  obtain ⟨row₁, hrow₁, hgen⟩ := hstay d row hrow
  exact Option.some.inj (hrow'.symm.trans hrow₁) ▸ hgen

/-- The second device waited for its keys when it was revoked. -/
theorem registry_versions_revoked :
    ((storeAfter Sample.crypto Sample.cfg (Sample.revocationRun ++ [Sample.revocationCommit])
        Sample.chainId).copiesUpTo (Sample.uid 2)
      (storeAfter Sample.crypto Sample.cfg Sample.revocationRun
        Sample.chainId).registryHistory.length).getLast?.map Enlistment.status =
      some .pendingKeys ∧
    ∃ row', (storeAfter Sample.crypto Sample.cfg
        (Sample.revocationRun ++ [Sample.revocationCommit]) Sample.chainId).registry.find?
        (Sample.uid 2) = some row' ∧ row'.status = .revoked := by
  have hfacts : ((storeAfter Sample.crypto Sample.cfg
        (Sample.revocationRun ++ [Sample.revocationCommit]) Sample.chainId).deletion.isNone &&
      decide ((storeAfter Sample.crypto Sample.cfg Sample.revocationRun Sample.chainId).status
        (Sample.uid 2) = some .pendingKeys) &&
      decide ((storeAfter Sample.crypto Sample.cfg
        (Sample.revocationRun ++ [Sample.revocationCommit]) Sample.chainId).status
        (Sample.uid 2) = some .revoked)) = true := by
    decide +kernel
  simp only [Bool.and_eq_true, decide_eq_true_eq] at hfacts
  obtain ⟨⟨hdel, hbefore⟩, hafter⟩ := hfacts
  obtain ⟨row, hrow, hstatus⟩ := Option.map_eq_some_iff.mp hbefore
  obtain ⟨row', hrow', hstatus'⟩ := Option.map_eq_some_iff.mp hafter
  obtain ⟨hversion, -⟩ := registry_versions Sample.crypto Sample.cfg Sample.revocationRun
    [Sample.revocationCommit] Sample.chainId (Sample.uid 2) (Option.isNone_iff_eq_none.mp hdel)
  refine ⟨?_, row', hrow', hstatus'⟩
  rw [hversion, hrow]
  exact congrArg some hstatus

end PallaSync
