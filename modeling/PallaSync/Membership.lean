import PallaSync.Delivery

/-!
# Membership and key delivery

Who is seated in the registry of a writable chain is a member of its epoch or
was enrolled since, is of the chain's generation, and has an envelope of that
epoch on file, made out to its own key; so is the recovery envelope, and there
are never more seats than the limit of the one disclosure that the relay runs
under. Only an enrollment, an epoch, a genesis and a re-seed change a seat; each
of them delivers what the seats it leaves need.
-/

namespace PallaSync

open Atomic Machine

/-! ## The invariant -/

structure Membership (X : Crypto) (max : Nat) (L : Ledger) : Prop where
  current : ∀ id row, L.Seat id row → row.generation = L.chain.generation
  members : ∀ id ∈ strings L.chain.epoch "members", ∃ row, L.Seat id row
  placed : ∃ rr, L.receipts.find? (.epoch, objectId L.chain.epoch .epoch) = some rr ∧
    ∀ id row, L.Seat id row → id ∉ strings L.chain.epoch "members" →
      rr.logId = L.chain.logId → ∃ i, rr.seq = some i ∧ i < row.enrolledSeq
  served : ∀ id row, L.Seat id row → ∃ e d, Delivers X L id e d
  recovered : ∃ e, Recovers X L e
  limit : ∀ ids : List String, ids.Nodup → (∀ id ∈ ids, ∃ row, L.Seat id row) →
    ids.length ≤ max

/-- The terms of the chain and the seats are the same. -/
structure Steady (L L' : Ledger) : Prop where
  grows : Grows L L'
  epoch : L'.chain.epoch = L.chain.epoch
  parameters : L'.chain.parameters = L.chain.parameters
  logId : L'.chain.logId = L.chain.logId
  writable : L'.chain.writable = L.chain.writable
  kept : ∀ id row, L.Seat id row → ∃ row', L'.Seat id row'
  seats : ∀ id row', L'.Seat id row' → ∃ row, L.Seat id row ∧
    row'.generation = row.generation ∧ row'.enrolledSeq = row.enrolledSeq

namespace Steady

variable {L M L' : Ledger}

theorem refl (L : Ledger) : Steady L L :=
  ⟨.refl L, rfl, rfl, rfl, rfl, fun _ row h => ⟨row, h⟩, fun _ row h => ⟨row, h, rfl, rfl⟩⟩

theorem trans (h : Steady L M) (h' : Steady M L') : Steady L L' := by
  refine ⟨h.grows.trans h'.grows, h'.epoch.trans h.epoch, h'.parameters.trans h.parameters,
    h'.logId.trans h.logId, h'.writable.trans h.writable, fun id row hseat => ?_,
    fun id row hseat => ?_⟩
  · obtain ⟨row', hseat'⟩ := h.kept id row hseat
    exact h'.kept id row' hseat'
  · obtain ⟨row', hseat', hgen', hseq'⟩ := h'.seats id row hseat
    obtain ⟨row'', hseat'', hgen'', hseq''⟩ := h.seats id row' hseat'
    exact ⟨row'', hseat'', hgen'.trans hgen'', hseq'.trans hseq''⟩

/-- The registry is the same. -/
theorem of_registry (hg : Grows L L') (hr : L'.registry = L.registry)
    (hepoch : L'.chain.epoch = L.chain.epoch)
    (hparameters : L'.chain.parameters = L.chain.parameters)
    (hlog : L'.chain.logId = L.chain.logId)
    (hwritable : L'.chain.writable = L.chain.writable) : Steady L L' := by
  refine ⟨hg, hepoch, hparameters, hlog, hwritable, fun id row h => ⟨row, ?_⟩,
    fun id row h => ⟨row, ?_, rfl, rfl⟩⟩
  · rwa [Ledger.Seat, hr]
  · rwa [Ledger.Seat, hr] at h

theorem of_terms (hg : Grows L L') (hr : L'.registry = L.registry) (ht : SameTerms L L') :
    Steady L L' :=
  .of_registry hg hr ht.epoch ht.parameters ht.logId ht.writable

theorem membership {X : Crypto} {max : Nat} (h : Steady L L') (hm : Membership X max L) :
    Membership X max L' := by
  have hgen : L'.chain.generation = L.chain.generation := by
    rw [Chain.generation, h.parameters, Chain.generation]
  refine ⟨fun id row hseat => ?_, fun id hid => ?_, ?_, fun id row hseat => ?_, ?_,
    fun ids hn hids => hm.limit ids hn fun id hid => ?_⟩
  · obtain ⟨row', hseat', hsame, -⟩ := h.seats id row hseat
    rw [hsame, hgen]
    exact hm.current id row' hseat'
  · rw [h.epoch] at hid
    obtain ⟨row, hseat⟩ := hm.members id hid
    exact h.kept id row hseat
  · obtain ⟨rr, hrr, hlater⟩ := hm.placed
    refine ⟨rr, by rw [h.epoch]; exact h.grows.receipts _ rr hrr, fun id row hseat hnot hlog => ?_⟩
    obtain ⟨row', hseat', -, hseq⟩ := h.seats id row hseat
    rw [h.epoch] at hnot
    rw [hseq]
    exact hlater id row' hseat' hnot (hlog.trans h.logId)
  · obtain ⟨row', hseat', -⟩ := h.seats id row hseat
    obtain ⟨e, d, hdel⟩ := hm.served id row' hseat'
    exact ⟨e, d, hdel.mono h.grows h.epoch⟩
  · obtain ⟨e, he⟩ := hm.recovered
    exact ⟨e, he.mono h.grows h.epoch⟩
  · obtain ⟨row, hseat⟩ := hids id hid
    obtain ⟨row', hseat', -⟩ := h.seats id row hseat
    exact ⟨row', hseat'⟩

end Steady

/-- The moves that leave the seats alone. -/
def Move.steady : Move → Bool
  | .log .. | .part _ | .evidence .. | .stage .. | .activate _ | .prune .. | .handoff _
  | .expire _ => true
  | _ => false

section Moves

variable {X : Crypto} {L L' : Ledger}

theorem Step.steady {m : Move} (h : Step X m L L') (hm : m.steady = true) : Steady L L' := by
  have hg := h.grows
  cases h with
  | log _ hl => exact .of_terms hg hl.registry hl.sameTerms
  | partAgain => exact .refl _
  | part hp => exact .of_terms hg hp.registry (.of_noted hp.chain hp.handoffs)
  | evidence hw => exact .of_terms hg hw.registry hw.sameTerms
  | stage _ hs =>
      exact .of_terms hg (by rw [hs.rest]) (.of_eq (by rw [hs.rest]) (by rw [hs.rest]))
  | activate hw =>
      have hc : L'.chain = L.chain := by rw [hw.rest]
      refine ⟨hg, by rw [hc], by rw [hc], by rw [hc], by rw [hc], fun id row hseat => ?_,
        fun id row hseat => ?_⟩
      · refine ⟨_, by rw [hw.find?, hseat.1]; rfl, ?_⟩
        dsimp only [RegistryRow.activateAs]
        split
        · simp
        · exact hseat.2
      · obtain ⟨hrow, hlive⟩ := hseat
        rw [hw.find?] at hrow
        obtain ⟨row', hrow', rfl⟩ := Option.map_eq_some_iff.mp hrow
        dsimp only [RegistryRow.activateAs] at hlive ⊢
        split at hlive
        · rename_i hid
          exact ⟨row', ⟨hrow', hid.2⟩, by rw [if_pos hid], by rw [if_pos hid]⟩
        · rename_i hid
          exact ⟨row', ⟨hrow', hlive⟩, by rw [if_neg hid], by rw [if_neg hid]⟩
  | prune hb _ _ _ hc =>
      exact .of_registry hg hb.registry (by rw [hc]) (by rw [hc]) (by rw [hc]) (by rw [hc])
  | handoff _ he =>
      exact .of_registry hg (by rw [he]) (by rw [he]) (by rw [he]) (by rw [he]) (by rw [he])
  | expire _ hb _ hc =>
      exact .of_registry hg hb.registry (by rw [hc]) (by rw [hc]) (by rw [hc]) (by rw [hc])
  | enlist _ _ | revoke _ | setEpoch | found _ _ | reincarnate _ _ => cases hm

theorem Steps.steady {ms : List Move} (h : Steps X ms L L') (hms : ∀ m ∈ ms, m.steady = true) :
    Steady L L' :=
  h.preserves (P := Steady L) (fun _ _ _ hm hs hL => hL.trans (hs.steady hm)) hms (.refl L)

end Moves

/-! ## Epoch commits -/

section Commits

variable {X : Crypto} {max : Nat} {L M M' L' : Ledger} {commit : EpochCommit} {reseed : Bool}
  {entry : Option LogEntry} {r : Receipt} {st : Store} {c : Chain} {id : String}
  {row : RegistryRow}

/-- What a commit is checked against, and where it starts: `L` comes after the
tables of the check, with the same registry. -/
structure Ready (X : Crypto) (st : Store) (c : Chain) (commit : EpochCommit) (reseed : Bool)
    (L : Ledger) : Prop where
  sound : Sound X (st.ledger c)
  grows : Grows (st.ledger c) L
  registry : L.registry = st.registry
  generation : L.chain.generation = c.generation
  bundle : BundleOk X st c commit.epoch commit.envelopes commit.staged commit.genesis reseed
  staged : ∀ d ∈ commit.staged, n d "generation" = c.generation
  existing : ∀ id row, (st.ledger c).Seat id row →
    id ∈ existingDevices st c commit.genesis reseed

/-- After a commit the seats are those of the members, in the chain's
generation. -/
theorem Ready.seats (hr : Ready X st c commit reseed L)
    (h : Committed X commit L M M' L' entry r) :
    (∀ id row, L'.Seat id row → id ∈ strings commit.epoch "members" ∧
      row.generation = c.generation) ∧
    ∀ id ∈ strings commit.epoch "members", ∃ row, L'.Seat id row := by
  obtain ⟨N, hjoin, hseats⟩ := h.seats
  refine ⟨fun id row hseat => ?_, fun id hid => ?_⟩
  · obtain ⟨⟨hrow, hlive⟩, hnot⟩ := (hseats id row).mp hseat
    obtain hold | ⟨d, hd, rfl⟩ := hjoin.only id row hrow
    · rw [hr.registry] at hold
      have hexisting := hr.existing id row ⟨hold, hlive⟩
      obtain ⟨row', hrow', -, -, hgen⟩ := mem_existingDevices.mp hexisting
      obtain rfl := Option.some.inj (hold.symm.trans hrow')
      cases hreseed : reseed with
      | true =>
          rw [hr.bundle.revokesAll hreseed] at hnot
          exact absurd hexisting hnot
      | false =>
          rw [hreseed] at hgen
          exact ⟨hr.bundle.mem_members.mpr (.inl ⟨hreseed, hexisting, hnot⟩),
            hgen.resolve_left (by simp)⟩
    · obtain ⟨row', hrow', -, hgen⟩ := hjoin.joins d hd
      obtain rfl := Option.some.inj (hrow.symm.trans hrow')
      exact ⟨hr.bundle.mem_members.mpr (.inr ⟨d, hd, rfl⟩), hgen.trans (hr.staged d hd)⟩
  · have hnot := hr.bundle.disjoint hid
    obtain ⟨-, hexisting, -⟩ | ⟨d, hd, rfl⟩ := hr.bundle.mem_members.mp hid
    · obtain ⟨row, hrow, hlive, -⟩ := mem_existingDevices.mp hexisting
      have hold := hjoin.old id row (by rw [hr.registry]; exact hrow)
      exact ⟨row, (hseats id row).mpr ⟨⟨hold, hlive⟩, hnot⟩⟩
    · obtain ⟨row, hrow, hstatus, -⟩ := hjoin.joins d hd
      have hlive : row.status ≠ .revoked := hstatus ▸ commit.status_ne
      exact ⟨row, (hseats _ row).mpr ⟨⟨hrow, hlive⟩, hnot⟩⟩

theorem Logged.receipted {k : Kind} {v : Json} (h : Logged X k v entry r L L') :
    ∃ rr, L'.receipts.find? (k, objectId v k) = some rr := by
  cases h with
  | again ha =>
      obtain ⟨rr, hrr, -⟩ := ha.receipt
      exact ⟨rr, hrr⟩
  | fresh hf => exact ⟨_, (hf.receipted.find? _).trans (if_pos rfl)⟩

/-- A commit that was checked establishes the invariant. -/
theorem Ready.membership (hr : Ready X st c commit reseed L)
    (h : Committed X commit L M M' L' entry r)
    (hmax : (strings commit.epoch "members").length ≤ max) : Membership X max L' := by
  obtain ⟨hseat, hmember⟩ := hr.seats h
  have hgen : L'.chain.generation = c.generation := by
    obtain ⟨N, hN, rfl⟩ := h.split
    rw [← hr.generation, Chain.generation, Chain.generation]
    exact congrArg (n · "generation") hN.sameTerms.parameters
  refine ⟨fun id row hs => (hseat id row hs).2.trans hgen.symm, fun id hid => ?_, ?_,
    fun id row hs => ?_, ?_, fun ids hn hids => ?_⟩
  · rw [h.epoch] at hid
    exact hmember id hid
  · obtain ⟨rr, hrr⟩ := h.logged.receipted
    rw [h.epoch]
    exact ⟨rr, h.after.grows.receipts _ rr hrr,
      fun id row hs hnot => absurd (hseat id row hs).1 hnot⟩
  · obtain ⟨e, he, hkind, hto, hok⟩ := hr.bundle.covers (hseat id row hs).1
    obtain ⟨d, hd⟩ := h.serves hr.sound hr.grows he hkind hto hok
    exact ⟨e, d, hd⟩
  · obtain ⟨e, he, hkind, hhash, hok⟩ := hr.bundle.recovery
    obtain ⟨m, hm, hbrings⟩ := EpochCommit.mem_before_envelope he
    refine ⟨e, h.files hm hbrings (by simp), hkind, ?_, by rw [h.epoch, hhash]⟩
    rw [h.epoch, n, n, hok.agrees "epoch" (by simp [epochKeys])]
  · refine (List.subperm_of_subset hn fun id hid => ?_).length_le.trans hmax
    obtain ⟨row, hs⟩ := hids id hid
    exact (hseat id row hs).1

end Commits

/-! ## Enrollments -/

section Enrollments

variable {R : Relay} {L M L' : Ledger} {id : String} {row : RegistryRow}

/-- A receipt with a position in the current log is not past its head. -/
theorem Sound.receipt_le {X : Crypto} {rr : ReceiptRow} {i : Nat} (h : Sound X L)
    (hrr : rr ∈ L.receipts) (hlog : rr.logId = L.chain.logId) (hseq : rr.seq = some i) :
    i ≤ L.chain.headSeq := by
  obtain ⟨row, hrow, -⟩ := ((h.receipts rr hrr).position i hseq).row
  rw [hlog] at hrow
  exact ((h.log_dom i).mp (by rw [hrow]; rfl)).2

/-- A device that joins takes the position after the head. -/
theorem Step.enlist_seats {X : Crypto} {status : Status} {d : Json}
    (h : Step X (.enlist status d) L L') (hs : Sound X L) :
    (∀ id row, L.Seat id row → L'.Seat id row) ∧
      ∀ id row, L'.Seat id row → L.Seat id row ∨ id = s d "device_id" ∧
        row.generation = n d "generation" ∧ row.enrolledSeq = L.chain.headSeq + 1 := by
  cases h with
  | enlist hl hd =>
      obtain ⟨e, te, rfl, hf⟩ := hs.enrolled.fresh hl hd
      refine ⟨fun id row ⟨hrow, hlive⟩ => ⟨?_, hlive⟩, fun id row ⟨hrow, hlive⟩ => ?_⟩
      · rw [hd.find?, if_neg, hf.registry]
        · exact hrow
        · rintro rfl
          rw [← hf.registry, hd.free] at hrow
          cases hrow
      · rw [hd.find?] at hrow
        split at hrow
        · rename_i hid
          obtain rfl := Option.some.inj hrow
          exact .inr ⟨hid, rfl, hf.entrySeq⟩
        · exact .inl ⟨hf.registry ▸ hrow, hlive⟩

/-- An enrollment keeps the invariant. -/
theorem Enrolled.membership {auth : Auth} {v : Json} {request : Option Json} {a b : Cell}
    (h : Enrolled R auth v request a b) (hs : Sound R.crypto a.ledger)
    (hm : Membership R.crypto R.cfg.limits.maxDevices a.ledger) :
    Membership R.crypto R.cfg.limits.maxDevices b.ledger := by
  have hok := enrollCheck_ok h.checked
  have hgrows := h.moves.steps.grows
  have hfiles {k : Kind} {x : Json} (m) (hmem) (hbrings : Move.brings m = some (k, x))
      (hk : k ≠ .snapshotPart) : b.ledger.Filed R.crypto k x := h.moves.steps.files (m := m) hmem
    hbrings hk
  have hmoves : Steps R.crypto ([_] ++ _) a.ledger b.ledger := h.moves.steps
  obtain ⟨N, henlist, hlogs⟩ := hmoves.of_append
  have hsteady : Steady N b.ledger := hlogs.steady fun m hmem => by
    obtain hmem | hmem := List.mem_append.mp hmem <;>
      obtain ⟨_, -, rfl⟩ := List.mem_map.mp hmem <;> rfl
  obtain _ | ⟨hstep, hnil⟩ := henlist
  obtain _ | _ := hnil
  obtain ⟨hkept, hjoined⟩ := hstep.enlist_seats hs
  have hterms : SameTerms a.ledger N := hstep.sameTerms rfl
  have hepoch : b.ledger.chain.epoch = a.ledger.chain.epoch := hsteady.epoch.trans hterms.epoch
  have hgen : b.ledger.chain.generation = a.ledger.chain.generation := by
    rw [Chain.generation, hsteady.parameters, hterms.parameters, Chain.generation]
  have hlog : b.ledger.chain.logId = a.ledger.chain.logId := hsteady.logId.trans hterms.logId
  have hseats : ∀ id row, b.ledger.Seat id row →
      (∃ row', a.ledger.Seat id row' ∧ row.generation = row'.generation ∧
        row.enrolledSeq = row'.enrolledSeq) ∨
      id = s (v.get "device_record") "device_id" ∧
        row.generation = n (v.get "device_record") "generation" ∧
        row.enrolledSeq = a.ledger.chain.headSeq + 1 := fun id row hseat => by
    obtain ⟨row', hseat', hsame, hseq⟩ := hsteady.seats id row hseat
    obtain hold | ⟨hid, hgen', hseq'⟩ := hjoined id row' hseat'
    · exact .inl ⟨row', hold, hsame, hseq⟩
    · exact .inr ⟨hid, hsame.trans hgen', hseq.trans hseq'⟩
  refine ⟨fun id row hseat => ?_, fun id hid => ?_, ?_, fun id row hseat => ?_, ?_,
    fun ids hn hids => ?_⟩
  · rw [hgen]
    obtain ⟨row', hseat', hsame, -⟩ | ⟨-, hnew, -⟩ := hseats id row hseat
    · exact hsame.trans (hm.current id row' hseat')
    · exact hnew.trans hok.device.generation
  · rw [hepoch] at hid
    obtain ⟨row, hseat⟩ := hm.members id hid
    exact hsteady.kept id row (hkept id row hseat)
  · obtain ⟨rr, hrr, hlater⟩ := hm.placed
    refine ⟨rr, by rw [hepoch]; exact hgrows.receipts _ rr hrr, fun id row hseat hnot hl => ?_⟩
    rw [hepoch] at hnot
    rw [hlog] at hl
    obtain ⟨row', hseat', -, hseq⟩ | ⟨-, -, hseq⟩ := hseats id row hseat
    · rw [hseq]
      exact hlater id row' hseat' hnot hl
    · have hmem := Table.mem_of_find? hrr
      have hkey : rr.key = _ := Table.key_of_find? hrr
      have hkind : rr.kind = .epoch := congrArg Prod.fst hkey
      cases hrseq : rr.seq with
      | none =>
          have hpart := (hs.receipts rr hmem).part.mp hrseq
          rw [hkind] at hpart
          cases hpart
      | some i =>
          have hle := hs.receipt_le hmem hl hrseq
          exact ⟨i, rfl, by omega⟩
  · obtain ⟨row', hseat', -⟩ | ⟨rfl, -⟩ := hseats id row hseat
    · obtain ⟨e, d, hd⟩ := hm.served id row' hseat'
      exact ⟨e, d, hd.mono hgrows hepoch⟩
    · obtain hf | ⟨e, he, hkind, hto, hnow, hkey⟩ := enrollmentEnvelopes_current hok.envelopes
      · cases hf
      · refine ⟨e, v.get "device_record", rfl, hfiles (.enlist .pendingKeys _) (by simp) rfl
          (by simp), hfiles (.log .envelope e) ?_ rfl (by simp), hkind, hto,
          by rw [hepoch]; exact hnow, hkey⟩
        exact List.mem_append_left _ (List.mem_cons_of_mem _ (List.mem_map_of_mem he))
  · obtain ⟨e, he⟩ := hm.recovered
    exact ⟨e, he.mono hgrows hepoch⟩
  · have hsub : ids.erase (s (v.get "device_record") "device_id") ⊆
        ((a.store.registry.select fun r =>
          r.generation == a.chain.generation && r.status != .revoked).map (·.deviceId)) := by
      intro id hid
      obtain ⟨row, hseat⟩ := hids id (List.mem_of_mem_erase hid)
      obtain ⟨row', hseat', -⟩ | ⟨rfl, -⟩ := hseats id row hseat
      · refine List.mem_map.mpr ⟨row', Table.mem_select.mpr ⟨Table.mem_of_find? hseat'.1, ?_⟩,
          Table.key_of_find? hseat'.1⟩
        have hcur : row'.generation = a.chain.generation := hm.current id row' hseat'
        simp [hcur, hseat'.2]
      · exact absurd hid hn.not_mem_erase
    have hle := (List.subperm_of_subset (hn.erase _) hsub).length_le
    have hlt := hok.limit
    rw [Table.count] at hlt
    rw [List.length_map, List.length_erase] at hle
    split at hle <;> omega

end Enrollments

/-! ## Genesis, epochs and re-seeds -/

section Epochs

variable {R : Relay} {v : Json} {a mid b : Cell} {c : Chain}

theorem length_strings (key : String) : (strings v key).length = (PallaSync.a v key).length :=
  List.length_map _

/-- A checked epoch leaves its members seated and served. -/
theorem Rotated.membership {auth : Auth} {device : Option String}
    (h : Rotated R auth v device a b) (hs : Sound R.crypto a.ledger)
    (hm : Membership R.crypto R.cfg.limits.maxDevices a.ledger) :
    Membership R.crypto R.cfg.limits.maxDevices b.ledger := by
  have hok := epochCheck_ok h.checked
  obtain ⟨M, M', entry, r, hc⟩ := h.committed
  have hready : Ready R.crypto a.store a.chain (epochCommit v) false a.ledger :=
    { sound := hs
      grows := .refl _
      registry := rfl
      generation := rfl
      bundle := hok.bundle
      staged := fun d hd => (hok.devices d hd).generation
      existing := fun id row hseat => mem_existingDevices.mpr
        ⟨row, hseat.1, hseat.2, rfl, .inr (hm.current id row hseat)⟩ }
  exact hready.membership hc ((length_strings "members").trans_le hok.limit)

/-- Genesis seats its device. -/
theorem Begun.membership (h : Begun R v c a b) (hb : (a.store.ledger c).Bare) :
    Membership R.crypto R.cfg.limits.maxDevices b.ledger := by
  obtain ⟨logId, tid, notice, hc⟩ := h.chain
  obtain ⟨M₀, M, M', M₁, entry, r, ms, hp, hcom, hms, hev⟩ := h.moves
  obtain ⟨hdevice, hbundle⟩ := genesisCheck_ok h.checked
  have hfirst : Steady (a.store.ledger c) M₀ := hp.steady (by simp [Move.steady])
  have hready : Ready R.crypto a.store c (genesisCommit v) false M₀ :=
    { sound := Sound.found hb (by rw [hc]; rfl)
      grows := hfirst.grows
      registry := hp.logs_registry [_]
      generation := by rw [Chain.generation, hfirst.parameters, Chain.generation]; rfl
      bundle := hbundle
      staged := fun d hd => by
        obtain rfl := List.mem_singleton.mp hd
        exact hdevice.generation
      existing := fun id row hseat => by
        rw [Ledger.Seat, hb.registry] at hseat
        cases hseat.1 }
  have hlast : Steady M₁ b.ledger := hev.steady fun m hm => by
    have hevidence := hms m hm
    cases m with
    | evidence _ _ => rfl
    | _ => exact hevidence.elim
  exact hlast.membership (hready.membership hcom
    ((hbundle.length_members (.inl rfl)).trans_le R.cfg.limits.devices_le.1))

/-- The epoch of a re-seed is checked once the staged devices are adopted. -/
theorem Reseeded.ready {imported : Import} {M₀ : Ledger} (h : Reseeded R v imported c a mid b)
    (hs : Sound R.crypto a.ledger)
    (hp : Steps R.crypto [.log .parameters (v.get "parameters")] mid.ledger M₀) :
    Ready R.crypto mid.store mid.chain (reseedCommit v) true M₀ := by
  have hok := reseedCheck_ok h.checked
  have hfree := h.fresh hs
  have hs₀ : Sound R.crypto (a.store.ledger c) := by
    obtain ⟨notice, rfl⟩ := h.chain
    exact hs.reincarnate hok.chainId hfree
  have hadopted : Ordinary R.crypto (a.store.ledger c) mid.ledger :=
    h.adopted.ordinary fun _ _ hq => Move.ordinary_of_logs hq.logs
  have hgen : mid.chain.generation = c.generation := by
    rw [Chain.generation, Chain.generation]
    exact congrArg (n · "generation") hadopted.sameTerms.parameters
  have hfirst : Steady mid.ledger M₀ := hp.steady (by simp [Move.steady])
  exact
    { sound := h.adopted.sound hs₀
      grows := hfirst.grows
      registry := hp.logs_registry [_]
      generation := by rw [Chain.generation, hfirst.parameters, Chain.generation]; rfl
      bundle := reseedEpochCheck_ok h.epochChecked
      staged := fun d hd => by
        rw [hgen]
        exact (stagedDeviceCheck_ok (h.devices d hd)).generation
      existing := fun id row hseat => mem_existingDevices.mpr
        ⟨row, hseat.1, hseat.2, rfl, .inl rfl⟩ }

/-- A re-seed empties every seat there was and seats the devices of its
request, whoever was adopted in between. -/
theorem Reseeded.membership {imported : Import} (h : Reseeded R v imported c a mid b)
    (hs : Sound R.crypto a.ledger) : Membership R.crypto R.cfg.limits.maxDevices b.ledger := by
  have hok := reseedCheck_ok h.checked
  obtain ⟨M₀, M, M', entry, r, done, hp, hcom, -, hcomp⟩ := h.moves
  have hready := h.ready hs hp
  exact (hcomp.steady (by simp [Move.steady])).membership (hready.membership hcom
    ((hready.bundle.length_members (.inr rfl)).trans_le hok.limit))

end Epochs

/-! ## Commits -/

section Commits

variable {R : Relay} {id : String} {st st' : Store} {a mid b : Cell} {call : Call}
  {cause : Option Call} {index : Nat} {r : Json}

theorem Moves.steady {X : Crypto} {ms : List Move} (h : Moves X ms a b)
    (hms : ∀ m ∈ ms, m.steady = true) : Steady a.ledger b.ledger :=
  h.steps.steady hms

theorem Move.steady_of_isEvidence {m : Move} (h : m.isEvidence) : m.steady = true := by
  cases m with
  | evidence op digest => rfl
  | _ => exact h.elim

theorem ItemMoved.steady (h : ItemMoved R call index r a b) : Steady a.ledger b.ledger := by
  cases h with
  | envelope _ _ hm => exact hm.steady (by simp [Move.steady])
  | repair _ _ hm => exact hm.steady (by simp [Move.steady])
  | part _ _ hm => exact hm.steady (by simp [Move.steady])
  | record _ _ _ _ _ hm => exact hm.steady (by simp [Move.steady])

theorem Path.steady {X : Crypto} {v : Json} (h : Path X (Stages X v) a b) :
    Steady a.ledger b.ledger := by
  obtain ⟨ms, hg⟩ := h.guided
  obtain ⟨hsteps, hms⟩ := hg.steps_of (C := fun m => m.steady = true) fun m L hq => by
    cases m with
    | stage _ _ => rfl
    | _ => exact hq.elim
  exact hsteps.steady hms

/-- The invariant of a chain that takes requests. -/
def Ledger.Manned (X : Crypto) (max : Nat) (L : Ledger) : Prop :=
  L.chain.writable = true → Membership X max L

theorem Steady.manned {X : Crypto} {max : Nat} {L L' : Ledger} (h : Steady L L')
    (hm : L.Manned X max) : L'.Manned X max := fun hw =>
  h.membership (hm (h.writable ▸ hw))

/-- A mutation keeps the invariant; a re-seed does so from a chain that took no
requests before. -/
theorem Mutated.manned (h : Mutated R call a b) (hdel : b.store.deletion = none)
    (hs : Sound R.crypto a.ledger) (hm : a.ledger.Manned R.crypto R.cfg.limits.maxDevices) :
    b.ledger.Manned R.crypto R.cfg.limits.maxDevices := by
  cases h with
  | still h =>
      rw [h.ledger]
      exact hm
  | @enrolled request mid _ h hst =>
      intro hw
      rw [hst.ledger] at hw ⊢
      have hterms := (h.moves.ordinary fun m hmem => by
        simp only [List.cons_append, List.mem_cons, List.mem_append, List.mem_map] at hmem
        obtain rfl | ⟨_, -, rfl⟩ | ⟨_, -, rfl⟩ := hmem <;> rfl).sameTerms
      exact h.membership hs (hm (hterms.writable ▸ hw))
  | rotated _ h =>
      intro hw
      obtain ⟨M, M', entry, r, hc⟩ := h.committed
      obtain ⟨N, hN, hb⟩ := hc.split
      rw [hb] at hw
      exact h.membership hs (hm (hN.sameTerms.writable ▸ hw))
  | acknowledged _ h => exact (h.moves.steady (by simp [Move.steady])).manned hm
  | snapshotted _ h => exact (h.moves.steady (by simp [Move.steady])).manned hm
  | pruned _ _ h =>
      refine ((h.first.steady (by simp [Move.steady])).trans
        (h.second.steady fun m hmem => ?_)).manned hm
      simp only [List.append_assoc, List.mem_append, List.mem_map, List.mem_singleton] at hmem
      obtain ⟨_, -, rfl⟩ | ⟨_, -, rfl⟩ | rfl := hmem <;> rfl
  | reseeded _ _ h => exact fun _ => h.membership hs
  | deleted _ hd _ _ => exact absurd (hdel.symm.trans hd) (by simp)

/-- The law of a store, chain row by chain row. -/
def Store.Manned (X : Crypto) (max : Nat) (st : Store) : Prop :=
  ∀ c, st.chain = some c → (st.ledger c).Manned X max

theorem Store.Manned.still {X : Crypto} {max : Nat} (hm : st.Manned X max)
    (h : Still st.cell b) : b.store.Manned X max := fun c hc => by
  rw [Store.ledger_congr h.ledger]
  exact hm c (h.chain ▸ hc)

theorem Store.Manned.saved {X : Crypto} {max : Nat} (h : mid.ledger.Manned X max)
    (hs : Saved mid b) : b.store.Manned X max := fun c hc => by
  obtain rfl := Option.some.inj (hs.stored.symm.trans hc)
  rw [show b.store.ledger b.chain = mid.ledger from hs.ledger]
  exact h

theorem Store.cell_of_chain {c : Chain} (hc : st.chain = some c) : st.cell = ⟨st, c⟩ := by
  rw [Store.cell, hc]
  rfl

theorem Executed.manned (h : Executed R call st.cell b) (hdel : b.store.deletion = none)
    (hst : st.Holds (Settled R.crypto id)) (hdel₀ : st.deletion = none)
    (hm : st.Manned R.crypto R.cfg.limits.maxDevices) :
    b.store.Manned R.crypto R.cfg.limits.maxDevices := by
  cases h with
  | @begun c _ h =>
      intro c' hc'
      obtain rfl := Option.some.inj (h.stored.symm.trans hc')
      have hb := hst.bare hdel₀ h.absent
      exact fun _ => h.membership
        ⟨hb.objects, hb.registry, hb.log, hb.receipts, hb.transparency, hb.handoffs⟩
  | repeated _ h => exact hm.still h
  | imported _ _ h =>
      intro c' hc'
      rcases h.row with ⟨-, hstill⟩ | ⟨-, hstaged⟩
      · have hc : st.chain = some c' := by
          rw [← hc', hstill.chain, h.path.unsaved.chain]
        have hsteady := h.path.steady
        rw [Store.cell_of_chain hc] at hsteady
        rw [Store.ledger_congr hstill.ledger]
        have hmid := (h.path.staged c').1
        rw [Store.cell_of_chain hc] at hmid
        have hm' := hsteady.manned (hm c' hc)
        rw [Cell.ledger, hmid] at hm'
        exact hm'
      · obtain rfl := Option.some.inj (hstaged.stored.symm.trans hc')
        obtain ⟨logId, tid, notice, hrow⟩ := hstaged.chain
        intro hw
        rw [Store.ledger_chain, hrow] at hw
        cases hw
  | read _ _ h => exact hm.still h
  | mutated _ hadm h hs =>
      obtain ⟨c, hc, -⟩ := hadm.stored
      rw [Store.cell_of_chain hc] at h
      exact .saved (h.manned (hs.deletion ▸ hdel) (hst.ledger hdel₀ hc).sound (hm c hc)) hs

theorem Commit.manned (h : Commit R cause st st') (hdel : st'.deletion = none)
    (hst : st.Holds (Settled R.crypto id))
    (hm : st.deletion = none → st.Manned R.crypto R.cfg.limits.maxDevices) :
    st'.Manned R.crypto R.cfg.limits.maxDevices := by
  cases h with
  | execute hdel₀ h => exact h.manned hdel hst hdel₀ (hm hdel₀)
  | item hc hdel₀ _ h hs =>
      obtain ⟨c, hc⟩ := Option.isSome_iff_exists.mp hc
      rw [Store.cell_of_chain hc] at h
      exact .saved (h.steady.manned (hm hdel₀ c hc)) hs
  | evidence hc hms h hs =>
      obtain ⟨c, hc⟩ := Option.isSome_iff_exists.mp hc
      have hdel₀ : st.deletion = none := h.deletion.symm.trans (hs.deletion.symm.trans hdel)
      rw [Store.cell_of_chain hc] at h
      exact .saved ((h.steady fun m hmem => Move.steady_of_isEvidence (hms m hmem)).manned
        (hm hdel₀ c hc)) hs
  | enrollment hdel₀ h => exact (hm hdel₀).still h
  | expire hc h =>
      obtain ⟨c, hc⟩ := Option.isSome_iff_exists.mp hc
      have hdel₀ : st.deletion = none := h.deletion.symm.trans hdel
      rw [Store.cell_of_chain hc] at h
      intro c' hc'
      obtain rfl := Option.some.inj (hc.symm.trans (h.chain.symm.trans hc'))
      have hsteady := h.steady fun m hmem => by
        obtain ⟨_, -, rfl⟩ := List.mem_map.mp hmem
        rfl
      have hm' := hsteady.manned (hm hdel₀ c hc)
      have hchain := h.steps.expire_chain
      rw [Store.ledger_chain] at hchain
      rw [Cell.ledger, hchain] at hm'
      exact hm'
  | erase =>
      by_cases hdel₀ : st.deletion = none
      · rw [erase_still hdel₀]
        exact hm hdel₀
      · refine absurd ?_ hdel₀
        rw [← hdel]
        unfold Store.erase
        split <;> rfl
  | finish h =>
      obtain ⟨rfl, hdel₀⟩ := finish_still h hdel
      exact hm hdel₀

end Commits

/-! ## Runs -/

/-- The invariant holds of every writable chain at any time. -/
theorem store_manned (X : Crypto) (cfg : RelayConfig) (es : List Event) (id : String)
    (hdel : (storeAfter X cfg es id).deletion = none) :
    (storeAfter X cfg es id).Manned X cfg.limits.maxDevices := by
  refine (store_invariant (P := fun st => st.Holds (Settled X id) ∧
    (st.deletion = none → st.Manned X cfg.limits.maxDevices)) ⟨blank_holds _, fun _ c hc => ?_⟩
    (fun R cause st st' hc hst => ⟨?_, fun hdel' => ?_⟩) es).2 hdel
  · cases hc
  · exact (hc.holds (P := fun _ => True) (fun _ _ _ _ _ => trivial)
      (fun _ _ _ _ _ _ _ _ _ => trivial) (hst.1.imp fun _ h => ⟨h, trivial⟩)).imp fun _ h => h.1
  · obtain rfl := hc.crypto
    rw [← hc.limits]
    exact hc.commit.manned hdel' hst.1 (hc.limits ▸ hst.2)

end PallaSync
