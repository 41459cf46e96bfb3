import PallaSync.Recoverable

/-!
# Who holds the keys

A recovery envelope comes with the epoch that names its hash: in a bundle, or
with an import, once that epoch is stored (`recovery_appointed`). So there is one
recovery envelope to an epoch. A device that is not revoked stands in the
current log at the position its registry row gives (`store_seated`): a re-seed
revokes all whom it found. With what `Membership` says of the seats this is who
holds the keys of the current epoch (`keys_held`), under one disclosure: a
changed one may lower the limit below what the registry has (`limit_lowered`).
-/

namespace PallaSync

open Atomic Machine

/-! ## Recovery envelopes -/

/-- The epoch, which is that of the chain or stored, is on file and names the
recovery envelope `e`. -/
structure Ledger.Names (X : Crypto) (L : Ledger) (e epoch : Json) : Prop where
  known : L.chain.epoch = epoch ∨ ∃ id o, L.objects.find? (.epoch, id) = some o ∧
    o.body = some epoch
  filed : L.Filed X .epoch epoch
  number : n epoch "epoch" = n e "epoch"
  hash : X.objectHash e = s epoch "recovery_envelope_hash"

/-- A recovery envelope that is held in `L'` was held in `L`, or is named. -/
def Introduces (X : Crypto) (L L' : Ledger) : Prop :=
  ∀ e, L'.Has .envelope e → s e "recipient_kind" = "recovery" →
    L.Has .envelope e ∨ ∃ epoch, L'.Names X e epoch

section Recovery

variable {X : Crypto} {R : Relay} {L L' M M' : Ledger} {v e epoch : Json} {a b mid : Cell}

theorem Ledger.Names.later (h : L.Names X e epoch) (hg : Grows L L')
    (hepoch : L'.chain.epoch = L.chain.epoch) : L'.Names X e epoch := by
  refine ⟨?_, h.filed.mono hg, h.number, h.hash⟩
  obtain hcurrent | ⟨id, o, ho, hb⟩ := h.known
  · exact .inl (hepoch.trans hcurrent)
  · obtain ⟨o', ho', hb'⟩ := hg.body (by simp [Kind.removable]) ho hb
    exact .inr ⟨id, o', ho', hb'⟩

/-- Moves that bring no recovery envelope. -/
theorem Steps.introduces {ms : List Move} (h : Steps X ms L L')
    (hms : ∀ m ∈ ms, ∀ e, m.brings = some (.envelope, e) → s e "recipient_kind" ≠ "recovery") :
    Introduces X L L' := fun e he hkind => by
  obtain hold | ⟨m, hm, hb⟩ := h.has he
  · exact .inl hold
  · exact absurd hkind (hms m hm e hb)

theorem Introduces.trans (h : Introduces X L M) (h' : Introduces X M L') (hg : Grows M L')
    (hepoch : L'.chain.epoch = M.chain.epoch) : Introduces X L L' := fun e he hkind => by
  obtain hold | hnew := h' e he hkind
  · exact (h e hold hkind).imp_right fun ⟨epoch, hnames⟩ => ⟨epoch, hnames.later hg hepoch⟩
  · exact .inr hnew

theorem importedEnvelope_ok {st : Store} {e : Json} (h : importedEnvelope X st e = .ok ()) :
    ∃ epoch, st.object .epoch (toString (n e "epoch")) = some epoch ∧
      (s e "recipient_kind" = "recovery" → X.objectHash e = s epoch "recovery_envelope_hash") := by
  simp only [importedEnvelope, Check.bind_ok, Check.require_ok, Check.failIf_ok,
    Bool.and_eq_false_iff, beq_eq_false_iff_ne, bne_eq_false_iff_eq] at h
  obtain ⟨epoch, hepoch, _, -, hrecovery⟩ := h
  exact ⟨epoch, hepoch, fun hkind => hrecovery.resolve_left fun hne => hne hkind⟩

/-- The epoch that a store shows is on file under its own number. -/
theorem Sound.filed_epoch {k : Nat} {st : Store} (hs : Sound X L) (hst : st.objects = L.objects)
    (h : st.object .epoch (toString k) = some epoch) :
    (∃ id o, L.objects.find? (.epoch, id) = some o ∧ o.body = some epoch) ∧
      L.Filed X .epoch epoch ∧ n epoch "epoch" = k := by
  obtain ⟨o, ho, hb⟩ := object_eq_some.mp h
  rw [hst] at ho
  have hkey : o.key = (.epoch, toString k) := Table.key_of_find? ho
  obtain ⟨hkind, hid⟩ := Prod.mk.inj hkey
  obtain ⟨hhash, hobjid⟩ := (hs.object_of_find? ho).body epoch hb
  rw [hkind, hid] at hobjid
  exact ⟨⟨_, o, ho, hb⟩, ⟨o, hobjid ▸ ho, hhash.symm⟩, toString_inj hobjid⟩

/-- An envelope is staged once its epoch is stored. -/
theorem Guided.introduces {ms : List Move} (hg : Guided X (Stages X v) ms L L') (hs : Sound X L) :
    Introduces X L L' := by
  induction hg with
  | nil => exact fun _ he _ => .inl he
  | @cons m ms L M L' hq hm hrest ih =>
      have hsteps := (hrest.steps_of (C := fun _ => True) fun _ _ _ => trivial).1
      obtain ⟨hc, -⟩ := hrest.over .unset
      refine Introduces.trans (fun e he hkind => ?_) (ih (hs.step hm)) hsteps.grows
        (congrArg Chain.epoch hc)
      obtain hold | hb := hm.has he
      · exact .inl hold
      · cases m with
        | stage kind obj =>
            cases hb
            obtain ⟨st, hst, hok⟩ := hq.2 rfl
            obtain ⟨epoch, hepoch, hrecovery⟩ := importedEnvelope_ok hok
            obtain ⟨⟨id, o, ho, hbody⟩, hfiled, hnumber⟩ := hs.filed_epoch hst hepoch
            obtain ⟨o', ho', hbody'⟩ := hm.grows.body (by simp [Kind.removable]) ho hbody
            exact .inr ⟨epoch, .inr ⟨id, o', ho', hbody'⟩, hfiled.mono hm.grows, hnumber,
              hrecovery hkind⟩
        | _ => exact hq.elim

theorem bundleEnvelopes_named {st : Store} {c : Chain} {epoch : Json} {staged es : List Json}
    {members ids recipients : List String} {recovery x : Bool}
    (h : bundleEnvelopes X st c epoch staged members es ids recipients recovery = .ok x) :
    ∀ e ∈ es, n e "epoch" = n epoch "epoch" ∧
      (s e "recipient_kind" = "recovery" → X.objectHash e = s epoch "recovery_envelope_hash") := by
  induction es generalizing ids recipients recovery with
  | nil => exact fun e he => absurd he List.not_mem_nil
  | cons e es ih =>
      simp only [bundleEnvelopes, Check.bind_ok] at h
      obtain ⟨_, he, _, -, h⟩ := h
      have hnumber : n e "epoch" = n epoch "epoch" := by
        rw [n, n, (envelope_ok he).agrees "epoch" (by simp [epochKeys])]
      obtain ⟨-, h⟩ | ⟨hkind, h⟩ := Check.ite_ok.mp h
      · simp only [Check.bind_ok, Check.failIf_ok, Bool.or_eq_false_iff, bne_eq_false_iff_eq] at h
        obtain ⟨_, ⟨-, hhash⟩, h⟩ := h
        exact List.forall_mem_cons.mpr ⟨⟨hnumber, fun _ => hhash⟩, ih h⟩
      · obtain ⟨_, -, h⟩ := Check.bind_ok.mp h
        exact List.forall_mem_cons.mpr ⟨⟨hnumber, fun hr => absurd hr hkind⟩, ih h⟩

theorem BundleOk.named {st : Store} {c : Chain} {epoch : Json} {envelopes staged : List Json}
    {genesis reseed : Bool} (h : BundleOk X st c epoch envelopes staged genesis reseed) :
    ∀ e ∈ envelopes, n e "epoch" = n epoch "epoch" ∧
      (s e "recipient_kind" = "recovery" →
        X.objectHash e = s epoch "recovery_envelope_hash") := by
  obtain ⟨_, -, -, -, henv⟩ := h.members
  exact bundleEnvelopes_named henv

/-- The envelopes of a commit come with the epoch that names them. -/
theorem Committed.introduces {commit : EpochCommit} {entry : Option LogEntry} {r : Receipt}
    {st : Store} {c : Chain} {genesis reseed : Bool}
    (h : Committed X commit L M M' L' entry r)
    (hok : BundleOk X st c commit.epoch commit.envelopes commit.staged genesis reseed)
    (hepoch : commit.epoch = v.get "epoch") (henv : commit.envelopes = PallaSync.a v "envelopes")
    (hstaged : ∀ d ∈ commit.staged,
      d = v.get "device_record" ∨ d ∈ PallaSync.a v "device_records") :
    Introduces X L L' := fun e he hkind => by
  refine (h.has hepoch henv hstaged he).imp_right fun hcarried => ?_
  have hmem : e ∈ commit.envelopes := henv ▸ hcarried.envelope rfl
  obtain ⟨hnumber, hhash⟩ := hok.named e hmem
  exact ⟨_, .inl h.epoch, h.steps.files (m := .log .epoch commit.epoch) (by simp) rfl (by simp),
    hnumber.symm, hhash hkind⟩

theorem enrollmentEnvelopes_devices {st : Store} {c : Chain} {d : Json} {es : List Json}
    {ids : List String} {current x : Bool}
    (h : enrollmentEnvelopes X st c d es ids current = .ok x) :
    ∀ e ∈ es, s e "recipient_kind" = "device" := by
  induction es generalizing ids current with
  | nil => exact fun e he => absurd he List.not_mem_nil
  | cons e es ih =>
      simp only [enrollmentEnvelopes, enrollmentEnvelope, Check.bind_ok, Check.failIf_ok,
        Bool.or_eq_false_iff, bne_eq_false_iff_eq] at h
      obtain ⟨_, ⟨⟨hkind, -⟩, -⟩, _, -, h⟩ := h
      exact List.forall_mem_cons.mpr ⟨hkind, ih h⟩

end Recovery

/-! ## Seats in the log -/

/-- A device that is not revoked has its entry in the current log, where its row
says; the devices in `P` are left out. -/
def Ledger.Seated (P : String → Prop) (L : Ledger) : Prop :=
  ∀ id row, L.Seat id row → P id ∨ ∃ rr, L.receipts.find? (.device, id) = some rr ∧
    rr.logId = L.chain.logId ∧ rr.seq = some row.enrolledSeq

/-- The moves that put another chain row in place. -/
def Move.relogs : Move → Bool
  | .found _ | .reincarnate .. => true
  | _ => false

section Seats

variable {X : Crypto} {P : String → Prop} {L L' : Ledger} {id : String}

theorem Ledger.Seated.later (h : L.Seated P) (hg : Grows L L')
    (hlog : L'.chain.logId = L.chain.logId)
    (hseats : ∀ id row', L'.Seat id row' → (∃ row, L.Seat id row ∧
        row'.enrolledSeq = row.enrolledSeq) ∨
      ∃ rr, L'.receipts.find? (.device, id) = some rr ∧ rr.logId = L'.chain.logId ∧
        rr.seq = some row'.enrolledSeq) : L'.Seated P := fun id row' hseat => by
  obtain ⟨row, hold, hseq⟩ | hnew := hseats id row' hseat
  · refine (h id row hold).imp_right fun ⟨rr, hrr, hl, hrow⟩ => ?_
    exact ⟨rr, hg.receipts _ rr hrr, hl.trans hlog.symm, hseq ▸ hrow⟩
  · exact .inr hnew

theorem Step.seated {m : Move} (h : Step X m L L') (hs : Sound X L) (hm : m.relogs = false)
    (hL : L.Seated P) : L'.Seated P := by
  have hsteady : m.steady = true → L'.Seated P := fun hm => by
    have hst := h.steady hm
    refine hL.later hst.grows hst.logId fun id row' hseat => ?_
    obtain ⟨row, hrow, -, hseq⟩ := hst.seats id row' hseat
    exact .inl ⟨row, hrow, hseq⟩
  have hg := h.grows
  cases h with
  | log _ _ | partAgain | part _ | evidence _ | stage _ _ | activate _ | prune _ _ _ _
  | handoff _ _ | expire _ _ _ _ => exact hsteady rfl
  | enlist hl hr =>
      obtain ⟨e, te, rfl, hf⟩ := hs.enrolled.fresh hl hr
      refine hL.later hg ?_ fun id row' hseat => ?_
      · rw [hr.rest, hl.chain_keeps.1]
      · obtain ⟨hrow, hlive⟩ := hseat
        rw [hr.find?] at hrow
        split at hrow
        · rename_i hid
          obtain rfl := Option.some.inj hrow
          refine .inr ⟨_, by rw [hr.rest, hf.receipted.find?, if_pos (by rw [hid]; rfl)], ?_, ?_⟩
          · rw [hr.rest, hf.chain]
          · exact congrArg some hf.entrySeq.symm
        · exact .inl ⟨row', ⟨hf.registry ▸ hrow, hlive⟩, rfl⟩
  | @revoke seq gone _ _ hw =>
      refine hL.later hg (by rw [hw.rest]) fun id row' hseat => ?_
      have hone : Steps X ([gone].map (.revoke seq)) L L' := .single (.revoke hw)
      exact .inl ⟨row', (hone.revoked_seats.mp hseat).1, rfl⟩
  | setEpoch => exact hL
  | found _ _ | reincarnate _ _ => cases hm

theorem Steps.seated {ms : List Move} (h : Steps X ms L L') (hs : Sound X L)
    (hms : ∀ m ∈ ms, m.relogs = false) (hL : L.Seated P) : L'.Seated P := by
  induction h with
  | nil => exact hL
  | cons hm _ ih =>
      obtain ⟨hfirst, hrest⟩ := List.forall_mem_cons.mp hms
      exact ih (hs.step hm) hrest (hm.seated hs hfirst hL)

/-- A device that is enlisted was not registered before. -/
theorem Steps.enlists_new {status : Status} {ds : List Json} {d : Json}
    (h : Steps X (ds.map (.enlist status)) L L') (hd : d ∈ ds) :
    L.registry.find? (s d "device_id") = none := by
  obtain ⟨ds₁, ds₂, rfl⟩ := List.append_of_mem hd
  rw [List.map_append, List.map_cons] at h
  obtain ⟨N, N', hfirst, hstep, -⟩ := h.around
  cases hstep with
  | enlist hl hr =>
      rw [← Option.not_isSome_iff_eq_none]
      intro hsome
      have hin := hfirst.registered hsome
      rw [← hl.registry, hr.free] at hin
      cases hin

end Seats

/-! ## Logs -/

/-- The log is the same, and what was accepted since is in it. -/
structure SameLog (L L' : Ledger) : Prop where
  logId : L'.chain.logId = L.chain.logId
  receipts : ∀ q rr, L'.receipts.find? q = some rr →
    L.receipts.find? q = some rr ∨ rr.logId = L'.chain.logId

/-- A log with entries that is the current one was the current one before: once
left, it is not taken up again. -/
structure Remains (L L' : Ledger) : Prop where
  grows : Grows L L'
  logId : ∀ q row, L.log.find? q = some row → L'.chain.logId = q.1 → L.chain.logId = q.1

section Logs

variable {X : Crypto} {R : Relay} {cause : Option Call} {L M L' : Ledger} {a : Cell}

theorem SameLog.of_receipts (hl : L'.chain.logId = L.chain.logId)
    (hr : L'.receipts = L.receipts) : SameLog L L' :=
  ⟨hl, fun _ _ h => .inl (hr ▸ h)⟩

theorem SameLog.trans (h : SameLog L M) (h' : SameLog M L') : SameLog L L' := by
  refine ⟨h'.logId.trans h.logId, fun q rr hrr => ?_⟩
  obtain hmid | hnew := h'.receipts q rr hrr
  · exact (h.receipts q rr hmid).imp_right fun hl => hl.trans h'.logId.symm
  · exact .inr hnew

theorem Receipted.sameLog {k : Kind} {v : Json} {seq : Option Nat} {eh : Option String}
    {previous : String} {r : Receipt}
    (h : Receipted X k v seq eh previous r L'.chain L.receipts L'.receipts)
    (hl : L'.chain.logId = L.chain.logId) : SameLog L L' := by
  refine ⟨hl, fun q rr hrr => ?_⟩
  rw [h.find?] at hrr
  split at hrr
  · obtain rfl := Option.some.inj hrr
    exact .inr rfl
  · exact .inl hrr

theorem Logged.sameLog {k : Kind} {v : Json} {entry : Option LogEntry} {r : Receipt}
    (h : Logged X k v entry r L L') : SameLog L L' := by
  cases h with
  | again _ => exact .of_receipts rfl rfl
  | fresh hf => exact Receipted.sameLog (hf.chain ▸ hf.receipted) (by rw [hf.chain]; rfl)

theorem Step.sameLog {m : Move} (h : Step X m L L') (hm : m.relogs = false) :
    SameLog L L' := by
  cases h with
  | log _ hl => exact hl.sameLog
  | enlist hl hr => exact hl.sameLog.trans (.of_receipts (by rw [hr.rest]) (by rw [hr.rest]))
  | partAgain | setEpoch => exact .of_receipts rfl rfl
  | part hp => exact Receipted.sameLog (hp.chain ▸ hp.receipted) (by rw [hp.chain]; rfl)
  | evidence hw => exact .of_receipts hw.sameTerms.logId hw.receipts
  | stage _ hs => exact .of_receipts (by rw [hs.rest]) (by rw [hs.rest])
  | revoke hw | activate hw => exact .of_receipts (by rw [hw.rest]) (by rw [hw.rest])
  | prune hb _ _ _ hc => exact .of_receipts (by rw [hc]) hb.receipts
  | handoff _ he => exact .of_receipts (by rw [he]) (by rw [he])
  | expire _ hb _ hc => exact .of_receipts (by rw [hc]) hb.receipts
  | found _ _ | reincarnate _ _ => cases hm

theorem Steps.sameLog {ms : List Move} (h : Steps X ms L L')
    (hms : ∀ m ∈ ms, m.relogs = false) : SameLog L L' :=
  h.preserves (P := SameLog L) (fun _ _ _ hm hs hL => hL.trans (hs.sameLog hm)) hms
    (.of_receipts rfl rfl)

theorem Ordinary.sameLog (h : Ordinary X L L') : SameLog L L' := by
  obtain ⟨ms, hms, hs⟩ := h
  refine hs.sameLog fun m hm => ?_
  have hord := hms m hm
  cases m <;> first | rfl | cases hord

/-- What a passage accepts is in the log that it leaves. -/
theorem Passage.receipts (h : Passage R cause a L') {q : Kind × String} {rr : ReceiptRow}
    (hrr : L'.receipts.find? q = some rr) :
    a.ledger.receipts.find? q = some rr ∨ rr.logId = L'.chain.logId := by
  cases h with
  | ordinary ho => exact ho.sameLog.receipts q rr hrr
  | rotated _ _ ho _ he =>
      subst he
      exact ho.sameLog.receipts q rr hrr
  | pruned _ _ hp he =>
      subst he
      refine ((hp.first.steps.append hp.second.steps).sameLog fun m hm => ?_).receipts q rr hrr
      simp only [List.cons_append, List.nil_append, List.append_assoc, List.mem_cons,
        List.mem_append, List.mem_map, List.not_mem_nil, or_false] at hm
      obtain rfl | rfl | ⟨_, -, rfl⟩ | ⟨_, -, rfl⟩ | rfl := hm <;> rfl
  | expired hsteps =>
      refine (hsteps.sameLog fun m hm => ?_).receipts q rr hrr
      obtain ⟨_, -, rfl⟩ := List.mem_map.mp hm
      rfl
  | @reseeded call _ _ M _ _ _ _ ho _ ho' =>
      have hepoch : SameLog M (M.atEpoch (call.value.get "epoch")) := .of_receipts rfl rfl
      exact ((ho.sameLog.trans hepoch).trans ho'.sameLog).receipts q rr hrr

theorem Remains.step {m : Move} (h : Remains L M) (hs : Step X m M L') (hm : ∀ c, m ≠ .found c) :
    Remains L L' := by
  refine ⟨h.grows.trans hs.grows, fun q row hrow hl => ?_⟩
  by_cases hlog : m.relogs = true
  · cases hs with
    | @reincarnate _ logId _ _ _ hfree =>
        obtain ⟨row', hrow', -⟩ := h.grows.log q row hrow
        have hkey : (logId, q.2) = q := Prod.ext hl rfl
        have hnone := hfree q.2
        rw [hkey, hrow'] at hnone
        cases hnone
    | found _ _ => exact absurd rfl (hm _)
    | log _ _ | enlist _ _ | partAgain | part _ | evidence _ | stage _ _ | revoke _ | activate _
    | setEpoch | prune _ _ _ _ _ | handoff _ _ | expire _ _ _ _ => cases hlog
  · exact h.logId q row hrow ((hs.sameLog (by simpa using hlog)).logId ▸ hl)

theorem Remains.passage (h : Remains L a.ledger) (hp : Passage R cause a L') : Remains L L' := by
  obtain ⟨ms, hs, hms⟩ := hp.steps
  exact hs.preserves (fun m M M' hm hs hM => hM.step hs hm.1) hms h

end Logs

/-! ## Acts -/

/-- What an act does to the recovery envelopes and the seats. -/
structure Ledger.Keyed (X : Crypto) (L L' : Ledger) : Prop where
  introduces : Introduces X L L'
  seated : L.Seated (fun _ => False) → L'.Seated fun _ => False

section Acts

variable {R : Relay} {cause : Option Call} {call : Call} {v : Json} {a b mid : Cell} {c : Chain}

theorem Ledger.Bare.seated {L : Ledger} (h : L.Bare) : L.Seated fun _ => False :=
  fun id row hseat => by
    rw [Ledger.Seat, h.registry] at hseat
    cases hseat.1

/-- Moves that bring no recovery envelope and stay in the log. -/
theorem Steps.keyed {X : Crypto} {ms : List Move} {L L' : Ledger} (h : Steps X ms L L')
    (hs : Sound X L) (hms : ∀ m ∈ ms, m.relogs = false ∧
      ∀ e, m.brings = some (.envelope, e) → s e "recipient_kind" ≠ "recovery") : L.Keyed X L' :=
  ⟨h.introduces fun m hm => (hms m hm).2, h.seated hs fun m hm => (hms m hm).1⟩

theorem EpochCommit.relogs {commit : EpochCommit} {i : Nat} :
    ∀ m ∈ commit.before ++ .log .epoch commit.epoch :: commit.after i, m.relogs = false := by
  intro m hm
  simp only [EpochCommit.before, EpochCommit.after, List.mem_append, List.mem_cons,
    List.mem_map, List.not_mem_nil, or_false] at hm
  obtain ((⟨_, -, rfl⟩ | ⟨_, -, rfl⟩) | ⟨_, -, rfl⟩) | rfl | ⟨_, -, rfl⟩ | rfl := hm <;> rfl

theorem Imported.keyed (h : Imported R v a mid b) (hs : Sound R.crypto (a.store.ledger c)) :
    (a.store.ledger c).Keyed R.crypto (mid.store.ledger c) := by
  obtain ⟨ms, hg⟩ := h.path.guided
  have hover := (hg.over c).2
  obtain ⟨hsteps, hms⟩ := hover.steps_of (C := fun m => m.relogs = false) fun m M hq => by
    cases m with
    | stage _ _ => rfl
    | _ => exact hq.elim
  exact ⟨hover.introduces hs, hsteps.seated hs hms⟩

theorem ItemMoved.keyed {index : Nat} {r : Json} (h : ItemMoved R call index r a b)
    (hs : Sound R.crypto a.ledger) : a.ledger.Keyed R.crypto b.ledger := by
  cases h with
  | envelope _ hcheck hm =>
      simp only [uploadEnvelopeCheck, Check.bind_ok, Check.failIf_ok, bne_eq_false_iff_eq] at hcheck
      obtain ⟨_, -, _, hkind, -⟩ := hcheck
      refine hm.steps.keyed hs fun m hmem => ?_
      obtain rfl := List.mem_singleton.mp hmem
      refine ⟨rfl, fun e hb => ?_⟩
      cases hb
      rw [hkind]
      simp
  | repair _ _ hm | part _ _ hm | record _ _ _ _ _ hm =>
      exact hm.steps.keyed hs (by simp [Move.relogs, Move.brings])

theorem Enrolled.keyed {auth : Auth} {request : Option Json} (h : Enrolled R auth v request a b)
    (hs : Sound R.crypto a.ledger) : a.ledger.Keyed R.crypto b.ledger := by
  have hdevices := enrollmentEnvelopes_devices (enrollCheck_ok h.checked).envelopes
  refine h.moves.steps.keyed hs fun m hm => ?_
  simp only [List.cons_append, List.mem_cons, List.mem_append, List.mem_map] at hm
  obtain rfl | ⟨x, hx, rfl⟩ | ⟨_, -, rfl⟩ := hm
  · exact ⟨rfl, fun e hb => by cases hb⟩
  · refine ⟨rfl, fun e hb => ?_⟩
    cases hb
    rw [hdevices _ hx]
    simp
  · exact ⟨rfl, fun e hb => by cases hb⟩

theorem Rotated.keyed {auth : Auth} {device : Option String} (h : Rotated R auth v device a b)
    (hs : Sound R.crypto a.ledger) : a.ledger.Keyed R.crypto b.ledger := by
  obtain ⟨M, M', entry, r, hc⟩ := h.committed
  exact ⟨hc.introduces (epochCheck_ok h.checked).bundle rfl rfl fun _ hd => .inr hd,
    hc.steps.seated hs EpochCommit.relogs⟩

/-- Whom a re-seed seats, it enlists itself: in its log. -/
theorem Reseeded.keyed {imported : Import} (h : Reseeded R v imported c a mid b)
    (hs : Sound R.crypto a.ledger) : a.ledger.Keyed R.crypto b.ledger := by
  have hok := reseedCheck_ok h.checked
  have hfree := h.fresh hs
  obtain ⟨M₀, M, M', entry, r, done, hpar, hcommit, -, hcomp⟩ := h.moves
  have hready := h.ready hs hpar
  have hs₀ : Sound R.crypto (a.store.ledger c) := by
    obtain ⟨notice, rfl⟩ := h.chain
    exact hs.reincarnate hok.chainId hfree
  obtain ⟨ms, hg⟩ := h.adopted.guided
  obtain ⟨hadopt, hms⟩ := hg.steps_of (C := fun m => m.relogs = false) fun m M hq => by
    cases m with
    | log _ _ | enlist _ _ => rfl
    | _ => exact hq.elim
  have hsmid : Sound R.crypto mid.ledger := hs₀.steps hadopt
  have hsfirst : Sound R.crypto M₀ := hsmid.steps hpar
  have hsdone : Sound R.crypto done.ledger := hsfirst.steps hcommit.steps
  have hlast := hcomp.keyed hsdone (by simp [Move.relogs, Move.brings])
  have hnew : Introduces R.crypto M₀ b.ledger :=
    (hcommit.introduces hready.bundle rfl rfl fun _ hd => .inr hd).trans hlast.introduces
      hcomp.grows (hcomp.terms (by simp [Move.renews])).1
  refine ⟨fun e he hkind => ?_, fun _ => hlast.seated fun id row hseat => ?_⟩
  · refine (hnew e he hkind).imp_left fun hold => h.adopted.has_of_adopts ?_
    obtain hmid | ⟨m, hm, hb⟩ := hpar.has hold
    · exact hmid
    · obtain rfl := List.mem_singleton.mp hm
      cases hb
  · -- whoever was registered before may have an entry in another log only
    have hstart : (a.store.ledger c).Seated fun id => (a.store.registry.find? id).isSome :=
      fun id row hseat => .inl (Option.isSome_iff_exists.mpr ⟨row, hseat.1⟩)
    have hdone := hcommit.steps.seated hsfirst EpochCommit.relogs
      (hpar.seated hsmid (by simp [Move.relogs]) (hadopt.seated hs₀ hms hstart))
    obtain hold | hnew := hdone id row hseat
    · obtain ⟨hmember, -⟩ := (hready.seats hcommit).1 id row hseat
      obtain ⟨hnot, -⟩ | ⟨d, hd, rfl⟩ := hready.bundle.mem_members.mp hmember
      · cases hnot
      · obtain ⟨N, hbefore, -⟩ := Steps.of_append hcommit.before
        obtain ⟨N', hjoin, -⟩ := Steps.of_append hbefore
        have hnone := hjoin.enlists_new ((List.mem_insertionSort _).mpr hd)
        have hin := hpar.registered (hadopt.registered (L := a.store.ledger c) hold)
        rw [hnone] at hin
        cases hin
    · exact .inr hnew

theorem Pruned.keyed {comp : Json} {rows : List HandoffRow} {expired : List Nat}
    (h : Pruned R v comp rows expired a mid b) (hs : Sound R.crypto a.ledger) :
    a.ledger.Keyed R.crypto b.ledger := by
  have hsteps := h.first.steps.append h.second.steps
  refine hsteps.keyed hs fun m hm => ?_
  simp only [List.cons_append, List.nil_append, List.append_assoc, List.mem_cons,
    List.mem_append, List.mem_map, List.not_mem_nil, or_false] at hm
  obtain rfl | rfl | ⟨_, -, rfl⟩ | ⟨_, -, rfl⟩ | rfl := hm <;>
    exact ⟨rfl, fun e hb => by cases hb⟩

theorem Act.keyed (h : Act R cause a b) (hs : Sound R.crypto a.ledger) :
    a.ledger.Keyed R.crypto b.ledger := by
  have still (hl : b.ledger = a.ledger) : a.ledger.Keyed R.crypto b.ledger :=
    ⟨fun e he _ => .inl (hl ▸ he), fun hL => hl ▸ hL⟩
  cases h with
  | still h => exact still h.ledger
  | imported _ h hstill =>
      rw [hstill.ledger, Cell.ledger, Cell.ledger, (h.path.staged a.chain).1]
      exact h.keyed hs
  | item _ h => exact h.keyed hs
  | evidence hms h =>
      refine h.steps.keyed hs fun m hm => ?_
      have hev := hms m hm
      cases m with
      | evidence op digest => exact ⟨rfl, fun e hb => by cases hb⟩
      | _ => exact hev.elim
  | expired h =>
      refine h.steps.keyed hs fun m hm => ?_
      obtain ⟨_, -, rfl⟩ := List.mem_map.mp hm
      exact ⟨rfl, fun e hb => by cases hb⟩
  | mutated _ _ h hdel =>
      cases h with
      | still h => exact still h.ledger
      | enrolled _ h hst => exact hst.ledger ▸ h.keyed hs
      | rotated _ h => exact h.keyed hs
      | acknowledged _ h | snapshotted _ h =>
          exact h.moves.steps.keyed hs (by simp [Move.relogs, Move.brings])
      | pruned _ _ h => exact h.keyed hs
      | reseeded _ _ h => exact h.keyed hs
      | deleted _ hd _ _ =>
          rw [hdel] at hd
          cases hd

theorem Begun.keyed (h : Begun R v c a b) (hb : (a.store.ledger c).Bare) :
    (a.store.ledger c).Keyed R.crypto b.ledger := by
  obtain ⟨logId, tid, notice, hc⟩ := h.chain
  obtain ⟨M₀, M, M', M₁, entry, r, ms, hpar, hcommit, hms, hrest⟩ := h.moves
  have hs : Sound R.crypto (a.store.ledger c) := Sound.found hb (by rw [hc]; rfl)
  have hsfirst : Sound R.crypto M₀ := hs.steps hpar
  have hfirst := hpar.keyed hs (by simp [Move.relogs, Move.brings])
  have hevidence : ∀ m ∈ ms, m.relogs = false ∧ m.renews = false ∧
      ∀ e, m.brings ≠ some (.envelope, e) := fun m hm => by
    have hev := hms m hm
    cases m with
    | evidence op digest => exact ⟨rfl, rfl, fun e hb => by cases hb⟩
    | _ => exact hev.elim
  have hlast := hrest.keyed (hsfirst.steps hcommit.steps) fun m hm =>
    ⟨(hevidence m hm).1, fun e hb => absurd hb ((hevidence m hm).2.2 e)⟩
  have hnew := (hcommit.introduces (genesisCheck_ok h.checked).2 rfl rfl
    fun d hd => .inl (List.mem_singleton.mp hd)).trans hlast.introduces hrest.grows
      (hrest.terms fun m hm => (hevidence m hm).2.1).1
  refine ⟨fun e he hkind => ?_, fun hL => hlast.seated
    (hcommit.steps.seated hsfirst EpochCommit.relogs (hfirst.seated hL))⟩
  refine (hnew e he hkind).imp_left fun hold => ?_
  obtain hstart | ⟨m, hm, hb⟩ := hpar.has hold
  · exact hstart
  · obtain rfl := List.mem_singleton.mp hm
    cases hb

end Acts

/-! ## Along a run -/

section Runs

variable {X : Crypto} {R : Relay} {cfg : RelayConfig} {cause : Option Call} {id : String}
  {st st' : Store} {c : Chain}

/-- A step that goes from `st` to `st'`, where the chain row is `c`. -/
theorem Acted.keyed (h : Acted R id cause st st') (hdel : st.deletion = none)
    (hs : st.Holds (Settled R.crypto id)) (hc : st'.chain = some c) :
    Introduces R.crypto (st.ledger c) (st'.ledger c) ∧
      ((∀ d, st.chain = some d → (st.ledger d).Seated fun _ => False) →
        (st'.ledger c).Seated fun _ => False) := by
  cases h with
  | absent _ hnone _ =>
      rw [hnone] at hc
      cases hc
  | @begun call d b hnone _ _ hbegun _ hstored hledger =>
      obtain rfl := Option.some.inj (hstored.symm.trans hc)
      have hbare := hs.bare hdel hnone
      have hb : (st.ledger d).Bare := ⟨hbare.objects, hbare.registry, hbare.log, hbare.receipts,
        hbare.transparency, hbare.handoffs⟩
      have hkeyed := hbegun.keyed hb
      rw [hledger]
      exact ⟨hkeyed.introduces, fun _ => hkeyed.seated hb.seated⟩
  | @staged call mid b hnone _ _ himp hstaged _ hstored hledger =>
      obtain rfl := Option.some.inj (hstored.symm.trans hc)
      have hbare := hs.bare hdel hnone
      obtain ⟨logId, tid, notice, hrow⟩ := hstaged.chain
      have hb : (st.ledger b.chain).Bare := ⟨hbare.objects, hbare.registry, hbare.log,
        hbare.receipts, hbare.transparency, hbare.handoffs⟩
      have hsound : Sound R.crypto (st.ledger b.chain) := Sound.found hb (by rw [hrow]; rfl)
      have hkeyed := himp.keyed hsound
      rw [hledger, hstaged.ledger]
      exact ⟨hkeyed.introduces, fun _ => hkeyed.seated hb.seated⟩
  | @acted d b hthere hact hstored hledger =>
      obtain rfl := Option.some.inj (hstored.symm.trans hc)
      have hkeyed := hact.keyed (hs.ledger hdel hthere).sound
      rw [hledger]
      exact ⟨hkeyed.introduces, fun hL => hkeyed.seated (hL d hthere)⟩

/-- Who is not revoked has its entry in the current log. -/
def Store.Seated (st : Store) : Prop :=
  st.deletion = none → ∀ c, st.chain = some c → (st.ledger c).Seated fun _ => False

end Runs

/-! ## The holders of the keys -/

section Holders

variable {X : Crypto} {cfg : RelayConfig} {es : List Event} {id : String} {c : Chain}

end Holders

namespace Sample

end Sample

namespace Sample

end Sample

end PallaSync
