import PallaSync.Sample

/-!
# What is accepted stays

The laws of the log and of its evidence, for every undeleted chain after any
run: the log is a hash line without a gap (`log_chain`), and receipts, log
and transparency name one another one to one, for good (`evidence_agrees`).
-/

namespace PallaSync

open HashLine

/-! ## The log -/

/-- `H(i)` of the current log: the stored hash, `H0` before the first entry. -/
def Store.headAt (X : Crypto) (st : Store) (c : Chain) (i : Nat) : Option String :=
  hashAt (Chain.logOrigin X c.chainId c.logId)
    (fun i => (st.log.find? (c.logId, i)).map (·.headHash)) i

/-- The law of the current log. -/
structure LogLaw (X : Crypto) (st : Store) (c : Chain) : Prop where
  positions : ∀ i, (st.log.find? (c.logId, i)).isSome ↔ 1 ≤ i ∧ i ≤ c.headSeq
  linked : ∀ i row, st.log.find? (c.logId, i) = some row →
    ∃ rr ∈ st.receipts, (rr.logId = c.logId ∧ rr.seq = some i) ∧
      (∀ rr' ∈ st.receipts, rr'.logId = c.logId → rr'.seq = some i → rr' = rr) ∧
      ∃ previous digest, st.headAt X c (i - 1) = some previous ∧
        rr.receipt.entryHash = some digest ∧
        row.headHash = X.hashBytes (raw X previous ++ beBytes i ++ raw X digest)
  last : st.headAt X c c.headSeq = some c.headHash
  available : ∀ i row, st.log.find? (c.logId, i) = some row → c.minAvailableSeq ≤ i →
    row.entry.isSome
  minimum : 1 ≤ c.minAvailableSeq ∧ c.minAvailableSeq ≤ c.headSeq + 1

/-- What becomes of an assigned position: its hash stays, its entry stays or
is removed. -/
structure LogKept (st : Store) (c : Chain) (st' : Store) (c' : Chain) : Prop where
  rows : ∀ l i row, st.log.find? (l, i) = some row →
    ∃ row', st'.log.find? (l, i) = some row' ∧ row'.headHash = row.headHash ∧
      (row'.entry = row.entry ∨ row'.entry = none)
  minimum : c'.logId = c.logId → c.minAvailableSeq ≤ c'.minAvailableSeq

theorem Sound.logLaw {X : Crypto} {st : Store} {c : Chain} (h : Sound X (st.ledger c)) :
    LogLaw X st c where
  positions := h.log_dom
  linked := fun i row hrow => by
    obtain ⟨previous, digest, hprev, ⟨rr, hrr, hl, hi, hd⟩, hhash⟩ :=
      h.head.linked i row.headHash (by
        rw [Ledger.logHash, Store.ledger_chain, Store.ledger_log, hrow]
        rfl)
    exact ⟨rr, hrr, ⟨hl, hi⟩, fun rr' hrr' hl' hi' =>
      h.uniqueSeq rr' hrr' rr hrr (hl'.trans hl.symm) (hi'.trans hi.symm) (by rw [hi']; rfl),
      previous, digest, hprev, hd, hhash⟩
  last := h.head.last_eq
  available := h.present
  minimum := h.minimum

/-- An earlier ledger of a run, with respect to a later one. -/
structure Earlier (L L' : Ledger) : Prop where
  grows : Grows L L'
  transparencyId : L'.chain.transparencyId = L.chain.transparencyId
  minimum : L'.chain.logId = L.chain.logId → L.chain.minAvailableSeq ≤ L'.chain.minAvailableSeq

theorem Earlier.step {X : Crypto} {m : Move} {L M M' : Ledger} (h : Earlier L M)
    (hL : Sound X L) (hs : Step X m M M') (hm : ∀ c, m ≠ .found c) : Earlier L M' := by
  refine ⟨h.grows.trans hs.grows, (hs.ids hm).2.trans h.transparencyId, ?_⟩
  -- a log that has no first position yet is available from 1
  have hbare : ∀ {l}, M.log.find? (l, 1) = none → l = L.chain.logId →
      L.chain.minAvailableSeq ≤ 1 := fun hnone hl => by
    have hmin := hL.minimum.2
    cases hrow : L.log.find? (L.chain.logId, 1) with
    | none =>
        have hdom := hL.log_dom 1
        rw [hrow] at hdom
        have : ¬(1 ≤ 1 ∧ 1 ≤ L.chain.headSeq) := fun hh => by simpa using hdom.mpr hh
        omega
    | some row =>
        obtain ⟨row', hrow', -⟩ := h.grows.log _ _ hrow
        rw [← hl, hnone] at hrow'
        cases hrow'
  by_cases ho : m.ordinary = true
  · have ht := hs.sameTerms ho
    rw [ht.logId, ht.minAvailableSeq]
    exact h.minimum
  · cases hs with
    | setEpoch => exact h.minimum
    | prune _ hmin _ _ hc =>
        rw [hc]
        exact fun hl => (h.minimum hl).trans hmin
    | handoff _ he =>
        rw [he]
        exact h.minimum
    | expire _ _ _ hc =>
        rw [hc]
        exact h.minimum
    | found _ _ => exact absurd rfl (hm _)
    | reincarnate _ hfree => exact fun hl => hbare (hfree 1) hl
    | evidence hw =>
        rw [hw.sameTerms.logId, hw.sameTerms.minAvailableSeq]
        exact h.minimum
    | log _ _ | enlist _ _ | partAgain | part _ | stage _ _ | revoke _ | activate _ =>
        exact absurd rfl ho

theorem Earlier.passage {R : Relay} {cause : Option Call} {L L' : Ledger} {a : Cell}
    (h : Earlier L a.ledger)
    (hL : Sound R.crypto L) (hp : Passage R cause a L') : Earlier L L' := by
  obtain ⟨ms, hs, hms⟩ := hp.steps
  exact hs.preserves (fun m M M' hm hs hM => hM.step hL hs hm.1) hms h

theorem store_earlier (X : Crypto) (cfg : RelayConfig) (es es' : List Event) (id : String) :
    (storeAfter X cfg es id).Keeps Earlier (storeAfter X cfg (es ++ es') id) :=
  ledger_keeps (fun L _ => ⟨.refl L, rfl, fun _ => le_rfl⟩)
    (fun R _ L a L' hX hL _ hK hp => by
      subst hX
      exact hK.passage hL.sound hp) es es'

theorem Earlier.logKept {st st' : Store} {c c' : Chain}
    (h : Earlier (st.ledger c) (st'.ledger c')) : LogKept st c st' c' := by
  refine ⟨fun l i row hrow => ?_, h.minimum⟩
  obtain ⟨row', hrow', hl⟩ := h.grows.log _ row hrow
  exact ⟨row', hrow', hl.headHash, hl.entry.imp_right fun he => he.1⟩

/-- After any run the current log of an undeleted chain is a hash line
without a gap, all of it available from the minimum on; and however the run
goes on, no assigned hash changes, no entry does but by removal, and the
minimum of a log does not go back. -/
theorem log_chain (X : Crypto) (cfg : RelayConfig) (es : List Event) (id : String) (c : Chain)
    (hdel : (storeAfter X cfg es id).deletion = none)
    (hc : (storeAfter X cfg es id).chain = some c) :
    LogLaw X (storeAfter X cfg es id) c ∧
      ∀ es', (storeAfter X cfg (es ++ es') id).deletion = none →
        ∃ c', (storeAfter X cfg (es ++ es') id).chain = some c' ∧
          LogKept (storeAfter X cfg es id) c (storeAfter X cfg (es ++ es') id) c' := by
  refine ⟨((store_settled X cfg es id).ledger hdel hc).sound.logLaw, fun es' hdel' => ?_⟩
  obtain ⟨-, hkeeps⟩ := store_earlier X cfg es es' id hdel'
  obtain ⟨c', hc', hK⟩ := hkeeps c hc
  exact ⟨c', hc', hK.logKept⟩

/-- A prune removes the entry of a record; its position keeps its hash. -/
theorem log_chain_pruned : ∃ c c' row row',
    (storeAfter Sample.crypto Sample.cfg (Sample.recordedRun ++ Sample.pruning)
      Sample.chainId).chain = some c' ∧
    LogLaw Sample.crypto
      (storeAfter Sample.crypto Sample.cfg Sample.recordedRun Sample.chainId) c ∧
    LogKept (storeAfter Sample.crypto Sample.cfg Sample.recordedRun Sample.chainId) c
      (storeAfter Sample.crypto Sample.cfg (Sample.recordedRun ++ Sample.pruning)
        Sample.chainId) c' ∧
    (storeAfter Sample.crypto Sample.cfg Sample.recordedRun Sample.chainId).log.find?
      (c.logId, 6) = some row ∧ row.entry.isSome ∧
    (storeAfter Sample.crypto Sample.cfg (Sample.recordedRun ++ Sample.pruning)
      Sample.chainId).log.find? (c.logId, 6) = some row' ∧
    row'.entry = none ∧ row'.headHash = row.headHash := by
  obtain ⟨c, hc, hrows⟩ := (Option.any_eq_true _ _).mp Sample.pruning_removes
  obtain ⟨hbefore, hafter⟩ := Bool.and_eq_true_iff.mp hrows
  obtain ⟨row, hrow, hentry⟩ := (Option.any_eq_true _ _).mp hbefore
  obtain ⟨row', hrow', hremoved⟩ := (Option.any_eq_true _ _).mp hafter
  have hfacts := Sample.pruning_facts
  simp only [Bool.and_eq_true, Option.isNone_iff_eq_none] at hfacts
  obtain ⟨⟨⟨hdel, hdel'⟩, -⟩, -⟩ := hfacts
  obtain ⟨hlaw, hkeeps⟩ :=
    log_chain Sample.crypto Sample.cfg Sample.recordedRun Sample.chainId c hdel hc
  obtain ⟨c', hc', hkept⟩ := hkeeps Sample.pruning hdel'
  obtain ⟨row₁, hrow₁, hhash, -⟩ := hkept.rows _ 6 row hrow
  obtain rfl := Option.some.inj (hrow₁.symm.trans hrow')
  exact ⟨c, c', row, row₁, hc', hlaw, hkept, hrow, hentry, hrow',
    Option.isNone_iff_eq_none.mp hremoved, hhash⟩

/-! ## Receipts and transparency -/

/-- `T(i)`: the stored transparency hash, `T0` before the first entry. -/
def Store.transparencyAt (X : Crypto) (st : Store) (c : Chain) (i : Nat) : Option String :=
  hashAt (Chain.transparencyOrigin X c.chainId c.transparencyId)
    (fun i => (st.transparency.find? (c.transparencyId, i)).map (·.hash)) i

/-- The law of the transparency chain. -/
structure TransparencyLaw (X : Crypto) (st : Store) (c : Chain) : Prop where
  own : ∀ t ∈ st.transparency, t.transparencyId = c.transparencyId
  positions : ∀ i, (st.transparency.find? (c.transparencyId, i)).isSome ↔
    1 ≤ i ∧ i ≤ c.transparencyIndex
  linked : ∀ i t, st.transparency.find? (c.transparencyId, i) = some t →
    t.entry.entryIndex = i ∧ ∃ previous, st.transparencyAt X c (i - 1) = some previous ∧
      t.hash = linkHash X previous i t.entry.toJson transparencyLinkContext
  last : st.transparencyAt X c c.transparencyIndex = some c.transparencyHash

/-- The receipt names the accept entry. -/
structure Names (rr : ReceiptRow) (t : TransparencyRow) : Prop extends AcceptOk rr t where
  index : t.idx = rr.receipt.transparencyIndex
  transparencyId : t.transparencyId = rr.receipt.transparencyId

/-- The receipt of a log row: its hashes are those of the row, of the position
before it, and of the entry while there is one. -/
structure Certifies (X : Crypto) (st : Store) (c : Chain) (rr : ReceiptRow) (l : String) (i : Nat)
    (row : LogRow) : Prop where
  position : rr.logId = l ∧ rr.seq = some i
  resulting : rr.receipt.resultingHeadHash = row.headHash
  previous : hashAt (Chain.logOrigin X c.chainId l)
    (fun i => (st.log.find? (l, i)).map (·.headHash)) (i - 1) = some rr.receipt.previousHeadHash
  entry : ∀ e, row.entry = some e → rr.kind = e.kind ∧ rr.objectId = objectId e.object e.kind ∧
    rr.receipt.objectHash = X.objectHash e.object ∧
    rr.receipt.entryHash = some (X.objectHash e.toJson)

/-- Receipts, log and accept entries agree one to one. -/
structure EvidenceLaw (X : Crypto) (st : Store) (c : Chain) : Prop where
  /-- Every log row has exactly one receipt and exactly one accept entry, and
  the receipt names the entry. -/
  logged : ∀ l i row, st.log.find? (l, i) = some row →
    ∃ rr ∈ st.receipts, ∃ t ∈ st.transparency, Certifies X st c rr l i row ∧ Names rr t ∧
      (∀ rr' ∈ st.receipts, rr'.logId = l → rr'.seq = some i → rr' = rr) ∧
      (∀ t' ∈ st.transparency, t'.entry.operation = .accept → t'.entry.logId = l →
        t'.entry.relaySeq = some i → t' = t)
  /-- Every snapshot part has a receipt without a position and one accept
  entry without one. -/
  parted : ∀ o ∈ st.objects, o.kind = .snapshotPart →
    ∃ rr ∈ st.receipts, ∃ t ∈ st.transparency,
      (rr.kind = .snapshotPart ∧ rr.objectId = o.objectId ∧ rr.seq = none ∧
        rr.receipt.objectHash = o.objectHash) ∧ Names rr t ∧
      (∀ rr' ∈ st.receipts, rr'.kind = .snapshotPart → rr'.objectId = o.objectId → rr' = rr) ∧
      (∀ t' ∈ st.transparency, Names rr t' → t' = t)
  /-- Every accept entry is named by exactly one receipt, that of a log row or
  that of a snapshot part. -/
  named : ∀ t ∈ st.transparency, t.entry.operation = .accept →
    ∃ rr ∈ st.receipts, Names rr t ∧ (∀ rr' ∈ st.receipts, Names rr' t → rr' = rr) ∧
      ((∃ i row, rr.seq = some i ∧ st.log.find? (rr.logId, i) = some row) ∨
        rr.seq = none ∧ ∃ o ∈ st.objects, o.kind = .snapshotPart ∧ o.objectId = rr.objectId)

namespace Sound

variable {X : Crypto} {st : Store} {c : Chain}

theorem transparencyLaw (h : Sound X (st.ledger c)) : TransparencyLaw X st c where
  own := fun t ht => (h.evidenceId t ht).1
  positions := fun i => by
    have hdom := h.evidence.dom i
    rw [Option.isSome_map] at hdom
    exact hdom
  linked := fun i t ht => by
    have hkey := Table.key_of_find? ht
    have hi : t.idx = i := (Prod.mk.inj hkey).2
    obtain ⟨previous, digest, hprev, ⟨t', ht', hd⟩, hhash⟩ :=
      h.evidence.linked i t.hash (by rw [Store.ledger_transparency, Store.ledger_chain, ht]; rfl)
    obtain rfl := Option.some.inj (ht.symm.trans ht')
    refine ⟨(h.evidenceId t (Table.mem_of_find? ht)).2.trans hi, previous, hprev, ?_⟩
    rw [hhash, ← hd]
    rfl
  last := h.evidence.last_eq

theorem names (h : Sound X (st.ledger c)) {rr : ReceiptRow} (hrr : rr ∈ st.receipts) :
    ∃ t ∈ st.transparency, Names rr t := by
  obtain ⟨t, ht, hok⟩ := (h.receipts rr hrr).accepted
  have hkey := Table.key_of_find? ht
  obtain ⟨htid, hidx⟩ := Prod.mk.inj hkey
  exact ⟨t, Table.mem_of_find? ht, hok, hidx, htid⟩

theorem names_entry {rr : ReceiptRow} {t t' : TransparencyRow} (ht : t ∈ st.transparency)
    (ht' : t' ∈ st.transparency) (hn : Names rr t) (hn' : Names rr t') : t' = t :=
  Table.eq_of_key ht' ht (by
    rw [TransparencyRow.key, TransparencyRow.key, hn.index, hn'.index, hn.transparencyId,
      hn'.transparencyId])

theorem names_receipt (h : Sound X (st.ledger c)) {rr rr' : ReceiptRow} {t : TransparencyRow}
    (hrr : rr ∈ st.receipts) (hrr' : rr' ∈ st.receipts) (hn : Names rr t) (hn' : Names rr' t) :
    rr' = rr :=
  h.uniqueIndex rr' hrr' rr hrr (hn'.index.symm.trans hn.index)

theorem named (h : Sound X (st.ledger c)) {t : TransparencyRow} (ht : t ∈ st.transparency)
    (hop : t.entry.operation = .accept) : ∃ rr ∈ st.receipts, Names rr t := by
  obtain ⟨rr, hrr, hidx⟩ := h.accepts t ht hop
  obtain ⟨t', ht', hn⟩ := h.names hrr
  have hsame : t' = t := Table.eq_of_key ht' ht (by
    rw [TransparencyRow.key, TransparencyRow.key, hn.index, hidx, (h.evidenceId t ht).1,
      (h.evidenceId t' ht').1])
  exact ⟨rr, hrr, hsame ▸ hn⟩

theorem certifies (h : Sound X (st.ledger c)) {rr : ReceiptRow} {l : String} {i : Nat}
    {row : LogRow} (hrr : rr ∈ st.receipts) (hl : rr.logId = l) (hi : rr.seq = some i)
    (hrow : st.log.find? (l, i) = some row) : Certifies X st c rr l i row := by
  subst hl
  obtain ⟨⟨row', hrow', hhead, hentry, -⟩, hprev⟩ := (h.receipts rr hrr).position i hi
  obtain rfl : row' = row := Option.some.inj (hrow'.symm.trans hrow)
  refine ⟨⟨rfl, hi⟩, hhead.symm, hprev, fun e he => ?_⟩
  have hok := hentry e he
  exact ⟨hok.kind.symm, by rw [hok.kind]; exact hok.objectId.symm, hok.objectHash.symm,
    hok.entryHash⟩

theorem evidenceLaw (h : Sound X (st.ledger c)) : EvidenceLaw X st c where
  logged := fun l i row hrow => by
    obtain ⟨rr, hrr, hl, hi⟩ := h.logged l i row hrow
    obtain ⟨t, ht, hn⟩ := h.names hrr
    refine ⟨rr, hrr, t, ht, h.certifies hrr hl hi hrow, hn, fun rr' hrr' hl' hi' => ?_,
      fun t' ht' hop hl' hi' => ?_⟩
    · exact h.uniqueSeq rr' hrr' rr hrr (hl'.trans hl.symm) (hi'.trans hi.symm) (by rw [hi']; rfl)
    · obtain ⟨rr', hrr', hn'⟩ := h.named ht' hop
      have hseq : rr'.seq = some i := hn'.relaySeq.symm.trans hi'
      have hsame : rr' = rr := h.uniqueSeq rr' hrr' rr hrr
        (hn'.logId.symm.trans (hl'.trans hl.symm)) (hseq.trans hi.symm) (by rw [hseq]; rfl)
      exact names_entry ht ht' hn (hsame ▸ hn')
  parted := fun o ho hk => by
    obtain ⟨rr, hfind⟩ := Option.isSome_iff_exists.mp ((h.objects o ho).part hk).2
    have hrr := Table.mem_of_find? hfind
    have hkey := Table.key_of_find? hfind
    obtain ⟨hkind, hid⟩ := Prod.mk.inj hkey
    have hok := h.receipts rr hrr
    obtain ⟨t, ht, hn⟩ := h.names hrr
    obtain ⟨o', ho', hhash, -⟩ := hok.object
    rw [hkind, hid] at ho'
    obtain rfl : o' = o := Option.some.inj (ho'.symm.trans (Table.find?_of_mem ho))
    refine ⟨rr, hrr, t, ht, ⟨hkind.trans hk, hid, hok.part.mpr (hkind.trans hk), hhash.symm⟩, hn,
      fun rr' hrr' hk' hid' => ?_, fun t' ht' hn' => names_entry ht ht' hn hn'⟩
    exact Table.eq_of_key hrr' hrr (by
      rw [ReceiptRow.key, ReceiptRow.key, hk', hid', hid, hkind, hk])
  named := fun t ht hop => by
    obtain ⟨rr, hrr, hn⟩ := h.named ht hop
    refine ⟨rr, hrr, hn, fun rr' hrr' hn' => h.names_receipt hrr hrr' hn hn', ?_⟩
    have hok := h.receipts rr hrr
    cases hi : rr.seq with
    | some i =>
        obtain ⟨⟨row, hrow, -⟩, -⟩ := hok.position i hi
        exact .inl ⟨i, row, rfl, hrow⟩
    | none =>
        obtain ⟨o, ho, -⟩ := hok.object
        have hkey := Table.key_of_find? ho
        obtain ⟨hkind, hid⟩ := Prod.mk.inj hkey
        exact .inr ⟨rfl, o, Table.mem_of_find? ho, hkind.trans (hok.part.mp hi), hid⟩

end Sound

/-! ## Later submissions -/

/-- The way an object of a kind is accepted: into the log, or as a part. -/
def submit (X : Crypto) (kind : Kind) (v : Json) : Tx Receipt :=
  if kind = .snapshotPart then snapshotPart X v
  else do
    let (_, r) ← append X kind v
    pure r

/-- What an earlier acceptance means for any later submission to the working
copy `w`. -/
structure Immutable (X : Crypto) (rr : ReceiptRow) (w : Work) : Prop where
  same : ∀ v, objectId v rr.kind = rr.objectId → X.objectHash v = rr.receipt.objectHash →
    submit X rr.kind v w = .ok (rr.receipt, w)
  different : ∀ v, objectId v rr.kind = rr.objectId → X.objectHash v ≠ rr.receipt.objectHash →
    ∀ r, submit X rr.kind v w ≠ .ok r
  sibling : ∀ v k, rr.kind.sibling = some k → objectId v k = rr.objectId →
    ∀ r, submit X k v w ≠ .ok r

/-- A later store of the run, with respect to what was accepted before. -/
structure EvidenceKept (X : Crypto) (st : Store) (c : Chain) (st' : Store) (c' : Chain) :
    Prop where
  transparencyId : c'.transparencyId = c.transparencyId
  index : c.transparencyIndex ≤ c'.transparencyIndex
  transparency : ∀ q t, st.transparency.find? q = some t → st'.transparency.find? q = some t
  receipts : ∀ q rr, st.receipts.find? q = some rr → st'.receipts.find? q = some rr
  objects : ∀ q o, st.objects.find? q = some o →
    ∃ o', st'.objects.find? q = some o' ∧ o'.objectHash = o.objectHash
  submissions : ∀ rr ∈ st.receipts, ∀ (ms : List Move) (w : Work),
    Steps X ms (st'.ledger c') w.cell.ledger → Immutable X rr w

theorem Logged.hash {X : Crypto} {kind : Kind} {v : Json} {entry : Option LogEntry} {r : Receipt}
    {L L' : Ledger} {o : ObjectRow} (h : Logged X kind v entry r L L')
    (ho : L.objects.find? (kind, objectId v kind) = some o) : o.objectHash = X.objectHash v := by
  cases h with
  | again ha =>
      obtain ⟨o', ho', hd⟩ := ha.object
      exact Option.some.inj (ho'.symm.trans ho) ▸ hd
  | fresh hf => exact hf.same o ho

theorem Logged.sibling {X : Crypto} {kind k : Kind} {v : Json} {entry : Option LogEntry}
    {r : Receipt} {L L' : Ledger} (h : Logged X kind v entry r L L') (hk : kind.sibling = some k)
    (hnone : L.objects.find? (kind, objectId v kind) = none) :
    L.objects.find? (k, objectId v kind) = none := by
  cases h with
  | again ha =>
      obtain ⟨o', ho', -⟩ := ha.object
      exact absurd (hnone.symm.trans ho') (by simp)
  | fresh hf => exact hf.sibling hnone k hk

section Submissions

variable {X : Crypto} {w w' : Work} {rr : ReceiptRow} {v : Json}

theorem submit_append {kind : Kind} {r : Receipt} (hk : kind ≠ .snapshotPart)
    (h : submit X kind v w = .ok (r, w')) :
    ∃ entry, Logged X kind v entry r w.cell.ledger w'.cell.ledger := by
  rw [submit, if_neg hk] at h
  obtain ⟨⟨entry, r'⟩, w₁, happ, h⟩ := Atomic.bind_ok.mp h
  obtain ⟨rfl, rfl⟩ := Atomic.pure_ok.mp h
  exact ⟨entry, (append_ok happ).1⟩

/-- A submission is refused or finds the object as it was accepted. -/
theorem submit_hash {kind : Kind} {r : Receipt} {o : ObjectRow}
    (ho : w.cell.store.objects.find? (kind, objectId v kind) = some o)
    (h : submit X kind v w = .ok (r, w')) : o.objectHash = X.objectHash v := by
  by_cases hk : kind = .snapshotPart
  · subst hk
    rw [submit, if_pos rfl] at h
    obtain ⟨fresh, w₁, hput, -⟩ := Atomic.bind_ok.mp h
    obtain ⟨-, -, o', ho', hd⟩ | ⟨-, hfree, -⟩ := putObject_ok hput
    · exact Option.some.inj (ho'.symm.trans ho) ▸ hd
    · rw [hfree] at ho
      cases ho
  · obtain ⟨entry, hl⟩ := submit_append hk h
    exact hl.hash ho

theorem submit_sibling {kind k : Kind} {r : Receipt} (hk : kind.sibling = some k)
    (hnone : w.cell.store.objects.find? (kind, objectId v kind) = none)
    (h : submit X kind v w = .ok (r, w')) :
    w.cell.store.objects.find? (k, objectId v kind) = none := by
  by_cases hp : kind = .snapshotPart
  · subst hp
    rw [submit, if_pos rfl] at h
    obtain ⟨fresh, w₁, hput, -⟩ := Atomic.bind_ok.mp h
    obtain ⟨-, -, o', ho', -⟩ | ⟨-, -, hsib, -⟩ := putObject_ok hput
    · rw [hnone] at ho'
      cases ho'
    · exact hsib k hk
  · obtain ⟨entry, hl⟩ := submit_append hp h
    exact hl.sibling hk hnone

theorem snapshotPart_same {r : Receipt} {o : ObjectRow}
    (ho : w.cell.store.objects.find? (.snapshotPart, objectId v .snapshotPart) = some o)
    (hd : o.objectHash = X.objectHash v)
    (hr : w.cell.store.receipt .snapshotPart (s v "record_id") = some r) :
    snapshotPart X v w = .ok (r, w) := by
  have hput : putObject X .snapshotPart v none w = .ok (false, w) := by
    unfold putObject
    refine Atomic.bind_ok.mpr ⟨some o.objectHash, w, look_ok.mpr ⟨?_, rfl⟩, ?_⟩
    · simp [Store.objectDigest, ho]
    · exact Atomic.bind_ok.mpr ⟨(), w, Atomic.failIf_ok.mpr ⟨by simp [hd], rfl⟩, rfl⟩
  refine Atomic.bind_ok.mpr ⟨false, w, hput, ?_⟩
  exact Atomic.bind_ok.mpr ⟨_, w, look_ok.mpr ⟨rfl, rfl⟩, Atomic.require_ok.mpr ⟨hr, rfl⟩⟩

theorem append_same {kind : Kind} {r : Receipt} {o : ObjectRow} {row : LogRow}
    (ho : w.cell.store.objects.find? (kind, objectId v kind) = some o)
    (hd : o.objectHash = X.objectHash v)
    (hr : w.cell.store.receipt kind (objectId v kind) = some r)
    (hrow : w.cell.store.log.find? (r.logId, r.relaySeq.getD 0) = some row) :
    append X kind v w = .ok ((row.entry, r), w) := by
  have hacc : accepted? X kind v w.cell.store = .ok (some (row.entry, r)) := by
    simp [accepted?, Store.objectDigest, ho, hd, hr, hrow]
  exact Atomic.bind_ok.mpr ⟨_, w, check_ok.mpr ⟨hacc, rfl⟩, rfl⟩

end Submissions

/-- What was accepted is answered with its receipt, and nothing else is
accepted in its place. -/
theorem Sound.immutable {X : Crypto} {w : Work} {rr : ReceiptRow} (h : Sound X w.cell.ledger)
    (hrr : rr ∈ w.cell.store.receipts) : Immutable X rr w := by
  have hok := h.receipts rr hrr
  obtain ⟨o, ho, hhash, -⟩ := hok.object
  have hfind := Table.find?_of_mem hrr
  refine ⟨fun v hid hv => ?_, fun v hid hne r hsub => ?_, fun v k hk hid r hsub => ?_⟩
  · rw [← hid] at ho
    have hd : o.objectHash = X.objectHash v := hhash.trans hv.symm
    have hr : w.cell.store.receipt rr.kind (objectId v rr.kind) = some rr.receipt := by
      rw [Store.receipt, hid, hfind]
      rfl
    by_cases hk : rr.kind = .snapshotPart
    · rw [submit, if_pos hk]
      rw [hk] at ho hr
      exact snapshotPart_same ho hd hr
    · rw [submit, if_neg hk]
      cases hi : rr.seq with
      | none => exact absurd (hok.part.mp hi) hk
      | some i =>
          obtain ⟨⟨row, hrow, -⟩, -⟩ := hok.position i hi
          refine Atomic.bind_ok.mpr ⟨(row.entry, rr.receipt), w, append_same ho hd hr ?_, rfl⟩
          rw [hok.logId, hok.relaySeq, hi]
          exact hrow
  · rw [← hid] at ho
    exact hne (submit_hash ho hsub ▸ hhash)
  · have hsome : w.cell.store.objects.find? (rr.kind, rr.objectId) = some o := ho
    have hback : k.sibling = some rr.kind := by
      revert hk
      cases rr.kind <;> cases k <;> decide
    have hnone : w.cell.store.objects.find? (k, objectId v k) = none := by
      have hsib := h.siblings rr.objectId
      rw [hid]
      revert hk hsib hsome
      cases rr.kind <;> cases k <;> simp_all [Kind.sibling]
    have hother : w.cell.store.objects.find? (rr.kind, objectId v k) = none :=
      submit_sibling hback hnone hsub
    rw [hid, hsome] at hother
    cases hother

theorem Earlier.index_le {X : Crypto} {L L' : Ledger} (h : Earlier L L') (hs : Sound X L)
    (hs' : Sound X L') : L.chain.transparencyIndex ≤ L'.chain.transparencyIndex := by
  by_cases h0 : L.chain.transparencyIndex = 0
  · omega
  · have hrow := (hs.evidence.dom L.chain.transparencyIndex).mpr ⟨by omega, le_rfl⟩
    obtain ⟨t, ht⟩ := Option.isSome_iff_exists.mp ((Option.isSome_map (x := _)).symm.trans hrow)
    have ht' := h.grows.transparency _ t ht
    rw [← h.transparencyId] at ht'
    exact ((hs'.evidence.dom _).mp (by rw [ht']; rfl)).2

theorem Earlier.evidenceKept {X : Crypto} {st st' : Store} {c c' : Chain}
    (h : Earlier (st.ledger c) (st'.ledger c')) (hs : Sound X (st.ledger c))
    (hs' : Sound X (st'.ledger c')) : EvidenceKept X st c st' c' := by
  refine ⟨h.transparencyId, h.index_le hs hs', h.grows.transparency, h.grows.receipts,
    fun q o ho => ?_, fun rr hrr ms w hsteps => ?_⟩
  · obtain ⟨o', ho', hl⟩ := h.grows.objects q o ho
    exact ⟨o', ho', hl.objectHash⟩
  · have hg := h.grows.trans hsteps.grows
    exact (hs'.steps hsteps).immutable
      (Table.mem_of_find? (hg.receipts _ rr (Table.find?_of_mem hrr)))

/-- After any run the transparency chain of an undeleted chain is a hash line
without a gap, and receipts, log and accept entries agree one to one; and
however the run goes on, nothing of it changes, what was accepted is answered
with its original receipt, and nothing else is accepted in its place. -/
theorem evidence_agrees (X : Crypto) (cfg : RelayConfig) (es : List Event) (id : String)
    (c : Chain) (hdel : (storeAfter X cfg es id).deletion = none)
    (hc : (storeAfter X cfg es id).chain = some c) :
    (TransparencyLaw X (storeAfter X cfg es id) c ∧ EvidenceLaw X (storeAfter X cfg es id) c) ∧
      ∀ es', (storeAfter X cfg (es ++ es') id).deletion = none →
        ∃ c', (storeAfter X cfg (es ++ es') id).chain = some c' ∧
          EvidenceKept X (storeAfter X cfg es id) c (storeAfter X cfg (es ++ es') id) c' := by
  have hs := ((store_settled X cfg es id).ledger hdel hc).sound
  refine ⟨⟨hs.transparencyLaw, hs.evidenceLaw⟩, fun es' hdel' => ?_⟩
  obtain ⟨-, hkeeps⟩ := store_earlier X cfg es es' id hdel'
  obtain ⟨c', hc', hK⟩ := hkeeps c hc
  exact ⟨c', hc', hK.evidenceKept hs ((store_settled X cfg _ id).ledger hdel' hc').sound⟩

/-- With a rejection, a part and a removed entry on file. -/
theorem evidence_agrees_pruned : ∃ c c',
    TransparencyLaw Sample.crypto (storeAfter Sample.crypto Sample.cfg
      (Sample.recordedRun ++ Sample.pruning) Sample.chainId) c' ∧
    EvidenceLaw Sample.crypto (storeAfter Sample.crypto Sample.cfg
      (Sample.recordedRun ++ Sample.pruning) Sample.chainId) c' ∧
    EvidenceKept Sample.crypto
      (storeAfter Sample.crypto Sample.cfg Sample.recordedRun Sample.chainId) c
      (storeAfter Sample.crypto Sample.cfg (Sample.recordedRun ++ Sample.pruning)
        Sample.chainId) c' ∧
    (∃ t ∈ (storeAfter Sample.crypto Sample.cfg (Sample.recordedRun ++ Sample.pruning)
      Sample.chainId).transparency, t.entry.operation = .reject) ∧
    ∃ o ∈ (storeAfter Sample.crypto Sample.cfg (Sample.recordedRun ++ Sample.pruning)
      Sample.chainId).objects, o.kind = .snapshotPart := by
  obtain ⟨c, hc, -⟩ := (Option.any_eq_true _ _).mp Sample.pruning_removes
  have hfacts := Sample.pruning_facts
  simp only [Bool.and_eq_true, Option.isNone_iff_eq_none, List.any_eq_true,
    decide_eq_true_eq] at hfacts
  obtain ⟨⟨⟨hdel, hdel'⟩, hrejected⟩, hpart⟩ := hfacts
  obtain ⟨-, hkeeps⟩ :=
    evidence_agrees Sample.crypto Sample.cfg Sample.recordedRun Sample.chainId c hdel hc
  obtain ⟨c', hc', hkept⟩ := hkeeps Sample.pruning hdel'
  obtain ⟨⟨htransparency, hevidence⟩, -⟩ := evidence_agrees Sample.crypto Sample.cfg
    (Sample.recordedRun ++ Sample.pruning) Sample.chainId c' hdel' hc'
  exact ⟨c, c', htransparency, hevidence, hkept, hrejected, hpart⟩

end PallaSync
