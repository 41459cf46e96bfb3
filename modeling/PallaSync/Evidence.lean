import PallaSync.Ledger
import PallaSync.Lib.HashLine

/-!
# The evidence of a ledger

The log, the receipts, the transparency chain and the stored objects of a
ledger say the same thing four times. `Sound` is that agreement as an
invariant: every log is a hash line, so is the transparency chain, and every
receipt names its object, its log position and its accept entry. Every move
keeps it (`Sound.step`).

`Grows` is the other half: what an earlier ledger has, a later one has still,
except for bodies and entries that were removed. It is what makes the old
receipts stay right when a move adds new ones.
-/

namespace PallaSync

open HashLine

/-! ## What stays -/

/-- The kinds whose bodies and entries may be removed. -/
def Kind.removable (k : Kind) : Prop := k = .record ∨ k = .envelope

/-- A later version of a log row: its entry is the same or was removed. -/
structure LogRow.Later (r r' : LogRow) : Prop where
  headHash : r'.headHash = r.headHash
  entry : r'.entry = r.entry ∨ r'.entry = none ∧ ∀ e, r.entry = some e → e.kind.removable

/-- A later version of an object row. -/
structure ObjectRow.Later (o o' : ObjectRow) : Prop where
  objectHash : o'.objectHash = o.objectHash
  body : o'.body = o.body ∨ o'.body = none ∧ o.kind.removable
  placed : o.logId.isSome → o'.logId = o.logId ∧ o'.relaySeq = o.relaySeq

theorem LogRow.Later.refl (r : LogRow) : r.Later r := ⟨rfl, .inl rfl⟩

theorem LogRow.Later.trans {r r' r'' : LogRow} (h : r.Later r') (h' : r'.Later r'') :
    r.Later r'' := by
  refine ⟨h'.headHash.trans h.headHash, ?_⟩
  rcases h'.entry with he' | ⟨hn, hk⟩
  · rcases h.entry with he | ⟨hn, hk⟩
    · exact .inl (he'.trans he)
    · exact .inr ⟨he'.trans hn, hk⟩
  · refine .inr ⟨hn, fun e hr => ?_⟩
    rcases h.entry with he | ⟨-, hk'⟩
    · exact hk e (he.trans hr)
    · exact hk' e hr

theorem ObjectRow.Later.refl (o : ObjectRow) : o.Later o := ⟨rfl, .inl rfl, fun _ => ⟨rfl, rfl⟩⟩

structure Grows (L L' : Ledger) : Prop where
  log : ∀ q r, L.log.find? q = some r → ∃ r', L'.log.find? q = some r' ∧ r.Later r'
  objects : ∀ q o, L.objects.find? q = some o → ∃ o', L'.objects.find? q = some o' ∧ o.Later o'
  receipts : ∀ q r, L.receipts.find? q = some r → L'.receipts.find? q = some r
  transparency : ∀ q r, L.transparency.find? q = some r → L'.transparency.find? q = some r

namespace Grows

variable {L M L' : Ledger}

theorem refl (L : Ledger) : Grows L L :=
  ⟨fun _ r h => ⟨r, h, .refl r⟩, fun _ o h => ⟨o, h, .refl o⟩, fun _ _ h => h, fun _ _ h => h⟩

theorem trans (h : Grows L M) (h' : Grows M L') : Grows L L' := by
  refine ⟨fun q r hr => ?_, fun q o ho => ?_, fun q r hr => h'.receipts q r (h.receipts q r hr),
    fun q r hr => h'.transparency q r (h.transparency q r hr)⟩
  · obtain ⟨r₁, hr₁, hl⟩ := h.log q r hr
    obtain ⟨r₂, hr₂, hl'⟩ := h'.log q r₁ hr₁
    exact ⟨r₂, hr₂, hl.trans hl'⟩
  · obtain ⟨o₁, ho₁, hl⟩ := h.objects q o ho
    obtain ⟨o₂, ho₂, hl'⟩ := h'.objects q o₁ ho₁
    refine ⟨o₂, ho₂, hl'.objectHash.trans hl.objectHash, ?_, fun hs => ?_⟩
    · have hkey : o₁.kind = o.kind :=
        congrArg Prod.fst ((Table.key_of_find? ho₁).trans (Table.key_of_find? ho).symm)
      rcases hl'.body with hb' | ⟨hn, hk⟩
      · exact hb' ▸ hl.body
      · exact .inr ⟨hn, hkey ▸ hk⟩
    · obtain ⟨h₁, h₂⟩ := hl.placed hs
      obtain ⟨h₃, h₄⟩ := hl'.placed (h₁ ▸ hs)
      exact ⟨h₃.trans h₁, h₄.trans h₂⟩

/-- The four tables did not change. -/
theorem of_eq (ho : L'.objects = L.objects) (hl : L'.log = L.log)
    (hr : L'.receipts = L.receipts) (ht : L'.transparency = L.transparency) : Grows L L' := by
  refine ⟨fun q r h => ⟨r, hl ▸ h, .refl r⟩, fun q o h => ⟨o, ho ▸ h, .refl o⟩,
    fun q r h => hr ▸ h, fun q r h => ht ▸ h⟩

end Grows

theorem adoptedRow_later {X : Crypto} {kind : Kind} {v : Json} {l : String} {i : Nat}
    (o : ObjectRow) : o.Later (adoptedRow X kind v l i (some o)) := by
  rw [adoptedRow_some]
  split
  · rename_i h
    refine ⟨rfl, .inl rfl, fun hs => ?_⟩
    rw [Option.isNone_iff_eq_none.mp h] at hs
    cases hs
  · exact .refl o

theorem Noted.grows {X : Crypto} {op : Operation} {digest : String} {seq : Option Nat}
    {te : TransparencyEntry} {c : Chain} {tab tab' : Table TransparencyRow TransparencyRow.key}
    (h : Noted X op digest seq te c tab tab') {q : String × Nat} {r : TransparencyRow}
    (hr : tab.find? q = some r) : tab'.find? q = some r :=
  Table.find?_of_find?_insert h.find? h.free hr

theorem Receipted.grows {X : Crypto} {kind : Kind} {v : Json} {seq : Option Nat}
    {entryHash : Option String} {previous : String} {r : Receipt} {c : Chain}
    {tab tab' : Table ReceiptRow ReceiptRow.key}
    (h : Receipted X kind v seq entryHash previous r c tab tab') {q : Kind × String}
    {rr : ReceiptRow} (hr : tab.find? q = some rr) : tab'.find? q = some rr :=
  Table.find?_of_find?_insert h.find? h.free hr

theorem Fresh.grows {X : Crypto} {kind : Kind} {v : Json} {e : LogEntry}
    {te : TransparencyEntry} {r : Receipt} {L L' : Ledger} (h : Fresh X kind v e te r L L') :
    Grows L L' := by
  refine ⟨fun q x hx => ⟨x, Table.find?_of_find?_insert h.log h.free hx, .refl x⟩,
    fun q o ho => ?_, fun _ _ => h.receipted.grows, fun _ _ => h.noted.grows⟩
  rw [h.objects, ho]
  split
  · exact ⟨_, rfl, adoptedRow_later o⟩
  · exact ⟨o, rfl, .refl o⟩

theorem Logged.grows {X : Crypto} {kind : Kind} {v : Json} {entry : Option LogEntry}
    {r : Receipt} {L L' : Ledger} (h : Logged X kind v entry r L L') : Grows L L' := by
  cases h with
  | again _ => exact .refl _
  | fresh h => exact h.grows

theorem PartFresh.grows {X : Crypto} {v : Json} {te : TransparencyEntry} {r : Receipt}
    {L L' : Ledger} (h : PartFresh X v te r L L') : Grows L L' :=
  ⟨fun _ x hx => ⟨x, h.log ▸ hx, .refl x⟩,
    fun _ o ho => ⟨o, Table.find?_of_find?_insert h.objects h.free ho, .refl o⟩,
    fun _ _ => h.receipted.grows, fun _ _ => h.noted.grows⟩

theorem Witnessed.grows {X : Crypto} {op : Operation} {digest : String} {L L' : Ledger}
    (h : Witnessed X op digest L L') : Grows L L' := by
  obtain ⟨te, hn, -⟩ := h.noted
  exact ⟨fun q x hx => ⟨x, h.log ▸ hx, .refl x⟩, fun q o ho => ⟨o, h.objects ▸ ho, .refl o⟩,
    fun q x hx => h.receipts ▸ hx, fun _ _ => hn.grows⟩

theorem Staged.grows {X : Crypto} {kind : Kind} {v : Json} {L L' : Ledger}
    (h : Staged X kind v L L') : Grows L L' := by
  rw [h.rest]
  refine ⟨fun q x hx => ⟨x, hx, .refl x⟩, fun q o ho => ⟨o, ?_, .refl o⟩, fun _ _ hx => hx,
    fun _ _ hx => hx⟩
  show L'.objects.find? q = _
  rw [h.objects, ho]
  split <;> rfl

theorem Registered.grows {d : Json} {seq : Nat} {status : Status} {L L' : Ledger}
    (h : Registered d seq status L L') : Grows L L' := by
  rw [h.rest]
  exact .of_eq rfl rfl rfl rfl

theorem Rewritten.grows {f : RegistryRow → RegistryRow} {L L' : Ledger}
    (h : Rewritten f L L') : Grows L L' := by
  rw [h.rest]
  exact .of_eq rfl rfl rfl rfl

theorem Blanked.grows {o : ObjectRow → Bool} {l : LogRow → Bool} {L L' : Ledger}
    (h : Blanked o l L L') (ho : ∀ r, o r = true → r.kind.removable)
    (hl : ∀ r e, l r = true → r.entry = some e → e.kind.removable) : Grows L L' := by
  refine ⟨fun q r hr => ?_, fun q r hr => ?_, fun q x hx => h.receipts ▸ hx,
    fun q x hx => h.transparency ▸ hx⟩
  · rw [h.log, hr]
    refine ⟨_, rfl, ?_⟩
    dsimp only
    split
    · rename_i hb
      exact ⟨rfl, .inr ⟨rfl, fun e he => hl r e hb he⟩⟩
    · exact .refl r
  · rw [h.objects, hr]
    refine ⟨_, rfl, ?_⟩
    dsimp only
    split
    · rename_i hb
      exact ⟨rfl, .inr ⟨rfl, ho r hb⟩, fun _ => ⟨rfl, rfl⟩⟩
    · exact .refl r

theorem ObjectRow.prunable_kind {l : String} {i : Nat} {r : ObjectRow}
    (h : r.prunable l i = true) : r.kind = .record := by
  simp only [ObjectRow.prunable, Bool.and_eq_true, decide_eq_true_eq] at h
  exact h.1.1

theorem LogRow.prunable_kind {l : String} {i : Nat} {r : LogRow} {e : LogEntry}
    (h : r.prunable l i = true) (he : r.entry = some e) : e.kind = .record := by
  simp only [LogRow.prunable, he, Option.any_some, Bool.and_eq_true, beq_iff_eq] at h
  exact h.2

theorem ObjectRow.expirable_kind {epoch : Nat} {r : ObjectRow}
    (h : r.expirable epoch = true) : r.kind = .envelope := by
  simp only [ObjectRow.expirable, Bool.and_eq_true, decide_eq_true_eq] at h
  exact h.1

theorem LogRow.expirable_kind {c : Chain} {epoch : Nat} {r : LogRow} {e : LogEntry}
    (h : r.expirable c epoch = true) (he : r.entry = some e) : e.kind = .envelope := by
  simp only [LogRow.expirable, he, Option.any_some, LogEntry.isEnvelopeOf, Bool.and_eq_true,
    decide_eq_true_eq] at h
  exact h.1.1

/-- No move loses anything but removable bodies and entries. -/
theorem Step.grows {X : Crypto} {m : Move} {L L' : Ledger} (h : Step X m L L') : Grows L L' := by
  cases h with
  | log _ h => exact h.grows
  | enlist h hr => exact h.grows.trans hr.grows
  | partAgain => exact .refl _
  | part h => exact h.grows
  | evidence h => exact h.grows
  | stage _ h => exact h.grows
  | revoke h => exact h.grows
  | activate h => exact h.grows
  | setEpoch => exact .of_eq rfl rfl rfl rfl
  | prune h =>
      exact h.grows (fun _ hb => .inl (ObjectRow.prunable_kind hb))
        fun _ _ hb he => .inl (LogRow.prunable_kind hb he)
  | handoff _ h => rw [h]; exact .of_eq rfl rfl rfl rfl
  | expire _ h =>
      exact h.grows (fun _ hb => .inr (ObjectRow.expirable_kind hb))
        fun _ _ hb he => .inr (LogRow.expirable_kind hb he)
  | found => exact .of_eq rfl rfl rfl rfl
  | reincarnate => exact .of_eq rfl rfl rfl rfl

theorem Steps.grows {X : Crypto} {ms : List Move} {L L' : Ledger} (h : Steps X ms L L') :
    Grows L L' := by
  induction h with
  | nil => exact .refl _
  | cons hm _ ih => exact hm.grows.trans ih

/-! ## The two hash lines -/

/-- The hash stored at a log position. -/
def Ledger.logHash (L : Ledger) (l : String) (i : Nat) : Option String :=
  (L.log.find? (l, i)).map (·.headHash)

/-- The entry hash a receipt records for a log position. -/
def Ledger.entryDigest (L : Ledger) (l : String) (i : Nat) (d : String) : Prop :=
  ∃ rr ∈ L.receipts, rr.logId = l ∧ rr.seq = some i ∧ rr.receipt.entryHash = some d

/-- The log `l` is a hash line that ends at position `len` with hash `last`. -/
def Ledger.LogLine (X : Crypto) (L : Ledger) (l : String) (len : Nat) (last : String) : Prop :=
  Linked (linkDigest X []) (Chain.logOrigin X L.chain.chainId l) (L.logHash l) (L.entryDigest l)
    len last

/-- The transparency rows are a hash line that ends where the chain row says. -/
def EvidenceLine (X : Crypto) (c : Chain) (tab : Table TransparencyRow TransparencyRow.key) :
    Prop :=
  Linked (linkDigest X transparencyLinkContext)
    (Chain.transparencyOrigin X c.chainId c.transparencyId)
    (fun i => (tab.find? (c.transparencyId, i)).map (·.hash))
    (fun i d => ∃ r, tab.find? (c.transparencyId, i) = some r ∧ X.objectHash r.entry.toJson = d)
    c.transparencyIndex c.transparencyHash

theorem Grows.entryDigest {L L' : Ledger} (h : Grows L L') {l : String} {i : Nat} {d : String}
    (hd : L.entryDigest l i d) : L'.entryDigest l i d := by
  obtain ⟨rr, hrr, hl, hi, he⟩ := hd
  exact ⟨rr, Table.mem_of_find? (h.receipts _ rr (Table.find?_of_mem hrr)), hl, hi, he⟩

theorem Grows.logHash {L L' : Ledger} (h : Grows L L') {l : String} {i : Nat} {x : String}
    (hx : L.logHash l i = some x) : L'.logHash l i = some x := by
  obtain ⟨r, hr, rfl⟩ := Option.map_eq_some_iff.mp hx
  obtain ⟨r', hr', hl⟩ := h.log _ r hr
  rw [Ledger.logHash, hr', Option.map_some, hl.headHash]

theorem Grows.hashAt {L L' : Ledger} (h : Grows L L') {h0 l : String} {i : Nat} {x : String}
    (hx : hashAt h0 (L.logHash l) i = some x) : hashAt h0 (L'.logHash l) i = some x := by
  unfold HashLine.hashAt at hx ⊢
  split at hx
  · rename_i hi
    rw [if_pos hi]
    exact hx
  · rename_i hi
    rw [if_neg hi]
    exact h.logHash hx

/-- A move that adds no log row leaves the logs as they are. -/
theorem Ledger.LogLine.mono {X : Crypto} {L L' : Ledger} {l : String} {len : Nat} {last : String}
    (h : L.LogLine X l len last) (hg : Grows L L') (hlog : ∀ i, L'.logHash l i = L.logHash l i)
    (hid : L'.chain.chainId = L.chain.chainId) : L'.LogLine X l len last := by
  unfold Ledger.LogLine at h ⊢
  rw [hid]
  exact Linked.mono h hlog fun i d => hg.entryDigest

theorem EvidenceLine.noted {X : Crypto} {op : Operation} {digest : String} {seq : Option Nat}
    {te : TransparencyEntry} {c : Chain} {tab tab' : Table TransparencyRow TransparencyRow.key}
    (h : EvidenceLine X c tab) (hn : Noted X op digest seq te c tab tab') :
    EvidenceLine X (c.noted X te) tab' := by
  refine Linked.extend (d := X.objectHash te.toJson) h (fun i hi => ?_) ?_ (fun i d hd => ?_) ?_
  · simp [hn.find?, hi]
  · simp [hn.find?, linkHash]
  · obtain ⟨r, hr, he⟩ := hd
    exact ⟨r, hn.grows hr, he⟩
  · exact ⟨_, by rw [hn.find?, Chain.noted_transparencyId, if_pos rfl], rfl⟩

/-! ## Agreement -/

/-- A log entry agrees with the receipt of its position. -/
structure EntryOk (X : Crypto) (rr : ReceiptRow) (e : LogEntry) : Prop where
  kind : e.kind = rr.kind
  objectId : objectId e.object rr.kind = rr.objectId
  objectHash : X.objectHash e.object = rr.receipt.objectHash
  entryHash : rr.receipt.entryHash = some (X.objectHash e.toJson)
  relaySeq : rr.seq = some e.relaySeq

/-- A receipt with a position agrees with the log there. -/
structure PositionOk (X : Crypto) (L : Ledger) (rr : ReceiptRow) (i : Nat) : Prop where
  row : ∃ row, L.log.find? (rr.logId, i) = some row ∧
    row.headHash = rr.receipt.resultingHeadHash ∧ (∀ e, row.entry = some e → EntryOk X rr e) ∧
    (row.entry = none → rr.kind.removable)
  previous : hashAt (Chain.logOrigin X L.chain.chainId rr.logId) (L.logHash rr.logId) (i - 1) =
    some rr.receipt.previousHeadHash

/-- An accept entry agrees with its receipt. -/
structure AcceptOk (rr : ReceiptRow) (t : TransparencyRow) : Prop where
  operation : t.entry.operation = .accept
  objectHash : t.entry.objectHash = rr.receipt.objectHash
  relaySeq : t.entry.relaySeq = rr.seq
  logId : t.entry.logId = rr.logId
  resultingHeadHash : t.entry.resultingHeadHash = rr.receipt.resultingHeadHash
  hash : t.hash = rr.receipt.transparencyHash

structure ReceiptOk (X : Crypto) (L : Ledger) (rr : ReceiptRow) : Prop where
  chainId : rr.receipt.chainId = L.chain.chainId
  logId : rr.receipt.logId = rr.logId
  relaySeq : rr.receipt.relaySeq = rr.seq
  transparencyId : rr.receipt.transparencyId = L.chain.transparencyId
  accepted : ∃ t, L.transparency.find?
      (rr.receipt.transparencyId, rr.receipt.transparencyIndex) = some t ∧ AcceptOk rr t
  object : ∃ o, L.objects.find? (rr.kind, rr.objectId) = some o ∧
    o.objectHash = rr.receipt.objectHash ∧
    (rr.seq.isSome → o.logId = some rr.logId ∧ o.relaySeq = rr.seq)
  part : rr.seq = none ↔ rr.kind = .snapshotPart
  position : ∀ i, rr.seq = some i → PositionOk X L rr i

/-- The receipts stay right while the ledger grows. -/
theorem ReceiptOk.mono {X : Crypto} {L L' : Ledger} {rr : ReceiptRow} (h : ReceiptOk X L rr)
    (hg : Grows L L') (hid : L'.chain.chainId = L.chain.chainId)
    (htid : L'.chain.transparencyId = L.chain.transparencyId) : ReceiptOk X L' rr := by
  obtain ⟨t, ht, hok⟩ := h.accepted
  obtain ⟨o, ho, hhash, hplace⟩ := h.object
  obtain ⟨o', ho', hl⟩ := hg.objects _ o ho
  refine ⟨h.chainId.trans hid.symm, h.logId, h.relaySeq, h.transparencyId.trans htid.symm,
    ⟨t, hg.transparency _ t ht, hok⟩, ⟨o', ho', hl.objectHash.trans hhash, fun hs => ?_⟩, h.part,
    fun i hi => ?_⟩
  · obtain ⟨h₁, h₂⟩ := hplace hs
    obtain ⟨h₃, h₄⟩ := hl.placed (by rw [h₁]; rfl)
    exact ⟨h₃.trans h₁, h₄.trans h₂⟩
  · obtain ⟨⟨row, hrow, hhead, hentry, hnull⟩, hprev⟩ := h.position i hi
    obtain ⟨row', hrow', hl⟩ := hg.log _ row hrow
    refine ⟨⟨row', hrow', hl.headHash.trans hhead, fun e he => ?_, fun he => ?_⟩, ?_⟩
    · rcases hl.entry with hs | ⟨hn, -⟩
      · exact hentry e (hs ▸ he)
      · rw [hn] at he
        cases he
    · rcases hl.entry with hs | ⟨-, hk⟩
      · exact hnull (hs ▸ he)
      · cases hrow : row.entry with
        | none => exact hnull hrow
        | some e => exact (hentry e hrow).kind ▸ hk e hrow
    · rw [hid]
      exact hg.hashAt hprev

/-- A stored object agrees with its digest, and one with a position has a
receipt. -/
structure ObjectOk (X : Crypto) (L : Ledger) (o : ObjectRow) : Prop where
  body : ∀ b, o.body = some b → X.objectHash b = o.objectHash ∧ objectId b o.kind = o.objectId
  removed : o.body = none → o.kind.removable
  placed : o.logId.isSome → (L.receipts.find? (o.kind, o.objectId)).isSome
  unplaced : o.logId = none → o.relaySeq = none
  record : o.kind = .record → o.logId.isSome
  part : o.kind = .snapshotPart →
    o.logId = none ∧ (L.receipts.find? (o.kind, o.objectId)).isSome

theorem ObjectOk.mono {X : Crypto} {L L' : Ledger} {o : ObjectRow} (h : ObjectOk X L o)
    (hr : ∀ q r, L.receipts.find? q = some r → L'.receipts.find? q = some r) :
    ObjectOk X L' o := by
  have hsome : ∀ q, (L.receipts.find? q).isSome → (L'.receipts.find? q).isSome := fun q hq => by
    obtain ⟨r, h⟩ := Option.isSome_iff_exists.mp hq
    exact Option.isSome_iff_exists.mpr ⟨r, hr q r h⟩
  exact ⟨h.body, h.removed, fun hs => hsome _ (h.placed hs), h.unplaced, h.record,
    fun hk => ⟨(h.part hk).1, hsome _ (h.part hk).2⟩⟩

/-- An object whose body is removed. -/
theorem ObjectOk.blank {X : Crypto} {L : Ledger} {o : ObjectRow} (h : ObjectOk X L o)
    (hk : o.kind.removable) : ObjectOk X L { o with body := none } :=
  ⟨nofun, fun _ => hk, h.placed, h.unplaced, h.record, h.part⟩

/-- Every device that was accepted is in the registry. -/
def Ledger.Enrolled (L : Ledger) : Prop :=
  ∀ rr ∈ L.receipts, rr.kind = .device → (L.registry.find? rr.objectId).isSome

/-- A device that is admitted was never accepted before. -/
theorem Ledger.Enrolled.fresh {X : Crypto} {L M L' : Ledger} {d : Json} {seq : Nat}
    {status : Status} {entry : Option LogEntry} {r : Receipt} (h : L.Enrolled)
    (hl : Logged X .device d entry r L M) (hr : Registered d seq status M L') :
    ∃ e te, entry = some e ∧ Fresh X .device d e te r L M := by
  cases hl with
  | fresh hf => exact ⟨_, _, rfl, hf⟩
  | again ha =>
      obtain ⟨rr, hrr, -⟩ := ha.receipt
      have hkey := Table.key_of_find? hrr
      obtain ⟨hk, hid⟩ := Prod.mk.inj hkey
      have hin := h rr (Table.mem_of_find? hrr) hk
      rw [hid, show objectId d .device = s d "device_id" from rfl, hr.free] at hin
      cases hin

/-- Everything a ledger says about one acceptance agrees. -/
structure Sound (X : Crypto) (L : Ledger) : Prop where
  lines : ∀ l, ∃ len last, L.LogLine X l len last
  head : L.LogLine X L.chain.logId L.chain.headSeq L.chain.headHash
  evidence : EvidenceLine X L.chain L.transparency
  evidenceId : ∀ t ∈ L.transparency, t.transparencyId = L.chain.transparencyId ∧
    t.entry.entryIndex = t.idx
  receipts : ∀ rr ∈ L.receipts, ReceiptOk X L rr
  logged : ∀ l i row, L.log.find? (l, i) = some row →
    ∃ rr ∈ L.receipts, rr.logId = l ∧ rr.seq = some i
  accepts : ∀ t ∈ L.transparency, t.entry.operation = .accept →
    ∃ rr ∈ L.receipts, rr.receipt.transparencyIndex = t.idx
  uniqueSeq : ∀ rr ∈ L.receipts, ∀ rr' ∈ L.receipts, rr.logId = rr'.logId → rr.seq = rr'.seq →
    rr.seq.isSome → rr = rr'
  uniqueIndex : ∀ rr ∈ L.receipts, ∀ rr' ∈ L.receipts,
    rr.receipt.transparencyIndex = rr'.receipt.transparencyIndex → rr = rr'
  objects : ∀ o ∈ L.objects, ObjectOk X L o
  siblings : ∀ id, L.objects.find? (.record, id) = none ∨
    L.objects.find? (.snapshotPart, id) = none
  minimum : 1 ≤ L.chain.minAvailableSeq ∧ L.chain.minAvailableSeq ≤ L.chain.headSeq + 1
  present : ∀ i row, L.log.find? (L.chain.logId, i) = some row →
    L.chain.minAvailableSeq ≤ i → row.entry.isSome
  pruned : ∀ o ∈ L.objects, o.kind = .record → o.body = none → o.logId = some L.chain.logId →
    ∃ i, o.relaySeq = some i ∧ i < L.chain.minAvailableSeq
  enrolled : L.Enrolled

namespace Sound

variable {X : Crypto} {L L' : Ledger}

/-! ### What follows from agreement -/

theorem receipt_of_find? (h : Sound X L) {q : Kind × String} {rr : ReceiptRow}
    (hr : L.receipts.find? q = some rr) : ReceiptOk X L rr :=
  h.receipts rr (Table.mem_of_find? hr)

theorem object_of_find? (h : Sound X L) {q : Kind × String} {o : ObjectRow}
    (ho : L.objects.find? q = some o) : ObjectOk X L o :=
  h.objects o (Table.mem_of_find? ho)

/-- The accept entries of receipts are on the transparency chain. -/
theorem index_le (h : Sound X L) {rr : ReceiptRow} (hr : rr ∈ L.receipts) :
    rr.receipt.transparencyIndex ≤ L.chain.transparencyIndex := by
  obtain ⟨t, ht, -⟩ := (h.receipts rr hr).accepted
  rw [(h.receipts rr hr).transparencyId] at ht
  exact ((h.evidence.dom _).mp (by rw [ht]; rfl)).2

/-- A position of the current log is assigned exactly up to the head. -/
theorem log_dom (h : Sound X L) (i : Nat) :
    (L.log.find? (L.chain.logId, i)).isSome ↔ 1 ≤ i ∧ i ≤ L.chain.headSeq := by
  rw [← h.head.dom i, Ledger.logHash, Option.isSome_map]

/-- A log that has any row has a first one. -/
theorem first_row (h : Sound X L) {l : String} (hl : L.log.find? (l, 1) = none) (i : Nat) :
    L.log.find? (l, i) = none := by
  obtain ⟨len, last, hline⟩ := h.lines l
  have hlen : ¬(1 ≤ 1 ∧ 1 ≤ len) := by
    rw [← hline.dom 1, Ledger.logHash, hl]
    simp
  have hrow := hline.dom i
  rw [Ledger.logHash, Option.isSome_map] at hrow
  cases hf : L.log.find? (l, i) with
  | none => rfl
  | some row =>
      rw [hf] at hrow
      have := hrow.mp rfl
      omega

/-- An object with a position has a receipt with the same position. -/
theorem placed (h : Sound X L) {o : ObjectRow} (ho : o ∈ L.objects) {l : String}
    (hl : o.logId = some l) : ∃ rr i, L.receipts.find? (o.kind, o.objectId) = some rr ∧
      rr.logId = l ∧ rr.seq = some i ∧ o.relaySeq = some i := by
  have hok := h.objects o ho
  obtain ⟨rr, hrr⟩ := Option.isSome_iff_exists.mp (hok.placed (by rw [hl]; rfl))
  have hr := h.receipt_of_find? hrr
  have hkey := Table.key_of_find? hrr
  obtain ⟨o', ho', -, hplace⟩ := hr.object
  have hsame : o' = o := by
    rw [show (rr.kind, rr.objectId) = (o.kind, o.objectId) from hkey] at ho'
    exact Option.some.inj (ho'.symm.trans (Table.find?_of_mem ho))
  cases hseq : rr.seq with
  | none =>
      have hkind : o.kind = .snapshotPart := (congrArg Prod.fst hkey).symm.trans (hr.part.mp hseq)
      rw [(hok.part hkind).1] at hl
      cases hl
  | some i =>
      obtain ⟨h₁, h₂⟩ := hplace (by rw [hseq]; rfl)
      subst hsame
      rw [hl] at h₁
      exact ⟨rr, i, hrr, (Option.some.inj h₁).symm, hseq, h₂.trans hseq⟩

/-! ### Moves that accept nothing -/

/-- The chain rows agree on the log and the transparency chain. -/
structure SameEnds (c c' : Chain) : Prop where
  chainId : c'.chainId = c.chainId
  logId : c'.logId = c.logId
  headSeq : c'.headSeq = c.headSeq
  headHash : c'.headHash = c.headHash
  transparencyId : c'.transparencyId = c.transparencyId
  transparencyIndex : c'.transparencyIndex = c.transparencyIndex
  transparencyHash : c'.transparencyHash = c.transparencyHash

theorem SameEnds.refl (c : Chain) : SameEnds c c := ⟨rfl, rfl, rfl, rfl, rfl, rfl, rfl⟩

/-- A move that adds no log row, no receipt and no transparency entry has to
answer only for the objects and for what is available. -/
theorem quiet (h : Sound X L) (hg : Grows L L') (hc : SameEnds L.chain L'.chain)
    (hlog : ∀ l i, L'.logHash l i = L.logHash l i) (hr : L'.receipts = L.receipts)
    (ht : L'.transparency = L.transparency) (hobj : ∀ o ∈ L'.objects, ObjectOk X L' o)
    (hsib : ∀ id, L'.objects.find? (.record, id) = none ∨
      L'.objects.find? (.snapshotPart, id) = none)
    (hmin : 1 ≤ L'.chain.minAvailableSeq ∧ L'.chain.minAvailableSeq ≤ L'.chain.headSeq + 1)
    (hpres : ∀ i row, L'.log.find? (L'.chain.logId, i) = some row →
      L'.chain.minAvailableSeq ≤ i → row.entry.isSome)
    (hprun : ∀ o ∈ L'.objects, o.kind = .record → o.body = none →
      o.logId = some L'.chain.logId → ∃ i, o.relaySeq = some i ∧ i < L'.chain.minAvailableSeq)
    (hreg : ∀ id, (L.registry.find? id).isSome → (L'.registry.find? id).isSome) : Sound X L' where
  lines := fun l => by
    obtain ⟨len, last, hline⟩ := h.lines l
    exact ⟨len, last, hline.mono hg (hlog l) hc.chainId⟩
  head := by
    rw [hc.logId, hc.headSeq, hc.headHash]
    exact h.head.mono hg (hlog _) hc.chainId
  evidence := by
    have he := h.evidence
    unfold EvidenceLine at he ⊢
    rw [ht, hc.chainId, hc.transparencyId, hc.transparencyIndex, hc.transparencyHash]
    exact he
  evidenceId := by
    rw [ht, hc.transparencyId]
    exact h.evidenceId
  receipts := fun rr hrr =>
    (h.receipts rr (hr ▸ hrr)).mono hg hc.chainId hc.transparencyId
  logged := fun l i row hrow => by
    have hsome : (L.logHash l i).isSome := by
      rw [← hlog, Ledger.logHash, hrow]
      rfl
    obtain ⟨row', hrow'⟩ := Option.isSome_iff_exists.mp
      ((Option.isSome_map (x := L.log.find? (l, i))).symm.trans hsome)
    rw [hr]
    exact h.logged l i row' hrow'
  accepts := by
    rw [hr, ht]
    exact h.accepts
  uniqueSeq := by
    rw [hr]
    exact h.uniqueSeq
  uniqueIndex := by
    rw [hr]
    exact h.uniqueIndex
  objects := hobj
  siblings := hsib
  minimum := hmin
  present := hpres
  pruned := hprun
  enrolled := fun rr hrr hk => hreg _ (h.enrolled rr (hr ▸ hrr) hk)

/-- A move that leaves the four tables and the ends of both chains alone. -/
theorem frame (h : Sound X L) (ho : L'.objects = L.objects) (hl : L'.log = L.log)
    (hr : L'.receipts = L.receipts) (ht : L'.transparency = L.transparency)
    (hc : SameEnds L.chain L'.chain)
    (hm : L'.chain.minAvailableSeq = L.chain.minAvailableSeq)
    (hreg : ∀ id, (L.registry.find? id).isSome → (L'.registry.find? id).isSome) : Sound X L' := by
  have hg : Grows L L' := .of_eq ho hl hr ht
  refine h.quiet hg hc (fun l i => by rw [Ledger.logHash, hl]; rfl) hr ht
    (fun o hmem => (h.objects o (ho ▸ hmem)).mono hg.receipts) (ho ▸ h.siblings)
    (by rw [hm, hc.headSeq]; exact h.minimum) ?_ ?_ hreg
  · rw [hl, hc.logId, hm]
    exact h.present
  · rw [ho, hc.logId, hm]
    exact h.pruned

theorem rewritten {f : RegistryRow → RegistryRow} (h : Sound X L) (hs : Rewritten f L L') :
    Sound X L' := by
  have hreg := hs.find?
  rw [hs.rest] at hreg ⊢
  refine h.frame rfl rfl rfl rfl (.refl _) rfl fun id hid => ?_
  rw [hreg, Option.isSome_map]
  exact hid

theorem staged {kind : Kind} {v : Json} (h : Sound X L) (hk : kind.staged = true)
    (hs : Staged X kind v L L') : Sound X L' := by
  have hg := hs.grows
  have hold : ∀ o ∈ L'.objects, o ∈ L.objects ∨
      o = ⟨kind, objectId v kind, X.objectHash v, some v, none, none⟩ := fun o hmem => by
    have hfind := Table.find?_of_mem hmem
    rw [hs.objects] at hfind
    split at hfind
    · cases hf : L.objects.find? (kind, objectId v kind) with
      | none =>
          rename_i hq
          rw [hq, hf, Option.getD_none] at hfind
          exact .inr (Option.some.inj hfind).symm
      | some x =>
          rename_i hq
          rw [hq, hf, Option.getD_some] at hfind
          exact .inl (Option.some.inj hfind ▸ Table.mem_of_find? hf)
    · exact .inl (Table.mem_of_find? hfind)
  have hobjects := hs.objects
  rw [hs.rest] at hg hold hobjects ⊢
  refine h.quiet hg (.refl _) (fun _ _ => rfl) rfl rfl (fun o hmem => ?_) (fun id => ?_)
    h.minimum h.present (fun o hmem hrec => ?_) (fun _ hid => hid)
  · obtain ho | rfl := hold o hmem
    · exact (h.objects o ho).mono fun _ _ hq => hq
    · refine ⟨fun b hb => ?_, fun he => ?_, fun he => ?_, fun _ => rfl, fun hrec => ?_,
        fun hpart => ?_⟩
      · cases hb
        exact ⟨rfl, rfl⟩
      · cases he
      · cases he
      · rw [show kind = .record from hrec] at hk
        cases hk
      · rw [show kind = .snapshotPart from hpart] at hk
        cases hk
  · have hne : ∀ k, k.staged = false → (k, id) ≠ (kind, objectId v kind) := fun k hk' he => by
      rw [← (Prod.mk.inj he).1, hk'] at hk
      cases hk
    simp only [hobjects, if_neg (hne .record rfl), if_neg (hne .snapshotPart rfl)]
    exact h.siblings id
  · obtain ho | rfl := hold o hmem
    · exact h.pruned o ho hrec
    · intro he
      cases he

/-- A move that removes bodies and entries. -/
theorem blanked {o : ObjectRow → Bool} {l : LogRow → Bool} (h : Sound X L)
    (hb : Blanked o l L L') (ho : ∀ r, o r = true → r.kind.removable)
    (hl : ∀ r e, l r = true → r.entry = some e → e.kind.removable)
    (hc : SameEnds L.chain L'.chain)
    (hmin : L.chain.minAvailableSeq ≤ L'.chain.minAvailableSeq ∧
      L'.chain.minAvailableSeq ≤ L.chain.headSeq + 1)
    (hseq : ∀ r, l r = true → r.logId = L.chain.logId → r.seq < L'.chain.minAvailableSeq)
    (hrec : ∀ r, o r = true → r.kind = .record →
      ∃ i, r.relaySeq = some i ∧ i < L'.chain.minAvailableSeq) : Sound X L' := by
  have hg := hb.grows ho hl
  have hmem : ∀ x ∈ L'.objects, ∃ r ∈ L.objects, x = if o r then { r with body := none } else r :=
    fun x hx => by
      have hfind := Table.find?_of_mem hx
      rw [hb.objects] at hfind
      obtain ⟨r, hr, he⟩ := Option.map_eq_some_iff.mp hfind
      exact ⟨r, Table.mem_of_find? hr, he.symm⟩
  have hnone : ∀ q, L.objects.find? q = none → L'.objects.find? q = none := fun q hq => by
    rw [hb.objects, hq, Option.map_none]
  refine h.quiet hg hc (fun l i => ?_) hb.receipts hb.transparency (fun x hx => ?_)
    (fun id => (h.siblings id).imp (hnone _) (hnone _)) ?_ (fun i row hrow hi => ?_)
    (fun x hx hk hbody hlog => ?_) (fun _ hid => hb.registry ▸ hid)
  · rw [Ledger.logHash, hb.log, Option.map_map, Ledger.logHash]
    congr 1
    funext r
    simp only [Function.comp]
    split <;> rfl
  · obtain ⟨r, hr, rfl⟩ := hmem x hx
    have hok : ObjectOk X L' r := (h.objects r hr).mono hg.receipts
    split
    · rename_i hor
      exact hok.blank (ho r hor)
    · exact hok
  · rw [hc.headSeq]
    exact ⟨h.minimum.1.trans hmin.1, hmin.2⟩
  · rw [hb.log, hc.logId] at hrow
    obtain ⟨r, hr, rfl⟩ := Option.map_eq_some_iff.mp hrow
    have hkey := Table.key_of_find? hr
    obtain ⟨hlogId, hi'⟩ := Prod.mk.inj hkey
    split
    · rename_i hlr
      have := hseq r hlr hlogId
      omega
    · exact h.present i r hr (hmin.1.trans hi)
  · obtain ⟨r, hr, rfl⟩ := hmem x hx
    by_cases hor : o r = true
    · simp only [if_pos hor] at hk ⊢
      exact hrec r hor hk
    · simp only [if_neg hor, hc.logId] at hk hbody hlog ⊢
      obtain ⟨i, hi, hlt⟩ := h.pruned r hr hk hbody hlog
      exact ⟨i, hi, lt_of_lt_of_le hlt hmin.1⟩

theorem prune {through : Nat} {cid : String} (h : Sound X L)
    (hb : Blanked (·.prunable L.chain.logId through) (·.prunable L.chain.logId through) L L')
    (hmin : L.chain.minAvailableSeq ≤ through + 1) (hhead : through ≤ L.chain.headSeq)
    (hc : L'.chain = { L.chain with
      minAvailableSeq := through + 1, boundaryCompactionId := some cid }) : Sound X L' := by
  refine h.blanked hb (fun _ hr => .inl (ObjectRow.prunable_kind hr))
    (fun _ _ hr he => .inl (LogRow.prunable_kind hr he)) ?_ ?_ (fun r hr _ => ?_)
    (fun r hr _ => ?_)
  · rw [hc]
    exact ⟨rfl, rfl, rfl, rfl, rfl, rfl, rfl⟩
  · rw [hc]
    exact ⟨hmin, by dsimp only; omega⟩
  · simp only [LogRow.prunable, Bool.and_eq_true, decide_eq_true_eq] at hr
    rw [hc]
    exact Nat.lt_succ_of_le hr.1.2
  · simp only [ObjectRow.prunable, Bool.and_eq_true] at hr
    obtain ⟨i, hi, hle⟩ := (Option.any_eq_true _ _).mp hr.2
    rw [hc]
    exact ⟨i, hi, Nat.lt_succ_of_le (by simpa using hle)⟩

theorem expire {epoch : Nat} (h : Sound X L)
    (hb : Blanked (·.expirable epoch) (·.expirable L.chain epoch) L L')
    (hc : L'.chain = L.chain) : Sound X L' := by
  refine h.blanked hb (fun _ hr => .inr (ObjectRow.expirable_kind hr))
    (fun _ _ hr he => .inr (LogRow.expirable_kind hr he)) (hc ▸ .refl _) ?_ (fun r hr _ => ?_)
    (fun r hr hk => ?_)
  · rw [hc]
    exact ⟨le_rfl, h.minimum.2⟩
  · simp only [LogRow.expirable, Bool.and_eq_true, decide_eq_true_eq] at hr
    rw [hc]
    exact hr.2
  · rw [ObjectRow.expirable_kind hr] at hk
    cases hk

/-! ### A new chain, a new log -/

theorem found {c : Chain} {p e : Json} {logId tid notice : String} (hb : L.Bare)
    (hc : { c with writable := true } = Chain.new X p e logId tid notice) :
    Sound X { L with chain := c } := by
  have hseq : c.headSeq = 0 := congrArg Chain.headSeq hc
  have hhash : c.headHash = Chain.logOrigin X c.chainId c.logId := by
    have h₁ : c.chainId = s p "chain_id" := congrArg Chain.chainId hc
    have h₂ : c.logId = logId := congrArg Chain.logId hc
    rw [h₁, h₂]
    exact congrArg Chain.headHash hc
  have hmin : c.minAvailableSeq = 1 := congrArg Chain.minAvailableSeq hc
  have hidx : c.transparencyIndex = 0 := congrArg Chain.transparencyIndex hc
  have hthash : c.transparencyHash = Chain.transparencyOrigin X c.chainId c.transparencyId := by
    have h₁ : c.chainId = s p "chain_id" := congrArg Chain.chainId hc
    have h₂ : c.transparencyId = tid := congrArg Chain.transparencyId hc
    rw [h₁, h₂]
    exact congrArg Chain.transparencyHash hc
  have hnone : ∀ l i, Ledger.logHash { L with chain := c } l i = none := fun l i => by
    simp [Ledger.logHash, hb.log]
  have hrec : ∀ rr, rr ∉ L.receipts := fun rr hrr => by
    have := Table.find?_of_mem hrr
    rw [hb.receipts] at this
    cases this
  have hobj : ∀ o, o ∉ L.objects := fun o ho => by
    have := Table.find?_of_mem ho
    rw [hb.objects] at this
    cases this
  have htr : ∀ t, t ∉ L.transparency := fun t ht => by
    have := Table.find?_of_mem ht
    rw [hb.transparency] at this
    cases this
  exact {
    lines := fun l => ⟨0, _, linked_empty (hnone l)⟩
    head := by
      unfold Ledger.LogLine
      dsimp only
      rw [hseq, hhash]
      exact linked_empty (hnone _)
    evidence := by
      unfold EvidenceLine
      dsimp only
      rw [hidx, hthash]
      exact linked_empty fun i => by simp [hb.transparency]
    evidenceId := fun t ht => absurd ht (htr t)
    receipts := fun rr hrr => absurd hrr (hrec rr)
    logged := fun l i row hrow => by simp [hb.log] at hrow
    accepts := fun t ht => absurd ht (htr t)
    uniqueSeq := fun rr hrr => absurd hrr (hrec rr)
    uniqueIndex := fun rr hrr => absurd hrr (hrec rr)
    objects := fun o ho => absurd ho (hobj o)
    siblings := fun id => .inl (hb.objects _)
    minimum := by
      dsimp only
      omega
    present := fun i row hrow => by simp [hb.log] at hrow
    pruned := fun o ho => absurd ho (hobj o)
    enrolled := fun rr hrr => absurd hrr (hrec rr) }

theorem reincarnate {p : Json} {logId notice : String} (h : Sound X L)
    (hid : s p "chain_id" = L.chain.chainId) (hfree : ∀ i, L.log.find? (logId, i) = none) :
    Sound X { L with chain := L.chain.reseeded X p logId notice } := by
  have hnone : ∀ i,
      Ledger.logHash { L with chain := L.chain.reseeded X p logId notice } logId i = none :=
    fun i => by simp [Ledger.logHash, hfree]
  have hg : Grows L { L with chain := L.chain.reseeded X p logId notice } :=
    .of_eq rfl rfl rfl rfl
  exact {
    lines := fun l => by
      obtain ⟨len, last, hline⟩ := h.lines l
      exact ⟨len, last, hline.mono hg (fun _ => rfl) hid⟩
    head := linked_empty hnone
    evidence := by
      have he := h.evidence
      unfold EvidenceLine at he ⊢
      simp only [Chain.reseeded_chainId, Chain.reseeded_transparencyId,
        Chain.reseeded_transparencyIndex, Chain.reseeded_transparencyHash]
      rw [show (Chain.new X p L.chain.epoch logId L.chain.transparencyId notice).chainId =
        L.chain.chainId from hid]
      exact he
    evidenceId := h.evidenceId
    receipts := fun rr hrr => (h.receipts rr hrr).mono hg hid rfl
    logged := h.logged
    accepts := h.accepts
    uniqueSeq := h.uniqueSeq
    uniqueIndex := h.uniqueIndex
    objects := fun o ho => (h.objects o ho).mono hg.receipts
    siblings := h.siblings
    minimum := ⟨le_rfl, le_rfl⟩
    present := fun i row hrow => absurd ((hfree i).symm.trans hrow) (by simp)
    pruned := fun o ho _ _ hlog => by
      obtain ⟨rr, i, hrr, hl, hi, -⟩ := h.placed ho hlog
      obtain ⟨⟨row, hrow, -⟩, -⟩ := (h.receipt_of_find? hrr).position i hi
      rw [hl] at hrow
      exact absurd ((hfree i).symm.trans hrow) (by simp)
    enrolled := h.enrolled }

/-! ### Moves that accept or witness -/

section Noting

variable {op : Operation} {digest : String} {seq : Option Nat} {te : TransparencyEntry}
  {c : Chain} {tab : Table TransparencyRow TransparencyRow.key}

theorem evidenceId_noted (h : Sound X L) (hid : c.transparencyId = L.chain.transparencyId)
    (hn : Noted X op digest seq te c L.transparency tab) :
    ∀ t ∈ tab, t.transparencyId = L.chain.transparencyId ∧ t.entry.entryIndex = t.idx := by
  intro t ht
  obtain ht | rfl := Table.mem_of_find?_insert hn.find? ht
  · exact h.evidenceId t ht
  · exact ⟨hid, hn.entryIndex⟩

end Noting

section Accepting

variable {kind : Kind} {v : Json} {seq : Option Nat} {entryHash : Option String}
  {previous : String} {r : Receipt} {te : TransparencyEntry} {c : Chain}

/-- The rows an acceptance adds agree with each other. -/
theorem acceptOk_new {ttab ttab' : Table TransparencyRow TransparencyRow.key}
    {rtab rtab' : Table ReceiptRow ReceiptRow.key}
    (hn : Noted X .accept (X.objectHash v) seq te c ttab ttab')
    (hr : Receipted X kind v seq entryHash previous r (c.noted X te) rtab rtab') :
    ∃ t, ttab'.find? (r.transparencyId, r.transparencyIndex) = some t ∧
      AcceptOk ⟨kind, objectId v kind, (c.noted X te).logId, seq, r⟩ t := by
  refine ⟨⟨c.transparencyId, c.transparencyIndex + 1, te, (c.noted X te).transparencyHash⟩, ?_,
    hn.operation, hn.objectHash.trans hr.objectHash.symm, hn.relaySeq, hn.logId,
    hn.resultingHeadHash.trans hr.resultingHeadHash.symm, hr.transparencyHash.symm⟩
  rw [hn.find?, hr.transparencyId, hr.transparencyIndex, Chain.noted_transparencyId,
    Chain.noted_transparencyIndex, if_pos rfl]

theorem accepts_new (h : Sound X L)
    (hn : Noted X .accept (X.objectHash v) seq te c L.transparency L'.transparency)
    (hr : Receipted X kind v seq entryHash previous r (c.noted X te) L.receipts L'.receipts) :
    ∀ t ∈ L'.transparency, t.entry.operation = .accept →
      ∃ rr ∈ L'.receipts, rr.receipt.transparencyIndex = t.idx := by
  intro t ht hop
  obtain ht | rfl := Table.mem_of_find?_insert hn.find? ht
  · obtain ⟨rr, hrr, hi⟩ := h.accepts t ht hop
    exact ⟨rr, Table.mem_of_find? (hr.grows (Table.find?_of_mem hrr)), hi⟩
  · refine ⟨_, Table.mem_of_find? (k := (kind, objectId v kind)) (by rw [hr.find?, if_pos rfl]), ?_⟩
    rw [hr.transparencyIndex]
    rfl

theorem uniqueIndex_new (h : Sound X L) (hidx : c.transparencyIndex = L.chain.transparencyIndex)
    (hr : Receipted X kind v seq entryHash previous r (c.noted X te) L.receipts L'.receipts) :
    ∀ rr ∈ L'.receipts, ∀ rr' ∈ L'.receipts,
      rr.receipt.transparencyIndex = rr'.receipt.transparencyIndex → rr = rr' := by
  have hnew : r.transparencyIndex = L.chain.transparencyIndex + 1 := by
    rw [hr.transparencyIndex, Chain.noted_transparencyIndex, hidx]
  intro rr hrr rr' hrr' heq
  obtain ho | rfl := Table.mem_of_find?_insert hr.find? hrr
  · obtain ho' | rfl := Table.mem_of_find?_insert hr.find? hrr'
    · exact h.uniqueIndex rr ho rr' ho' heq
    · have := h.index_le ho
      dsimp only at heq
      omega
  · obtain ho' | rfl := Table.mem_of_find?_insert hr.find? hrr'
    · have := h.index_le ho'
      dsimp only at heq
      omega
    · rfl

end Accepting

/-- The row of an object that is accepted at a position. -/
theorem adoptedRow_ok {kind : Kind} {v : Json} {l : String} {i : Nat} (h : Sound X L)
    (L' : Ledger) (hk : kind ≠ .snapshotPart)
    (hsame : ∀ o, L.objects.find? (kind, objectId v kind) = some o →
      o.objectHash = X.objectHash v)
    (hfree : L.receipts.find? (kind, objectId v kind) = none)
    (hrec : (L'.receipts.find? (kind, objectId v kind)).isSome) {o : ObjectRow}
    (ho : adoptedRow X kind v l i (L.objects.find? (kind, objectId v kind)) = o) :
    ObjectOk X L' o ∧ o.objectHash = X.objectHash v ∧ o.kind = kind ∧ o.logId = some l ∧
      o.relaySeq = some i ∧ (o.body = none → kind = .envelope) := by
  subst ho
  cases ho : L.objects.find? (kind, objectId v kind) with
  | none =>
      refine ⟨⟨fun b hb => ?_, nofun, fun _ => hrec, nofun, fun _ => rfl, fun he => absurd he hk⟩,
        rfl, rfl, rfl, rfl, nofun⟩
      cases hb
      exact ⟨rfl, rfl⟩
  | some o =>
      have hok := h.object_of_find? ho
      have hkey := Table.key_of_find? ho
      obtain ⟨hkind, hid⟩ := Prod.mk.inj hkey
      have hnone : o.logId = none := by
        cases hl : o.logId with
        | none => rfl
        | some l' =>
            have hp := hok.placed (by rw [hl]; rfl)
            rw [hkind, hid, hfree] at hp
            cases hp
      rw [adoptedRow_some, hnone, Option.isNone_none, if_pos rfl]
      refine ⟨⟨hok.body, hok.removed, fun _ => ?_, nofun, fun _ => rfl, fun he => ?_⟩,
        hsame o ho, hkind, rfl, rfl, fun hb => ?_⟩
      · exact hkind ▸ hid ▸ hrec
      · exact absurd (hkind.symm.trans he) hk
      · -- a record without a position was never stored, so there is none to adopt
        obtain hrecord | henvelope := hok.removed hb
        · have hs := hok.record hrecord
          rw [hnone] at hs
          cases hs
        · exact hkind ▸ henvelope

/-- What a receipt table with one more receipt keeps unique. -/
theorem uniqueSeq_new {kind : Kind} {v : Json} {seq : Option Nat} {entryHash : Option String}
    {previous : String} {r : Receipt} {c : Chain} (h : Sound X L)
    (hr : Receipted X kind v seq entryHash previous r c L.receipts L'.receipts) :
    ∀ rr ∈ L'.receipts, ∀ rr' ∈ L'.receipts, rr.logId = rr'.logId → rr.seq = rr'.seq →
      rr.seq.isSome → rr = rr' := by
  intro rr hrr rr' hrr' hl hs hsome
  obtain ho | rfl := Table.mem_of_find?_insert hr.find? hrr
  · obtain ho' | rfl := Table.mem_of_find?_insert hr.find? hrr'
    · exact h.uniqueSeq rr ho rr' ho' hl hs hsome
    · exact absurd ⟨hl, hs⟩ (hr.unique (by simpa [hs] using hsome) rr ho)
  · obtain ho' | rfl := Table.mem_of_find?_insert hr.find? hrr'
    · exact absurd ⟨hl.symm, hs.symm⟩ (hr.unique hsome rr' ho')
    · rfl

/-! #### Acceptance into the log -/

section Fresh

variable {kind : Kind} {v : Json} {e : LogEntry} {te : TransparencyEntry} {r : Receipt}

/-- The receipt of an acceptance into the log. -/
def freshReceipt (L : Ledger) (kind : Kind) (v : Json) (r : Receipt) : ReceiptRow :=
  ⟨kind, objectId v kind, L.chain.logId, some (L.chain.headSeq + 1), r⟩

theorem fresh_find? (hf : Fresh X kind v e te r L L') :
    L'.receipts.find? (kind, objectId v kind) = some (freshReceipt L kind v r) := by
  rw [hf.receipted.find?, if_pos rfl]
  rfl

theorem fresh_row (hf : Fresh X kind v e te r L L') :
    L'.log.find? (L.chain.logId, L.chain.headSeq + 1) =
      some ⟨L.chain.logId, L.chain.headSeq + 1, some e, (L.chain.extended X e).headHash⟩ := by
  rw [hf.log, if_pos rfl]

/-- The new position and everything that is recorded of it agree. -/
theorem fresh_receiptOk (h : Sound X L) (hf : Fresh X kind v e te r L L')
    (hk : kind ≠ .snapshotPart) : ReceiptOk X L' (freshReceipt L kind v r) := by
  have hr := hf.receipted
  have hc := hf.chain
  have hobj := hf.objects (kind, objectId v kind)
  rw [if_pos rfl] at hobj
  obtain ⟨-, hhash, -, hl, hseq, -⟩ := h.adoptedRow_ok L' hk hf.same hr.free
    (by rw [fresh_find? hf]; rfl) rfl
  refine ⟨hr.chainId.trans (by rw [hc]), hr.logId, hr.relaySeq,
    hr.transparencyId.trans (by rw [hc]),
    acceptOk_new (c := L.chain.extended X e) hf.noted hr,
    ⟨_, hobj, hhash.trans hr.objectHash.symm, fun _ => ⟨hl, hseq⟩⟩,
    ⟨nofun, fun he => absurd he hk⟩, fun i hi => ?_⟩
  obtain rfl := Option.some.inj hi
  refine ⟨⟨_, fresh_row hf, hr.resultingHeadHash.symm, fun x hx => ?_, nofun⟩, ?_⟩
  · obtain rfl := Option.some.inj hx
    exact ⟨hf.entryKind, by rw [hf.entryObject]; rfl,
      by rw [hf.entryObject]; exact hr.objectHash.symm, hr.entryHash,
      congrArg some hf.entrySeq.symm⟩
  · rw [Nat.add_sub_cancel, hc]
    exact (hf.grows.hashAt h.head.last_eq).trans (congrArg some hr.previousHeadHash.symm)

/-- The log is one entry longer. -/
theorem fresh_head (h : Sound X L) (hf : Fresh X kind v e te r L L') :
    L'.LogLine X L.chain.logId (L.chain.headSeq + 1) (L.chain.extended X e).headHash := by
  have hid : L'.chain.chainId = L.chain.chainId := by rw [hf.chain]; rfl
  unfold Ledger.LogLine
  rw [hid]
  refine Linked.extend (d := X.objectHash e.toJson) h.head (fun i hi => ?_) ?_
    (fun i d => hf.grows.entryDigest) ?_
  · rw [Ledger.logHash, hf.log, if_neg fun hq => hi (Prod.mk.inj hq).2]
    rfl
  · rw [Ledger.logHash, fresh_row hf]
    rfl
  · exact ⟨_, Table.mem_of_find? (fresh_find? hf), rfl, rfl, hf.receipted.entryHash⟩

theorem fresh_lines (h : Sound X L) (hf : Fresh X kind v e te r L L') (l : String) :
    ∃ len last, L'.LogLine X l len last := by
  by_cases hl : l = L.chain.logId
  · exact ⟨_, _, hl ▸ h.fresh_head hf⟩
  · obtain ⟨len, last, hline⟩ := h.lines l
    refine ⟨len, last, hline.mono hf.grows (fun i => ?_) (by rw [hf.chain]; rfl)⟩
    rw [Ledger.logHash, hf.log, if_neg fun hq => hl (Prod.mk.inj hq).1]
    rfl

/-- The object rows after an acceptance. -/
theorem fresh_objects (h : Sound X L) (hf : Fresh X kind v e te r L L')
    (hk : kind ≠ .snapshotPart) {o : ObjectRow} (ho : o ∈ L'.objects) :
    o ∈ L.objects ∨ ObjectOk X L' o ∧ (o.kind = .record → o.body ≠ none) := by
  have hfind := Table.find?_of_mem ho
  rw [hf.objects] at hfind
  split at hfind
  · rename_i hq
    rw [hq] at hfind
    obtain ⟨hok, -, hkind, -, -, hbody⟩ := h.adoptedRow_ok L' hk hf.same hf.receipted.free
      (by rw [fresh_find? hf]; rfl) (Option.some.inj hfind)
    refine .inr ⟨hok, fun hrec hnone => ?_⟩
    rw [hkind, hbody hnone] at hrec
    cases hrec
  · exact .inl (Table.mem_of_find? hfind)

theorem fresh_siblings (h : Sound X L) (hf : Fresh X kind v e te r L L') (id : String) :
    L'.objects.find? (.record, id) = none ∨ L'.objects.find? (.snapshotPart, id) = none := by
  by_cases hnew : L.objects.find? (kind, objectId v kind) = none ∧ id = objectId v kind
  · obtain ⟨hnone, rfl⟩ := hnew
    have hsib := hf.sibling hnone
    cases kind
    case record => exact .inr (by rw [hf.objects, if_neg (by simp)]; exact hsib _ rfl)
    case snapshotPart => exact .inl (by rw [hf.objects, if_neg (by simp)]; exact hsib _ rfl)
    all_goals
      simp only [hf.objects, Prod.mk.injEq, reduceCtorEq, false_and, if_false]
      exact h.siblings _
  · have hsame : ∀ k, L.objects.find? (k, id) = none → L'.objects.find? (k, id) = none :=
      fun k hnone => by
        rw [hf.objects]
        split
        · rename_i hq
          obtain ⟨rfl, rfl⟩ := Prod.mk.inj hq
          exact absurd ⟨hnone, rfl⟩ hnew
        · exact hnone
    exact (h.siblings id).imp (hsame _) (hsame _)

/-- An acceptance into the log keeps the agreement; a device that is accepted
has to be in the registry afterwards. -/
theorem fresh (h : Sound X L) (hf : Fresh X kind v e te r L L') (hk : kind ≠ .snapshotPart)
    {reg : Table RegistryRow RegistryRow.deviceId}
    (hdev : kind = .device → (reg.find? (objectId v kind)).isSome)
    (hreg : ∀ id, (L.registry.find? id).isSome → (reg.find? id).isSome) :
    Sound X { L' with registry := reg } := by
  have hc := hf.chain
  have hg : Grows L { L' with registry := reg } := hf.grows.trans (.of_eq rfl rfl rfl rfl)
  have hg' : Grows L' { L' with registry := reg } := .of_eq rfl rfl rfl rfl
  have hrec : ∀ rr ∈ L'.receipts, rr ∈ L.receipts ∨ rr = freshReceipt L kind v r :=
    fun rr hrr => Table.mem_of_find?_insert hf.receipted.find? hrr
  exact {
    lines := fun l => by
      obtain ⟨len, last, hline⟩ := h.fresh_lines hf l
      exact ⟨len, last, hline.mono hg' (fun _ => rfl) rfl⟩
    head := by
      have hm := (h.fresh_head hf).mono hg' (fun _ => rfl) rfl
      rw [show L'.chain.logId = L.chain.logId by rw [hc]; rfl,
        show L'.chain.headSeq = L.chain.headSeq + 1 by rw [hc]; rfl,
        show L'.chain.headHash = (L.chain.extended X e).headHash by rw [hc]; rfl]
      exact hm
    evidence := by
      dsimp only
      rw [hc]
      exact EvidenceLine.noted (c := L.chain.extended X e) h.evidence hf.noted
    evidenceId := by
      dsimp only
      rw [hc]
      exact h.evidenceId_noted (c := L.chain.extended X e) rfl hf.noted
    receipts := fun rr hrr => by
      refine ReceiptOk.mono (L := L') ?_ hg' rfl rfl
      obtain ho | rfl := hrec rr hrr
      · exact (h.receipts rr ho).mono hf.grows (by rw [hc]; rfl) (by rw [hc]; rfl)
      · exact h.fresh_receiptOk hf hk
    logged := fun l i row hrow => by
      have hrow' : L'.log.find? (l, i) = some row := hrow
      rw [hf.log] at hrow'
      split at hrow'
      · rename_i hq
        obtain ⟨rfl, rfl⟩ := Prod.mk.inj hq
        have hnew : freshReceipt L kind v r ∈ L'.receipts := Table.mem_of_find? (fresh_find? hf)
        exact ⟨_, hnew, rfl, rfl⟩
      · obtain ⟨rr, hrr, hl⟩ := h.logged l i row hrow'
        exact ⟨rr, Table.mem_of_find? (hf.grows.receipts _ _ (Table.find?_of_mem hrr)), hl⟩
    accepts := h.accepts_new hf.noted hf.receipted
    uniqueSeq := h.uniqueSeq_new hf.receipted
    uniqueIndex := h.uniqueIndex_new (c := L.chain.extended X e) rfl hf.receipted
    objects := fun o ho => by
      obtain hold | ⟨hok, -⟩ := h.fresh_objects hf hk ho
      · exact (h.objects o hold).mono hf.grows.receipts
      · exact hok.mono fun _ _ hq => hq
    siblings := fun id => h.fresh_siblings hf id
    minimum := by
      dsimp only
      rw [hc]
      have := h.minimum
      simp only [Chain.noted_minAvailableSeq, Chain.noted_headSeq, Chain.extended_headSeq,
        Chain.extended_minAvailableSeq]
      omega
    present := fun i row hrow hi => by
      dsimp only at hrow hi
      rw [hf.log] at hrow
      rw [hc] at hrow hi
      split at hrow
      · cases hrow
        rfl
      · exact h.present i row hrow hi
    pruned := fun o ho hk' hb hl => by
      obtain hold | ⟨-, hne⟩ := h.fresh_objects hf hk ho
      · dsimp only at hl ⊢
        rw [hc] at hl ⊢
        exact h.pruned o hold hk' hb hl
      · exact absurd hb (hne hk')
    enrolled := fun rr hrr hk' => by
      obtain ho | rfl := hrec rr hrr
      · exact hreg _ (h.enrolled rr ho hk')
      · exact hdev hk' }

end Fresh

/-! #### Acceptance of a part -/

theorem part {v : Json} {te : TransparencyEntry} {r : Receipt} (h : Sound X L)
    (hp : PartFresh X v te r L L') : Sound X L' := by
  have hc := hp.chain
  have hg := hp.grows
  have hr := hp.receipted
  have hobj : ∀ o ∈ L'.objects, o ∈ L.objects ∨
      o = ⟨.snapshotPart, s v "record_id", X.objectHash v, some v, none, none⟩ :=
    fun o ho => Table.mem_of_find?_insert hp.objects ho
  have hnew : L'.receipts.find? (.snapshotPart, s v "record_id") =
      some ⟨.snapshotPart, s v "record_id", L.chain.logId, none, r⟩ := by
    rw [hr.find?]
    exact if_pos rfl
  have hrow : L'.objects.find? (.snapshotPart, s v "record_id") =
      some ⟨.snapshotPart, s v "record_id", X.objectHash v, some v, none, none⟩ := by
    rw [hp.objects, if_pos rfl]
  have hlog : ∀ l i, L'.logHash l i = L.logHash l i := fun l i => by
    rw [Ledger.logHash, hp.log]
    rfl
  exact {
    lines := fun l => by
      obtain ⟨len, last, hline⟩ := h.lines l
      exact ⟨len, last, hline.mono hg (hlog l) (by rw [hc]; rfl)⟩
    head := by
      have hm := h.head.mono hg (hlog _) (by rw [hc]; rfl)
      rw [hc]
      exact hm
    evidence := by
      rw [hc]
      exact EvidenceLine.noted h.evidence hp.noted
    evidenceId := by
      rw [hc]
      exact h.evidenceId_noted rfl hp.noted
    receipts := fun rr hrr => by
      obtain ho | rfl := Table.mem_of_find?_insert hr.find? hrr
      · exact (h.receipts rr ho).mono hg (by rw [hc]; rfl) (by rw [hc]; rfl)
      · exact ⟨hr.chainId.trans (by rw [hc]), hr.logId, hr.relaySeq,
          hr.transparencyId.trans (by rw [hc]), acceptOk_new hp.noted hr,
          ⟨_, hrow, hr.objectHash.symm, nofun⟩, ⟨fun _ => rfl, fun _ => rfl⟩, nofun⟩
    logged := fun l i row hl => by
      rw [hp.log] at hl
      obtain ⟨rr, hrr, hs⟩ := h.logged l i row hl
      exact ⟨rr, Table.mem_of_find? (hg.receipts _ _ (Table.find?_of_mem hrr)), hs⟩
    accepts := h.accepts_new hp.noted hr
    uniqueSeq := h.uniqueSeq_new hr
    uniqueIndex := h.uniqueIndex_new rfl hr
    objects := fun o ho => by
      obtain hold | rfl := hobj o ho
      · exact (h.objects o hold).mono hg.receipts
      · refine ⟨fun b hb => ?_, nofun, nofun, fun _ => rfl, nofun, fun _ => ⟨rfl, ?_⟩⟩
        · cases hb
          exact ⟨rfl, rfl⟩
        · rw [hnew]
          rfl
    siblings := fun id => by
      simp only [hp.objects, Prod.mk.injEq, reduceCtorEq, false_and, if_false]
      by_cases hid : id = s v "record_id"
      · subst hid
        exact .inl hp.sibling
      · simpa [hid] using h.siblings id
    minimum := by
      rw [hc]
      exact h.minimum
    present := by
      rw [hp.log, hc]
      exact h.present
    pruned := fun o ho hk hb hl => by
      obtain hold | rfl := hobj o ho
      · rw [hc] at hl ⊢
        exact h.pruned o hold hk hb hl
      · cases hk
    enrolled := fun rr hrr hk => by
      rw [hp.registry]
      obtain ho | rfl := Table.mem_of_find?_insert hr.find? hrr
      · exact h.enrolled rr ho hk
      · cases hk }

/-! #### Other evidence -/

theorem witnessed {op : Operation} {digest : String} (h : Sound X L)
    (hw : Witnessed X op digest L L') : Sound X L' := by
  have hg := hw.grows
  obtain ⟨te, hn, hc⟩ := hw.noted
  exact {
    lines := fun l => by
      obtain ⟨len, last, hline⟩ := h.lines l
      exact ⟨len, last, hline.mono hg (fun _ => by rw [Ledger.logHash, hw.log]; rfl)
        (by rw [hc]; rfl)⟩
    head := by
      have hm := h.head.mono hg (fun _ => by rw [Ledger.logHash, hw.log]; rfl) (by rw [hc]; rfl)
      rw [hc]
      exact hm
    evidence := by
      rw [hc]
      exact h.evidence.noted hn
    evidenceId := by
      rw [hc]
      exact h.evidenceId_noted rfl hn
    receipts := fun rr hrr =>
      (h.receipts rr (hw.receipts ▸ hrr)).mono hg (by rw [hc]; rfl) (by rw [hc]; rfl)
    logged := by
      rw [hw.log, hw.receipts]
      exact h.logged
    accepts := fun t ht hop => by
      rw [hw.receipts]
      obtain ht | rfl := Table.mem_of_find?_insert hn.find? ht
      · exact h.accepts t ht hop
      · exact absurd (hn.operation.symm.trans hop) hw.notAccept
    uniqueSeq := by
      rw [hw.receipts]
      exact h.uniqueSeq
    uniqueIndex := by
      rw [hw.receipts]
      exact h.uniqueIndex
    objects := fun o ho => (h.objects o (hw.objects ▸ ho)).mono hg.receipts
    siblings := by
      rw [hw.objects]
      exact h.siblings
    minimum := by
      rw [hc]
      exact h.minimum
    present := by
      rw [hw.log, hc]
      exact h.present
    pruned := by
      rw [hw.objects, hc]
      exact h.pruned
    enrolled := fun rr hrr hk => by
      rw [hw.registry]
      exact h.enrolled rr (hw.receipts ▸ hrr) hk }

/-! ### Every move -/

theorem logged_keeps {kind : Kind} {v : Json} {entry : Option LogEntry} {r : Receipt}
    (h : Sound X L) (hk : kind.logged = true) (hl : Logged X kind v entry r L L') :
    Sound X L' := by
  cases hl with
  | again _ => exact h
  | fresh hf =>
      refine h.fresh hf (fun he => ?_) (fun he => ?_) fun id hid => hf.registry ▸ hid
      · rw [he] at hk
        cases hk
      · rw [he] at hk
        cases hk

/-- Every move keeps the agreement. -/
theorem step {m : Move} (h : Sound X L) (hs : Step X m L L') : Sound X L' := by
  cases hs with
  | log hk hl => exact h.logged_keeps hk hl
  | enlist hl hr =>
      obtain ⟨e, te, -, hf⟩ := h.enrolled.fresh hl hr
      have hfind := hr.find?
      rw [hr.rest]
      refine h.fresh hf (by simp) (fun _ => ?_) fun id hid => ?_
      · rw [hfind]
        exact congrArg Option.isSome (if_pos rfl)
      · rw [hfind]
        split
        · rfl
        · rw [hf.registry]
          exact hid
  | partAgain => exact h
  | part hp => exact h.part hp
  | evidence hw => exact h.witnessed hw
  | stage hk hs => exact h.staged hk hs
  | revoke hw => exact h.rewritten hw
  | activate hw => exact h.rewritten hw
  | setEpoch =>
      exact h.frame rfl rfl rfl rfl ⟨rfl, rfl, rfl, rfl, rfl, rfl, rfl⟩ rfl fun _ hid => hid
  | prune hb hmin hhead _ hc => exact h.prune hb hmin hhead hc
  | handoff _ hw =>
      rw [hw]
      exact h.frame rfl rfl rfl rfl (.refl _) rfl fun _ hid => hid
  | expire _ hb _ hc => exact h.expire hb hc
  | found hbare hc => exact found hbare hc
  | reincarnate hid hfree => exact h.reincarnate hid hfree

theorem steps {ms : List Move} (h : Sound X L) (hs : Steps X ms L L') : Sound X L' := by
  induction hs with
  | nil => exact h
  | cons hm _ ih => exact ih (h.step hm)

end Sound

end PallaSync
