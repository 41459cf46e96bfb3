import PallaSync.Import
import Mathlib.Tactic.Simps.Basic

/-!
# The ledger and its moves

What the relay keeps of a chain, seen from far enough away that a
transaction is a short list of moves: accept an object into the log, write
evidence, register or revoke a device, blank what a prune or an expiry
removes. `Ledger` holds the tables these moves touch together with the
chain row; the pages, cursors, outcomes and offers of the store are not part
of it, so programs that only touch those do not move at all.

A move is described by what every lookup finds afterwards, and never by the
program that makes it. The programs are connected to the moves elsewhere;
every invariant of the ledger is proved over the moves.
-/

namespace PallaSync

structure Ledger where
  objects : Table ObjectRow ObjectRow.key
  registry : Table RegistryRow RegistryRow.deviceId
  log : Table LogRow LogRow.key
  receipts : Table ReceiptRow ReceiptRow.key
  transparency : Table TransparencyRow TransparencyRow.key
  handoffs : Table HandoffRow HandoffRow.epoch
  chain : Chain

/-- The ledger of a store under a working copy of its chain row. -/
@[simps] def Store.ledger (st : Store) (c : Chain) : Ledger where
  objects := st.objects
  registry := st.registry
  log := st.log
  receipts := st.receipts
  transparency := st.transparency
  handoffs := st.handoffs
  chain := c

abbrev Cell.ledger (cell : Cell) : Ledger := cell.store.ledger cell.chain

/-! ## The chain row along a move -/

/-- One more entry of the log. -/
@[simps] def Chain.extended (X : Crypto) (c : Chain) (e : LogEntry) : Chain :=
  { c with
    headSeq := c.headSeq + 1
    headHash := linkHash X c.headHash (c.headSeq + 1) e.toJson [] }

/-- One more entry of the transparency chain. -/
@[simps] def Chain.noted (X : Crypto) (c : Chain) (te : TransparencyEntry) : Chain :=
  { c with
    transparencyIndex := c.transparencyIndex + 1
    transparencyHash :=
      linkHash X c.transparencyHash (c.transparencyIndex + 1) te.toJson
        transparencyLinkContext }

/-- A new log under new parameters; the transparency chain goes on. -/
@[simps] def Chain.reseeded (X : Crypto) (old : Chain) (p : Json) (logId noticeId : String) :
    Chain :=
  { Chain.new X p old.epoch logId old.transparencyId noticeId with
    transparencyIndex := old.transparencyIndex
    transparencyHash := old.transparencyHash }

/-! ## Evidence -/

/-- A transparency entry `te` of the operation is added at the next index. -/
structure Noted (X : Crypto) (op : Operation) (digest : String) (seq : Option Nat)
    (te : TransparencyEntry) (c : Chain) (tab tab' : Table TransparencyRow TransparencyRow.key) :
    Prop where
  operation : te.operation = op
  objectHash : te.objectHash = digest
  relaySeq : te.relaySeq = seq
  chainId : te.chainId = c.chainId
  logId : te.logId = c.logId
  transparencyId : te.transparencyId = c.transparencyId
  entryIndex : te.entryIndex = c.transparencyIndex + 1
  resultingHeadHash : te.resultingHeadHash = c.headHash
  previous : te.previousTransparencyHash = c.transparencyHash
  free : tab.find? (c.transparencyId, c.transparencyIndex + 1) = none
  find? : ∀ q, tab'.find? q =
    if q = (c.transparencyId, c.transparencyIndex + 1) then
      some ⟨c.transparencyId, c.transparencyIndex + 1, te, (c.noted X te).transparencyHash⟩
    else tab.find? q

/-- A receipt `r` that names the accept entry the chain row ends with. -/
structure Receipted (X : Crypto) (kind : Kind) (v : Json) (seq : Option Nat)
    (entryHash : Option String) (previous : String) (r : Receipt) (c : Chain)
    (tab tab' : Table ReceiptRow ReceiptRow.key) : Prop where
  chainId : r.chainId = c.chainId
  logId : r.logId = c.logId
  relaySeq : r.relaySeq = seq
  objectHash : r.objectHash = X.objectHash v
  entryHash : r.entryHash = entryHash
  previousHeadHash : r.previousHeadHash = previous
  resultingHeadHash : r.resultingHeadHash = c.headHash
  transparencyId : r.transparencyId = c.transparencyId
  transparencyIndex : r.transparencyIndex = c.transparencyIndex
  transparencyHash : r.transparencyHash = c.transparencyHash
  free : tab.find? (kind, objectId v kind) = none
  unique : seq.isSome → ∀ x ∈ tab, ¬(x.logId = c.logId ∧ x.seq = seq)
  find? : ∀ q, tab'.find? q =
    if q = (kind, objectId v kind) then some ⟨kind, objectId v kind, c.logId, seq, r⟩
    else tab.find? q

/-! ## Acceptance -/

/-- The row of an object at its log position: the staged row adopted, or a
new one. -/
def adoptedRow (X : Crypto) (kind : Kind) (v : Json) (logId : String) (seq : Nat) :
    Option ObjectRow → ObjectRow
  | some o => if o.logId.isNone then { o with logId := some logId, relaySeq := some seq } else o
  | none => { kind, objectId := objectId v kind, objectHash := X.objectHash v, body := some v,
              logId := some logId, relaySeq := some seq }

theorem adoptedRow_some (X : Crypto) (kind : Kind) (v : Json) (l : String) (i : Nat)
    (o : ObjectRow) : adoptedRow X kind v l i (some o) =
      if o.logId.isNone then { o with logId := some l, relaySeq := some i } else o := rfl

/-- The object was accepted before: its entry and its receipt. -/
structure Again (X : Crypto) (kind : Kind) (v : Json) (entry : Option LogEntry) (r : Receipt)
    (L : Ledger) : Prop where
  object : ∃ o, L.objects.find? (kind, objectId v kind) = some o ∧
    o.objectHash = X.objectHash v
  receipt : ∃ rr, L.receipts.find? (kind, objectId v kind) = some rr ∧ rr.receipt = r
  row : ∃ row, L.log.find? (r.logId, r.relaySeq.getD 0) = some row ∧ row.entry = entry

/-- The object is accepted at the next position of the log. -/
structure Fresh (X : Crypto) (kind : Kind) (v : Json) (e : LogEntry) (te : TransparencyEntry)
    (r : Receipt) (L L' : Ledger) : Prop where
  entrySeq : e.relaySeq = L.chain.headSeq + 1
  entryKind : e.kind = kind
  entryObject : e.object = v
  same : ∀ o, L.objects.find? (kind, objectId v kind) = some o → o.objectHash = X.objectHash v
  sibling : L.objects.find? (kind, objectId v kind) = none →
    ∀ k, kind.sibling = some k → L.objects.find? (k, objectId v kind) = none
  objects : ∀ q, L'.objects.find? q =
    if q = (kind, objectId v kind) then
      some (adoptedRow X kind v L.chain.logId (L.chain.headSeq + 1) (L.objects.find? q))
    else L.objects.find? q
  free : L.log.find? (L.chain.logId, L.chain.headSeq + 1) = none
  log : ∀ q, L'.log.find? q =
    if q = (L.chain.logId, L.chain.headSeq + 1) then
      some ⟨L.chain.logId, L.chain.headSeq + 1, some e, (L.chain.extended X e).headHash⟩
    else L.log.find? q
  noted : Noted X .accept (X.objectHash v) (some (L.chain.headSeq + 1)) te
    (L.chain.extended X e) L.transparency L'.transparency
  receipted : Receipted X kind v (some (L.chain.headSeq + 1)) (some (X.objectHash e.toJson))
    L.chain.headHash r ((L.chain.extended X e).noted X te) L.receipts L'.receipts
  registry : L'.registry = L.registry
  handoffs : L'.handoffs = L.handoffs
  chain : L'.chain = (L.chain.extended X e).noted X te

/-- `append`: the original entry and receipt, or new ones. -/
inductive Logged (X : Crypto) (kind : Kind) (v : Json) :
    Option LogEntry → Receipt → Ledger → Ledger → Prop where
  | again {entry r L} : Again X kind v entry r L → Logged X kind v entry r L L
  | fresh {e te r L L'} : Fresh X kind v e te r L L' → Logged X kind v (some e) r L L'

/-- What an acceptance leaves of the chain row. -/
theorem Logged.chain_keeps {X : Crypto} {kind : Kind} {v : Json} {entry : Option LogEntry}
    {r : Receipt} {L L' : Ledger} (h : Logged X kind v entry r L L') :
    L'.chain.logId = L.chain.logId ∧ L'.chain.minAvailableSeq = L.chain.minAvailableSeq ∧
      L.chain.headSeq ≤ L'.chain.headSeq := by
  cases h with
  | again _ => exact ⟨rfl, rfl, le_rfl⟩
  | fresh h => simp [h.chain]

/-- A snapshot part is accepted: evidence and a receipt, no position. -/
structure PartFresh (X : Crypto) (v : Json) (te : TransparencyEntry) (r : Receipt)
    (L L' : Ledger) : Prop where
  free : L.objects.find? (.snapshotPart, s v "record_id") = none
  sibling : L.objects.find? (.record, s v "record_id") = none
  objects : ∀ q, L'.objects.find? q =
    if q = (.snapshotPart, s v "record_id") then
      some ⟨.snapshotPart, s v "record_id", X.objectHash v, some v, none, none⟩
    else L.objects.find? q
  noted : Noted X .accept (X.objectHash v) none te L.chain L.transparency L'.transparency
  receipted : Receipted X .snapshotPart v none none L.chain.headHash r (L.chain.noted X te)
    L.receipts L'.receipts
  registry : L'.registry = L.registry
  log : L'.log = L.log
  handoffs : L'.handoffs = L.handoffs
  chain : L'.chain = L.chain.noted X te

/-- Evidence of something that is not an acceptance. -/
structure Witnessed (X : Crypto) (op : Operation) (digest : String) (L L' : Ledger) : Prop where
  notAccept : op ≠ .accept
  noted : ∃ te, Noted X op digest none te L.chain L.transparency L'.transparency ∧
    L'.chain = L.chain.noted X te
  objects : L'.objects = L.objects
  registry : L'.registry = L.registry
  log : L'.log = L.log
  receipts : L'.receipts = L.receipts
  handoffs : L'.handoffs = L.handoffs

/-- An object is stored without a position, if it is not there yet. -/
structure Staged (X : Crypto) (kind : Kind) (v : Json) (L L' : Ledger) : Prop where
  same : ∀ o, L.objects.find? (kind, objectId v kind) = some o → o.objectHash = X.objectHash v
  objects : ∀ q, L'.objects.find? q =
    if q = (kind, objectId v kind) then
      some ((L.objects.find? q).getD
        ⟨kind, objectId v kind, X.objectHash v, some v, none, none⟩)
    else L.objects.find? q
  rest : L' = { L with objects := L'.objects }

/-! ## The registry -/

/-- A device joins the registry. -/
structure Registered (d : Json) (seq : Nat) (status : Status) (L L' : Ledger) : Prop where
  free : L.registry.find? (s d "device_id") = none
  find? : ∀ id, L'.registry.find? id =
    if id = s d "device_id" then some ⟨s d "device_id", n d "generation", status, seq, none⟩
    else L.registry.find? id
  rest : L' = { L with registry := L'.registry }

/-- The registry rows are rewritten by `f`. -/
structure Rewritten (f : RegistryRow → RegistryRow) (L L' : Ledger) : Prop where
  find? : ∀ id, L'.registry.find? id = (L.registry.find? id).map f
  rest : L' = { L with registry := L'.registry }

def RegistryRow.revokeAt (seq : Nat) (id : String) (r : RegistryRow) : RegistryRow :=
  if r.deviceId = id then { r with status := .revoked, revokedSeq := some seq } else r

def RegistryRow.activateAs (id : String) (r : RegistryRow) : RegistryRow :=
  if r.deviceId = id ∧ r.status ≠ .revoked then { r with status := .active } else r

/-! ## Removal -/

/-- Some bodies and entries are removed; everything else stays. -/
structure Blanked (o : ObjectRow → Bool) (l : LogRow → Bool) (L L' : Ledger) : Prop where
  objects : ∀ q, L'.objects.find? q =
    (L.objects.find? q).map fun r => if o r then { r with body := none } else r
  log : ∀ q, L'.log.find? q =
    (L.log.find? q).map fun r => if l r then { r with entry := none } else r
  registry : L'.registry = L.registry
  receipts : L'.receipts = L.receipts
  transparency : L'.transparency = L.transparency

def ObjectRow.prunable (logId : String) (through : Nat) (r : ObjectRow) : Bool :=
  decide (r.kind = .record) && r.logId == some logId && r.relaySeq.any (· ≤ through)

def LogRow.prunable (logId : String) (through : Nat) (r : LogRow) : Bool :=
  r.logId == logId && decide (r.seq ≤ through) && r.entry.any (·.kind == .record)

def ObjectRow.expirable (epoch : Nat) (r : ObjectRow) : Bool :=
  decide (r.kind = .envelope) && r.body.any (·.get "epoch" == .num epoch)

def LogRow.expirable (c : Chain) (epoch : Nat) (r : LogRow) : Bool :=
  r.entry.any (·.isEnvelopeOf epoch) && decide (r.seq < c.minAvailableSeq)

/-! ## Moves -/

inductive Move where
  | log (kind : Kind) (v : Json)
  | enlist (status : Status) (d : Json)
  | part (v : Json)
  | evidence (op : Operation) (digest : String)
  | stage (kind : Kind) (v : Json)
  | revoke (seq : Nat) (id : String)
  | activate (id : String)
  | setEpoch (e : Json)
  | prune (through : Nat) (compactionId : String)
  | handoff (row : HandoffRow)
  | expire (epoch : Nat)
  | found (c : Chain)
  | reincarnate (p : Json) (logId : String)

/-- The kinds with a position in the log and no registry row. -/
def Kind.logged : Kind → Bool
  | .device | .snapshotPart => false
  | _ => true

/-- The kinds an import stages. -/
def Kind.staged : Kind → Bool
  | .parameters | .epoch | .device | .envelope | .compaction => true
  | _ => false

/-- No row of the ledger but the chain's. -/
structure Ledger.Bare (L : Ledger) : Prop where
  objects : ∀ q, L.objects.find? q = none
  registry : ∀ q, L.registry.find? q = none
  log : ∀ q, L.log.find? q = none
  receipts : ∀ q, L.receipts.find? q = none
  transparency : ∀ q, L.transparency.find? q = none
  handoffs : ∀ q, L.handoffs.find? q = none

inductive Step (X : Crypto) : Move → Ledger → Ledger → Prop where
  | log {kind v entry r L L'} : kind.logged = true → Logged X kind v entry r L L' →
      Step X (.log kind v) L L'
  | enlist {status d entry r L M L'} : Logged X .device d entry r L M →
      Registered d ((entry.map (·.relaySeq)).getD 0) status M L' →
      Step X (.enlist status d) L L'
  | partAgain {v L} : Step X (.part v) L L
  | part {v te r L L'} : PartFresh X v te r L L' → Step X (.part v) L L'
  | evidence {op digest L L'} : Witnessed X op digest L L' → Step X (.evidence op digest) L L'
  | stage {kind v L L'} : kind.staged = true → Staged X kind v L L' → Step X (.stage kind v) L L'
  | revoke {seq id L L'} : Rewritten (·.revokeAt seq id) L L' → Step X (.revoke seq id) L L'
  | activate {id L L'} : Rewritten (·.activateAs id) L L' → Step X (.activate id) L L'
  | setEpoch {e L} : Step X (.setEpoch e) L { L with chain := { L.chain with epoch := e } }
  | prune {through cid L L'} :
      Blanked (·.prunable L.chain.logId through) (·.prunable L.chain.logId through) L L' →
      L.chain.minAvailableSeq ≤ through + 1 → through ≤ L.chain.headSeq →
      L'.handoffs = L.handoffs →
      L'.chain = { L.chain with
        minAvailableSeq := through + 1, boundaryCompactionId := some cid } →
      Step X (.prune through cid) L L'
  | handoff {row L L'} :
      (∀ e, L'.handoffs.find? e =
        if e = row.epoch then some ((L.handoffs.find? e).getD row) else L.handoffs.find? e) →
      L' = { L with handoffs := L'.handoffs } → Step X (.handoff row) L L'
  | expire {epoch L L'} : (L.handoffs.find? epoch).isSome →
      Blanked (·.expirable epoch) (·.expirable L.chain epoch) L L' →
      (∀ e, L'.handoffs.find? e = (L.handoffs.find? e).map fun r =>
        if r.epoch = epoch then { r with expired := true } else r) →
      L'.chain = L.chain → Step X (.expire epoch) L L'
  | found {c L p e logId tid notice} : L.Bare →
      { c with writable := true } = Chain.new X p e logId tid notice →
      Step X (.found c) L { L with chain := c }
  | reincarnate {p logId notice L} : s p "chain_id" = L.chain.chainId →
      (∀ i, L.log.find? (logId, i) = none) →
      Step X (.reincarnate p logId) L { L with chain := L.chain.reseeded X p logId notice }

/-- A list of moves, in order. -/
inductive Steps (X : Crypto) : List Move → Ledger → Ledger → Prop where
  | nil {L} : Steps X [] L L
  | cons {m ms L M L'} : Step X m L M → Steps X ms M L' → Steps X (m :: ms) L L'

/-- A list of moves each of which starts where `Q` allows it. -/
inductive Guided (X : Crypto) (Q : Move → Ledger → Prop) : List Move → Ledger → Ledger → Prop where
  | nil {L} : Guided X Q [] L L
  | cons {m ms L M L'} : Q m L → Step X m L M → Guided X Q ms M L' →
      Guided X Q (m :: ms) L L'

namespace Steps

variable {X : Crypto} {ms ms' : List Move} {L M L' : Ledger}

theorem append (h : Steps X ms L M) (h' : Steps X ms' M L') : Steps X (ms ++ ms') L L' := by
  induction h with
  | nil => exact h'
  | cons hm _ ih => exact .cons hm (ih h')

theorem single {m : Move} (h : Step X m L L') : Steps X [m] L L' := .cons h .nil

/-- What every move of a kind preserves, a list of such moves preserves. -/
theorem preserves {P : Ledger → Prop} {C : Move → Prop}
    (hstep : ∀ m L L', C m → Step X m L L' → P L → P L') (h : Steps X ms L L')
    (hC : ∀ m ∈ ms, C m) (hP : P L) : P L' := by
  induction h with
  | nil => exact hP
  | cons hm _ ih =>
      exact ih (fun m h => hC m (List.mem_cons_of_mem _ h))
        (hstep _ _ _ (hC _ List.mem_cons_self) hm hP)

end Steps

namespace Guided

variable {X : Crypto} {Q : Move → Ledger → Prop} {ms ms' : List Move} {L M L' : Ledger}

theorem append (h : Guided X Q ms L M) (h' : Guided X Q ms' M L') :
    Guided X Q (ms ++ ms') L L' := by
  induction h with
  | nil => exact h'
  | cons hq hm _ ih => exact .cons hq hm (ih h')

theorem single {m : Move} (hq : Q m L) (h : Step X m L L') : Guided X Q [m] L L' :=
  .cons hq h .nil

end Guided

end PallaSync
