import PallaSync.Tables

/-!
# The store: evidence and acknowledgements in one transaction

A transaction is a program over a working copy of a chain and the chain's
tables (`Tx`). Clock readings and fresh identifiers come from an oracle that
is different for every transaction, so nothing is assumed of either.

`append` is the one way into the log: it stores the object, extends the hash
chain, writes the accept evidence and the receipt, or hands back the original
entry and receipt of an object it already accepted.
-/

namespace PallaSync

open Atomic

/-! ## Transactions -/

/-- The clock and the identifier generator, as one transaction sees them. -/
structure Oracle where
  now : Nat → Nat
  newId : Nat → String

/-- A chain's tables and the working copy of its row. -/
structure Cell where
  store : Store
  chain : Chain

structure Work where
  cell : Cell
  oracle : Oracle
  tick : Nat

abbrev Tx := Atomic ApiError Work

def now : Tx Nat := fun w => .ok (w.oracle.now w.tick, { w with tick := w.tick + 1 })

def newId : Tx String := fun w => .ok (w.oracle.newId w.tick, { w with tick := w.tick + 1 })

/-- The working copy `c`. -/
def chain : Tx Chain := read (·.cell.chain)

/-- Read the tables. -/
def look {α : Type} (f : Store → α) : Tx α := read fun w => f w.cell.store

/-- Run a check against the tables and the working copy. -/
def check {α : Type} (f : Store → Chain → Except ApiError α) : Tx α :=
  fun w => match f w.cell.store w.cell.chain with
    | .ok x => .ok (x, w)
    | .error e => .error e

def setStore (f : Store → Store) : Tx Unit :=
  write fun w => { w with cell := { w.cell with store := f w.cell.store } }

def setChain (f : Chain → Chain) : Tx Unit :=
  write fun w => { w with cell := { w.cell with chain := f w.cell.chain } }

/-- A statement that a constraint of the schema can refuse. -/
def attempt (f : Store → Option Store) : Tx Unit :=
  fun w => match f w.cell.store with
    | some st => .ok ((), { w with cell := { w.cell with store := st } })
    | none => .error (err .storageUnavailable)

/-! ## Hashes of the two chains -/

def logContext : List UInt8 := asciiZ "PALLASYNC-LOG-v3"

def transparencyContext : List UInt8 := asciiZ "PALLASYNC-TRANSPARENCY-v3"

def transparencyLinkContext : List UInt8 := asciiZ "PALLASYNC-TRANSPARENCY-LINK-v3"

/-- The bytes of a Base64URL text of 32 bytes. -/
def raw (X : Crypto) (text : String) : List UInt8 := (X.decode text (some 32)).getD []

def initialHash (X : Crypto) (ctx : List UInt8) (chainId id : String)
    (key : Option String) : String :=
  X.hashBytes (ctx ++ raw X chainId ++ (X.uuidBytes id).getD [] ++ (key.map (raw X)).getD [])

/-- One link over the digest of its entry: `SHA256(ctx ‖ prev ‖ be64(i) ‖ digest)`. -/
def linkDigest (X : Crypto) (ctx : List UInt8) (prev : String) (i : Nat)
    (digest : String) : String :=
  X.hashBytes (ctx ++ raw X prev ++ beBytes i ++ raw X digest)

def linkHash (X : Crypto) (prev : String) (i : Nat) (entry : Json)
    (ctx : List UInt8) : String :=
  linkDigest X ctx prev i (X.objectHash entry)

/-! ## The chain row -/

namespace Chain

/-- `H0` of a log. -/
def logOrigin (X : Crypto) (chainId logId : String) : String :=
  initialHash X logContext chainId logId none

/-- `T0` of a transparency chain. -/
def transparencyOrigin (X : Crypto) (chainId transparencyId : String) : String :=
  initialHash X transparencyContext chainId transparencyId (some X.keyId)

/-- `Chain::new`, on the identifiers it draws. -/
def new (X : Crypto) (parameters epoch : Json) (logId transparencyId noticeId : String) :
    Chain where
  chainId := s parameters "chain_id"
  parameters := parameters
  epoch := epoch
  logId := logId
  headSeq := 0
  headHash := logOrigin X (s parameters "chain_id") logId
  minAvailableSeq := 1
  boundaryCompactionId := none
  transparencyId := transparencyId
  transparencyIndex := 0
  transparencyHash := transparencyOrigin X (s parameters "chain_id") transparencyId
  writable := true
  noticeId := noticeId

def generation (c : Chain) : Nat := n c.parameters "generation"

def parametersHash (X : Crypto) (c : Chain) : String := X.objectHash c.parameters

def epochHash (X : Crypto) (c : Chain) : String := X.objectHash c.epoch

def policy (c : Chain) : Json := c.parameters.get "policy"

def adminPublicKey (c : Chain) : String := s c.parameters "admin_public_key"

def head (X : Crypto) (c : Chain) : Json :=
  .obj [("epoch_hash", .str (c.epochHash X)), ("generation", .num c.generation),
    ("head_hash", .str c.headHash), ("head_seq", .num c.headSeq), ("log_id", .str c.logId),
    ("min_available_seq", .num c.minAvailableSeq),
    ("parameters_hash", .str (c.parametersHash X))]

def result (X : Crypto) (c : Chain) : Json :=
  .obj [("epoch_hash", .str (c.epochHash X)), ("head_hash", .str c.headHash),
    ("head_seq", .num c.headSeq), ("log_id", .str c.logId),
    ("parameters_hash", .str (c.parametersHash X))]

end Chain

/-! ## Lookups -/

namespace Store

/-- The stored body; `none` when there is no row or the body was removed. -/
def object (st : Store) (kind : Kind) (id : String) : Option Json :=
  (st.objects.find? (kind, id)).bind (·.body)

def objectDigest (st : Store) (kind : Kind) (id : String) : Option String :=
  (st.objects.find? (kind, id)).map (·.objectHash)

def receipt (st : Store) (kind : Kind) (id : String) : Option Receipt :=
  (st.receipts.find? (kind, id)).map (·.receipt)

def status (st : Store) (id : String) : Option Status :=
  (st.registry.find? id).map (·.status)

/-- The body of every stored object of a kind. -/
def bodies (st : Store) (kind : Kind) : List Json :=
  st.objects.rows.filterMap fun r => if r.kind = kind then r.body else none

def logEntry (st : Store) (logId : String) (seq : Nat) : Option LogEntry :=
  (st.log.find? (logId, seq)).bind (·.entry)

/-- The digest under which a payload nonce is reserved. -/
def nonceOwner (st : Store) (epoch : Nat) (nonce : String) : Option String :=
  (st.payloadNonces.find? (epoch, nonce)).map (·.recordId)

/-! ## Space -/

def size (X : Crypto) (v : Json) : Nat := (X.canonicalizeJson v).length

def sum {α : Type} (xs : List α) (f : α → Nat) : Nat := xs.foldr (fun x k => f x + k) 0

/-- The bytes the eight counted tables hold for the chain. -/
def used (X : Crypto) (st : Store) : Nat :=
  sum st.objects.rows (fun r =>
      (r.body.map fun v => size X v + r.objectId.length + r.objectHash.length).getD 0) +
    sum st.log.rows (fun r =>
      (r.entry.map fun e => size X e.toJson + r.headHash.length).getD 0) +
    sum st.receipts.rows (fun r => size X r.receipt.toJson) +
    sum st.transparency.rows (fun r => size X r.entry.toJson + r.hash.length) +
    sum st.heads.rows (fun r => size X r.head.toJson) +
    sum st.outcomes.rows (fun r => size X r.response) +
    sum st.cursors.rows (fun r => size X r.state) +
    sum st.offers.rows (fun r => size X r.offer + (r.request.map (size X)).getD 0)

def quota (R : Relay) (st : Store) : Except ApiError Unit :=
  if R.cfg.maxBytes.any (· < st.used R.crypto) then
    .error ((err .quotaExceeded).withContext (.obj [
      ("max_bytes", Json.ofOptionNat R.cfg.maxBytes),
      ("used_bytes", .num (st.used R.crypto))]))
  else .ok ()

/-- The recorded response of an exact repetition. -/
def outcomes? (X : Crypto) (st : Store) (scope : OutcomeScope) (id : String)
    (payload : Json) : Except ApiError (Option Json) :=
  match st.outcomes.find? (scope, id) with
  | none => .ok none
  | some row =>
      if row.digest ≠ X.objectHash payload then
        .error (if scope = .genesis then err .chainExists else err .operationIdConflict)
      else .ok (some row.response)

/-! ## Rows with triggers -/

def recordRegistry (st : Store) (rows : List RegistryRow) : List RegistryHistoryRow :=
  st.registryHistory ++ rows.zipIdx.map fun (r, i) =>
    { id := st.registryHistory.length + i + 1, deviceId := r.deviceId, status := r.status,
      enrolledSeq := r.enrolledSeq, revokedSeq := r.revokedSeq }

def insertRegistry (st : Store) (r : RegistryRow) : Option Store :=
  (st.registry.insert? r).map fun t =>
    { st with registry := t, registryHistory := st.recordRegistry [r] }

def updateRegistry (st : Store) (p : RegistryRow → Bool) (f : RegistryRow → RegistryRow)
    (hf : ∀ r, (f r).deviceId = r.deviceId) : Store :=
  { st with
    registry := st.registry.update p f hf
    registryHistory := st.recordRegistry ((st.registry.select p).map f) }

def recordOffers (st : Store) (rows : List OfferRow) : List OfferHistoryRow :=
  st.offerHistory ++ rows.zipIdx.map fun (r, i) =>
    { id := st.offerHistory.length + i + 1, requestId := r.requestId, offer := r.offer,
      request := r.request, status := r.status }

def insertOffer (st : Store) (r : OfferRow) : Option Store :=
  (st.offers.insert? r).map fun t =>
    { st with offers := t, offerHistory := st.recordOffers [r] }

def updateOffer (st : Store) (id : String) (f : OfferRow → OfferRow)
    (hf : ∀ r, (f r).requestId = r.requestId) : Store :=
  { st with
    offers := st.offers.update (·.requestId == id) f hf
    offerHistory := st.recordOffers ((st.offers.select (·.requestId == id)).map f) }

end Store

/-! ## Objects -/

/-- The other kind that shares the record identifiers. -/
def Kind.sibling : Kind → Option Kind
  | .record => some .snapshotPart
  | .snapshotPart => some .record
  | _ => none

/-- Store an object unless it is there: whether a row was added. -/
def putObject (X : Crypto) (kind : Kind) (v : Json) (log : Option (String × Nat)) :
    Tx Bool := do
  let id := objectId v kind
  let old ← look (·.objectDigest kind id)
  match old with
  | some digest => do
      failIf (digest != X.objectHash v) (conflict kind)
      pure false
  | none => do
      let other ← look fun st => kind.sibling.bind fun k => st.objectDigest k id
      failIf other.isSome (conflict kind)
      attempt fun st => (st.objects.insert?
        { kind, objectId := id, objectHash := X.objectHash v, body := some v,
          logId := log.map (·.1), relaySeq := log.map (·.2) }).map
        fun t => { st with objects := t }
      pure true

/-- Give a staged object its position in the log. -/
def adopt (kind : Kind) (id logId : String) (seq : Nat) : Tx Unit :=
  setStore fun st => { st with
    objects := st.objects.update
      (fun r => decide (r.kind = kind ∧ r.objectId = id) && r.logId.isNone)
      (fun r => { r with logId := some logId, relaySeq := some seq }) fun _ => rfl }

/-! ## Evidence -/

/-- Write one transparency entry and advance the working copy. -/
def transparency (X : Crypto) (op : Operation) (digest : String) (seq : Option Nat)
    (code : Option Code) : Tx (TransparencyEntry × String) := do
  let c ← chain
  failIf (decide (maxInteger ≤ c.transparencyIndex)) (err .storageUnavailable)
  let i := c.transparencyIndex + 1
  let t ← now
  let unsigned : TransparencyEntry := {
    transparencyId := c.transparencyId, entryIndex := i, chainId := c.chainId,
    logId := c.logId, relayKeyId := X.keyId, operation := op, objectHash := digest,
    relaySeq := seq, resultingHeadHash := c.headHash,
    previousTransparencyHash := c.transparencyHash, timestamp := t, code,
    relaySignature := "" }
  let signature ← require (X.signRelay unsigned.body .transparency) (err .internalError)
  let entry := { unsigned with relaySignature := signature }
  let hash := linkHash X c.transparencyHash i entry.toJson transparencyLinkContext
  attempt fun st => (st.transparency.insert?
    { transparencyId := c.transparencyId, idx := i, entry, hash }).map
    fun tab => { st with transparency := tab }
  setChain fun c => { c with transparencyIndex := i, transparencyHash := hash }
  pure (entry, hash)

/-- Sign a receipt that names the accept entry just written. -/
def makeReceipt (X : Crypto) (v : Json) (seq : Option Nat) (entryHash : Option String)
    (previous : String) (received : Nat) (hash : String) : Tx Receipt := do
  let c ← chain
  let receiptId ← newId
  let unsigned : Receipt := {
    receiptId, chainId := c.chainId, logId := c.logId, relayKeyId := X.keyId,
    relaySeq := seq, objectHash := X.objectHash v, entryHash, previousHeadHash := previous,
    resultingHeadHash := c.headHash, receivedAtMs := received,
    transparencyId := c.transparencyId, transparencyIndex := c.transparencyIndex,
    transparencyHash := hash, relaySignature := "" }
  let signature ← require (X.signRelay unsigned.body .receipt) (err .internalError)
  pure { unsigned with relaySignature := signature }

/-- Insert a receipt; a taken object or a taken log position is refused. -/
def storeReceipt (kind : Kind) (id : String) (r : Receipt) : Tx Unit := do
  let c ← chain
  let taken ← look fun st => st.receipts.rows.any fun x =>
    r.relaySeq.isSome && decide (x.logId = c.logId ∧ x.seq = r.relaySeq)
  failIf taken (err .storageUnavailable)
  attempt fun st => (st.receipts.insert?
    { kind, objectId := id, logId := c.logId, seq := r.relaySeq, receipt := r }).map
    fun t => { st with receipts := t }

/-! ## Acceptance -/

/-- The original entry and receipt of an object accepted before. -/
def accepted? (X : Crypto) (kind : Kind) (v : Json) (st : Store) :
    Except ApiError (Option (Option LogEntry × Receipt)) :=
  let id := objectId v kind
  match st.objectDigest kind id with
  | none => .ok none
  | some digest =>
      if digest ≠ X.objectHash v then .error (conflict kind)
      else match st.receipt kind id with
        | none => .ok none
        | some r => match st.log.find? (r.logId, r.relaySeq.getD 0) with
          | none => .error (err .storageUnavailable)
          | some row => .ok (some (row.entry, r))

/-- Extend the log by one entry. -/
def appendNew (X : Crypto) (kind : Kind) (v : Json) : Tx (Option LogEntry × Receipt) := do
  let id := objectId v kind
  let c ← chain
  failIf (decide (maxInteger ≤ c.headSeq)) (err .storageUnavailable)
  let seq := c.headSeq + 1
  let received ← now
  let entry : LogEntry := {
    relaySeq := seq, receivedAtMs := received, kind, object := v,
    committedAtMs := if kind = .epoch then some received else none }
  let _ ← putObject X kind v (some (c.logId, seq))
  adopt kind id c.logId seq
  let hash := linkHash X c.headHash seq entry.toJson []
  setChain fun c => { c with headHash := hash, headSeq := seq }
  attempt fun st => (st.log.insert?
    { logId := c.logId, seq, entry := some entry, headHash := hash }).map
    fun t => { st with log := t }
  let (_, accepted) ← transparency X .accept (X.objectHash v) (some seq) none
  let r ← makeReceipt X v (some seq) (some (X.objectHash entry.toJson)) c.headHash received
    accepted
  storeReceipt kind id r
  pure (some entry, r)

/-- Accept an object into the log, once. -/
def append (X : Crypto) (kind : Kind) (v : Json) : Tx (Option LogEntry × Receipt) := do
  let before ← check fun st _ => accepted? X kind v st
  match before with
  | some original => pure original
  | none => appendNew X kind v

/-- Accept a snapshot part, once: evidence and receipt, no log entry. -/
def snapshotPart (X : Crypto) (v : Json) : Tx Receipt := do
  let fresh ← putObject X .snapshotPart v none
  if fresh then do
    let (_, hash) ← transparency X .accept (X.objectHash v) none none
    let c ← chain
    let received ← now
    let r ← makeReceipt X v none none c.headHash received hash
    storeReceipt .snapshotPart (s v "record_id") r
    pure r
  else do
    let r ← look (·.receipt .snapshotPart (s v "record_id"))
    require r (err .storageUnavailable)

/-! ## Saving -/

/-- Write the working copy back, publish its cut, check the quota. -/
def save (R : Relay) : Tx Unit := do
  let c ← chain
  setStore fun st => { st with chain := some c }
  let t ← now
  let unsigned : Head := {
    chainId := c.chainId, logId := c.logId, relayKeyId := R.crypto.keyId,
    transparencyId := c.transparencyId, entryIndex := c.transparencyIndex,
    transparencyHash := c.transparencyHash, headSeq := c.headSeq, headHash := c.headHash,
    parametersHash := c.parametersHash R.crypto, epochHash := c.epochHash R.crypto,
    minAvailableSeq := c.minAvailableSeq, timestamp := t, relaySignature := "" }
  let signature ← require (R.crypto.signRelay unsigned.body .head) (err .internalError)
  -- One immutable published cut per index.
  let cut : HeadRow := {
    transparencyId := c.transparencyId, idx := c.transparencyIndex,
    head := { unsigned with relaySignature := signature } }
  setStore fun st => { st with heads := st.heads.insertIgnore cut }
  check fun st _ => st.quota R

/-- The published notice, when the operator's settings differ from it. -/
def publishNotice (R : Relay) : Tx Unit := do
  let published ← look (·.notice)
  let current := match published with
    | some old =>
        old.get "shutdown_at_ms" == Json.ofOptionNat R.cfg.shutdownAtMs &&
          old.get "migration_origin" == Json.ofOption R.cfg.migrationOrigin
    | none => R.cfg.shutdownAtMs.isNone && R.cfg.migrationOrigin.isNone
  if current then pure ()
  else do
    let id ← newId
    let t ← now
    let notice := Json.obj [("migration_origin", Json.ofOption R.cfg.migrationOrigin),
      ("notice_id", .str id), ("server_time_ms", .num t),
      ("shutdown_at_ms", Json.ofOptionNat R.cfg.shutdownAtMs)]
    let _ ← transparency R.crypto .migrate (R.crypto.objectHash notice) none none
    setStore fun st => { st with notice := some notice }

/-- Record a response for exact repetitions. -/
def outcome (X : Crypto) (scope : OutcomeScope) (id : String) (payload response : Json) :
    Tx Unit :=
  attempt fun st => (st.outcomes.insert?
    { scope, operationId := id, digest := X.objectHash payload, response }).map
    fun t => { st with outcomes := t }

end PallaSync
