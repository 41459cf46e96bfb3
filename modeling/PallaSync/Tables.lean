import PallaSync.Wire
import PallaSync.Lib.Keyed

/-!
# Chains and their tables

The state of one chain: its row (`Chain`) and the rows other tables hold for
it (`Store`). The relay's tables are keyed by the chain id first and no
statement joins two chains, so a store is one chain's share of each table.

Client objects stay JSON. What the relay builds itself (log entries,
receipts, transparency entries, heads) is a structure with its JSON beside
it.
-/

namespace PallaSync

/-! ## Objects -/

inductive Kind where
  | parameters | epoch | device | envelope | compaction | admin | record | snapshotPart
deriving DecidableEq, Repr

def Kind.text : Kind → String
  | .parameters => "parameters"
  | .epoch => "epoch"
  | .device => "device"
  | .envelope => "envelope"
  | .compaction => "compaction"
  | .admin => "admin"
  | .record => "record"
  | .snapshotPart => "snapshot_part"

def objectId (v : Json) : Kind → String
  | .parameters => toString (n v "generation")
  | .epoch => toString (n v "epoch")
  | .device => s v "device_id"
  | .envelope => s v "envelope_id"
  | .compaction => s v "compaction_id"
  | .admin => s v "operation_id"
  | .record | .snapshotPart => s v "record_id"

def conflict : Kind → ApiError
  | .record | .snapshotPart => err .recordIdConflict
  | .device => err .deviceIdConflict
  | .envelope => err .envelopeIdConflict
  | .admin => err .operationIdConflict
  | _ => err .importConflict

structure ObjectRow where
  kind : Kind
  objectId : String
  objectHash : String
  body : Option Json
  logId : Option String
  relaySeq : Option Nat

abbrev ObjectRow.key (r : ObjectRow) : Kind × String := (r.kind, r.objectId)

/-- A removed body leaves its identifier. -/
theorem ObjectRow.key_removed (r : ObjectRow) :
    ({ r with body := none } : ObjectRow).key = r.key := rfl

/-! ## The log and its receipts -/

structure LogEntry where
  relaySeq : Nat
  receivedAtMs : Nat
  kind : Kind
  object : Json
  committedAtMs : Option Nat
deriving DecidableEq

/-- Only epoch entries carry `committed_at_ms`. -/
def LogEntry.toJson (e : LogEntry) : Json :=
  .obj ((match e.committedAtMs with
    | some t => [("committed_at_ms", .num t)]
    | none => []) ++
    [("kind", .str e.kind.text), ("object", e.object),
     ("received_at_ms", .num e.receivedAtMs), ("relay_seq", .num e.relaySeq)])

structure LogRow where
  logId : String
  seq : Nat
  entry : Option LogEntry
  headHash : String

abbrev LogRow.key (r : LogRow) : String × Nat := (r.logId, r.seq)

/-- A removed entry leaves its position. -/
theorem LogRow.key_removed (r : LogRow) : ({ r with entry := none } : LogRow).key = r.key := rfl

structure Receipt where
  receiptId : String
  chainId : String
  logId : String
  relayKeyId : String
  relaySeq : Option Nat
  objectHash : String
  entryHash : Option String
  previousHeadHash : String
  resultingHeadHash : String
  receivedAtMs : Nat
  transparencyId : String
  transparencyIndex : Nat
  transparencyHash : String
  relaySignature : String
deriving DecidableEq

def Receipt.unsigned (r : Receipt) : List (String × Json) :=
  [("chain_id", .str r.chainId), ("entry_hash", Json.ofOption r.entryHash),
   ("log_id", .str r.logId), ("object_hash", .str r.objectHash),
   ("previous_head_hash", .str r.previousHeadHash), ("receipt_id", .str r.receiptId),
   ("received_at_ms", .num r.receivedAtMs), ("relay_key_id", .str r.relayKeyId),
   ("relay_seq", Json.ofOptionNat r.relaySeq)]

def Receipt.rest (r : Receipt) : List (String × Json) :=
  [("resulting_head_hash", .str r.resultingHeadHash),
   ("transparency_hash", .str r.transparencyHash),
   ("transparency_id", .str r.transparencyId),
   ("transparency_index", .num r.transparencyIndex),
   ("type", .str "PALLASYNC-UPLOAD-RECEIPT-v3"), ("version", .str "3.0")]

def Receipt.body (r : Receipt) : Json := .obj (r.unsigned ++ r.rest)

def Receipt.toJson (r : Receipt) : Json :=
  .obj (r.unsigned ++ ("relay_signature", .str r.relaySignature) :: r.rest)

structure ReceiptRow where
  kind : Kind
  objectId : String
  logId : String
  seq : Option Nat
  receipt : Receipt

abbrev ReceiptRow.key (r : ReceiptRow) : Kind × String := (r.kind, r.objectId)

/-! ## Transparency -/

inductive Operation where
  | accept | reject | prune | migrate | delete
deriving DecidableEq, Repr

def Operation.text : Operation → String
  | .accept => "accept"
  | .reject => "reject"
  | .prune => "prune"
  | .migrate => "migrate"
  | .delete => "delete"

structure TransparencyEntry where
  transparencyId : String
  entryIndex : Nat
  chainId : String
  logId : String
  relayKeyId : String
  operation : Operation
  objectHash : String
  relaySeq : Option Nat
  resultingHeadHash : String
  previousTransparencyHash : String
  timestamp : Nat
  code : Option Code
  relaySignature : String
deriving DecidableEq

def TransparencyEntry.unsigned (e : TransparencyEntry) : List (String × Json) :=
  [("chain_id", .str e.chainId), ("code", Json.ofOption (e.code.map Code.text)),
   ("entry_index", .num e.entryIndex), ("log_id", .str e.logId),
   ("object_hash", .str e.objectHash), ("operation", .str e.operation.text),
   ("previous_transparency_hash", .str e.previousTransparencyHash),
   ("relay_key_id", .str e.relayKeyId), ("relay_seq", Json.ofOptionNat e.relaySeq)]

def TransparencyEntry.rest (e : TransparencyEntry) : List (String × Json) :=
  [("resulting_head_hash", .str e.resultingHeadHash), ("timestamp", .num e.timestamp),
   ("transparency_id", .str e.transparencyId),
   ("type", .str "PALLASYNC-TRANSPARENCY-ENTRY-v3"), ("version", .str "3.0")]

def TransparencyEntry.body (e : TransparencyEntry) : Json := .obj (e.unsigned ++ e.rest)

def TransparencyEntry.toJson (e : TransparencyEntry) : Json :=
  .obj (e.unsigned ++ ("relay_signature", .str e.relaySignature) :: e.rest)

structure TransparencyRow where
  transparencyId : String
  idx : Nat
  entry : TransparencyEntry
  hash : String

abbrev TransparencyRow.key (r : TransparencyRow) : String × Nat := (r.transparencyId, r.idx)

/-- A published cut. -/
structure Head where
  chainId : String
  logId : String
  relayKeyId : String
  transparencyId : String
  entryIndex : Nat
  transparencyHash : String
  headSeq : Nat
  headHash : String
  parametersHash : String
  epochHash : String
  minAvailableSeq : Nat
  timestamp : Nat
  relaySignature : String
deriving DecidableEq

def Head.unsigned (h : Head) : List (String × Json) :=
  [("chain_id", .str h.chainId), ("entry_index", .num h.entryIndex),
   ("epoch_hash", .str h.epochHash), ("head_hash", .str h.headHash),
   ("head_seq", .num h.headSeq), ("log_id", .str h.logId),
   ("min_available_seq", .num h.minAvailableSeq),
   ("parameters_hash", .str h.parametersHash), ("relay_key_id", .str h.relayKeyId)]

def Head.rest (h : Head) : List (String × Json) :=
  [("timestamp", .num h.timestamp), ("transparency_hash", .str h.transparencyHash),
   ("transparency_id", .str h.transparencyId),
   ("type", .str "PALLASYNC-TRANSPARENCY-HEAD-v3"), ("version", .str "3.0")]

def Head.body (h : Head) : Json := .obj (h.unsigned ++ h.rest)

def Head.toJson (h : Head) : Json :=
  .obj (h.unsigned ++ ("relay_signature", .str h.relaySignature) :: h.rest)

structure HeadRow where
  transparencyId : String
  idx : Nat
  head : Head

abbrev HeadRow.key (r : HeadRow) : String × Nat := (r.transparencyId, r.idx)

/-! ## The registry and the remaining tables -/

inductive Status where
  | active | pendingKeys | revoked
deriving DecidableEq, Repr

def Status.text : Status → String
  | .active => "active"
  | .pendingKeys => "pending_keys"
  | .revoked => "revoked"

structure RegistryRow where
  deviceId : String
  generation : Nat
  status : Status
  enrolledSeq : Nat
  revokedSeq : Option Nat

/-- A row of the trigger-fed registry history. -/
structure RegistryHistoryRow where
  id : Nat
  deviceId : String
  status : Status
  enrolledSeq : Nat
  revokedSeq : Option Nat

structure HandoffRow where
  epoch : Nat
  compactionId : String
  dueAtMs : Nat
  expired : Bool

/-- What the idempotency table distinguishes requests by. -/
inductive OutcomeScope where
  | genesis | enroll | epoch | offer | approveRequest | rejectRequest | snapshot | prune
  | reseed
deriving DecidableEq, Repr

structure OutcomeRow where
  scope : OutcomeScope
  operationId : String
  digest : String
  response : Json

abbrev OutcomeRow.key (r : OutcomeRow) : OutcomeScope × String := (r.scope, r.operationId)

inductive OfferStatus where
  | awaitingApproval | approved | rejected
deriving DecidableEq, Repr

def OfferStatus.text : OfferStatus → String
  | .awaitingApproval => "awaiting_approval"
  | .approved => "approved"
  | .rejected => "rejected"

structure OfferRow where
  requestId : String
  offer : Json
  request : Option Json
  status : OfferStatus
  updatedSeq : Nat

structure OfferHistoryRow where
  id : Nat
  requestId : String
  offer : Json
  request : Option Json
  status : OfferStatus

structure PayloadNonceRow where
  epoch : Nat
  nonce : String
  recordId : String

abbrev PayloadNonceRow.key (r : PayloadNonceRow) : Nat × String := (r.epoch, r.nonce)

structure Import where
  logId : String
  parameters : Json
  epoch : Json

structure Deletion where
  deletingDeviceId : Option String
  adminPublicKey : String
  devicePublicKey : Option String
  proof : Json
  outcome : Json
  requestHash : String

structure DeleteVersionRow where
  receiptHash : String
  proof : Json

/-! ## The chain row -/

structure Chain where
  chainId : String
  parameters : Json
  epoch : Json
  logId : String
  headSeq : Nat
  headHash : String
  minAvailableSeq : Nat
  boundaryCompactionId : Option String
  transparencyId : String
  transparencyIndex : Nat
  transparencyHash : String
  writable : Bool
  noticeId : String
deriving DecidableEq

def Chain.toJson (c : Chain) : Json :=
  .obj [("boundary_compaction_id", Json.ofOption c.boundaryCompactionId),
    ("chain_id", .str c.chainId), ("epoch", c.epoch), ("head_hash", .str c.headHash),
    ("head_seq", .num c.headSeq), ("log_id", .str c.logId),
    ("min_available_seq", .num c.minAvailableSeq), ("notice_id", .str c.noticeId),
    ("parameters", c.parameters), ("transparency_hash", .str c.transparencyHash),
    ("transparency_id", .str c.transparencyId),
    ("transparency_index", .num c.transparencyIndex), ("writable", .bool c.writable)]

/-- A stored page position. -/
structure CursorRow where
  cursor : String
  binding : Json
  cut : Chain
  position : Nat
  key : String
  extra : Json
  expiresAtMs : Nat

def CursorRow.state (r : CursorRow) : Json :=
  .obj [("cut", r.cut.toJson), ("extra", r.extra), ("key", .str r.key),
    ("position", .num r.position)]

/-! ## The store of a chain -/

structure Store where
  chain : Option Chain
  objects : Table ObjectRow ObjectRow.key
  registry : Table RegistryRow RegistryRow.deviceId
  log : Table LogRow LogRow.key
  receipts : Table ReceiptRow ReceiptRow.key
  transparency : Table TransparencyRow TransparencyRow.key
  heads : Table HeadRow HeadRow.key
  handoffs : Table HandoffRow HandoffRow.epoch
  outcomes : Table OutcomeRow OutcomeRow.key
  offers : Table OfferRow OfferRow.requestId
  cursors : Table CursorRow CursorRow.cursor
  payloadNonces : Table PayloadNonceRow PayloadNonceRow.key
  registryHistory : List RegistryHistoryRow
  offerHistory : List OfferHistoryRow
  imports : Option Import
  notice : Option Json
  deletion : Option Deletion
  deleteVersions : Table DeleteVersionRow DeleteVersionRow.receiptHash

/-- The store of a chain the relay has never heard of. -/
def Store.blank : Store where
  chain := none
  objects := .empty
  registry := .empty
  log := .empty
  receipts := .empty
  transparency := .empty
  heads := .empty
  handoffs := .empty
  outcomes := .empty
  offers := .empty
  cursors := .empty
  payloadNonces := .empty
  registryHistory := []
  offerHistory := []
  imports := none
  notice := none
  deletion := none
  deleteVersions := .empty

end PallaSync
