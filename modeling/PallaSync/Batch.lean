import PallaSync.Export

/-!
# Uploads

An upload is one transaction an item, and one more for the evidence of a
rejected item. `Progress` is what the loop carries between them; `afterItem`
and `afterAudit` are its two turns.
-/

namespace PallaSync

open Atomic

/-- An authenticated request with its parsed body. -/
structure Call where
  route : Route
  chain : String
  param : String
  query : Query
  value : Json
  auth : Auth

def Route.isUpload : Route → Bool
  | .recordsPost | .partsPost | .repair | .envelopesPost => true
  | _ => false

def Route.itemsKey (route : Route) : String :=
  if route = .envelopesPost then "envelopes" else "records"

def Route.itemId (route : Route) : String :=
  if route = .envelopesPost then "envelope_id" else "record_id"

def Route.itemSchema (route : Route) : Schema :=
  if route = .envelopesPost then .envelope else .record

def repairFields : FieldTable :=
  [("source_log_id", .uuid), ("records", .array), ("receipts", .array)]

/-- The shape of a batch; its items. -/
def uploadItems (R : Relay) (call : Call) : Except ApiError (List Json) := do
  let X := R.crypto
  let v := call.value
  if call.route = .repair then do
    call.auth.requireAdmin
    fields X v repairFields
  else fields X v [(call.route.itemsKey, .array)]
  Check.failIf (call.route == .recordsPost && call.auth.admin) (err .deviceKeyMismatch)
  let records := a v call.route.itemsKey
  let most := if call.route = .envelopesPost then 128 else R.cfg.limits.maxRecordsPerUpload
  Check.failIf (records.isEmpty || decide (most < records.length) ||
      (call.route == .repair && (a v "receipts").length != records.length))
    (err .invalidField)
  let ids := records.map (s · call.route.itemId)
  Check.failIf (!ids.all X.uuid || !decide ids.Nodup) (err .invalidField)
  pure records

/-! ## One item -/

/-- An envelope to a device, for a stored epoch that has not been expired. -/
def uploadEnvelopeCheck (X : Crypto) (st : Store) (c : Chain) (call : Call) (r : Json) :
    Except ApiError Unit := do
  validate X r .envelope
  Check.failIf (s r "recipient_kind" != "device") (err .envelopeAccessDenied)
  Check.failIf (toString (n r "epoch") != call.param) (err .invalidField)
  Check.failIf (!call.auth.admin && call.auth.device != some (s r "signer_device_id"))
    (err .deviceKeyMismatch)
  let epoch ← Check.require (st.object .epoch call.param) (err .epochNotFound)
  Check.failIf (st.expired (n r "epoch")) (err .historyKeyExpired)
  envelope X st c r epoch []

def uploadEnvelope (X : Crypto) (call : Call) (r : Json) : Tx (Json × Option Receipt) := do
  check fun st c => uploadEnvelopeCheck X st c call r
  let (_, receipt) ← append X .envelope r
  pure (.str (s r "envelope_id"), some receipt)

def sourceFields : FieldTable :=
  [("relay_seq", .int), ("received_at_ms", .int), ("kind", .oneOf ["record"]),
   ("object", .object)]

/-- A repaired record is one this relay's own log still holds, as claimed. -/
def repairCheck (X : Crypto) (st : Store) (c : Chain) (call : Call) (source r : Json) :
    Except ApiError Unit := do
  validate X r .record
  bound r c
  fields X source sourceFields
  Check.failIf (source.get "object" != r) (err .repairProofRequired)
  let known := st.logEntry (s call.value "source_log_id") (n source "relay_seq")
  Check.failIf (known.map LogEntry.toJson != some source) (err .repairProofRequired)

def uploadRepair (X : Crypto) (call : Call) (index : Nat) (r : Json) :
    Tx (Json × Option Receipt) := do
  let source := (a call.value "receipts").getD index .null
  check fun st c => repairCheck X st c call source r
  let duplicate ← look fun st => (st.objectDigest .record (s r "record_id")).isSome
  let (entry, receipt) ← append X .record r
  pure (.obj [("duplicate", .bool duplicate),
    ("receipt", (entry.map LogEntry.toJson).getD source), ("record_id", r.get "record_id")],
    some receipt)

/-- A removed duplicate's log entry, rebuilt from its object and receipt. -/
def rebuiltEntry (receipt : Receipt) (r : Json) : Json :=
  .obj [("kind", .str "record"), ("object", r), ("received_at_ms", .num receipt.receivedAtMs),
    ("relay_seq", Json.ofOptionNat receipt.relaySeq)]

def uploadRecord (X : Crypto) (call : Call) (r : Json) : Tx (Json × Option Receipt) := do
  let snapshot := call.route == .partsPost
  let c ← chain
  failIf (!c.writable && !snapshot) (err .chainNotFound)
  let staged ← look (·.imports.isSome)
  let duplicate ← check fun st c => record X st c r call.auth snapshot staged
  reservePayloadNonce r
  if snapshot then do
    let receipt ← snapshotPart X r
    pure (.str (s r "record_id"), some receipt)
  else do
    let (entry, receipt) ← append X .record r
    pure (.obj [("duplicate", .bool duplicate),
      ("receipt", (entry.map LogEntry.toJson).getD (rebuiltEntry receipt r)),
      ("record_id", r.get "record_id")], some receipt)

/-- The device of the token is active still. -/
def uploaderActive (st : Store) (c : Chain) (auth : Auth) : Except ApiError Unit :=
  match auth.device with
  | some device => do
      let _ ← activeDevice st c device
  | none => .ok ()

def notDeleted (st : Store) : Except ApiError Unit :=
  match st.deletion with
  | some d => .error (gone d.proof)
  | none => .ok ()

/-- The transaction of one item. -/
def uploadItem (R : Relay) (call : Call) (index : Nat) (r : Json) :
    Tx (Json × Option Receipt) := do
  let t ← now
  lift (R.cfg.writeGuard t)
  check fun st _ => notDeleted st
  check fun st c => uploaderActive st c call.auth
  let result ← match call.route with
    | .envelopesPost => uploadEnvelope R.crypto call r
    | .repair => uploadRepair R.crypto call index r
    | _ => uploadRecord R.crypto call r
  save R
  pure result

/-- The evidence of rejected objects. -/
def auditReject (R : Relay) (objects : List Json) (code : Code) : Tx Unit := do
  each (fun obj => do
    let _ ← transparency R.crypto .reject (R.crypto.objectHash obj) none (some code)) objects
  save R

/-! ## The loop -/

/-- What the upload loop carries: the items left with their positions, the
answers so far, and the last chain seen. -/
structure Progress where
  remaining : List (Nat × Json)
  accepted : List Json
  rejected : List Json
  receipts : List Receipt
  finalChain : Option Chain

/-- What becomes of a batch after a transaction. -/
inductive Turn where
  | next (p : Progress)
  | audit (p : Progress) (r : Json) (e : ApiError)
  | stop (p : Progress)
  | fail (e : ApiError)

namespace Progress

def rejectAll (p : Progress) (id : String) (e : ApiError) (rs : List (Nat × Json)) :
    Progress :=
  { p with remaining := [], rejected := p.rejected ++ rs.map fun r => rejection r.2 id e }

/-- A failure of the storage itself: fatal before the first acceptance, after
it every item left is rejected. -/
def broken (p : Progress) (id : String) (e : ApiError) (rs : List (Nat × Json)) : Turn :=
  if p.accepted.isEmpty then .fail e else .stop (p.rejectAll id e rs)

def seen (p : Progress) (c : Chain) : Progress :=
  { p with finalChain := p.finalChain.or (some c) }

end Progress

/-- The codes that leave no evidence. -/
def unaudited : List Code := [.quotaExceeded, .storageUnavailable, .chainDeleted]

/-- What the storage did to a transaction besides running it. -/
structure Faults where
  begin : Bool
  load : Bool
  commit : Bool
  rollback : Bool
  /-- The checkpoint after an erasure found a reader. -/
  checkpoint : Bool
  /-- No permit for another bulk transfer. -/
  transfers : Bool

def Faults.none : Faults := ⟨false, false, false, false, false, false⟩

/-- The turn after an item's transaction ended with an error. -/
def afterRejection (X : Crypto) (route : Route) (p : Progress) (item : Nat × Json)
    (rest : List (Nat × Json)) (faults : Faults) (e : ApiError) : Turn :=
  if faults.rollback then
    p.broken route.itemId (err .storageUnavailable) (item :: rest)
  else if p.accepted.isEmpty ∧ (e.code = .quotaExceeded ∨ e.code = .storageUnavailable) then
    .fail e
  else
    let p := { p with
      remaining := rest
      rejected := p.rejected ++ [rejection item.2 route.itemId e] }
    if !unaudited.contains e.code && (validate X item.2 route.itemSchema).isOk then
      .audit p item.2 e
    else .next p

/-- The turn after an item's transaction ended well. -/
def afterAcceptance (route : Route) (p : Progress) (item : Nat × Json)
    (rest : List (Nat × Json)) (faults : Faults) (result : Json × Option Receipt)
    (c : Chain) : Turn :=
  if faults.commit then
    p.broken route.itemId (err .storageUnavailable) (item :: rest)
  else .next { p with
    remaining := rest
    accepted := p.accepted ++ [result.1]
    receipts := p.receipts ++ result.2.toList
    finalChain := some c }

/-- The turn after the evidence of a rejection was written, or was not. -/
def afterAudit (route : Route) (p : Progress) (r : Json) (outcome : Except ApiError Chain) :
    Turn :=
  match outcome with
  | .ok c => .next { p with finalChain := some c }
  | .error failure =>
      if p.accepted.isEmpty then .fail failure
      else .stop ({ p with
        rejected := p.rejected.dropLast ++ [rejection r route.itemId failure] }.rejectAll
          route.itemId failure p.remaining)

/-! ## The answer -/

/-- The identifier of the record with a digest. -/
def recordOf (X : Crypto) (records : List Json) (digest : String) : String :=
  ((records.reverse.find? fun r => X.objectHash r == digest).map (s · "record_id")).getD ""

def sortedReceipts (X : Crypto) (route : Route) (records : List Json) (rs : List Receipt) :
    List Receipt :=
  if route = .partsPost then
    rs.insertionSort fun x y =>
      Json.textLe (recordOf X records x.objectHash) (recordOf X records y.objectHash) = true
  else rs.insertionSort fun x y => x.relaySeq.getD 0 ≤ y.relaySeq.getD 0

/-- The head a batch of records reports. -/
def headSummary (c : Chain) (v : Json) : Json :=
  (((v.set "generation" (.num c.generation)).set "log_id" (.str c.logId)).set "head_seq"
    (.num c.headSeq)).set "head_hash" (.str c.headHash)

def uploadResponse (X : Crypto) (call : Call) (p : Progress) (stored : Option Chain) : Json :=
  let records := a call.value call.route.itemsKey
  let base := Json.obj [("accepted", .arr p.accepted), ("rejected", .arr p.rejected),
    ("upload_receipts", receiptsJson (sortedReceipts X call.route records p.receipts))]
  if call.route = .partsPost ∨ call.route = .envelopesPost then base
  else
    let v := match p.finalChain.or stored with
      | some c => headSummary c base
      | none => base
    if call.route = .repair then v.set "repair_required" (.bool !p.rejected.isEmpty) else v

end PallaSync
