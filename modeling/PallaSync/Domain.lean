import PallaSync.Auth
import Mathlib.Data.List.Sort

/-!
# Domain rules

The checks an object passes before it is accepted, against the tables and the
working copy of the chain, and the two programs that change membership:
`register` and `commitEpoch`.
-/

namespace PallaSync

open Check

/-! ## Binding and compare-and-swap -/

def bound (v : Json) (c : Chain) : Except ApiError Unit := do
  failIf (s v "chain_id" != c.chainId) (err .invalidField)
  failIf (n v "generation" != c.generation) (err .generationMismatch)

def cas (X : Crypto) (c : Chain) (parameters epoch : Json) : Except ApiError Unit :=
  failIf (parameters.asStr != some (c.parametersHash X) || epoch.asStr != some (c.epochHash X))
    (err .casMismatch)

/-- The members `keys` of `v`, as an object. -/
def target (v : Json) (keys : List String) : Json :=
  .obj (keys.foldl (fun o k => match v.get? k with
    | some x => Json.setMember k x o
    | none => o) [])

def adminOperation (X : Crypto) (st : Store) (c : Chain) (op : Json) (action : String)
    (target : Json) : Except ApiError Unit := do
  validate X op .admin
  bound op c
  verify X op c.adminPublicKey .adminOp
  failIf (s op "action" != action || s op "target_hash" != X.objectHash target)
    (err .invalidField)
  failIf ((st.objectDigest .admin (s op "operation_id")).any (· != X.objectHash op))
    (err .operationIdConflict)
  cas X c (op.get "expected_parameters_hash") (op.get "expected_epoch_hash")

/-! ## Devices -/

/-- The members a device record repeats from its enrollment request. -/
def requestedKeys : List String :=
  ["device_id", "device_public_key", "device_kex_public_key", "chain_id", "generation"]

/-- Who may sign a device's certificate, and that they did. -/
def certificate (X : Crypto) (st : Store) (c : Chain) (d : Json) (request : Option Json) :
    Except ApiError Unit :=
  let cert := d.get "enrollment"
  if s cert "signer_kind" = "device" then do
    failIf (c.policy.get "allow_peer_enrollment" != .bool true || request.isNone ||
        s cert "signer_device_id" == s d "device_id")
      (err .enrollmentCertificateInvalid)
    let key ← orElse (signingKey st c cert) (err .enrollmentCertificateInvalid)
    orElse (verify X cert key .enrollment) (err .enrollmentCertificateInvalid)
  else orElse (verify X cert c.adminPublicKey .enrollment) (err .enrollmentCertificateInvalid)

def device (X : Crypto) (st : Store) (c : Chain) (d : Json) (request : Option Json)
    (genesis : Bool) : Except ApiError Unit := do
  validate X d .device
  bound d c
  let cert := d.get "enrollment"
  verify X d (s d "device_public_key") .deviceRecord
  failIf (Json.ofOption (request.map X.objectHash) != cert.get "request_hash")
    (err .enrollmentCertificateInvalid)
  failIf (request.any fun r => !requestedKeys.all fun k => d.get k == r.get k)
    (err .enrollmentCertificateInvalid)
  failIf (!genesis && (st.object .epoch (toString (n d "meta_epoch"))).isNone)
    (err .epochStale)
  failIf (genesis && n d "meta_epoch" != n c.epoch "epoch" &&
      n d "meta_epoch" != n c.epoch "epoch" + 1)
    (err .epochStale)
  certificate X st c d request
  failIf ((st.objectDigest .device (s d "device_id")).any (· != X.objectHash d))
    (err .deviceIdConflict)
  failIf (st.objects.rows.any fun r =>
      decide (r.kind = .device ∧ r.objectId ≠ s d "device_id") &&
        r.body.any fun b =>
          (b.get "enrollment").get "certificate_id" == .str (s cert "certificate_id"))
    (err .enrollmentCertificateInvalid)

/-! ## Envelopes and epochs -/

/-- The members an envelope repeats from its epoch. -/
def epochKeys : List String :=
  ["chain_id", "generation", "epoch", "previous_epoch_hash", "epoch_commitment"]

/-- The staged record of a device, if it is among those being enrolled. -/
def stagedDevice (staged : List Json) (id : String) : Option Json :=
  staged.find? fun d => s d "device_id" == id

/-- The record of an envelope's recipient: staged, or registered and not
revoked. -/
def recipient (st : Store) (c : Chain) (staged : List Json) (id : String) :
    Except ApiError Json :=
  match stagedDevice staged id with
  | some d => .ok d
  | none => do
      let d ← require (st.object .device id) (err .envelopeAccessDenied)
      let status ← require (st.status id) (err .storageUnavailable)
      failIf (status == .revoked || n d "generation" != c.generation)
        (err .envelopeAccessDenied)
      pure d

/-- The key an envelope's signer has now. -/
def envelopeKey (st : Store) (c : Chain) (e : Json) (staged : List Json) :
    Except ApiError String :=
  if s e "signer_kind" = "admin" then .ok c.adminPublicKey
  else match stagedDevice staged (s e "signer_device_id") with
    | some d => .ok (s d "device_public_key")
    | none => signingKey st c e

/-- The digest of a device's key-exchange key. -/
def kexHash (X : Crypto) (d : Json) : String := X.hashBytes (raw X (s d "device_kex_public_key"))

def envelope (X : Crypto) (st : Store) (c : Chain) (e epoch : Json) (staged : List Json) :
    Except ApiError Unit := do
  validate X e .envelope
  failIf (!epochKeys.all fun k => e.get k == epoch.get k) (err .epochChainInvalid)
  let key ← envelopeKey st c e staged
  verify X e key .envelope
  if s e "recipient_kind" = "device" then do
    let d ← recipient st c staged (s e "recipient_device_id")
    failIf (e.get "recipient_key_hash" != .str (kexHash X d)) (err .envelopeAccessDenied)
  else .ok ()

/-- The envelopes of a bundle: one to each member, the recovery one once. The
accumulators hold the identifiers and recipients seen; the result tells
whether the recovery envelope was among them. -/
def bundleEnvelopes (X : Crypto) (st : Store) (c : Chain) (epoch : Json)
    (staged : List Json) (members : List String) :
    List Json → List String → List String → Bool → Except ApiError Bool
  | [], _, _, recovery => .ok recovery
  | e :: es, ids, recipients, recovery => do
      envelope X st c e epoch staged
      failIf (ids.contains (s e "envelope_id")) (err .invalidField)
      if s e "recipient_kind" = "recovery" then do
        failIf (recovery || X.objectHash e != s epoch "recovery_envelope_hash")
          (err .recoveryEnvelopeRequired)
        bundleEnvelopes X st c epoch staged members es (s e "envelope_id" :: ids) recipients
          true
      else do
        failIf (!members.contains (s e "recipient_device_id") ||
            recipients.contains (s e "recipient_device_id"))
          (err .memberSetMismatch)
        bundleEnvelopes X st c epoch staged members es (s e "envelope_id" :: ids)
          (s e "recipient_device_id" :: recipients) recovery

/-- The members with the staged devices added, none of them twice. -/
def addStaged : List String → List Json → Except ApiError (List String)
  | members, [] => .ok members
  | members, d :: staged => do
      failIf (members.contains (s d "device_id")) (err .deviceIdConflict)
      addStaged (members ++ [s d "device_id"]) staged

def sortIds (ids : List String) : List String := ids.insertionSort fun x y => Json.textLe x y = true

/-- The non-revoked devices an epoch has to account for, in order. -/
def existingDevices (st : Store) (c : Chain) (genesis reseed : Bool) : List String :=
  sortIds (((st.registry.select fun r => r.status != .revoked).filter fun r =>
    !genesis && (reseed || r.generation == c.generation)).map (·.deviceId))

/-- The place of an epoch in the line: number, predecessor and reason. -/
def epochSuccession (X : Crypto) (c : Chain) (epoch : Json) (genesis reseed : Bool) :
    Except ApiError Unit :=
  if genesis then
    failIf (n epoch "epoch" != 0 || s epoch "reason" != "genesis" ||
        s epoch "signer_kind" != "admin" || !(a epoch "revoked_device_ids").isEmpty)
      (err .epochChainInvalid)
  else do
    failIf (n epoch "epoch" != n c.epoch "epoch" + 1 ||
        s epoch "previous_epoch_hash" != c.epochHash X)
      (err .epochChainInvalid)
    failIf (["genesis", "reseed"].contains (s epoch "reason") && !reseed)
      (err .epochChainInvalid)
    failIf (!(a epoch "revoked_device_ids").isEmpty &&
        ! ["device_revocation", "key_rotation", "emergency", "reseed"].contains
          (s epoch "reason"))
      (err .epochChainInvalid)

def bundle (X : Crypto) (st : Store) (c : Chain) (epoch : Json)
    (envelopes staged : List Json) (genesis reseed : Bool) : Except ApiError Unit := do
  validate X epoch .epoch
  bound epoch c
  epochSuccession X c epoch genesis reseed
  failIf (["genesis", "emergency", "reseed"].contains (s epoch "reason") &&
      s epoch "signer_kind" != "admin")
    (err .rotationNotAllowed)
  failIf (s epoch "signer_kind" == "device" &&
      c.policy.get "allow_device_rotation" != .bool true)
    (err .rotationNotAllowed)
  let key ← signingKey st c epoch
  verify X epoch key .epoch
  let existing := existingDevices st c genesis reseed
  let revoked := strings epoch "revoked_device_ids"
  failIf (revoked.any (fun id => !existing.contains id) || (reseed && revoked != existing))
    (err .memberSetMismatch)
  let kept := if reseed then [] else existing.filter fun id => !revoked.contains id
  let members ← addStaged kept staged
  failIf (sortIds members != strings epoch "members" || decide (128 < members.length))
    (err .memberSetMismatch)
  failIf (envelopes.length != members.length + 1) (err .memberSetMismatch)
  let recovery ← bundleEnvelopes X st c epoch staged members envelopes [] [] false
  failIf (!recovery) (err .recoveryEnvelopeRequired)

/-! ## Membership changes -/

open Atomic (collect)

def register (d : Json) (seq : Nat) (status : Status) : Tx Unit :=
  attempt fun st => st.insertRegistry
    { deviceId := s d "device_id", generation := n d "generation", status,
      enrolledSeq := seq, revokedSeq := none }

/-- Log a device record and register the device. -/
def enlist (X : Crypto) (status : Status) (d : Json) : Tx Receipt := do
  let (entry, r) ← append X .device d
  register d ((entry.map (·.relaySeq)).getD 0) status
  pure r

/-- `UPDATE v3_registry SET status='revoked', revoked_seq=?`, one device. -/
def revoke (seq : Nat) (id : String) : Tx Unit :=
  setStore fun st => st.updateRegistry (·.deviceId == id)
    (fun r => { r with status := .revoked, revokedSeq := some seq }) fun _ => rfl

def sortDevices (ds : List Json) : List Json :=
  ds.insertionSort fun x y => Json.textLe (s x "device_id") (s y "device_id") = true

/-- The order of envelopes in a commit: device recipients before recovery,
then by recipient. -/
def envelopeLe (x y : Json) : Bool :=
  Json.textLt (s x "recipient_kind") (s y "recipient_kind") ||
    s x "recipient_kind" == s y "recipient_kind" &&
      Json.textLe (s x "recipient_device_id") (s y "recipient_device_id")

def sortEnvelopes (es : List Json) : List Json :=
  es.insertionSort fun x y => envelopeLe x y = true

structure EpochCommit where
  epoch : Json
  envelopes : List Json
  staged : List Json
  admin : Option Json
  genesis : Bool

def commitEpoch (X : Crypto) (commit : EpochCommit) : Tx (Option LogEntry × List Receipt) := do
  let admitted ← collect (enlist X (if commit.genesis then .active else .pendingKeys))
    (sortDevices commit.staged)
  let delivered ← collect (append X .envelope) (sortEnvelopes commit.envelopes)
  let authorized ← collect (append X .admin) commit.admin.toList
  let (entry, r) ← append X .epoch commit.epoch
  Atomic.each (revoke ((entry.map (·.relaySeq)).getD 0))
    (strings commit.epoch "revoked_device_ids")
  setChain fun c => { c with epoch := commit.epoch }
  pure (entry, admitted ++ delivered.map (·.2) ++ authorized.map (·.2) ++ [r])

/-! ## Records and snapshots -/

/-- The collection tag is there exactly when the metadata profile is not
private. -/
def tagAllowed (parameters v : Json) : Bool :=
  ((parameters.get "policy").get "metadata_profile" == .str "private") ==
    (v.get "collection_tag").isNull

/-- A historical snapshot part restored by the admin: judged by the
parameters, the epoch and the device of its own generation. -/
def historicalPart (X : Crypto) (st : Store) (v : Json) : Except ApiError Unit := do
  let generation := n v "generation"
  let parameters ← require (st.object .parameters (toString generation))
    (err .generationMismatch)
  let epoch ← require (st.object .epoch (toString (n v "epoch"))) (err .epochNotFound)
  let d ← require (st.object .device (s v "device_id")) (err .deviceUnknown)
  failIf (n d "generation" != generation || n epoch "generation" != generation)
    (err .generationMismatch)
  verify X v (s d "device_public_key") .syncRecord
  failIf (!tagAllowed parameters v) (err .invalidField)

/-- No other record has the payload nonce under the same epoch key. -/
def nonceFree (st : Store) (v : Json) : Except ApiError Unit :=
  failIf ((st.nonceOwner (n v "epoch") (s v "payload_nonce")).any (· != s v "record_id"))
    (err .invalidField)

/-- A record by an active device under the current epoch. -/
def currentRecord (X : Crypto) (st : Store) (c : Chain) (v : Json) (auth : Auth) :
    Except ApiError Unit := do
  bound v c
  failIf (!auth.admin && auth.device != some (s v "device_id")) (err .deviceKeyMismatch)
  let key ← activeDevice st c (s v "device_id")
  verify X v key .syncRecord
  failIf (n v "epoch" != n c.epoch "epoch") (err .epochStale)
  failIf (!tagAllowed c.parameters v) (err .invalidField)

/-- Whether the record was accepted before; an error when it may not be. -/
def record (X : Crypto) (st : Store) (c : Chain) (v : Json) (auth : Auth)
    (snapshot staged : Bool) : Except ApiError Bool := do
  validate X v .record
  failIf (s v "chain_id" != c.chainId) (err .invalidField)
  failIf (!auth.admin && auth.device != some (s v "device_id")) (err .deviceKeyMismatch)
  match st.objectDigest (if snapshot then .snapshotPart else .record) (s v "record_id") with
  | some digest => do
      failIf (digest != X.objectHash v) (err .recordIdConflict)
      pure true
  | none =>
      if staged && auth.admin && n v "generation" == c.generation + 1 then .ok false
      else if snapshot && auth.admin && n v "generation" ≤ c.generation then do
        historicalPart X st v
        nonceFree st v
        pure false
      else do
        currentRecord X st c v auth
        nonceFree st v
        pure false

def reservePayloadNonce (v : Json) : Tx Unit :=
  setStore fun st => { st with
    payloadNonces := st.payloadNonces.insertIgnore
      { epoch := n v "epoch", nonce := s v "payload_nonce", recordId := s v "record_id" } }

/-- The key of an author: staged with the request, or active now. -/
def authorKey (st : Store) (c : Chain) (staged : List Json) (id : String) :
    Except ApiError String :=
  match stagedDevice staged id with
  | some d => .ok (s d "device_public_key")
  | none => activeDevice st c id

/-- The log's hash at a covered position. -/
def coveredHash (X : Crypto) (st : Store) (c : Chain) (covered : Nat) :
    Except ApiError String :=
  if covered = 0 then .ok (Chain.logOrigin X c.chainId c.logId)
  else require ((st.log.find? (c.logId, covered)).map (·.headHash)) (err .compactionUnsafe)

/-- A part a compaction lists: stored, unaltered, current and signed. -/
def compactionPart (X : Crypto) (st : Store) (c : Chain) (staged : List Json) (p : Json) :
    Except ApiError Unit := do
  let part ← require (st.object .snapshotPart (s p "record_id")) (err .snapshotIncomplete)
  failIf (X.objectHash part != s p "record_hash" || n part "generation" != c.generation ||
      n part "epoch" != n c.epoch "epoch")
    (err .snapshotIncomplete)
  let key ← authorKey st c staged (s part "device_id")
  verify X part key .syncRecord
  failIf (!tagAllowed c.parameters part) (err .invalidField)

def compaction (X : Crypto) (st : Store) (c : Chain) (v : Json) (staged : List Json) :
    Except ApiError Unit := do
  validate X v .compaction
  bound v c
  failIf (s v "log_id" != c.logId) (err .logIdMismatch)
  failIf (s v "epoch_hash" != c.epochHash X) (err .epochStale)
  let key ← authorKey st c staged (s v "device_id")
  verify X v key .compaction
  let covered := n v "covered_through_seq"
  let hash ← coveredHash X st c covered
  failIf (decide (c.headSeq < covered) || s v "covered_log_hash" != hash)
    (err .compactionUnsafe)
  each (compactionPart X st c staged) (a v "snapshot_parts")

/-- The answer to a rejected item. -/
def rejection (v : Json) (id : String) (e : ApiError) : Json :=
  .obj (Json.setMember id (v.get id) [("code", .str e.code.text),
    ("retryable", .bool e.retryable), ("status", .num e.status)])

end PallaSync
