import PallaSync.Import

/-!
# Deletion

`delete` records an authorized deletion with its receipt; erasure and
completion happen later, for every pending deletion at once. The two are
separate transactions of the source, and are separate programs here:
`Store.erase` and `Store.finish`, each the share of one chain.
-/

namespace PallaSync

open Atomic

def deleteFields : FieldTable :=
  [("deletion_id", .uuid), ("expected_parameters_hash", .bytes 32),
   ("expected_epoch_hash", .bytes 32), ("admin_operation", .nullable .object)]

/-- What authorizes a device's deletion: its token and its request. -/
def deviceAuthorization (auth : Auth) (v : Json) : Json :=
  .obj [("request", v), ("token", auth.token)]

/-- The digest of what authorizes a deletion. -/
def deleteAuthority (X : Crypto) (st : Store) (c : Chain) (auth : Auth) (v : Json) :
    Except ApiError String := do
  Check.failIf (!auth.admin && c.policy.get "allow_device_chain_delete" != .bool true)
    (err .adminRequired)
  cas X c (v.get "expected_parameters_hash") (v.get "expected_epoch_hash")
  let op := v.get "admin_operation"
  if auth.admin then do
    adminOperation X st c op "delete_chain"
      (target v ["deletion_id", "expected_parameters_hash", "expected_epoch_hash"])
    pure (X.objectHash op)
  else do
    Check.failIf (!op.isNull) (err .invalidField)
    pure (X.objectHash (deviceAuthorization auth v))

/-- The certificates from a device up to one the admin signed. A repeated
device fails, so `fuel` above the number of stored objects is never used up. -/
def certificateChain (st : Store) : Nat → String → List String → Except ApiError (List Json)
  | 0, _, _ => .error (err .enrollmentCertificateInvalid)
  | fuel + 1, current, seen => do
      Check.failIf (seen.contains current) (err .enrollmentCertificateInvalid)
      let d ← Check.require (st.object .device current) (err .enrollmentCertificateInvalid)
      let cert := d.get "enrollment"
      if s cert "signer_kind" = "admin" then pure [cert]
      else do
        let rest ← certificateChain st fuel (s cert "signer_device_id") (current :: seen)
        pure (cert :: rest)

/-- The deleting device's key and certificates; nothing for the admin. -/
def deletingDevice (st : Store) (auth : Auth) : Except ApiError (Option String × List Json) :=
  match auth.device with
  | none => .ok (none, [])
  | some id => do
      let certificates ← certificateChain st (st.objects.rows.length + 1) id []
      pure ((st.object .device id).map (s · "device_public_key"), certificates)

def deleteLedger (X : Crypto) (c : Chain) (v : Json) (authority : String)
    (requested deadline : Nat) : Json :=
  let ledger := Json.obj [("assurance", .str "backup-expiry"),
    ("authorization_hash", .str authority),
    ("authorized_epoch_hash", .str (c.epochHash X)),
    ("authorized_parameters_hash", .str (c.parametersHash X)),
    ("chain_id", .str c.chainId), ("completed_at_ms", .null),
    ("delete_after_ms", .num deadline), ("deletion_id", v.get "deletion_id"),
    ("requested_at_ms", .num requested)]
  ledger.set "receipt_hash" (.str (X.objectHash ledger))

def deleteReceipt (X : Crypto) (c : Chain) (ledger : Json) : Except ApiError Json := do
  let r := Json.obj [("assurance", ledger.get "assurance"),
    ("authorization_hash", ledger.get "authorization_hash"),
    ("authorized_epoch_hash", ledger.get "authorized_epoch_hash"),
    ("authorized_parameters_hash", ledger.get "authorized_parameters_hash"),
    ("chain_id", .str c.chainId), ("completed_at_ms", ledger.get "completed_at_ms"),
    ("delete_after_ms", ledger.get "delete_after_ms"),
    ("deletion_id", ledger.get "deletion_id"),
    ("ledger_receipt_hash", ledger.get "receipt_hash"), ("log_id", .str c.logId),
    ("relay_key_id", .str X.keyId), ("requested_at_ms", ledger.get "requested_at_ms"),
    ("transparency_hash", .str c.transparencyHash),
    ("transparency_id", .str c.transparencyId),
    ("transparency_index", .num c.transparencyIndex),
    ("type", .str "PALLASYNC-DELETE-RECEIPT-v3"), ("version", .str "3.0")]
  let signature ← Check.require (X.signRelay r .delete) (err .internalError)
  pure (r.set "relay_signature" (.str signature))

def delete (R : Relay) (auth : Auth) (v : Json) : Tx Json := do
  let X := R.crypto
  lift (fields X v deleteFields)
  let authority ← check fun st c => deleteAuthority X st c auth v
  let op := v.get "admin_operation"
  let authorized ← collect (append X .admin) (if auth.admin then [op] else [])
  let c ← chain
  let t ← now
  let deadline := t + R.cfg.activeDeleteMaxMs
  let ledger := deleteLedger X c v authority t deadline
  let (entry, _) ← transparency X .delete (X.objectHash ledger) none none
  let c ← chain
  let receipt ← lift (deleteReceipt X c ledger)
  let (deviceKey, certificates) ← check fun st _ => deletingDevice st auth
  let proof := Json.obj [("admin_operation", op), ("delete_receipt", receipt),
    ("deletion_transparency_entry", entry.toJson),
    ("device_authorization", if auth.admin then .null else deviceAuthorization auth v),
    ("enrollment_chain", .arr certificates), ("epoch", c.epoch), ("ledger", ledger),
    ("parameters", c.parameters)]
  let response := Json.obj [("assurance", .str "backup-expiry"),
    ("delete_after_ms", .num deadline), ("delete_receipt", receipt),
    ("deletion_id", v.get "deletion_id"), ("receipt_hash", ledger.get "receipt_hash"),
    ("state", .str "deleting"), ("upload_receipts", receiptsJson (authorized.map (·.2)))]
  let row : Deletion := {
    deletingDeviceId := auth.device, adminPublicKey := c.adminPublicKey,
    devicePublicKey := deviceKey, proof, outcome := response, requestHash := X.objectHash v }
  attempt fun st => if st.deletion.isSome then none else some { st with deletion := some row }
  pure response

/-- The answer for a deleted chain. -/
def gone (proof : Json) : ApiError :=
  let l := proof.get "ledger"
  (err .chainDeleted).withContext (.obj [("assurance", l.get "assurance"),
    ("delete_after_ms", l.get "delete_after_ms"), ("deletion_id", l.get "deletion_id"),
    ("receipt_hash", l.get "receipt_hash")])

/-! ## Erasure and completion -/

def Deletion.completedAt (d : Deletion) : Json := (d.proof.get "ledger").get "completed_at_ms"

/-- A deletion that is not completed yet. -/
def Store.pending (st : Store) : Bool := st.deletion.any (·.completedAt.isNull)

/-- The eleven tables a deletion erases, emptied. -/
def Store.cleared (st : Store) : Store :=
  { st with
    objects := .empty
    log := .empty
    registry := .empty
    outcomes := .empty
    offers := .empty
    cursors := .empty
    imports := none
    payloadNonces := .empty
    registryHistory := []
    offerHistory := []
    handoffs := .empty }

/-- The share of one chain in `erase`. -/
def Store.erase (st : Store) : Store := if st.pending then st.cleared else st

/-- The proof of a deletion completed at `t`. -/
def completedProof (X : Crypto) (proof : Json) (t : Nat) : Except ApiError Json := do
  let ledger := (proof.get "ledger").set "completed_at_ms" (.num t)
  let ledger := ledger.set "receipt_hash" (.str (X.objectHash (ledger.remove "receipt_hash")))
  let receipt := ((proof.get "delete_receipt").set "completed_at_ms" (.num t)).set
    "ledger_receipt_hash" (ledger.get "receipt_hash")
  let signature ← Check.require (X.signRelay receipt .delete) (err .internalError)
  pure ((proof.set "ledger" ledger).set "delete_receipt"
    (receipt.set "relay_signature" (.str signature)))

/-- The share of one chain in the second transaction of `complete`. -/
def Store.finish (X : Crypto) (t : Nat) (st : Store) : Except ApiError Store :=
  match st.deletion with
  | none => .ok st
  | some d =>
      if d.completedAt.isNull then do
        let proof ← completedProof X d.proof t
        let version : DeleteVersionRow := {
          receiptHash := s (d.proof.get "ledger") "receipt_hash", proof := d.proof }
        pure { st with
          deleteVersions := st.deleteVersions.insertIgnore version
          deletion := some { d with proof } }
      else .ok st

end PallaSync
