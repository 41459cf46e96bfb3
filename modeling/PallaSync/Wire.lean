import PallaSync.Config
import PallaSync.Lib.Atomic

/-!
# Closed wire schemas

`validate` accepts an object of one of the nine signed kinds: exactly the
members its table lists (and `ext`), each of its type, plus the semantic
checks of the kind. It says nothing about the state of a chain.
-/

namespace PallaSync

open Check

/-! ## Field types -/

inductive FieldType where
  | string | uuid | u32 | int | bool | object | array | version
  | bytes (length : Nat)
  | oneOf (options : List String)
  | nullable (t : FieldType)
  | listOf (t : FieldType)

/-- `id(v)`: no NUL, and in normalization form C. -/
def idText (X : Crypto) (text : String) : Bool :=
  !text.toList.contains (Char.ofNat 0) && X.nfc text

def checkType (X : Crypto) : FieldType → Json → Bool
  | .string, v => v.asStr.any (idText X)
  | .uuid, v => v.asStr.any X.uuid
  | .u32, v => v.asNat.any (· ≤ 4294967295)
  | .int, v => v.asNat.any (· ≤ maxInteger)
  | .bool, v => match v with
      | .bool _ => true
      | _ => false
  | .object, v => match v with
      | .obj _ => true
      | _ => false
  | .array, v => v.asArr.isSome
  | .version, v => v.asStr == some "3.0"
  | .bytes length, v => v.asStr.any fun text => (X.decode text (some length)).isSome
  | .oneOf options, v => v.asStr.any options.contains
  | .nullable t, v => v.isNull || checkType X t v
  | .listOf t, v => v.asArr.any fun items => items.all (checkType X t)

abbrev FieldTable := List (String × FieldType)

/-- The members of `v` are those of the tables, no required one missing. -/
def fields (X : Crypto) (v : Json) (required : FieldTable) (optional : FieldTable := []) :
    Except ApiError Unit :=
  match v with
  | .obj members => do
      failIf (!required.all fun f => (members.lookup f.1).any (checkType X f.2))
        (err .invalidField)
      failIf (!members.all fun m =>
          ((required ++ optional).lookup m.1).any fun t => checkType X t m.2)
        (err .invalidField)
  | _ => .error (err .invalidField)

/-! ## Signed objects -/

/-- The reserved types of local recovery artifacts. -/
def reservedTypes : List String :=
  ["PALLASYNC-RECOVERY-BLOB-v3", "PALLASYNC-RECOVERY-SET-v3",
   "PALLASYNC-RECOVERY-STATUS-v3", "PALLASYNC-RECOVERY-SHARE-v3",
   "PALLASYNC-RECOVERY-PACKAGE-v3", "PALLASYNC-OFFLINE-SHARE-KEY-v3",
   "PALLASYNC-RECOVERY-SESSION-v3", "PALLASYNC-RECOVERY-TRANSFER-v3"]

/-- An object of a reserved type, or one with a mnemonic and a passphrase. -/
def isLocalArtifact (members : List (String × Json)) : Bool :=
  ((members.lookup "type").bind Json.asStr).any reservedTypes.contains ||
    (members.lookup "mnemonic").isSome && (members.lookup "passphrase").isSome

mutual

/-- A recovery artifact at any depth. -/
def hasLocalArtifact : Json → Bool
  | .arr items => anyArtifact items
  | .obj members => isLocalArtifact members || anyMemberArtifact members
  | _ => false

def anyArtifact : List Json → Bool
  | [] => false
  | x :: xs => hasLocalArtifact x || anyArtifact xs

def anyMemberArtifact : List (String × Json) → Bool
  | [] => false
  | (_, x) :: xs => hasLocalArtifact x || anyMemberArtifact xs

end

def rejectLocalArtifacts (v : Json) : Except ApiError Unit :=
  failIf (hasLocalArtifact v) (err .invalidField)

def isLowercase (c : Char) : Bool := 'a' ≤ c ∧ c ≤ 'z'

def isDigit (c : Char) : Bool := '0' ≤ c ∧ c ≤ '9'

/-- One label of a reverse-domain extension name. -/
def extLabel (last : Bool) (label : List Char) : Bool :=
  label.length ≤ (if last then 64 else 63) &&
    label.head?.any isLowercase &&
    label.getLast? != some '-' &&
    label.all fun c => isLowercase c || isDigit c || c == (if last then '_' else '-')

def extName (key : String) : Bool :=
  let labels := key.toList.splitOn '.'
  3 ≤ labels.length && key.utf8ByteSize ≤ 255 &&
    labels.dropLast.all (extLabel false) && labels.getLast?.all (extLabel true)

def checkExt (X : Crypto) (v : Json) : Except ApiError Unit :=
  match v.get? "ext" with
  | some (.obj members) => do
      failIf (decide (1024 < (X.canonicalizeJson (.obj members)).length)) (err .invalidField)
      failIf (!members.all fun m => extName m.1) (err .invalidField)
  | _ => .ok ()

def signed (X : Crypto) (v : Json) (required : FieldTable) : Except ApiError Unit := do
  rejectLocalArtifacts v
  fields X v (required ++ [("signature", .bytes 64)]) [("ext", .object)]
  checkExt X v

def signer (v : Json) : Except ApiError Unit :=
  failIf ((s v "signer_kind" == "admin") != (v.get "signer_device_id").isNull)
    (err .invalidField)

def verify (X : Crypto) (v : Json) (key : String) (ctx : Context) : Except ApiError Unit :=
  failIf (!X.verifySignedJson key (s v "signature") v ctx) (err .objectSignatureInvalid)

/-! ## The nine kinds -/

inductive Schema where
  | parameters | certificate | device | epoch | envelope | record | compaction
  | admin | request
deriving DecidableEq, Repr

def validateParameters (X : Crypto) (v : Json) : Except ApiError Unit := do
  signed X v [("version", .version), ("chain_id", .bytes 32),
    ("admin_public_key", .bytes 32), ("generation", .u32),
    ("previous_parameters_hash", .nullable (.bytes 32)), ("policy", .object)]
  fields X (v.get "policy") [("metadata_profile", .oneOf ["private", "queryable"]),
    ("allow_device_chain_delete", .bool), ("allow_peer_enrollment", .bool),
    ("allow_device_rotation", .bool),
    ("epoch_retention", .oneOf ["retain", "windowed", "immediate"]),
    ("epoch_window_ms", .int), ("scheduled_rotation_ms", .int)]
  let w := n (v.get "policy") "epoch_window_ms"
  let t := n (v.get "policy") "scheduled_rotation_ms"
  failIf (!(1 ≤ w && w ≤ 31536000000) ||
      (t != 0 && !(3600000 ≤ t && t ≤ 31536000000)) ||
      ((n v "generation" == 0) != (v.get "previous_parameters_hash").isNull) ||
      !X.validEdKey (s v "admin_public_key"))
    (err .invalidField)

def validateCertificate (X : Crypto) (v : Json) : Except ApiError Unit := do
  signed X v [("chain_id", .bytes 32), ("generation", .u32), ("certificate_id", .uuid),
    ("device_id", .uuid), ("device_public_key", .bytes 32),
    ("device_kex_public_key", .bytes 32), ("signer_kind", .oneOf ["admin", "device"]),
    ("signer_device_id", .nullable .uuid), ("request_hash", .nullable (.bytes 32)),
    ("approved_at_ms", .int)]
  signer v
  failIf ((s v "signer_kind" == "device" && (v.get "request_hash").isNull) ||
      !X.validEdKey (s v "device_public_key") || !X.validXKey (s v "device_kex_public_key"))
    (err .invalidField)

/-- The members a device record repeats from its certificate. -/
def certifiedKeys : List String :=
  ["chain_id", "generation", "device_id", "device_public_key", "device_kex_public_key"]

def validateDevice (X : Crypto) (v : Json) : Except ApiError Unit := do
  signed X v [("version", .version), ("chain_id", .bytes 32), ("generation", .u32),
    ("device_id", .uuid), ("device_public_key", .bytes 32),
    ("device_kex_public_key", .bytes 32), ("meta_epoch", .u32), ("meta_nonce", .bytes 24),
    ("encrypted_device_meta", .string), ("enrollment", .object)]
  validateCertificate X (v.get "enrollment")
  let b ← require (X.decode (s v "encrypted_device_meta") none) (err .invalidField)
  failIf (! [1040, 4112].contains b.length) (err .invalidField)
  failIf (!certifiedKeys.all fun k => v.get k == (v.get "enrollment").get k)
    (err .enrollmentCertificateInvalid)

/-- Strictly increasing, the order of the listed identifiers. -/
def ascending : List String → Bool
  | x :: y :: rest => Json.textLt x y && ascending (y :: rest)
  | _ => true

def validateEpoch (X : Crypto) (v : Json) : Except ApiError Unit := do
  signed X v [("chain_id", .bytes 32), ("generation", .u32), ("epoch", .u32),
    ("previous_epoch_hash", .nullable (.bytes 32)), ("epoch_commitment", .bytes 32),
    ("reason", .oneOf ["genesis", "scheduled", "manual", "device_revocation",
      "key_rotation", "reseed", "emergency"]),
    ("signer_kind", .oneOf ["admin", "device"]), ("signer_device_id", .nullable .uuid),
    ("members", .listOf .uuid), ("revoked_device_ids", .listOf .uuid),
    ("recovery_envelope_hash", .bytes 32)]
  signer v
  failIf ((a v "members").isEmpty || decide (128 < (a v "members").length) ||
      ((n v "epoch" == 0) != (v.get "previous_epoch_hash").isNull))
    (err .epochChainInvalid)
  failIf (!ascending (strings v "members") || !ascending (strings v "revoked_device_ids"))
    (err .memberSetMismatch)
  failIf ((strings v "members").any (strings v "revoked_device_ids").contains)
    (err .memberSetMismatch)

def validateEnvelope (X : Crypto) (v : Json) : Except ApiError Unit := do
  signed X v [("envelope_id", .uuid), ("chain_id", .bytes 32), ("generation", .u32),
    ("epoch", .u32), ("previous_epoch_hash", .nullable (.bytes 32)),
    ("epoch_commitment", .bytes 32), ("recipient_kind", .oneOf ["device", "recovery"]),
    ("recipient_device_id", .nullable .uuid), ("recipient_key_hash", .nullable (.bytes 32)),
    ("signer_kind", .oneOf ["admin", "device"]), ("signer_device_id", .nullable .uuid),
    ("enc", .nullable (.bytes 32)), ("nonce", .nullable (.bytes 24)),
    ("ciphertext", .bytes 48)]
  signer v
  let device := s v "recipient_kind" == "device"
  failIf (device == (v.get "recipient_device_id").isNull ||
      device == (v.get "recipient_key_hash").isNull ||
      device == (v.get "enc").isNull || device != (v.get "nonce").isNull ||
      (device && !X.validXKey (s v "enc")))
    (err .invalidField)

def validateRecord (X : Crypto) (v : Json) : Except ApiError Unit := do
  signed X v [("version", .version), ("chain_id", .bytes 32), ("generation", .u32),
    ("record_id", .uuid), ("device_id", .uuid), ("epoch", .u32),
    ("collection_tag", .nullable (.bytes 16)), ("payload_nonce", .bytes 24),
    ("encrypted_payload", .string)]
  let b ← require (X.decode (s v "encrypted_payload") none) (err .invalidField)
  failIf (! [1040, 4112, 16400, 65552, 262160, 1048592].contains b.length)
    (err .invalidField)

def validateCompaction (X : Crypto) (v : Json) : Except ApiError Unit := do
  signed X v [("compaction_id", .uuid), ("chain_id", .bytes 32), ("generation", .u32),
    ("device_id", .uuid), ("log_id", .uuid), ("covered_through_seq", .int),
    ("covered_log_hash", .bytes 32), ("epoch_hash", .bytes 32),
    ("snapshot_parts", .array), ("state_sha256", .bytes 32)]
  failIf ((a v "snapshot_parts").isEmpty || decide (65536 < (a v "snapshot_parts").length))
    (err .invalidField)
  each (fun p => fields X p [("record_id", .uuid), ("record_hash", .bytes 32)])
    (a v "snapshot_parts")
  failIf (!decide ((a v "snapshot_parts").map (s · "record_id")).Nodup) (err .invalidField)

def validateAdmin (X : Crypto) (v : Json) : Except ApiError Unit :=
  signed X v [("operation_id", .uuid), ("chain_id", .bytes 32), ("generation", .u32),
    ("action", .oneOf ["approve_enrollment", "revoke_device", "reseed", "delete_chain",
      "prune_log"]),
    ("expected_parameters_hash", .bytes 32), ("expected_epoch_hash", .bytes 32),
    ("target_hash", .bytes 32), ("created_at_ms", .int)]

def validateRequest (X : Crypto) (v : Json) : Except ApiError Unit := do
  signed X v [("request_id", .uuid), ("chain_id", .bytes 32), ("generation", .u32),
    ("device_id", .uuid), ("device_public_key", .bytes 32),
    ("device_kex_public_key", .bytes 32), ("offer_nonce", .bytes 32),
    ("created_at_ms", .int), ("expires_at_ms", .int)]
  failIf (decide (n v "expires_at_ms" ≤ n v "created_at_ms") ||
      decide (300000 < n v "expires_at_ms" - n v "created_at_ms") ||
      !X.validEdKey (s v "device_public_key") || !X.validXKey (s v "device_kex_public_key"))
    (err .invalidField)

def validate (X : Crypto) (v : Json) : Schema → Except ApiError Unit
  | .parameters => validateParameters X v
  | .certificate => validateCertificate X v
  | .device => validateDevice X v
  | .epoch => validateEpoch X v
  | .envelope => validateEnvelope X v
  | .record => validateRecord X v
  | .compaction => validateCompaction X v
  | .admin => validateAdmin X v
  | .request => validateRequest X v

end PallaSync
