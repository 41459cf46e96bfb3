import PallaSync.Json

/-!
# Hashes, signatures and encodings

Digests, signatures, the Base64URL and UUID codecs and the canonical JSON
serialization come from other crates, so they are a parameter: a `Crypto`
holds these primitives and the relay's signing function. What the source
builds from them (`decode` with its canonicity check, `hash_bytes`,
`object_hash`, `verify_signature`, `signing_bytes`) is defined here.
-/

namespace PallaSync

/-- `u64::to_be_bytes` -/
def beBytes (i : Nat) : List UInt8 :=
  [56, 48, 40, 32, 24, 16, 8, 0].map fun k => .ofNat (Nat.shiftRight i k % 256)

/-! ## Digests and signatures -/

/-- The primitives of other crates: the unpadded Base64URL codec, the bytes of
a canonical version 4 UUID text, the SHA-256 digest, the NFC test, the
canonical JSON serialization, the Ed25519 and X25519 point checks, the strict
Ed25519 verification, and the relay's own key. -/
structure Crypto where
  base64Encode : List UInt8 → String
  base64Decode : String → Option (List UInt8)
  uuidBytes : String → Option (List UInt8)
  sha256 : List UInt8 → List UInt8
  nfc : String → Bool
  canonicalizeJson : Json → List UInt8
  primePoint : List UInt8 → Bool
  validXPoint : List UInt8 → Bool
  canonicalScalar : List UInt8 → Bool
  verifyStrict : List UInt8 → List UInt8 → List UInt8 → Bool
  relayPublicKey : List UInt8
  sign : List UInt8 → List UInt8

/-- The signature contexts. -/
inductive Context where
  | syncRecord | deviceRecord | enrollment | capability | parameters | epoch
  | envelope | compaction | request | adminOp | receipt | transparency | head
  | delete
deriving DecidableEq, Repr

def Context.text : Context → String
  | .syncRecord => "PALLASYNC-SYNC-RECORD-v3"
  | .deviceRecord => "PALLASYNC-DEVICE-RECORD-v3"
  | .enrollment => "PALLASYNC-ENROLLMENT-v3"
  | .capability => "PALLASYNC-CAPABILITY-v3"
  | .parameters => "PALLASYNC-CHAIN-PARAMS-v3"
  | .epoch => "PALLASYNC-EPOCH-v3"
  | .envelope => "PALLASYNC-EPOCH-ENVELOPE-v3"
  | .compaction => "PALLASYNC-COMPACTION-v3"
  | .request => "PALLASYNC-ENROLL-REQUEST-v3"
  | .adminOp => "PALLASYNC-ADMIN-OP-v3"
  | .receipt => "PALLASYNC-UPLOAD-RECEIPT-v3"
  | .transparency => "PALLASYNC-TRANSPARENCY-ENTRY-v3"
  | .head => "PALLASYNC-TRANSPARENCY-HEAD-v3"
  | .delete => "PALLASYNC-DELETE-RECEIPT-v3"

/-- The bytes of an ASCII text with the terminating zero every context has. -/
def asciiZ (text : String) : List UInt8 :=
  text.toList.map (fun c => .ofNat c.toNat) ++ [0]

def Context.bytes (ctx : Context) : List UInt8 := asciiZ ctx.text

namespace Crypto

variable (X : Crypto)

/-- `decode(s, length)`: the canonical encoding of bytes of the given length,
or of any bytes. A text that is encoded back to itself is in the alphabet. -/
def decode (text : String) (length : Option Nat) : Option (List UInt8) := do
  let bytes ← X.base64Decode text
  if length.all (bytes.length == ·) && X.base64Encode bytes == text then some bytes else none

/-- `uuid(v)` -/
def uuid (text : String) : Bool := (X.uuidBytes text).isSome

def hashBytes (bytes : List UInt8) : String := X.base64Encode (X.sha256 bytes)

def objectHash (v : Json) : String := X.hashBytes (X.canonicalizeJson v)

def validEdKey (key : String) : Bool :=
  match X.decode key (some 32) with
  | some b => X.primePoint b
  | none => false

def validXKey (key : String) : Bool :=
  match X.decode key (some 32) with
  | some b => X.validXPoint b
  | none => false

/-- `verify_signature(key, sig, message).unwrap_or(false)` -/
def verifySignature (key sig : String) (message : List UInt8) : Bool :=
  match X.decode key (some 32), X.decode sig (some 64) with
  | some k, some b =>
      X.primePoint k && X.primePoint (b.take 32) && X.canonicalScalar (b.drop 32) &&
        X.verifyStrict k b message
  | _, _ => false

def signingBytes (v : Json) (ctx : Context) (member : String) : List UInt8 :=
  ctx.bytes ++ X.canonicalizeJson (v.remove member)

/-- `verify_signed_json(key, sig, v, ctx).unwrap_or(false)` -/
def verifySignedJson (key sig : String) (v : Json) (ctx : Context) : Bool :=
  match v with
  | .obj _ => X.verifySignature key sig (X.signingBytes v ctx "signature")
  | _ => false

/-- `sign_relay`: the relay signature of `v`, unless it does not verify. -/
def signRelay (v : Json) (ctx : Context) : Option String :=
  let input := X.signingBytes v ctx "relay_signature"
  let sig := X.base64Encode (X.sign input)
  if X.verifySignature (X.base64Encode X.relayPublicKey) sig input then some sig else none

/-- `relay_key_id`: the digest of the relay's public key. -/
def keyId : String := X.hashBytes X.relayPublicKey

end Crypto

end PallaSync
