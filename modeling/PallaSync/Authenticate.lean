import PallaSync.Batch
import Mathlib.Data.Rat.Floor

/-!
# Authentication

A capability token is checked against the request it is bound to, against the
clock, and against the key of its signer; then its nonce is reserved for good
and, last, the signer's standing and rate are looked at. The reservation
outlives every later failure, so authentication is not an atomic program: it
returns its verdict together with the tables it leaves (`Desk`).
-/

namespace PallaSync

structure NonceRow where
  chainId : String
  signerKind : String
  deviceId : String
  nonce : String
  expiresAtMs : Nat

abbrev NonceRow.key (r : NonceRow) : String × String × String × String :=
  (r.chainId, r.signerKind, r.deviceId, r.nonce)

/-- A token bucket; the tokens are exact. -/
structure RateRow where
  scope : RateScope
  identity : String
  tokens : Rat
  updatedAtMs : Nat

abbrev RateRow.key (r : RateRow) : RateScope × String := (r.scope, r.identity)

abbrev Rates := Table RateRow RateRow.key

/-- The tables shared by all chains. -/
structure Desk where
  nonces : Table NonceRow NonceRow.key
  rates : Rates

/-! ## Rates -/

def RatePolicy.refill (p : RatePolicy) : Rat := p.requestsPerMinute / 60000

/-- The tokens of a bucket at clock reading `t`. -/
def tokensAt (p : RatePolicy) (row : Option RateRow) (t : Nat) : Rat :=
  match row with
  | some row => min (row.tokens + ((t - row.updatedAtMs : Nat) : Rat) * p.refill) p.burst
  | none => p.burst

def rate (cfg : RelayConfig) (rates : Rates) (scope : RateScope) (identity : String)
    (t : Nat) : Except ApiError Rates :=
  let policy := cfg.rateLimits scope
  let tokens := tokensAt policy (rates.find? (scope, identity)) t
  if tokens < 1 then
    .error ((err .rateLimited).withContext (.obj [
      ("retry_after_ms", .num ((1 - tokens) / policy.refill).ceil.toNat),
      ("scope", .str scope.text)]))
  else .ok (rates.upsert { scope, identity, tokens := tokens - 1, updatedAtMs := t })

/-! ## Requests -/

/-- A request as it reaches the handler: its endpoint, its raw binding, and
what the strict parsers made of its token and its body. -/
structure Request where
  route : Route
  chain : String
  param : String
  method : String
  path : String
  query : Query
  body : List UInt8
  token : Except ApiError Json
  value : Except ApiError Json
  source : String

def queryString (q : Query) : String :=
  "&".intercalate (q.map fun p => p.1 ++ "=" ++ p.2)

def tokenFields : FieldTable :=
  [("v", .int), ("aud", .string), ("chain_id", .bytes 32),
   ("signer_kind", .oneOf ["device", "admin"]), ("device_id", .nullable .uuid),
   ("method", .string), ("path", .string), ("query", .string), ("body_sha256", .bytes 32),
   ("issued_at_ms", .int), ("expires_at_ms", .int), ("nonce", .bytes 16)]

/-- A token of version 3, well formed. -/
def tokenShape (X : Crypto) (token : Json) : Except ApiError Unit := do
  Check.orElse (signed X token tokenFields) (err .tokenSignatureInvalid)
  Check.failIf (n token "v" != 3 ||
      ((s token "signer_kind" == "admin") != (token.get "device_id").isNull))
    (err .tokenSignatureInvalid)

/-- The token names this very request. -/
def tokenBinding (R : Relay) (q : Request) (chainId : String) (token : Json) :
    Except ApiError Unit :=
  Check.failIf (s token "aud" != R.cfg.origin || s token "chain_id" != chainId ||
      s token "method" != q.method || s token "path" != q.path ||
      s token "query" != queryString q.query ||
      s token "body_sha256" != R.crypto.hashBytes q.body)
    (err .tokenBindingMismatch)

def retryAfter (ms : Nat) : Json := .obj [("retry_after_ms", .num ms)]

/-- The token's window at clock reading `t`. -/
def tokenFresh (token : Json) (t : Nat) : Except ApiError Unit := do
  let issued := n token "issued_at_ms"
  let expires := n token "expires_at_ms"
  Check.failIf (decide (expires ≤ issued)) (err .tokenSignatureInvalid)
  Check.failIf (decide (300000 < expires - issued)) (err .tokenTtlTooLong)
  Check.failIf (decide (t + 60000 < issued))
    ((err .tokenNotYetValid).withContext (retryAfter (issued - t - 60000)))
  Check.failIf (decide (expires + 60000 < t)) (err .tokenExpired)

def tokenDevice (token : Json) : Option String := (token.get "device_id").asStr

/-- The key the token must verify under: of the recorded deletion, of the
chain, or the one a bootstrap request proposes. -/
def tokenKey (st : Store) (proposed : Option String) (device : Option String) :
    Except ApiError String :=
  match st.deletion, st.chain with
  | some d, _ => match device with
      | some id => do
          Check.failIf (d.deletingDeviceId != some id) (err .tokenSignatureInvalid)
          Check.require d.devicePublicKey (err .deviceUnknown)
      | none => .ok d.adminPublicKey
  | none, some c => match device with
      | some id => do
          let d ← Check.require (st.object .device id) (err .tokenSignatureInvalid)
          pure (s d "device_public_key")
      | none => .ok c.adminPublicKey
  | none, none => Check.require proposed (err .tokenSignatureInvalid)

/-- Everything before the nonce is reserved. -/
def tokenCheck (R : Relay) (st : Store) (barrier : Option Nat) (q : Request)
    (chainId : String) (proposed : Option String) (t : Nat) : Except ApiError Json := do
  let X := R.crypto
  let token ← q.token
  tokenShape X token
  tokenBinding R q chainId token
  tokenFresh token t
  Check.failIf (proposed.isSome && (tokenDevice token).isSome) (err .adminRequired)
  let key ← tokenKey st proposed (tokenDevice token)
  Check.failIf (!X.verifySignedJson key (s token "signature") token .capability)
    (err .tokenSignatureInvalid)
  if R.cfg.restartBarrier then do
    let barrier ← Check.require barrier (err .storageUnavailable)
    let issued := n token "issued_at_ms"
    Check.failIf (decide (issued < barrier))
      ((err .tokenNotYetValid).withContext (retryAfter (barrier - issued)))
    pure token
  else pure token

/-- The standing of a token's device when it authenticates. -/
def tokenStanding (st : Store) (device : Option String) (route : Route) :
    Except ApiError Unit :=
  match st.deletion, st.chain, device with
  | none, some c, some id => deviceState st c id route
  | _, _, _ => .ok ()

def signerIdentity (chainId : String) (token : Json) : String :=
  chainId ++ ":" ++ s token "signer_kind" ++ ":" ++ (tokenDevice token).getD ""

def authenticate (R : Relay) (st : Store) (barrier : Option Nat) (desk : Desk)
    (q : Request) (chainId : String) (proposed : Option String) (t t' : Nat) :
    Except ApiError Auth × Desk :=
  match tokenCheck R st barrier q chainId proposed t with
  | .error e => (.error e, desk)
  | .ok token =>
      let kept := desk.nonces.delete fun r => decide (r.expiresAtMs < t)
      match kept.insert? {
          chainId, signerKind := s token "signer_kind",
          deviceId := (tokenDevice token).getD "", nonce := s token "nonce",
          expiresAtMs := n token "expires_at_ms" + 60000 } with
      | none => (.error (err .tokenReplayed), { desk with nonces := kept })
      | some nonces =>
          let desk := { desk with nonces }
          match tokenStanding st (tokenDevice token) q.route with
          | .error e => (.error e, desk)
          | .ok _ => match rate R.cfg desk.rates .authorizedSigner
              (signerIdentity chainId token) t' with
            | .error e => (.error e, desk)
            | .ok rates => (.ok ⟨token, tokenDevice token⟩, { desk with rates })

end PallaSync
