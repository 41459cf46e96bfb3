import PallaSync.Query

/-!
# The frozen legacy routes

The tables of version 2 are kept read-only: their chain parameters, devices and
records are served under `/pallasync/v2/`, and a chain can be deleted. A request
is authenticated by a capability token of its own version; unlike the current
one, this authentication reads the clock at every point where it needs a time
(`Readings`), and everything it changes is undone when the request fails.
-/

namespace PallaSync

namespace Legacy

/-! ## Values and tables -/

/-- A value of a response; the columns of the frozen tables may be negative.
An object lists its members in key order. -/
inductive Value where
  | null
  | int (i : Int)
  | str (text : String)
  | arr (items : List Value)
  | obj (members : List (String × Value))

/-- The statuses of failures. -/
inductive StatusCode where
  | badRequest | unauthorized | forbidden | notFound | methodNotAllowed | gone
  | payloadTooLarge | tooManyRequests | internalServerError
deriving DecidableEq, Repr

/-- What the routes are served with: the canonical serializer of responses, the
strict parser, and the operator's limit on bytes. -/
structure Service where
  crypto : Crypto
  cfg : RelayConfig
  byteLimit : Nat
  canonicalize : Value → Option (List UInt8)
  parse : String → Option Json

structure ChainRow where
  chainId : String
  deletedAtMs : Option Nat

structure DeviceRow where
  chainId : String
  deviceId : String
  devicePublicKey : String
  encryptedDeviceName : String
  deviceNameNonce : String
  status : String
  createdAtMs : Int
  updatedAtMs : Int
  signature : String

abbrev DeviceRow.key (r : DeviceRow) : String × String := (r.chainId, r.deviceId)

structure RecordRow where
  chainId : String
  recordId : String
  protocolVersion : String
  epoch : Int
  collectionName : String
  action : String
  encryptedPayload : String
  payloadNonce : String
  deviceId : String
  lamport : Int
  createdAtMs : Int
  signature : String
  serverSequence : Int

structure NonceRow where
  chainId : String
  deviceId : String
  nonce : String
  expiresAtMs : Nat

abbrev NonceRow.key (r : NonceRow) : String × String × String := (r.chainId, r.deviceId, r.nonce)

structure EvidenceRow where
  chainId : String
  signedJson : String

abbrev Records := Table RecordRow RecordRow.serverSequence

/-- The frozen tables and the rates they share with the current routes. A
database without them is served like one whose tables are empty. -/
structure Tables where
  chains : Table ChainRow ChainRow.chainId
  devices : Table DeviceRow DeviceRow.key
  records : Records
  nonces : Table NonceRow NonceRow.key
  evidence : Table EvidenceRow EvidenceRow.chainId
  rates : Rates

/-- A request, with what the strict parser made of its `Authorization`. -/
structure Request where
  method : String
  path : String
  query : Option String
  bodyLength : Nat
  contentEncoding : Option String
  source : String
  token : Option Json

/-- The clock readings of one request in the order it takes them: for the public
rate, for the start and for the end of the token's window, for the purge of the
nonces, for the signer's rate, and for the answer. -/
structure Readings where
  publicRate : Nat
  issued : Nat
  expires : Nat
  purge : Nat
  rate : Nat
  answer : Nat

def Readings.list (t : Readings) : List Nat :=
  [t.publicRate, t.issued, t.expires, t.purge, t.rate, t.answer]

inductive Response where
  | ok (body : List UInt8)
  | failed (code : StatusCode)

/-- `response(OK, value)`, of what the serializer makes of the value. -/
def response (body : Option (List UInt8)) : Response :=
  match body with
  | some bytes => .ok bytes
  | none => .failed .internalServerError

def Response.isOk : Response → Bool
  | .ok _ => true
  | .failed _ => false

/-! ## Authentication -/

def tokenFields : List String :=
  ["v", "chain_id", "device_id", "method", "path", "query", "body_sha256", "issued_at_ms",
    "expires_at_ms", "nonce", "signature"]

/-- The token has the fields of its version and names this very request. -/
def tokenBinding (X : Crypto) (chain : String) (q : Request) (token : Json) :
    Except StatusCode Unit :=
  match token with
  | .obj members =>
      Check.failIf (members.length != tokenFields.length ||
          tokenFields.any (fun k => (token.get? k).isNone) ||
          token.get "v" != .num 1 || token.get "chain_id" != .str chain ||
          token.get "method" != .str q.method || token.get "path" != .str q.path ||
          token.get "query" != .str (q.query.getD "") ||
          token.get "body_sha256" != .str (X.hashBytes []))
        .unauthorized
  | _ => .error .unauthorized

def verifyToken (X : Crypto) (key sig : String) (token : Json) : Bool :=
  X.verifySignature key sig
    (asciiZ "PALLASYNC-CAPABILITY-v2.1" ++ X.canonicalizeJson (token.remove "signature"))

/-- The device the token authenticates and the nonces it leaves. -/
def authenticate (X : Crypto) (db : Tables) (chain : String) (q : Request) (t : Readings) :
    Except StatusCode (String × Table NonceRow NonceRow.key) := do
  let token ← Check.require q.token .unauthorized
  tokenBinding X chain q token
  let issued ← Check.require (token.get "issued_at_ms").asNat .unauthorized
  let expires ← Check.require (token.get "expires_at_ms").asNat .unauthorized
  Check.failIf (decide (t.issued < issued) || decide (expires ≤ t.expires) ||
    decide (expires ≤ issued) || decide (maxInteger < expires)) .unauthorized
  let id ← Check.require (token.get "device_id").asStr .unauthorized
  let nonce ← Check.require (token.get "nonce").asStr .unauthorized
  Check.failIf (X.decode nonce (some 16)).isNone .unauthorized
  let device ← Check.require (db.devices.find? (chain, id)) .forbidden
  Check.failIf (device.status != "active") .forbidden
  let signature ← Check.require (token.get "signature").asStr .unauthorized
  Check.failIf (!verifyToken X device.devicePublicKey signature token) .unauthorized
  let kept := db.nonces.delete fun r => decide (r.expiresAtMs ≤ t.purge)
  let nonces ← Check.require
    (kept.insert? { chainId := chain, deviceId := id, nonce, expiresAtMs := expires })
    .unauthorized
  pure (id, nonces)

/-! ## Reads -/

def deviceJson (chain : String) (r : DeviceRow) : Value :=
  .obj [("chain_id", .str chain), ("created_at_ms", .int r.createdAtMs),
    ("device_id", .str r.deviceId), ("device_name_nonce", .str r.deviceNameNonce),
    ("device_public_key", .str r.devicePublicKey),
    ("encrypted_device_name", .str r.encryptedDeviceName), ("protocol_version", .str "2.1"),
    ("signature", .str r.signature), ("status", .str r.status),
    ("updated_at_ms", .int r.updatedAtMs)]

def devices (S : Service) (db : Tables) (chain : String) : Response :=
  let rows := (db.devices.rows.filter fun r => r.chainId == chain).insertionSort
    fun x y => Json.textLe x.deviceId y.deviceId = true
  response (S.canonicalize (.obj [("devices", .arr (rows.map (deviceJson chain))),
    ("next_cursor", .null)]))

/-- A decimal number within the safe integers. -/
def decimal (input : String) : Except StatusCode Nat := do
  let digits := input.toList
  Check.failIf (digits.isEmpty || !digits.all Char.isDigit) .badRequest
  let k := Nat.ofDigitChars 10 digits 0
  Check.failIf (decide (maxInteger < k)) .badRequest
  pure k

/-- `legacy_record` -/
def legacyRecord (chain : String) (r : RecordRow) : Value :=
  .obj [("action", .str r.action), ("chain_id", .str chain),
    ("collection_name", .str r.collectionName), ("created_at_ms", .int r.createdAtMs),
    ("device_id", .str r.deviceId), ("encrypted_payload", .str r.encryptedPayload),
    ("epoch", .int r.epoch), ("lamport", .int r.lamport), ("payload_nonce", .str r.payloadNonce),
    ("protocol_version", .str r.protocolVersion), ("record_id", .str r.recordId),
    ("relay_seq", .int r.serverSequence), ("server_sequence", .int r.serverSequence),
    ("signature", .str r.signature)]

/-- The length prefilter of a row: the bytes of its texts. -/
def RecordRow.stringBytes (r : RecordRow) : Nat :=
  r.encryptedPayload.utf8ByteSize + r.signature.utf8ByteSize + r.payloadNonce.utf8ByteSize +
    r.recordId.utf8ByteSize + r.deviceId.utf8ByteSize + r.collectionName.utf8ByteSize +
    r.action.utf8ByteSize + r.protocolVersion.utf8ByteSize

/-- The rows of a chain above a sequence number, in order. -/
def above (rows : Records) (chain : String) (next : Nat) : List RecordRow :=
  (rows.rows.filter fun r => r.chainId == chain && decide ((next : Int) < r.serverSequence))
    |>.insertionSort fun x y => x.serverSequence ≤ y.serverSequence

structure RecordsPage where
  records : List Value
  next : Nat
  more : Bool

/-- Where a row does not fit, the page ends, or there is none. -/
def stop (page : RecordsPage) : Except StatusCode RecordsPage :=
  if page.records.isEmpty then .error .payloadTooLarge else .ok { page with more := true }

/-- The loop of `records`; `left` rows may still be added, `used` bytes are. -/
def collect (S : Service) (rows : Records) (chain : String) :
    Nat → Nat → RecordsPage → Except StatusCode RecordsPage
  | left, used, page =>
      match (above rows chain page.next).head? with
      | none => .ok page
      | some row =>
          match left with
          | 0 => .ok { page with more := true }
          | left + 1 =>
              if S.byteLimit - used < row.stringBytes then stop page
              else
                match S.canonicalize (legacyRecord chain row) with
                | none => .error .internalServerError
                | some bytes =>
                    if S.byteLimit - used < bytes.length + 1 then stop page
                    else collect S rows chain left (used + (bytes.length + 1)) {
                      records := page.records ++ [legacyRecord chain row]
                      next := row.serverSequence.toNat
                      more := false }

def records (S : Service) (rows : Records) (chain : String) (query : Query) :
    Except StatusCode RecordsPage := do
  let after ← decimal (((query.lookup "cursor").or (query.lookup "after_seq")).getD "0")
  let limit ← decimal ((query.lookup "limit").getD "200")
  Check.failIf (decide (limit = 0) || decide (S.cfg.limits.pageLimit < limit)) .badRequest
  collect S rows chain limit 128 ⟨[], after, false⟩

def RecordsPage.nextCursor (page : RecordsPage) : Option String :=
  if page.more then some (toString page.next) else none

/-- The body of a page, answered at clock reading `t`. -/
def RecordsPage.json (page : RecordsPage) (t : Nat) : Value :=
  .obj [("next_cursor", (page.nextCursor.map Value.str).getD .null),
    ("records", .arr page.records), ("server_time_ms", .int t)]

/-- The original parameters, which must be those of the chain. -/
def checkOriginalParameters (S : Service) (db : Tables) (chain : String) :
    Except StatusCode Json := do
  let row ← Check.require (db.evidence.find? chain) .internalServerError
  let value ← Check.require (S.parse row.signedJson) .internalServerError
  Check.failIf (value.get "protocol_version" != .str "2.1" ||
      value.get "chain_id" != .str chain ||
      ((value.get "signature").asStr.bind (S.crypto.decode · (some 64))).isNone)
    .internalServerError
  pure value

/-! ## Requests -/

inductive Endpoint where
  | parameters | devices | records | delete
deriving DecidableEq, Repr

/-- The chain and the endpoint of a path. -/
def endpoint (path : String) : Option (String × Endpoint) :=
  let base := "/pallasync/v2/chains/".toList
  if base.isPrefixOf path.toList then
    match ((path.toList.drop base.length).splitOn '/').map String.ofList with
    | [chain, "parameters"] => some (chain, .parameters)
    | [chain, "devices"] => some (chain, .devices)
    | [chain, "records"] => some (chain, .records)
    | [chain] => some (chain, .delete)
    | _ => none
  else none

def isHealth (path : String) : Bool := path == "/health" || path == "/pallasync/v2/health"

/-- The routes open to everyone are limited by the address they are asked from. -/
def isPublic (path : String) : Bool :=
  "/health".toList.isSuffixOf path.toList || "/parameters".toList.isSuffixOf path.toList

/-- Delete what is kept of a chain and mark it deleted. -/
def deleteChain (db : Tables) (chain : String) (t : Nat) : Tables :=
  { db with
    records := db.records.delete fun r => r.chainId == chain
    devices := db.devices.delete fun r => r.chainId == chain
    nonces := db.nonces.delete fun r => r.chainId == chain
    evidence := db.evidence.delete fun r => r.chainId == chain
    chains := db.chains.update (fun r => r.chainId == chain && r.deletedAtMs.isNone)
      (fun r => { r with deletedAtMs := some t }) fun _ => rfl }

/-- The rate of an authenticated device. -/
def signerRate (S : Service) (db : Tables) (chain id : String) (t : Readings) :
    Except StatusCode Rates :=
  match rate S.cfg db.rates .authorizedSigner
      (S.crypto.hashBytes (utf8 ("legacy:" ++ chain ++ ":" ++ id))) t.rate with
  | .ok rates => .ok rates
  | .error _ => .error .tooManyRequests

/-- The transaction of a request: what it leaves and answers, or its failure. -/
def transaction (S : Service) (db : Tables) (q : Request) (t : Readings) (chain : String)
    (e : Endpoint) (query : Query) : Except StatusCode (Tables × Response) := do
  let row ← Check.require (db.chains.find? chain) .notFound
  Check.failIf row.deletedAtMs.isSome .gone
  if e = .parameters then do
    let value ← checkOriginalParameters S db chain
    pure (db, response (some (S.crypto.canonicalizeJson value)))
  else do
    let (id, nonces) ← authenticate S.crypto db chain q t
    let rates ← signerRate S db chain id t
    let db' : Tables := { db with nonces, rates }
    match e with
    | .records => do
        let page ← records S db.records chain query
        pure (db', response (S.canonicalize (page.json t.answer)))
    | .delete => pure (deleteChain db' chain t.answer, response (some []))
    | _ => pure (db', devices S db chain)

def parameters (q : Request) : Except StatusCode Query :=
  match canonicalQuery (utf8 (q.query.getD "")) with
  | .ok query => .ok query
  | .error _ => .error .badRequest

/-- The request as far as its path and query decide it. -/
def target (q : Request) (X : Crypto) :
    Except StatusCode (Option (String × Endpoint × Query)) := do
  let query ← parameters q
  if isHealth q.path then do
    Check.failIf (q.method != "GET") .methodNotAllowed
    Check.failIf (!query.isEmpty) .badRequest
    pure none
  else do
    let (chain, e) ← Check.require (endpoint q.path) .notFound
    Check.failIf ((e = .delete && q.method != "DELETE") || (e != .delete && q.method != "GET"))
      .methodNotAllowed
    Check.failIf (X.decode chain (some 32)).isNone .badRequest
    Check.failIf (e != .records && !query.isEmpty) .badRequest
    Check.failIf (e = .records &&
        (query.any (fun p => !(["after_seq", "cursor", "limit"].contains p.1)) ||
          ((query.lookup "after_seq").isSome && (query.lookup "cursor").isSome))) .badRequest
    pure (some (chain, e, query))

/-- What is looked at before anything is read or written. -/
def wellFormed (S : Service) (q : Request) : Except StatusCode Unit := do
  Check.failIf (!(["GET", "DELETE"].contains q.method)) .methodNotAllowed
  Check.failIf (decide (S.byteLimit < q.bodyLength)) .payloadTooLarge
  Check.failIf (q.bodyLength != 0 || q.contentEncoding.any (· != "identity")) .badRequest

/-- The rate of the public routes, which is kept whatever the request comes to. -/
def publicRate (S : Service) (db : Tables) (q : Request) (t : Readings) :
    Except StatusCode Tables :=
  if isPublic q.path then
    match rate S.cfg db.rates .publicDocumentIp (S.crypto.hashBytes (utf8 q.source))
        t.publicRate with
    | .ok rates => .ok { db with rates }
    | .error _ => .error .tooManyRequests
  else .ok db

def health : Json := .obj [("protocol_version", .str "2.1"), ("status", .str "ok")]

def run (S : Service) (db : Tables) (q : Request) (t : Readings) : Tables × Response :=
  match wellFormed S q with
  | .error code => (db, .failed code)
  | .ok _ =>
      match publicRate S db q t with
      | .error code => (db, .failed code)
      | .ok db =>
          match target q S.crypto with
          | .error code => (db, .failed code)
          | .ok none => (db, response (some (S.crypto.canonicalizeJson health)))
          | .ok (some (chain, e, query)) =>
              match transaction S db q t chain e query with
              | .error code => (db, .failed code)
              | .ok (db', out) => (db', out)

end Legacy

end PallaSync
