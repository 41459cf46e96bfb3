import PallaSync.Deletion

/-!
# Reads and their cursors

Listings and ranges are paginated. A first page pins the chain as it stands
(`Page.cut`); a cursor is a stored row that carries the cut, the filters and
the position to the next page. Storing one is the only thing a read writes.
-/

namespace PallaSync

open Atomic

abbrev Query := List (String × String)

def responseMax : Nat := 8 * 1024 * 1024

def pageBytes : Nat := responseMax - 32768

def pruned (c : Chain) : ApiError :=
  (err .logPruned).withContext (.obj ((match c.boundaryCompactionId with
    | some id => [("compaction_id", .str id)]
    | none => []) ++
    [("log_id", .str c.logId), ("min_available_seq", .num c.minAvailableSeq)]))

/-- A page position: the pinned cut and what is needed to go on from it. -/
structure Page where
  cut : Chain
  position : Nat
  key : String
  limit : Nat
  resource : Route
  filters : Json
  expires : Nat
  extra : Json

def query (q : Query) (name : String) : Option String := q.lookup name

def decimal (text : String) (lo hi : Nat) : Except ApiError Nat := do
  let digits := text.toList
  Check.failIf (digits.isEmpty || !digits.all Char.isDigit) (err .invalidField)
  let k := Nat.ofDigitChars 10 digits 0
  Check.failIf (decide (k < lo ∨ hi < k)) (err .invalidField)
  pure k

/-- A decimal parameter, if given. -/
def decimalQuery (q : Query) (name : String) (lo hi : Nat) : Except ApiError (Option Nat) :=
  match query q name with
  | none => .ok none
  | some text => (decimal text lo hi).map some

def allowed (q : Query) (names : List String) : Except ApiError Unit :=
  Check.failIf (q.any fun p => !names.contains p.1) (err .filterNotAllowed)

def Route.resource : Route → String
  | .recordsGet => "records_get"
  | .epochsGet => "epochs_get"
  | .snapshotsGet => "snapshots_get"
  | .ownEnvelopes => "own_envelopes"
  | .requestsGet => "requests_get"
  | .devices => "devices"
  | .log => "log"
  | .exportChain => "export"
  | _ => "transparency"

/-- What a cursor is bound to. -/
def binding (R : Relay) (resource : Route) (filters : Json) : Json :=
  .obj [("filters", filters), ("origin", .str R.cfg.origin),
    ("resource", .str resource.resource)]

/-- The page a cursor stands for; the data log and the transparency chain must
still be those of its cut. -/
def resumePage (R : Relay) (st : Store) (c : Chain) (token : String) (resource : Route)
    (filters : Json) (limit t : Nat) : Except ApiError Page := do
  Check.failIf (decide (2048 < token.utf8ByteSize) || (R.crypto.decode token none).isNone)
    (err .cursorInvalid)
  let row ← Check.require (st.cursors.find? token) (err .cursorInvalid)
  Check.failIf (row.binding != binding R resource filters) (err .cursorInvalid)
  Check.failIf (decide (row.expiresAtMs < t)) (err .cursorExpired)
  Check.failIf (row.cut.logId != c.logId || row.cut.generation != c.generation)
    (err .logIdMismatch)
  Check.failIf (row.cut.transparencyId != c.transparencyId) (err .transparencyIdMismatch)
  pure {
    cut := row.cut, position := row.position, key := row.key, limit := limit
    resource := resource, filters := filters, expires := row.expiresAtMs
    extra := row.extra }

def page (R : Relay) (resource : Route) (q : Query) (filters : Json) : Tx Page := do
  let limit ← lift (decimalQuery q "limit" 1 R.cfg.limits.pageLimit)
  let limit := limit.getD (min 200 R.cfg.limits.pageLimit)
  failIf ((query q "cursor").isSome && (query q "after_seq").isSome) (err .cursorInvalid)
  let t ← now
  match query q "cursor" with
  | some token => check fun st c => resumePage R st c token resource filters limit t
  | none => do
      let position ← lift (decimalQuery q "after_seq" 0 maxInteger)
      let c ← chain
      let versions ← look fun st => (st.registryHistory.length, st.offerHistory.length)
      pure {
        cut := c, position := position.getD 0, key := "", limit := limit
        resource := resource, filters := filters, expires := t + 86400000
        extra := .obj [("offer_version", .num versions.2),
          ("registry_version", .num versions.1)] }

/-- Store the page position under a fresh token. -/
def cursor (R : Relay) (p : Page) : Tx String := do
  let left ← newId
  let right ← newId
  let token := R.crypto.base64Encode
    ((R.crypto.uuidBytes left).getD [] ++ (R.crypto.uuidBytes right).getD [])
  let row : CursorRow := {
    cursor := token, binding := binding R p.resource p.filters, cut := p.cut,
    position := p.position, key := p.key, extra := p.extra, expiresAtMs := p.expires }
  attempt fun st => (st.cursors.insert? row).map fun t => { st with cursors := t }
  check fun st _ => st.quota R
  pure token

/-- The next page's cursor, when there is a next page. -/
def nextCursor (R : Relay) (p : Page) (more : Bool) : Tx Json :=
  if more then do
    let token ← cursor R p
    pure (.str token)
  else pure .null

/-- The members of a listing. -/
def listing (p : Page) (items : List Json) (next : Json) (more : Bool) : Json :=
  .obj [("generation", .num p.cut.generation), ("has_more", .bool more),
    ("head_seq", .num p.cut.headSeq), ("items", .arr items), ("log_id", .str p.cut.logId),
    ("next_cursor", next)]

def finish (R : Relay) (p : Page) (items : List Json) (more log : Bool) : Tx Json := do
  let next ← nextCursor R p more
  let v := listing p items next more
  pure (if log then
    (v.set "head_hash" (.str p.cut.headHash)).set "scan_through_seq" (.num p.position)
  else v)

/-- The rows whose texts fit in a response; an oversized first row fails. -/
def boundedRows {α : Type} (size : α → Nat) :
    Nat → Bool → List α → Except ApiError (List α)
  | _, _, [] => .ok []
  | bytes, first, r :: rs =>
      if responseMax < bytes + size r then
        if first then .error (err .payloadTooLarge) else .ok []
      else (boundedRows size (bytes + size r) false rs).map (r :: ·)

/-! ## The log -/

def logRows (st : Store) (logId : String) (after through : Nat) : List LogRow :=
  (st.log.select fun r =>
    r.logId == logId && decide (after < r.seq ∧ r.seq ≤ through)).insertionSort
    fun x y => x.seq ≤ y.seq

def entrySize (X : Crypto) (r : LogRow) : Nat :=
  (r.entry.map fun e => Store.size X e.toJson).getD 0

/-- Whether a log entry is on the route, under the collection filter. -/
def LogEntry.included (e : LogEntry) (route : Route) (tag : Option String)
    (epoch : Option Nat) : Bool :=
  route == .log || (e.kind == .record && (tag.isNone ||
    e.object.get "collection_tag" == Json.ofOption tag && epoch == some (n e.object "epoch")))

def isRecovery (v : Json) : Bool := v.get "recipient_kind" == .str "recovery"

/-- Scan rows in order: the position reached and the entries collected. -/
def scanLog (X : Crypto) (c : Chain) (auth : Auth) (route : Route) (tag : Option String)
    (epoch : Option Nat) (limit : Nat) :
    List LogRow → Nat → Nat → Nat → Except ApiError (Nat × List Json)
  | [], position, _, _ => .ok (position, [])
  | row :: rows, position, count, bytes =>
      match row.entry with
      | none => .error (pruned c)
      | some e =>
          let size := Store.size X e.toJson + 1
          if !e.included route tag epoch then
            scanLog X c auth route tag epoch limit rows row.seq count bytes
          else if limit ≤ count ∨ pageBytes < bytes + size then .ok (position, [])
          else if !auth.admin && e.kind == .envelope && isRecovery e.object then
            .error (err .envelopeAccessDenied)
          else do
            let (position, items) ←
              scanLog X c auth route tag epoch limit rows row.seq (count + 1) (bytes + size)
            pure (position, e.toJson :: items)

def logFilters (route : Route) : List String :=
  if route = .recordsGet then ["after_seq", "cursor", "limit", "collection_tag", "epoch"]
  else ["after_seq", "cursor", "limit"]

def log (R : Relay) (auth : Auth) (route : Route) (q : Query) : Tx Json := do
  let X := R.crypto
  lift (allowed q (logFilters route))
  let tag := query q "collection_tag"
  let c ← chain
  failIf (tag.isSome != (query q "epoch").isSome ||
      (tag.isSome && s c.policy "metadata_profile" != "queryable"))
    (err .filterNotAllowed)
  failIf (tag.any fun t => (X.decode t (some 16)).isNone) (err .invalidField)
  let epoch ← lift (decimalQuery q "epoch" 0 4294967295)
  let p ← page R route q
    (.obj [("collection_tag", Json.ofOption tag), ("epoch", Json.ofOptionNat epoch)])
  failIf (decide (p.position < c.minAvailableSeq - 1)) (pruned c)
  let rows ← look fun st => (logRows st c.logId p.position p.cut.headSeq).take 1000
  let rows ← lift (boundedRows (entrySize X) 0 true rows)
  let (position, items) ← lift (scanLog X c auth route tag epoch p.limit rows p.position 0 0)
  finish R { p with position } items (decide (position < p.cut.headSeq)) true

/-! ## Object listings -/

/-- `CAST(text AS INTEGER)`, with a sign. -/
def castSigned (text : String) : Int :=
  match text.toList with
  | '-' :: _ => -(Nat.ofDigitChars 10 ((text.toList.drop 1).takeWhile Char.isDigit) 0 : Nat)
  | _ => (castInteger text : Nat)

/-- The listing order of object identifiers: numeric for epochs. -/
def keyLt (kind : Kind) (x y : String) : Bool :=
  if kind = .epoch then decide (castSigned x < castSigned y) else Json.textLt x y

/-- The objects of a kind above a key, as of the pinned head. -/
def listedObjects (st : Store) (c : Chain) (cut : Chain) (kind : Kind) (key : String) :
    List ObjectRow :=
  (st.objects.select fun r => decide (r.kind = kind) && keyLt kind key r.objectId &&
    r.body.isSome && (r.logId.isNone || r.logId.any (· != c.logId) ||
      r.relaySeq.any (· ≤ cut.headSeq))).insertionSort
    fun x y => keyLt kind y.objectId x.objectId = false

/-- A committed epoch as a read shows it; a staged one has no times yet. -/
def epochWrapper (X : Crypto) (st : Store) (epoch : Json) : Except ApiError Json := do
  let o ← Check.require (st.objects.find? (.epoch, toString (n epoch "epoch")))
    (err .storageUnavailable)
  let entry ← Check.require (do
    let logId ← o.logId
    let seq ← o.relaySeq
    st.logEntry logId seq) (err .repairProofRequired)
  let seq ← Check.require o.relaySeq (err .panicked)
  pure (.obj [("committed_at_ms", .num (entry.committedAtMs.getD 0)), ("epoch", epoch),
    ("epoch_hash", .str (X.objectHash epoch)), ("relay_seq", .num seq)])

/-- A device with the status it had at the pinned registry version. -/
def deviceWrapper (st : Store) (p : Page) (id : String) (body : Json) :
    Except ApiError Json := do
  let versions := st.registryHistory.filter fun h =>
    h.deviceId == id && decide (h.id ≤ n p.extra "registry_version")
  let h ← Check.require versions.getLast? (err .storageUnavailable)
  let revoked := h.revokedSeq.filter (· ≤ p.cut.headSeq)
  pure (.obj [("device_record", body), ("enrolled_seq", .num h.enrolledSeq),
    ("revoked_seq", Json.ofOptionNat revoked),
    ("status", .str (if revoked.isSome then "revoked" else h.status.text))])

/-- An envelope to the device, of the requested epoch. -/
def ownEnvelope (param : String) (epoch : Option Nat) (body : Json) : Bool :=
  body.get "recipient_kind" == .str "device" && s body "recipient_device_id" == param &&
    epoch.all (n body "epoch" == ·)

def listedItem (X : Crypto) (st : Store) (p : Page) (route : Route) (id : String)
    (body : Json) : Except ApiError Json :=
  match route with
  | .devices => deviceWrapper st p id body
  | .epochsGet => epochWrapper X st body
  | _ => .ok body

/-- Scan object rows in order: the key reached, the items collected, and
whether the page was cut short. -/
def scanObjects (X : Crypto) (st : Store) (p : Page) (route : Route) (param : String)
    (epoch : Option Nat) :
    List ObjectRow → String → Nat → Nat → Except ApiError (String × List Json × Bool)
  | [], key, _, _ => .ok (key, [], false)
  | row :: rows, key, count, bytes =>
      let body := row.body.getD .null
      if route = .ownEnvelopes ∧ ownEnvelope param epoch body = false then
        scanObjects X st p route param epoch rows row.objectId count bytes
      else do
        let item ← listedItem X st p route row.objectId body
        let size := Store.size X item + 1
        if p.limit ≤ count ∨ pageBytes < bytes + size then do
          Check.failIf (count == 0) (err .payloadTooLarge)
          pure (key, [], true)
        else do
          let (key, items, more) ←
            scanObjects X st p route param epoch rows row.objectId (count + 1) (bytes + size)
          pure (key, item :: items, more)

def Route.listedKind : Route → Kind
  | .devices => .device
  | .epochsGet => .epoch
  | .snapshotsGet => .compaction
  | _ => .envelope

def objects (R : Relay) (auth : Auth) (route : Route) (param : String) (q : Query) :
    Tx Json := do
  let X := R.crypto
  lift (allowed q (if route = .ownEnvelopes then ["epoch", "cursor", "limit"]
    else ["cursor", "limit"]))
  failIf (route == .ownEnvelopes && !auth.owns param) (err .envelopeAccessDenied)
  let epoch ← lift (decimalQuery q "epoch" 0 4294967295)
  let gone ← look fun st => epoch.any st.expired
  failIf gone (err .historyKeyExpired)
  let p ← page R route q (.obj [("device_id", .str param), ("epoch", Json.ofOptionNat epoch),
    ("requester", .null)])
  let start := if route = .epochsGet ∧ p.key = "" then "-1" else p.key
  let kind := route.listedKind
  let c ← chain
  let rows ← look fun st => (listedObjects st c p.cut kind start).take 1001
  let rows ← lift (boundedRows (fun r => (r.body.map (Store.size X)).getD 0) 0 true rows)
  let (key, items, short) ← check fun st _ => scanObjects X st p route param epoch rows start 0 0
  let more ← look fun st => short || !(listedObjects st c p.cut kind key).isEmpty
  finish R { p with key } items more false

/-! ## Enrollment requests -/

/-- The latest version of each offer up to the pinned one that has a request
the signer may see. -/
def listedRequests (st : Store) (c : Chain) (auth : Auth) (p : Page) : List OfferHistoryRow :=
  (st.offerHistory.filter fun h =>
    Json.textLt p.key h.requestId && h.request.isSome &&
      decide (h.id ≤ n p.extra "offer_version") &&
      (st.offerHistory.all fun x => !(x.requestId == h.requestId &&
        decide (h.id < x.id ∧ x.id ≤ n p.extra "offer_version"))) &&
      h.offer.get "generation" == .num c.generation &&
      (auth.admin || h.offer.get "offering_device_id" == Json.ofOption auth.device)).insertionSort
    fun x y => Json.textLe x.requestId y.requestId = true

def requestItem (X : Crypto) (h : OfferHistoryRow) : Json :=
  let request := h.request.getD .null
  .obj [("offering_device_id", h.offer.get "offering_device_id"), ("request", request),
    ("request_hash", .str (X.objectHash request)), ("status", .str h.status.text)]

def requests (R : Relay) (auth : Auth) (q : Query) : Tx Json := do
  lift (allowed q ["cursor", "limit"])
  let p ← page R .requestsGet q (.obj [("device_id", Json.ofOption auth.device)])
  let c ← chain
  let rows ← look fun st => (listedRequests st c auth p).take (p.limit + 1)
  let shown := rows.take p.limit
  let more := decide (p.limit < rows.length)
  let key := (shown.getLast?.map (·.requestId)).getD p.key
  let p := { p with key }
  let next ← nextCursor R p more
  pure (listing p (shown.map (requestItem R.crypto)) next more)

/-! ## Transparency ranges -/

def transparencyRows (st : Store) (id : String) (after through : Nat) : List TransparencyRow :=
  (st.transparency.select fun r =>
    r.transparencyId == id && decide (after < r.idx ∧ r.idx ≤ through)).insertionSort
    fun x y => x.idx ≤ y.idx

def publishedHead (st : Store) (id : String) (index : Nat) : Option Head :=
  (st.heads.find? (id, index)).map (·.head)

/-- The entries that fit, and the index reached. -/
def scanTransparency (X : Crypto) :
    List TransparencyRow → Nat → Nat → Nat × List Json
  | [], position, _ => (position, [])
  | row :: rows, position, bytes =>
      let size := Store.size X row.entry.toJson + 1
      if pageBytes < bytes + size then (position, [])
      else
        let (position, items) := scanTransparency X rows row.entry.entryIndex (bytes + size)
        (position, row.entry.toJson :: items)

/-- The hash a range starts from. -/
def anchorHash (X : Crypto) (st : Store) (c : Chain) (id : String) (anchor : Nat) :
    Except ApiError String :=
  if anchor = 0 then .ok (Chain.transparencyOrigin X c.chainId id)
  else Check.require ((st.transparency.find? (id, anchor)).map (·.hash))
    (err .transparencyRangeUnavailable)

/-- The first page of a range: up to a published head. -/
def firstRange (st : Store) (c : Chain) (p : Page) (id : String) (after : Nat)
    (through : Option Nat) : Except ApiError Page := do
  let through := through.getD c.transparencyIndex
  Check.failIf (decide (through < after) || decide (c.transparencyIndex < through))
    (err .transparencyRangeUnavailable)
  let head ← Check.require (publishedHead st id through) (err .transparencyRangeUnavailable)
  pure { p with extra := head.toJson, position := after }

def transparencyRange (R : Relay) (q : Query) : Tx Json := do
  let X := R.crypto
  lift (allowed q ["transparency_id", "after_index", "through_index", "cursor", "limit"])
  let id ← require (query q "transparency_id") (err .invalidField)
  failIf (!X.uuid id) (err .invalidField)
  let c ← chain
  failIf (id != c.transparencyId) (err .transparencyIdMismatch)
  let after ← lift (decimalQuery q "after_index" 0 maxInteger)
  let after := after.getD 0
  let through ← lift (decimalQuery q "through_index" 0 maxInteger)
  let p ← page R .transparency q (.obj [("after_index", .num after),
    ("through_index", Json.ofOptionNat through), ("transparency_id", .str id)])
  let p ← if (query q "cursor").isSome then pure p
    else check fun st c => firstRange st c p id after through
  let anchor := p.position
  let hash ← check fun st c => anchorHash X st c id anchor
  let last := n p.extra "entry_index"
  let rows ← look fun st => (transparencyRows st id anchor last).take p.limit
  let (position, items) := scanTransparency X rows anchor 0
  failIf (items.isEmpty && decide (position < last)) (err .transparencyRangeUnavailable)
  let more := decide (position < last)
  let next ← nextCursor R { p with position } more
  pure (.obj [("anchor_hash", .str hash), ("anchor_index", .num anchor),
    ("has_more", .bool more), ("head", p.extra), ("items", .arr items),
    ("next_cursor", next)])

end PallaSync
