import PallaSync.Reach

/-!
# A small relay

A relay one can compute with: an instance of the primitives whose texts are
short and whose arithmetic is cheap, a configuration, and builders for the
objects and requests of one chain. The laws of the other modules hold of every
instance; here they are run on this one, to see a law's hypotheses met or a
state the relay really reaches.

A text of the codec is a letter, which stands for a length, and a decimal
number, the first eight bytes. Every signature verifies, so the order of the
checks before and after a signature is what a run shows.
-/

namespace PallaSync.Sample

open Json

/-! ## Primitives -/

def mix (h x : Nat) : Nat := (h * 1000003 + x + 1) % 2305843009213693951

def mixText (t : String) (h : Nat) : Nat := t.toList.foldl (fun h c => mix h c.toNat) h

mutual

/-- A number that stands for the canonical serialization. -/
def digest : Json → Nat → Nat
  | .null, h => mix h 1
  | .bool b, h => mix h (if b then 2 else 3)
  | .num k, h => mix (mix h 4) k
  | .str t, h => mixText t (mix h 5)
  | .arr xs, h => mix (digestItems xs (mix h 6)) 7
  | .obj ms, h => mix (digestMembers ms (mix h 8)) 9

def digestItems : List Json → Nat → Nat
  | [], h => h
  | x :: xs, h => digestItems xs (digest x h)

def digestMembers : List (String × Json) → Nat → Nat
  | [], h => h
  | (name, x) :: ms, h => digestMembers ms (digest x (mixText name h))

end

/-- `len` bytes, the first eight of them those of `k`. -/
def wide (len k : Nat) : List UInt8 :=
  (List.range 8).map (fun i => .ofNat (k / 256 ^ i % 256)) ++ List.replicate (len - 8) 0

def narrow (bytes : List UInt8) : Nat :=
  (bytes.take 8).foldr (fun b k => b.toNat + 256 * k) 0

/-- The letters of the codec with their lengths. -/
def letters : List (Char × Nat) :=
  [('a', 32), ('b', 64), ('c', 24), ('d', 16), ('e', 48), ('f', 1040)]

def crypto : Crypto where
  base64Encode bytes :=
    let letter := (letters.find? (·.2 == bytes.length)).map (·.1)
    String.ofList (letter.getD 'z' :: Nat.toDigits 10 (narrow bytes))
  base64Decode t := match t.toList with
    | letter :: digits =>
        (letters.lookup letter).map fun len => wide len (Nat.ofDigitChars 10 digits 0)
    | [] => none
  uuidBytes t := match t.toList with
    | 'u' :: digits => some (wide 16 (Nat.ofDigitChars 10 digits 0))
    | _ => none
  sha256 bytes := wide 32 (bytes.foldl (fun h b => mix h b.toNat) 7 % 2 ^ 30)
  nfc _ := true
  canonicalizeJson v := wide 8 (digest v 11)
  primePoint _ := true
  validXPoint _ := true
  canonicalScalar _ := true
  verifyStrict _ _ _ := true
  relayPublicKey := wide 32 9
  sign _ := wide 64 0

def cfg : RelayConfig where
  origin := "https://relay.example"
  limits := ⟨8, 16, 100, by decide, by decide, by decide⟩
  rateLimits _ := ⟨120, 30, by decide⟩
  restartBarrier := false
  activeDeleteMaxMs := 1000
  maxBytes := none
  shutdownAtMs := none
  migrationOrigin := none
  stopWrites := false

/-! ## Objects -/

def uid (k : Nat) : String := "u" ++ toString k

def chainId : String := "a1"

def adminKey : String := "a2"

def sig : String := "b0"

def policy (retention : String) (peer : Bool) : Json := .obj [
  ("allow_device_chain_delete", .bool true), ("allow_device_rotation", .bool true),
  ("allow_peer_enrollment", .bool peer), ("epoch_retention", .str retention),
  ("epoch_window_ms", .num 1), ("metadata_profile", .str "private"),
  ("scheduled_rotation_ms", .num 0)]

def parameters (generation : Nat) (previous : Json) : Json := .obj [
  ("admin_public_key", .str adminKey), ("chain_id", .str chainId),
  ("generation", .num generation), ("policy", policy "windowed" true),
  ("previous_parameters_hash", previous), ("signature", .str sig), ("version", .str "3.0")]

def device (k generation metaEpoch : Nat) : Json := .obj [
  ("chain_id", .str chainId), ("device_id", .str (uid k)),
  ("device_kex_public_key", .str "a4"), ("device_public_key", .str "a5"),
  ("encrypted_device_meta", .str "f0"),
  ("enrollment", .obj [
    ("approved_at_ms", .num 5), ("certificate_id", .str (uid (k + 100))),
    ("chain_id", .str chainId), ("device_id", .str (uid k)),
    ("device_kex_public_key", .str "a4"), ("device_public_key", .str "a5"),
    ("generation", .num generation), ("request_hash", .null), ("signature", .str sig),
    ("signer_device_id", .null), ("signer_kind", .str "admin")]),
  ("generation", .num generation), ("meta_epoch", .num metaEpoch), ("meta_nonce", .str "c0"),
  ("signature", .str sig), ("version", .str "3.0")]

/-- An envelope of an epoch for a device, or for recovery. -/
def envelope (k generation epoch : Nat) (previous : Json) (recipient : Option Nat) : Json :=
  let forDevice := recipient.isSome
  .obj [("chain_id", .str chainId), ("ciphertext", .str "e0"),
    ("enc", if forDevice then .str "a6" else .null), ("envelope_id", .str (uid k)),
    ("epoch", .num epoch), ("epoch_commitment", .str "a7"), ("generation", .num generation),
    ("nonce", if forDevice then .null else .str "c0"), ("previous_epoch_hash", previous),
    ("recipient_device_id", Json.ofOption (recipient.map uid)),
    ("recipient_key_hash",
      if forDevice then .str (kexHash crypto (device 1 0 0)) else .null),
    ("recipient_kind", .str (if forDevice then "device" else "recovery")),
    ("signature", .str sig), ("signer_device_id", .null), ("signer_kind", .str "admin")]

def epochRecord (generation epoch : Nat) (previous : Json) (reason : String)
    (members revoked : List Nat) (recovery : Json) : Json := .obj [
  ("chain_id", .str chainId), ("epoch", .num epoch), ("epoch_commitment", .str "a7"),
  ("generation", .num generation), ("members", .arr (members.map fun k => .str (uid k))),
  ("previous_epoch_hash", previous), ("reason", .str reason),
  ("recovery_envelope_hash", .str (crypto.objectHash recovery)),
  ("revoked_device_ids", .arr (revoked.map fun k => .str (uid k))),
  ("signature", .str sig), ("signer_device_id", .null), ("signer_kind", .str "admin")]

def recovery0 : Json := envelope 50 0 0 .null none

def epoch0 : Json := epochRecord 0 0 .null "genesis" [1] [] recovery0

/-- The body of a genesis request, with one device. -/
def genesisBody : Json := .obj [
  ("device_record", device 1 0 0),
  ("envelopes", .arr [envelope 51 0 0 .null (some 1), recovery0]),
  ("epoch", epoch0), ("parameters", parameters 0 .null)]

/-! ## Requests -/

/-- The `k`-th token, of a device or of the admin, with its lifetime. -/
def tokenAt (issued expires k : Nat) (signer : Option Nat) (method path : String) : Json :=
  .obj [("aud", .str cfg.origin), ("body_sha256", .str (crypto.hashBytes [])),
    ("chain_id", .str chainId), ("device_id", Json.ofOption (signer.map uid)),
    ("expires_at_ms", .num expires), ("issued_at_ms", .num issued), ("method", .str method),
    ("nonce", .str ("d" ++ toString k)), ("path", .str path), ("query", .str ""),
    ("signature", .str sig),
    ("signer_kind", .str (if signer.isSome then "device" else "admin")), ("v", .num 3)]

def token : Nat → Option Nat → String → String → Json := tokenAt 1000 2000

/-- The request with token `t`. -/
def request (route : Route) (method path : String) (t : Json) (param : String) (body : Json) :
    Request where
  route := route
  chain := chainId
  param := param
  method := method
  path := path
  query := []
  body := []
  token := .ok t
  value := .ok body
  source := "192.0.2.1"

/-- The clock stands at `t`; the identifiers drawn are those from `k * 10000` on. -/
def oracle (t k : Nat) : Oracle := ⟨fun _ => t, fun j => uid (k * 10000 + j)⟩

def chainPath : String := "/pallasync/v3/chains"

/-- The arrival of a request, and its execution as task `i`. -/
def perform (i k : Nat) (q : Request) : List Event :=
  [.request q (oracle 1500 (2 * k)), .resume i (oracle 1500 (2 * k + 1)) .none]

def genesisWith (t : Json) : Request := request .genesis "POST" chainPath t "" genesisBody

def genesisToken : Json := token 0 none "POST" chainPath

def genesisRequest : Request := genesisWith genesisToken

/-- A chain starts. -/
def genesisRun : List Event := perform 0 0 genesisRequest

/-- The admin rotates to epoch `number`, after `previous`, for the members. -/
def rotationBody (previous epoch : Json) (envelopes : List Json) (operation : Json) : Json := .obj [
  ("admin_operation", operation), ("envelopes", .arr envelopes), ("epoch", epoch),
  ("expected_epoch_hash", .str (crypto.objectHash previous))]

/-- The hash by which an object is named. -/
def hashOf (v : Json) : Json := .str (crypto.objectHash v)

def recovery1 : Json := envelope 60 0 1 (hashOf epoch0) none

def epoch1 : Json := epochRecord 0 1 (hashOf epoch0) "scheduled" [1] [] recovery1

def epochsPath : String := chainPath ++ "/" ++ chainId ++ "/epochs"

/-- The admin rotates the epoch of `genesisRun`. -/
def rotationRequest : Request :=
  request .epochsPost "POST" epochsPath (token 1 none "POST" epochsPath) ""
    (rotationBody epoch0 epoch1 [envelope 61 0 1 (hashOf epoch0) (some 1), recovery1] .null)

def rotationRun : List Event := perform 1 1 rotationRequest

/-- A rotation that names the wrong predecessor. -/
def staleRequest : Request :=
  request .epochsPost "POST" epochsPath (token 1 none "POST" epochsPath) ""
    (rotationBody epoch1 epoch1 [envelope 61 0 1 (hashOf epoch0) (some 1), recovery1] .null)

/-- The first device deletes the chain of `genesisRun`. -/
def deleteBody : Json := .obj [("admin_operation", .null), ("deletion_id", .str (uid 70)),
  ("expected_epoch_hash", hashOf epoch0), ("expected_parameters_hash", hashOf (parameters 0 .null))]

def deleteRequest : Request :=
  request .delete "DELETE" (chainPath ++ "/" ++ chainId)
    (token 2 (some 1) "DELETE" (chainPath ++ "/" ++ chainId)) "" deleteBody

/-- The chain with the given epochs, without envelopes. -/
def importBody (epochs : List Json) : Json := .obj [("compactions", .arr []),
  ("device_history", .arr [device 1 0 0]), ("envelopes", .arr []), ("epoch_history", .arr epochs),
  ("parameters_history", .arr [parameters 0 .null])]

def importPath : String := chainPath ++ "/import"

/-- The admin stages the chain with the given epochs. -/
def importRequest (epochs : List Json) : Request :=
  request .importChain "POST" importPath (token 3 none "POST" importPath) "" (importBody epochs)

/-- An import of the chain as it stands after a rotation. -/
def renewedImport : List Event :=
  genesisRun ++ rotationRun ++ perform 2 2 (importRequest [epoch0, epoch1])

/-- A record of the first device, or a part of a snapshot of its. -/
def syncRecord (k generation epoch nonce : Nat) : Json := .obj [
  ("chain_id", .str chainId), ("collection_tag", .null), ("device_id", .str (uid 1)),
  ("encrypted_payload", .str "f0"), ("epoch", .num epoch), ("generation", .num generation),
  ("payload_nonce", .str ("c" ++ toString nonce)), ("record_id", .str (uid k)),
  ("signature", .str sig), ("version", .str "3.0")]

def partsPath : String := chainPath ++ "/" ++ chainId ++ "/snapshots/parts"

/-- The admin uploads snapshot parts. -/
def partsRequest (t : Nat) (records : List Json) : Request :=
  request .partsPost "POST" partsPath (token t none "POST" partsPath) ""
    (.obj [("records", .arr records)])

/-- The upload of `items` items as task `i`. -/
def upload (i k items : Nat) (q : Request) : List Event :=
  .request q (oracle 1500 (20 * k)) :: (List.range (items + 2)).map fun j =>
    .resume i (oracle 1500 (20 * k + j + 1)) .none

/-- As `syncRecord`, of another device. -/
def recordBy (author k generation epoch nonce : Nat) : Json :=
  (syncRecord k generation epoch nonce).set "device_id" (.str (uid author))

def recoveryR : Json := envelope 90 1 1 (hashOf epoch0) none

/-- The epoch of a re-seed: the first device goes, the second one comes. -/
def epochR : Json := epochRecord 1 1 (hashOf epoch0) "reseed" [2] [1] recoveryR

/-- A compaction of the second device that covers nothing of the new log. -/
def compactionR (log : String) (parts : List Json) : Json := .obj [
  ("chain_id", .str chainId), ("compaction_id", .str (uid 92)),
  ("covered_log_hash", .str (Chain.logOrigin crypto chainId log)),
  ("covered_through_seq", .num 0), ("device_id", .str (uid 2)), ("epoch_hash", hashOf epochR),
  ("generation", .num 1), ("log_id", .str log), ("signature", .str sig),
  ("snapshot_parts", .arr (parts.map fun r =>
    .obj [("record_hash", hashOf r), ("record_id", r.get "record_id")])),
  ("state_sha256", .str "a8")]

/-- What the admin authorizes for `target`, under the head it expects. -/
def adminOp (k : Nat) (action : String) (generation : Nat) (parameters epoch target : Json) :
    Json := .obj [
  ("action", .str action), ("chain_id", .str chainId), ("created_at_ms", .num 5),
  ("expected_epoch_hash", hashOf epoch), ("expected_parameters_hash", hashOf parameters),
  ("generation", .num generation), ("operation_id", .str (uid k)), ("signature", .str sig),
  ("target_hash", hashOf target)]

def reseedBundle (log : String) (parts : List Json) : Json := .obj [
  ("compaction", compactionR log parts), ("device_records", .arr [device 2 1 1]),
  ("envelopes", .arr [envelope 91 1 1 (hashOf epoch0) (some 2), recoveryR]), ("epoch", epochR),
  ("parameters", parameters 1 (hashOf (parameters 0 .null)))]

/-- The body of a re-seed of the chain of `genesisRun` into the log `log`. -/
def reseedBody (log : String) (parts : List Json) : Json :=
  (reseedBundle log parts).set "admin_operation"
    (adminOp 93 "reseed" 0 (parameters 0 .null) epoch0 (reseedBundle log parts))

def parametersPath : String := chainPath ++ "/" ++ chainId ++ "/parameters"

def reseedRequest (log : String) (parts : List Json) : Request :=
  request .reseed "PUT" parametersPath (token 5 none "PUT" parametersPath) ""
    (reseedBody log parts)

/-- What the admin asks of the chain. -/
def adminCall (route : Route) (param : String) : Call where
  route := route
  chain := chainId
  param := param
  query := []
  value := .null
  auth := ⟨.null, none⟩

def recordsPath : String := chainPath ++ "/" ++ chainId ++ "/records"

/-- The first device uploads a record, the sixth entry of the log. -/
def recordsRequest : Request :=
  request .recordsPost "POST" recordsPath (token 4 (some 1) "POST" recordsPath) ""
    (.obj [("records", .arr [syncRecord 80 0 0 5])])

/-- The log of the chain after `es`, and its head there. -/
def logAfter (es : List Event) : String × String :=
  ((storeAfter crypto cfg es chainId).chain.map fun c => (c.logId, c.headHash)).getD ("", "")

/-- A part of a snapshot under the second epoch. -/
def part1 : Json := syncRecord 81 0 1 6

/-- A compaction that covers `through` entries of `log`. -/
def compaction1 (log : String × String) (through : Nat) : Json := .obj [
  ("chain_id", .str chainId), ("compaction_id", .str (uid 92)),
  ("covered_log_hash", .str log.2), ("covered_through_seq", .num through),
  ("device_id", .str (uid 1)), ("epoch_hash", hashOf epoch1), ("generation", .num 0),
  ("log_id", .str log.1), ("signature", .str sig),
  ("snapshot_parts", .arr [.obj [("record_hash", hashOf part1), ("record_id", .str (uid 81))]]),
  ("state_sha256", .str "a8")]

def snapshotsPath : String := chainPath ++ "/" ++ chainId ++ "/snapshots"

def snapshotRequest (compaction : Json) : Request :=
  request .snapshot "POST" snapshotsPath (token 3 none "POST" snapshotsPath) ""
    (.obj [("compaction", compaction)])

def prunePath : String := chainPath ++ "/" ++ chainId ++ "/log/prune"

def pruneTarget (through : Nat) : Json :=
  .obj [("compaction_id", .str (uid 92)), ("through_seq", .num through)]

/-- The admin prunes what the compaction covers. -/
def pruneRequest (through : Nat) : Request :=
  request .prune "POST" prunePath (token 5 none "POST" prunePath) ""
    ((pruneTarget through).set "admin_operation"
      (adminOp 74 "prune_log" 0 (parameters 0 .null) epoch1 (pruneTarget through)))

/-- A rotation that names the wrong predecessor, with a token of its own. -/
def rejectedRequest : Request :=
  request .epochsPost "POST" epochsPath (token 6 none "POST" epochsPath) ""
    (rotationBody epoch1 epoch1 [envelope 61 0 1 (hashOf epoch0) (some 1), recovery1] .null)

/-- A request is rejected and recorded, and a device uploads a record. -/
def recordedRun : List Event :=
  genesisRun ++ perform 1 1 rejectedRequest ++ [.resume 1 (oracle 1500 4) .none] ++
    upload 2 2 2 recordsRequest

/-- The epoch is rotated, a part and a compaction are uploaded, and the log is
pruned. -/
def pruning : List Event :=
  perform 3 30 rotationRequest ++ upload 4 4 1 (partsRequest 2 [part1]) ++
    perform 5 50 (snapshotRequest (compaction1 (logAfter recordedRun) 6)) ++
    perform 6 51 (pruneRequest 6)

/-- The entry of the record is removed. -/
theorem pruning_removes :
    ((storeAfter crypto cfg recordedRun chainId).chain.any fun c =>
      ((storeAfter crypto cfg recordedRun chainId).log.find? (c.logId, 6)).any
        (·.entry.isSome) &&
      ((storeAfter crypto cfg (recordedRun ++ pruning) chainId).log.find? (c.logId, 6)).any
        (·.entry.isNone)) = true := by
  decide +kernel

/-- A rejection is on file, and a part. -/
theorem pruning_facts :
    ((storeAfter crypto cfg recordedRun chainId).deletion.isNone &&
      (storeAfter crypto cfg (recordedRun ++ pruning) chainId).deletion.isNone &&
      (storeAfter crypto cfg (recordedRun ++ pruning) chainId).transparency.rows.any
        (fun t => decide (t.entry.operation = .reject)) &&
      (storeAfter crypto cfg (recordedRun ++ pruning) chainId).objects.rows.any
        (fun o => decide (o.kind = .snapshotPart))) = true := by
  decide +kernel

end PallaSync.Sample
