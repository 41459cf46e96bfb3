import PallaSync.Retention

/-!
# Mutations

The requests that change a chain: genesis, enrollment (by the admin or
through a peer offer), epochs, acknowledgement, snapshots and pruning. Each
is one transaction; a repetition of an exact request returns the recorded
response.
-/

namespace PallaSync

open Atomic

/-- `n(v, ..)` of a log entry that may be null, and the entry as JSON. -/
def entrySeq (entry : Option LogEntry) : Nat := (entry.map (·.relaySeq)).getD 0

def entryJson (entry : Option LogEntry) : Json := (entry.map LogEntry.toJson).getD .null

def receiptsJson (rs : List Receipt) : Json := .arr (rs.map Receipt.toJson)

/-! ## Genesis -/

def genesisFields : FieldTable :=
  [("parameters", .object), ("device_record", .object), ("epoch", .object),
   ("envelopes", .array)]

/-- Everything genesis checks before it writes. -/
def genesisCheck (X : Crypto) (st : Store) (c : Chain) (v : Json) : Except ApiError Unit := do
  device X st c (v.get "device_record") none true
  Check.failIf (s ((v.get "device_record").get "enrollment") "signer_kind" != "admin")
    (err .enrollmentCertificateInvalid)
  bundle X st c (v.get "epoch") (a v "envelopes") [v.get "device_record"] true false

def genesis (R : Relay) (v : Json) : Tx (Nat × Json) := do
  let X := R.crypto
  lift (fields X v genesisFields)
  let p := v.get "parameters"
  lift (validate X p .parameters)
  lift (verify X p (s p "admin_public_key") .parameters)
  let id := s p "chain_id"
  let before ← check fun st _ => st.outcomes? X .genesis id v
  match before with
  | some response => pure (200, response)
  | none => do
      let old ← look (·.chain)
      failIf old.isSome (err .chainExists)
      failIf (n p "generation" != 0) (err .generationMismatch)
      failIf (n (v.get "device_record") "meta_epoch" != 0) (err .epochStale)
      let logId ← newId
      let transparencyId ← newId
      let noticeId ← newId
      setChain fun _ => Chain.new X p (v.get "epoch") logId transparencyId noticeId
      check fun st c => genesisCheck X st c v
      let (_, r) ← append X .parameters p
      let (_, rs) ← commitEpoch X {
        epoch := v.get "epoch", envelopes := a v "envelopes",
        staged := [v.get "device_record"], admin := none, genesis := true }
      let c ← chain
      let response := ((c.result X).set "device_status" (.str "active")).set
        "upload_receipts" (receiptsJson (r :: rs))
      publishNotice R
      outcome X .genesis id v response
      save R
      pure (201, response)

/-! ## Enrollment -/

def enrollFields (request : Option Json) : FieldTable :=
  [("device_record", .object), ("envelopes", .array),
   ("admin_operation", if request.isSome then .nullable .object else .object)]

/-- Under immediate retention the previous epoch must have been handed off. -/
def enrollmentWindow (st : Store) (c : Chain) : Except ApiError Unit :=
  Check.failIf (c.policy.get "epoch_retention" == .str "immediate" &&
      decide (0 < n c.epoch "epoch") && (st.handoffs.find? (n c.epoch "epoch" - 1)).isNone)
    (err .enrollmentNotAllowed)

/-- A stored recovery envelope of the epoch. -/
def hasRecovery (st : Store) (epoch : Nat) : Bool :=
  (st.bodies .envelope).any fun b =>
    b.get "epoch" == .num epoch && b.get "recipient_kind" == .str "recovery"

/-- One envelope of an enrollment: to the new device, for a stored epoch. -/
def enrollmentEnvelope (X : Crypto) (st : Store) (c : Chain) (d e : Json) :
    Except ApiError Unit := do
  let epoch ← Check.require (st.object .epoch (toString (n e "epoch"))) (err .epochStale)
  envelope X st c e epoch [d]
  Check.failIf (decide (n e "epoch" < n c.epoch "epoch") &&
      c.policy.get "epoch_retention" != .str "retain" && !hasRecovery st (n e "epoch"))
    (err .historyKeyExpired)

/-- The envelopes of an enrollment; whether one is of the current epoch. -/
def enrollmentEnvelopes (X : Crypto) (st : Store) (c : Chain) (d : Json) :
    List Json → List String → Bool → Except ApiError Bool
  | [], _, current => .ok current
  | e :: es, ids, current => do
      Check.failIf (s e "recipient_kind" != "device" ||
          s e "recipient_device_id" != s d "device_id" || ids.contains (s e "envelope_id"))
        (err .envelopeAccessDenied)
      enrollmentEnvelope X st c d e
      enrollmentEnvelopes X st c d es (s e "envelope_id" :: ids)
        (current || n e "epoch" == n c.epoch "epoch")

/-- The admin's authorization; a device must not send one. -/
def enrollmentAuthority (X : Crypto) (st : Store) (c : Chain) (auth : Auth) (v : Json) :
    Except ApiError Unit :=
  if auth.admin then
    adminOperation X st c (v.get "admin_operation") "approve_enrollment"
      (target v ["device_record", "envelopes"])
  else Check.failIf (!(v.get "admin_operation").isNull) (err .invalidField)

def enrollCheck (R : Relay) (st : Store) (c : Chain) (auth : Auth) (v : Json)
    (request : Option Json) : Except ApiError Unit := do
  let X := R.crypto
  let d := v.get "device_record"
  device X st c d request false
  Check.failIf (st.objectDigest .device (s d "device_id")).isSome (err .deviceIdConflict)
  Check.failIf (request.isNone && s (d.get "enrollment") "signer_kind" != "admin")
    (err .enrollmentCertificateInvalid)
  Check.failIf (!auth.admin && (c.policy.get "allow_peer_enrollment" != .bool true ||
      some (s (d.get "enrollment") "signer_device_id") != auth.device))
    (err .enrollmentNotAllowed)
  Check.failIf (decide (R.cfg.limits.maxDevices ≤
      st.registry.count fun r => r.generation == c.generation && r.status != .revoked))
    (err .deviceLimitReached)
  enrollmentAuthority X st c auth v
  Check.failIf ((a v "envelopes").isEmpty || decide (128 < (a v "envelopes").length))
    (err .invalidField)
  let current ← enrollmentEnvelopes X st c d (a v "envelopes") [] false
  Check.failIf (!current) (err .epochStale)

def enroll (R : Relay) (auth : Auth) (v : Json) (request : Option Json) :
    Tx (Nat × Json) := do
  let X := R.crypto
  lift (fields X v (enrollFields request))
  lift (if request.isNone then auth.requireAdmin else .ok ())
  check enrollmentWindow
  let d := v.get "device_record"
  lift (validate X d .device)
  let id := s d "device_id"
  let before ← check fun st _ => st.outcomes? X .enroll id v
  match before with
  | some response => pure (200, response)
  | none => do
      check fun st c => enrollCheck R st c auth v request
      let r ← enlist X .pendingKeys d
      let delivered ← collect (append X .envelope) (a v "envelopes")
      let authorized ← collect (append X .admin)
        (if auth.admin then [v.get "admin_operation"] else [])
      let response := Json.obj [("device_id", .str id),
        ("device_record_hash", .str (X.objectHash d)), ("status", .str "pending_keys"),
        ("upload_receipts",
          receiptsJson (r :: delivered.map (·.2) ++ authorized.map (·.2)))]
      outcome X .enroll id v response
      pure (201, response)

/-! ## Epochs -/

def epochFields : FieldTable :=
  [("expected_epoch_hash", .bytes 32), ("epoch", .object), ("envelopes", .array),
   ("admin_operation", .nullable .object)]

/-- The admin's authorization of a revocation; otherwise none may be sent. -/
def epochAuthority (X : Crypto) (st : Store) (c : Chain) (auth : Auth) (v : Json)
    (targetDevice : Option String) : Except ApiError Unit :=
  if auth.admin && (!(a (v.get "epoch") "revoked_device_ids").isEmpty ||
      targetDevice.isSome) then
    adminOperation X st c (v.get "admin_operation") "revoke_device"
      (target v ["epoch", "envelopes", "device_records"])
  else Check.failIf (!(v.get "admin_operation").isNull) (err .invalidField)

/-- A device that the admin certifies within the request. -/
def stagedDeviceCheck (X : Crypto) (st : Store) (c : Chain) (d : Json) :
    Except ApiError Unit := do
  device X st c d none true
  Check.failIf (s (d.get "enrollment") "signer_kind" != "admin")
    (err .enrollmentCertificateInvalid)

def epochCheck (R : Relay) (st : Store) (c : Chain) (auth : Auth) (v : Json)
    (targetDevice : Option String) : Except ApiError Unit := do
  let X := R.crypto
  let e := v.get "epoch"
  Check.failIf (s v "expected_epoch_hash" != c.epochHash X) (err .casMismatch)
  Check.failIf ((v.get? "device_records").isSome &&
      (!auth.admin || s e "reason" != "emergency"))
    (err .rotationNotAllowed)
  Check.each (stagedDeviceCheck X st c) (a v "device_records")
  Check.failIf (!auth.admin && (auth.device != some (s e "signer_device_id") ||
      s e "signer_kind" != "device"))
    (err .rotationNotAllowed)
  Check.failIf (targetDevice.any fun id =>
      !(a e "revoked_device_ids").contains (.str id) ||
        ! ["device_revocation", "emergency"].contains (s e "reason"))
    (err .memberSetMismatch)
  epochAuthority X st c auth v targetDevice
  bundle X st c e (a v "envelopes") (a v "device_records") false false
  Check.failIf (decide (R.cfg.limits.maxDevices < (a e "members").length))
    (err .deviceLimitReached)

def epoch (R : Relay) (auth : Auth) (v : Json) (targetDevice : Option String) :
    Tx (Nat × Json) := do
  let X := R.crypto
  lift (fields X v epochFields [("device_records", .array)])
  let e := v.get "epoch"
  lift (validate X e .epoch)
  let id := X.objectHash e
  let before ← check fun st _ => st.outcomes? X .epoch id v
  match before with
  | some response => pure (200, response)
  | none => do
      check fun st c => epochCheck R st c auth v targetDevice
      let op := v.get "admin_operation"
      let (entry, rs) ← commitEpoch X {
        epoch := e, envelopes := a v "envelopes", staged := a v "device_records",
        admin := if op.isNull then none else some op, genesis := false }
      let committed := [("epoch_hash", .str id), ("receipt", entryJson entry)]
      let response := match targetDevice with
        | some device => Json.obj (("device_id", .str device) :: committed ++
            [("status", .str "revoked"), ("upload_receipts", receiptsJson rs)])
        | none => Json.obj (committed ++ [("upload_receipts", receiptsJson rs)])
      outcome X .epoch id v response
      pure (if targetDevice.isSome then 200 else 201, response)

/-! ## Peer offers -/

def offerFields : FieldTable :=
  [("request_id", .uuid), ("offer_nonce", .bytes 32), ("expires_at_ms", .int)]

def offer (R : Relay) (auth : Auth) (v : Json) : Tx (Nat × Json) := do
  let X := R.crypto
  lift (fields X v offerFields)
  failIf auth.admin (err .enrollmentNotAllowed)
  let c ← chain
  failIf (c.policy.get "allow_peer_enrollment" != .bool true) (err .enrollmentNotAllowed)
  let id := s v "request_id"
  let before ← check fun st _ => st.outcomes? X .offer id v
  match before with
  | some response => pure (200, response)
  | none => do
      let expires := n v "expires_at_ms"
      let t ← now
      failIf (decide (expires ≤ t)) (err .invalidField)
      let t' ← now
      failIf (decide (t' + 300000 < expires)) (err .invalidField)
      let offer := Json.obj [("chain_id", .str c.chainId), ("expires_at_ms", .num expires),
        ("generation", .num c.generation), ("offer_nonce", v.get "offer_nonce"),
        ("offering_device_id", Json.ofOption auth.device), ("request_id", .str id)]
      let row : OfferRow := {
        requestId := id, offer, request := none, status := .awaitingApproval,
        updatedSeq := c.headSeq }
      attempt (·.insertOffer row)
      let response := Json.obj [("expires_at_ms", .num expires),
        ("offer_hash", .str (X.objectHash offer)), ("request_id", .str id)]
      outcome X .offer id v response
      pure (201, response)

/-- The members an enrollment request repeats from its offer. -/
def offeredKeys : List String := ["chain_id", "generation", "request_id", "offer_nonce"]

/-- The unauthenticated answer to an offer; every failed check but a conflict
reads as an absent offer. -/
def enrollmentRequest (R : Relay) (v : Json) : Tx (Nat × Json) := do
  let X := R.crypto
  let absent := err .offerNotFound
  lift (Check.orElse (validate X v .request) absent)
  let c ← chain
  let row ← look (·.offers.find? (s v "request_id"))
  let row ← require row absent
  failIf (row.status != .awaitingApproval || c.generation != n row.offer "generation") absent
  let t ← now
  failIf (decide (n row.offer "expires_at_ms" + 60000 < t) ||
      decide (n row.offer "expires_at_ms" < n v "expires_at_ms")) absent
  let t' ← now
  failIf (decide (t' + 60000 < n v "created_at_ms")) absent
  let t'' ← now
  failIf (decide (n v "expires_at_ms" + 60000 < t'')) absent
  failIf (!offeredKeys.all fun k => v.get k == row.offer.get k) absent
  let _ ← check fun st c =>
    Check.orElse (activeDevice st c (s row.offer "offering_device_id")) absent
  lift (Check.orElse (verify X v (s v "device_public_key") .request) absent)
  let response := Json.obj [("request_hash", .str (X.objectHash v)),
    ("request_id", v.get "request_id"), ("status", .str "awaiting_approval")]
  match row.request with
  | some old => do
      failIf (old != v) (err .requestIdConflict)
      pure (200, response)
  | none => do
      setStore (·.updateOffer (s v "request_id") (fun r => { r with request := some v })
        fun _ => rfl)
      pure (201, response)

/-- A rejected request: the offering device names the request it rejects. -/
def rejectRequest (X : Crypto) (id : String) (request v : Json) :
    Except ApiError (Nat × Json) := do
  fields X v [("request_hash", .bytes 32)]
  Check.failIf (s v "request_hash" != X.objectHash request) (err .requestIdConflict)
  pure (200, .obj [("request_id", .str id), ("status", .str "rejected")])

def approve (R : Relay) (auth : Auth) (id : String) (v : Json) (reject : Bool) :
    Tx (Nat × Json) := do
  let X := R.crypto
  let row ← look (·.offers.find? id)
  let row ← require row (err .offerNotFound)
  let request ← require row.request (err .offerNotFound)
  failIf (!auth.owns (s row.offer "offering_device_id")) (err .enrollmentNotAllowed)
  let scope := if reject then OutcomeScope.rejectRequest else .approveRequest
  let before ← check fun st _ => st.outcomes? X scope id v
  match before with
  | some response => pure (200, response)
  | none => do
      let t ← now
      failIf (row.status != .awaitingApproval ||
        decide (n request "expires_at_ms" + 60000 < t)) (err .offerNotFound)
      let c ← chain
      failIf (!reject && c.policy.get "allow_peer_enrollment" != .bool true)
        (err .enrollmentNotAllowed)
      let result ← if reject then lift (rejectRequest X id request v)
        else enroll R auth v (some request)
      let c ← chain
      let status := if reject then OfferStatus.rejected else .approved
      setStore (·.updateOffer id (fun r => { r with status, updatedSeq := c.headSeq })
        fun _ => rfl)
      outcome X scope id v result.2
      pure result

/-! ## Acknowledgement -/

/-- A stored envelope to the device for the epoch. -/
def hasEnvelope (st : Store) (id : String) (epoch : Nat) : Bool :=
  (st.bodies .envelope).any fun b =>
    b.get "recipient_device_id" == .str id && b.get "epoch" == .num epoch

/-- `UPDATE v3_registry SET status='active' .. AND status<>'revoked'` -/
def activate (id : String) : Tx Unit :=
  setStore fun st => st.updateRegistry (fun r => r.deviceId == id && r.status != .revoked)
    (fun r => { r with status := .active }) fun _ => rfl

def ack (R : Relay) (auth : Auth) (id : String) (v : Json) : Tx Json := do
  let X := R.crypto
  lift (fields X v [("epoch_hash", .bytes 32), ("epoch_commitment", .bytes 32)])
  failIf (auth.admin || !auth.owns id) (err .envelopeAccessDenied)
  let c ← chain
  failIf (s v "epoch_hash" != c.epochHash X ||
    v.get "epoch_commitment" != c.epoch.get "epoch_commitment") (err .epochStale)
  let exists? ← look (hasEnvelope · id (n c.epoch "epoch"))
  failIf (!exists?) (err .envelopeNotFound)
  activate id
  pure (.obj [("device_id", .str id), ("epoch_hash", .str (c.epochHash X)),
    ("status", .str "active")])

/-! ## Snapshots and pruning -/

def snapshot (R : Relay) (v : Json) : Tx (Nat × Json) := do
  let X := R.crypto
  lift (fields X v [("compaction", .object)])
  let comp := v.get "compaction"
  lift (validate X comp .compaction)
  let id := s comp "compaction_id"
  let before ← check fun st _ => st.outcomes? X .snapshot id v
  match before with
  | some response => pure (200, response)
  | none => do
      check fun st c => compaction X st c comp []
      let (entry, r) ← append X .compaction comp
      let response := Json.obj [("compaction_id", .str id), ("receipt", entryJson entry),
        ("upload_receipts", receiptsJson [r])]
      outcome X .snapshot id v response
      pure (201, response)

def pruneFields : FieldTable :=
  [("compaction_id", .uuid), ("through_seq", .int), ("admin_operation", .object)]

/-- The compaction a prune names, when it covers the prune point. -/
def pruneCheck (X : Crypto) (st : Store) (c : Chain) (v : Json) : Except ApiError Json := do
  let op := v.get "admin_operation"
  adminOperation X st c op "prune_log" (target v ["compaction_id", "through_seq"])
  let comp ← Check.require (st.object .compaction (s v "compaction_id"))
    (err .compactionUnsafe)
  let through := n v "through_seq"
  Check.failIf (decide (through < c.minAvailableSeq - 1) ||
      decide (n comp "covered_through_seq" < through))
    (err .compactionUnsafe)
  Check.orElse (compaction X st c comp []) (err .compactionUnsafe)
  pure comp

/-- Remove the records of the log up to the prune point. -/
def Store.pruneRecords (st : Store) (logId : String) (through : Nat) : Store :=
  { st with
    objects := st.objects.update
      (fun r => decide (r.kind = .record) && r.logId == some logId &&
        r.relaySeq.any (· ≤ through))
      (fun r => { r with body := none }) ObjectRow.key_removed
    log := st.log.update
      (fun r => r.logId == logId && decide (r.seq ≤ through) &&
        r.entry.any (·.kind == .record))
      (fun r => { r with entry := none }) LogRow.key_removed }

def prune (R : Relay) (auth : Auth) (v : Json) : Tx Json := do
  let X := R.crypto
  lift auth.requireAdmin
  lift (fields X v pruneFields)
  let op := v.get "admin_operation"
  let id := s op "operation_id"
  let before ← check fun st _ => st.outcomes? X .prune id v
  match before with
  | some response => pure response
  | none => do
      let comp ← check fun st c => pruneCheck X st c v
      let through := n v "through_seq"
      let _ ← append X .admin op
      let c ← chain
      setStore (·.pruneRecords c.logId through)
      setChain fun c => { c with
        minAvailableSeq := through + 1
        boundaryCompactionId := some (s comp "compaction_id") }
      handoff comp through
      let _ ← transparency X .prune
        (X.objectHash (target v ["compaction_id", "through_seq"])) none none
      let response := Json.obj [("compaction_id", v.get "compaction_id"),
        ("min_available_seq", .num (through + 1))]
      outcome X .prune id v response
      pure response

end PallaSync
