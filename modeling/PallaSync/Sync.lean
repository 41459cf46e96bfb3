import PallaSync.Authenticate
import Mathlib.Data.Nat.Pairing

/-!
# The relay

The relay as a machine. A request is authenticated in one transaction and
executed in one or more later ones; between any two of them other requests,
the maintenance task and a restart may run. The state (`World`) holds the
stores of all chains, the shared tables, and the tasks under way, each with
what is left of it to do; an event names the next transaction to run.
-/

namespace PallaSync

open Atomic

/-! ## Replies and tasks -/

inductive Reply where
  | json (status : Nat) (v : Json)
  | lines (items : List Json)
  | problem (e : ApiError)

/-- What follows an erasure and its completion. -/
inductive After where
  | reply (r : Reply)
  | maintenance
  | startup

/-- The rest of a request or of a background job. -/
inductive Task where
  | start (call : Call) (value : Except ApiError Json)
  | shape (call : Call)
  | items (call : Call) (p : Progress)
  | itemAudit (call : Call) (p : Progress) (r : Json) (e : ApiError)
  | audit (call : Call) (e : ApiError)
  | erase (after : After)
  | finish (after : After)
  | notices
  | done (reply : Reply)

structure World where
  cfg : RelayConfig
  chains : Table (String × Store) Prod.fst
  desk : Desk
  barrier : Option Nat
  tasks : List Task

namespace World

def store (w : World) (id : String) : Store :=
  ((w.chains.find? id).map (·.2)).getD .blank

def setStore (w : World) (id : String) (st : Store) : World :=
  { w with chains := w.chains.upsert (id, st) }

def setTask (w : World) (i : Nat) (task : Task) : World :=
  { w with tasks := w.tasks.set i task }

def spawn (w : World) (task : Task) : World := { w with tasks := w.tasks ++ [task] }

/-- A relay that was just installed. -/
def initial (cfg : RelayConfig) : World where
  cfg := cfg
  chains := .empty
  desk := ⟨.empty, .empty⟩
  barrier := none
  tasks := []

end World

/-! ## Transactions -/

/-- A chain row nothing reads: the working copy of a request that starts a
chain, before it does. -/
def Chain.unset : Chain where
  chainId := ""
  parameters := .null
  epoch := .null
  logId := ""
  headSeq := 0
  headHash := ""
  minAvailableSeq := 1
  boundaryCompactionId := none
  transparencyId := ""
  transparencyIndex := 0
  transparencyHash := ""
  writable := false
  noticeId := ""

/-- Run a program as one transaction over the stored chain. -/
def Tx.run {α : Type} (m : Tx α) (o : Oracle) (st : Store) : Except ApiError (α × Cell) :=
  match m { cell := ⟨st, st.chain.getD .unset⟩, oracle := o, tick := 0 } with
  | .ok (x, w) => .ok (x, w.cell)
  | .error e => .error e

/-- An independent oracle for each chain a transaction visits. -/
def Oracle.sub (o : Oracle) (k : Nat) : Oracle where
  now i := o.now (Nat.pair k i)
  newId i := o.newId (Nat.pair k i)

/-! ## Dispatch -/

/-- The receipt at a position of the current log, with its entry. -/
def receiptAt (X : Crypto) (st : Store) (c : Chain) (auth : Auth) (q : Query) (param : String) :
    Except ApiError Json := do
  allowed q ["log_id"]
  let id ← Check.require ((query q "log_id").filter X.uuid) (err .invalidField)
  Check.failIf (id != c.logId) (err .logIdMismatch)
  let seq := castInteger param
  let row ← Check.require (st.receipts.rows.find? fun r =>
    r.logId == id && r.seq == some seq) (err .receiptNotFound)
  let entry := st.logEntry id seq
  Check.failIf (!auth.admin && entry.any fun e => isRecovery e.object)
    (err .envelopeAccessDenied)
  pure (.obj [("entry", entryJson entry), ("receipt", row.receipt.toJson)])

def epochAt (X : Crypto) (st : Store) (param : String) : Except ApiError Json := do
  let epoch ← Check.require (st.object .epoch param) (err .epochNotFound)
  epochWrapper X st epoch

/-- The recovery envelope of an epoch, for the admin. -/
def recoveryAt (st : Store) (auth : Auth) (param : String) : Except ApiError Json := do
  Check.orElse auth.requireAdmin (err .envelopeAccessDenied)
  Check.failIf (st.expired (castInteger param)) (err .historyKeyExpired)
  let epoch ← Check.require (st.object .epoch param) (err .epochNotFound)
  let row := st.objects.rows.find? fun r =>
    r.kind == .envelope && r.objectHash == s epoch "recovery_envelope_hash"
  let envelope ← Check.require (row.bind (·.body)) (err .envelopeNotFound)
  pure (.obj [("envelope", envelope)])

/-- A snapshot part of a generation the chain has reached. -/
def partAt (st : Store) (c : Chain) (param : String) : Except ApiError Json := do
  let record ← Check.require (st.object .snapshotPart param) (err .snapshotPartNotFound)
  Check.failIf (decide (c.generation < n record "generation")) (err .snapshotPartNotFound)
  let receipt ← Check.require (st.receipt .snapshotPart param) (err .storageUnavailable)
  pure (.obj [("record", record), ("upload_receipt", receipt.toJson)])

def parametersReply (R : Relay) (st : Store) (c : Chain) (t : Nat) : Json :=
  .obj [("epoch_hash", .str (c.epochHash R.crypto)), ("generation", .num c.generation),
    ("head_hash", .str c.headHash), ("head_seq", .num c.headSeq), ("log_id", .str c.logId),
    ("parameters", c.parameters), ("parameters_hash", .str (c.parametersHash R.crypto)),
    ("quota", .obj [("max_bytes", Json.ofOptionNat R.cfg.maxBytes),
      ("used_bytes", .num (st.used R.crypto))]),
    ("server_time_ms", .num t)]

def noticeReply (st : Store) (c : Chain) (t : Nat) : Json :=
  st.notice.getD (.obj [("migration_origin", .null), ("notice_id", .str c.noticeId),
    ("server_time_ms", .num t), ("shutdown_at_ms", .null)])

/-- The routes that take query parameters of their own. -/
def Route.ownQuery : Route → Bool
  | .devices | .epochsGet | .ownEnvelopes | .snapshotsGet | .requestsGet | .recordsGet
  | .log | .exportChain | .transparency | .receipt => true
  | _ => false

/-- The reads. -/
def readRoute (R : Relay) (call : Call) : Tx Json := do
  let X := R.crypto
  let auth := call.auth
  match call.route with
  | .parametersGet => do
      let c ← chain
      let t ← now
      look (parametersReply R · c t)
  | .head => do
      let c ← chain
      pure (c.head X)
  | .notice => do
      let c ← chain
      let t ← now
      look (noticeReply · c t)
  | .devices | .epochsGet | .snapshotsGet | .ownEnvelopes =>
      objects R auth call.route call.param call.query
  | .recordsGet | .log => log R auth call.route call.query
  | .epochGet => check fun st _ => epochAt X st call.param
  | .recovery => check fun st _ => recoveryAt st auth call.param
  | .partGet => check fun st c => partAt st c call.param
  | .snapshotGet => do
      let comp ← look (·.object .compaction call.param)
      let comp ← require comp (err .snapshotNotFound)
      pure (.obj [("compaction", comp)])
  | .transparencyHead => do
      let c ← chain
      let head ← look (publishedHead · c.transparencyId c.transparencyIndex)
      let head ← require head (err .storageUnavailable)
      pure (.obj [("head", head.toJson)])
  | .transparency => transparencyRange R call.query
  | .receipt => check fun st c => receiptAt X st c auth call.query call.param
  | .requestsGet => requests R auth call.query
  | _ => throw (err .chainNotFound)

/-- The control mutations. -/
def writeRoute (R : Relay) (call : Call) : Tx (Nat × Json) := do
  let auth := call.auth
  let v := call.value
  match call.route with
  | .enroll => enroll R auth v none
  | .epochsPost => epoch R auth v none
  | .revoke => epoch R auth v (some call.param)
  | .offer => offer R auth v
  | .approve => approve R auth call.param v false
  | .reject => approve R auth call.param v true
  | .ack => do
      let r ← ack R auth call.param v
      pure (200, r)
  | .snapshot => snapshot R v
  | .prune => do
      let r ← prune R auth v
      pure (200, r)
  | .reseed => do
      let r ← reseed R auth v
      pure (200, r)
  | .delete => do
      let r ← delete R auth v
      pure (202, r)
  | _ => throw (err .endpointNotFound)

/-- The answer must fit in a response. -/
def sized (X : Crypto) (v : Json) : Except ApiError Unit :=
  Check.failIf (decide (responseMax < Store.size X v)) (err .payloadTooLarge)

def dispatch (R : Relay) (call : Call) : Tx Reply := do
  lift (if call.route.ownQuery then .ok () else allowed call.query [])
  if call.route = .exportChain then do
    let lines ← exportChain R call.auth call.query
    pure (.lines lines)
  else if call.route.isGet then do
    let v ← readRoute R call
    lift (sized R.crypto v)
    pure (.json 200 v)
  else do
    let (status, v) ← writeRoute R call
    lift (sized R.crypto v)
    save R
    check fun st _ => st.quota R
    pure (.json status v)

/-- A request on an existing chain: writable, or re-seeded by its admin. -/
def onChain (R : Relay) (call : Call) : Tx Reply := do
  let stored ← look (·.chain)
  let c ← require stored (err .chainNotFound)
  failIf (!c.writable && !(call.auth.admin && call.route == .reseed)) (err .chainNotFound)
  check fun st c => checkState st c call.auth call.route
  dispatch R call

/-- The executing transaction of a request that is not an upload. -/
def executeTx (R : Relay) (call : Call) : Tx Reply := do
  match call.route with
  | .genesis => do
      lift (allowed call.query [])
      let (status, v) ← genesis R call.value
      pure (.json status v)
  | .importChain => do
      lift call.auth.requireAdmin
      lift (allowed call.query [])
      let v ← stage R call.value
      pure (.json 202 v)
  | _ => onChain R call

/-- What a deleted chain still answers. -/
def deletedReply (X : Crypto) (d : Deletion) (call : Call) : Except ApiError Reply := do
  if call.route = .deletion then do
    allowed call.query []
    pure (.json 200 d.proof)
  else if call.route = .delete ∧ d.requestHash = X.objectHash call.value then
    pure (.json 202 d.outcome)
  else .error (gone d.proof)

/-! ## Rejection evidence -/

/-- The failures that leave no evidence. -/
def silent : List Code :=
  [.rateLimited, .quotaExceeded, .storageUnavailable, .invalidJson, .panicked]

/-- The single objects of a request that may be rejected, with their kinds. -/
def rejectedMembers : List (String × Schema) :=
  [("parameters", .parameters), ("device_record", .device), ("epoch", .epoch),
   ("compaction", .compaction), ("admin_operation", .admin)]

def rejectedLists : List (String × Schema) :=
  [("envelopes", .envelope), ("device_records", .device)]

/-- The well-formed objects of a rejected request. -/
def candidates (X : Crypto) (v : Json) : List Json :=
  (rejectedMembers.filterMap fun m =>
    (v.get? m.1).filter fun obj => (validate X obj m.2).isOk) ++
  rejectedLists.flatMap fun m =>
    (a v m.1).filter fun obj => (validate X obj m.2).isOk

/-! ## Steps of a task -/

/-- The turn of the upload loop as the next task. -/
def Turn.task (call : Call) : Turn → Task
  | .next p => .items call p
  | .audit p r e => .itemAudit call p r e
  | .stop p => .items call { p with remaining := [] }
  | .fail e => .done (.problem e)

/-- One item of an upload. -/
def stepItem (R : Relay) (o : Oracle) (faults : Faults) (call : Call) (p : Progress)
    (item : Nat × Json) (rest : List (Nat × Json)) (st : Store) : Store × Turn :=
  let id := call.route.itemId
  if faults.begin then (st, p.broken id (err .storageUnavailable) (item :: rest))
  else if faults.load then (st, p.broken id (err .storageUnavailable) (item :: rest))
  else match st.chain with
    | none => (st, p.broken id (err .chainNotFound) (item :: rest))
    | some c =>
        let p := p.seen c
        match (uploadItem R call item.1 item.2).run o st with
        | .error e => (st, afterRejection R.crypto call.route p item rest faults e)
        | .ok (result, cell) =>
            (if faults.commit then st else cell.store,
              afterAcceptance call.route p item rest faults result cell.chain)

/-- The evidence of a rejected item. -/
def stepItemAudit (R : Relay) (o : Oracle) (faults : Faults) (call : Call) (p : Progress)
    (r : Json) (e : ApiError) (st : Store) : Store × Turn :=
  if faults.begin ∨ faults.load ∨ faults.commit then
    (st, afterAudit call.route p r (.error (err .storageUnavailable)))
  else match st.chain with
    | none => (st, afterAudit call.route p r (.error (err .chainNotFound)))
    | some _ => match (auditReject R [r] e.code).run o st with
      | .error failure => (st, afterAudit call.route p r (.error failure))
      | .ok (_, cell) => (cell.store, afterAudit call.route p r (.ok cell.chain))

/-- The executing transaction, and what follows it. -/
def stepExecute (R : Relay) (o : Oracle) (call : Call) (st : Store) : Store × Task :=
  match st.deletion with
  | some d => (st, .done (match deletedReply R.crypto d call with
      | .ok reply => reply
      | .error e => .problem e))
  | none => match (executeTx R call).run o st with
      | .ok (reply, cell) => (cell.store,
          if call.route = .delete then .erase (.reply reply) else .done reply)
      | .error e => (st,
          if silent.contains e.code ∨ (candidates R.crypto call.value).isEmpty then
            .done (.problem e)
          else .audit call e)

/-- The evidence of a rejected request. -/
def stepAudit (R : Relay) (o : Oracle) (call : Call) (e : ApiError) (st : Store) :
    Store × Task :=
  match st.chain with
  | none => (st, .done (.problem e))
  | some _ => match (auditReject R (candidates R.crypto call.value) e.code).run o st with
      | .error failure => (st, .done (.problem failure))
      | .ok (_, cell) => (cell.store, .done (.problem e))

/-- The shape of a batch, and the space it starts with. -/
def stepShape (R : Relay) (call : Call) (st : Store) : Task :=
  let ready : Except ApiError (List Json) := do
    let records ← uploadItems R call
    Check.failIf (R.cfg.maxBytes == some 0) (err .quotaExceeded)
    st.quota R
    pure records
  match ready with
  | .error e => .done (.problem e)
  | .ok records => .items call {
      remaining := records.zipIdx.map fun (r, i) => (i, r)
      accepted := [], rejected := [], receipts := [], finalChain := none }

/-- The first step after authentication: the body, the write guard, and the
upload rate. An upload goes on to its items, the rest is executed. -/
def startCheck (R : Relay) (call : Call) (value : Except ApiError Json) (t : Nat) :
    Except ApiError Call := do
  let value ← value
  if call.route.isGet || call.route == .delete then pure { call with value }
  else do
    R.cfg.writeGuard t
    pure { call with value }

def uploadRate (R : Relay) (rates : Rates) (call : Call) (t : Nat) :
    Except ApiError Rates := do
  allowed call.query []
  if call.route = .recordsPost ∨ call.route = .partsPost then
    rate R.cfg rates .recordUploadDevice
      (call.chain ++ ":" ++ call.auth.device.getD "admin") t
  else pure rates

def transferBusy : ApiError :=
  (err .rateLimited).withContext (.obj [("retry_after_ms", .num 1000),
    ("scope", .str "concurrent_transfers")])

namespace World

def relay (X : Crypto) (w : World) : Relay := ⟨X, w.cfg⟩

/-- Commit a store and go on with a task. -/
def commit (w : World) (i : Nat) (id : String) (r : Store × Task) : World :=
  (w.setStore id r.1).setTask i r.2

def stepStart (X : Crypto) (w : World) (i : Nat) (call : Call)
    (value : Except ApiError Json) (o : Oracle) (faults : Faults) : World :=
  let R := w.relay X
  match startCheck R call value (o.now 0) with
  | .error e => w.setTask i (.done (.problem e))
  | .ok call =>
      if call.route.isUpload then
        match uploadRate R w.desk.rates call (o.now 1) with
        | .error e => w.setTask i (.done (.problem e))
        | .ok rates => { w with desk := { w.desk with rates } }.setTask i (.shape call)
      else if (call.route = .exportChain ∨ call.route = .partGet) ∧ faults.transfers then
        w.setTask i (.done (.problem transferBusy))
      else w.commit i call.chain (stepExecute R (o.sub 2) call (w.store call.chain))

/-- The first chain whose share fails. -/
def firstError (w : World) (f : Nat → Store → Except ApiError Store) : Option ApiError :=
  w.chains.rows.zipIdx.findSome? fun (row, k) => match f k row.2 with
    | .ok _ => none
    | .error e => some e

/-- The share of every chain in one transaction: all of them or none. -/
def mapStores (w : World) (f : Nat → Store → Except ApiError Store) :
    Except ApiError World :=
  match w.firstError f with
  | some e => .error e
  | none => .ok { w with
      chains := w.chains.mapIdx (fun k row => (row.1, (f k row.2).toOption.getD row.2))
        fun _ _ => rfl }

/-- Erase every chain whose deletion is pending, then truncate the log of the
storage; a reader in the way leaves the completion for later. -/
def stepErase (w : World) (i : Nat) (after : After) (faults : Faults) : World :=
  let any := w.chains.rows.any (·.2.pending)
  let erased := { w with
    chains := w.chains.mapIdx (fun _ row => (row.1, row.2.erase)) fun _ _ => rfl }
  if any && faults.checkpoint then
    erased.setTask i (match after with
      | .reply r => .done r
      | _ => .done (.problem (err .storageUnavailable)))
  else erased.setTask i (.finish after)

/-- Complete every pending deletion, as of now. -/
def stepFinish (X : Crypto) (w : World) (i : Nat) (after : After) (o : Oracle) : World :=
  let next (ok : Bool) : Task := match after with
    | .reply r => .done r
    | .maintenance => .done (.json 200 .null)
    | .startup => if ok then .notices else .done (.problem (err .storageUnavailable))
  match w.mapStores fun k st => st.finish X (o.now k) with
  | .ok w => w.setTask i (next true)
  | .error _ => w.setTask i (next false)

/-- The notice of one chain at start-up. -/
def noticeStore (R : Relay) (o : Oracle) (st : Store) : Except ApiError Store :=
  match st.deletion, st.chain with
  | none, some _ => do
      let (_, cell) ← (do publishNotice R; save R : Tx Unit).run o st
      pure cell.store
  | _, _ => .ok st

def stepNotices (X : Crypto) (w : World) (i : Nat) (o : Oracle) : World :=
  match w.mapStores fun k st => noticeStore (w.relay X) (o.sub k) st with
  | .ok w => w.setTask i (.done (.json 200 .null))
  | .error e => w.setTask i (.done (.problem e))

/-- Run the next transaction of a task. -/
def stepTask (X : Crypto) (w : World) (i : Nat) (o : Oracle) (faults : Faults) : World :=
  let R := w.relay X
  match w.tasks[i]? with
  | some (.start call value) => w.stepStart X i call value o faults
  | some (.shape call) => w.setTask i (stepShape R call (w.store call.chain))
  | some (.items call p) => match p.remaining with
      | [] => w.setTask i (.done (.json 200
          (uploadResponse X call p (w.store call.chain).chain)))
      | item :: rest =>
          let r := stepItem R o faults call p item rest (w.store call.chain)
          w.commit i call.chain (r.1, r.2.task call)
  | some (.itemAudit call p r e) =>
      let r := stepItemAudit R o faults call p r e (w.store call.chain)
      w.commit i call.chain (r.1, r.2.task call)
  | some (.audit call e) =>
      w.commit i call.chain (stepAudit R o call e (w.store call.chain))
  | some (.erase after) => w.stepErase i after faults
  | some (.finish after) => w.stepFinish X i after o
  | some .notices => w.stepNotices X i o
  | some (.done _) | none => w

end World

/-! ## Arrival of requests -/

/-- The parameters a bootstrap request proposes. -/
def proposedParameters (route : Route) (v : Json) : Option Json :=
  if route = .genesis then some (v.get "parameters")
  else if route = .importChain then (a v "parameters_history").getLast?
  else none

/-- The chain of a request, and the admin key a bootstrap request proposes. -/
def requestChain (X : Crypto) (q : Request) : Except ApiError (String × Option String) := do
  if q.route = .genesis ∨ q.route = .importChain then do
    let v ← q.value
    match proposedParameters q.route v with
    | some p => do
        validate X p .parameters
        pure (s p "chain_id", some (s p "admin_public_key"))
    | none => .error (err .invalidField)
  else do
    Check.failIf (q.chain == "") (err .invalidField)
    pure (q.chain, none)

/-- The unauthenticated candidate: rolled back alone when it fails. -/
def enrollmentCandidate (R : Relay) (q : Query) (v : Json) : Tx Reply := do
  lift (allowed q [])
  let st ← look id
  failIf st.deletion.isSome (err .offerNotFound)
  let c ← require st.chain (err .offerNotFound)
  failIf (!c.writable) (err .offerNotFound)
  let (status, v) ← enrollmentRequest R v
  check fun st _ => st.quota R
  pure (.json status v)

/-- The two rates of the enrollment endpoint; the first one counts even when
the second refuses. -/
def enrollmentRates (R : Relay) (rates : Rates) (q : Request) (v : Json) (t t' : Nat) :
    Except ApiError Unit × Rates :=
  match rate R.cfg rates .enrollmentSourceIp
      (R.crypto.hashBytes (q.source.toList.map fun c => .ofNat c.toNat)) t with
  | .error e => (.error e, rates)
  | .ok rates => match rate R.cfg rates .enrollmentOffer
      (q.chain ++ ":" ++ s v "request_id") t' with
    | .error e => (.error e, rates)
    | .ok rates => (.ok (), rates)

namespace World

/-- The enrollment endpoint, in one transaction. -/
def stepEnrollment (X : Crypto) (w : World) (q : Request) (v : Json) (o : Oracle) : World :=
  let R := w.relay X
  match enrollmentRates R w.desk.rates q v (o.now 1) (o.now 2) with
  | (.error e, rates) =>
      { w with desk := { w.desk with rates } }.spawn (.done (.problem e))
  | (.ok _, rates) =>
      let w := { w with desk := { w.desk with rates } }
      match (enrollmentCandidate R q.query v).run (o.sub 3) (w.store q.chain) with
      | .error e => w.spawn (.done (.problem e))
      | .ok (reply, cell) => (w.setStore q.chain cell.store).spawn (.done reply)

/-- A request arrives: the enrollment endpoint answers at once, every other
one is authenticated. -/
def stepRequest (X : Crypto) (w : World) (q : Request) (o : Oracle) : World :=
  let R := w.relay X
  if q.route = .request then
    match q.value with
    | .error e => w.spawn (.done (.problem e))
    | .ok v => match R.cfg.writeGuard (o.now 0) with
      | .error _ => w.spawn (.done (.problem (err .offerNotFound)))
      | .ok _ => w.stepEnrollment X q v o
  else match requestChain X q with
    | .error e => w.spawn (.done (.problem e))
    | .ok (id, proposed) =>
        match authenticate R (w.store id) w.barrier w.desk q id proposed (o.now 0)
          (o.now 1) with
        | (.error e, desk) => { w with desk }.spawn (.done (.problem e))
        | (.ok auth, desk) => { w with desk }.spawn (.start {
            route := q.route, chain := id, param := q.param, query := q.query,
            value := .null, auth } q.value)

/-- Expire what is due in one chain. -/
def expireStore (R : Relay) (o : Oracle) (t : Nat) (st : Store) : Except ApiError Store :=
  if (st.due t).isEmpty then .ok st
  else match st.chain with
    | none => .ok st
    | some _ => do
        let (_, cell) ← (do expire; check fun st _ => st.quota R : Tx Unit).run o st
        pure cell.store

/-- `retention::maintenance` -/
def stepRetention (X : Crypto) (w : World) (o : Oracle) : World :=
  match w.mapStores fun k st => expireStore (w.relay X) (o.sub (k + 1)) (o.now 0) st with
  | .ok w => w
  | .error _ => w

/-- A restart under the same disclosure: no task survives, the barrier moves on,
pending deletions are completed and notices published. The process exits when
one of these fails; here requests may also arrive before they are done. -/
def stepRestart (w : World) (settings : Settings) (t : Nat) : World :=
  { w with
    cfg := w.cfg.restarted settings
    barrier := if w.cfg.restartBarrier then some (max (w.barrier.getD 0) (t + 60000))
      else w.barrier
    tasks := [.erase .startup] }

end World

/-! ## The machine -/

inductive Event where
  | request (q : Request) (o : Oracle)
  | resume (i : Nat) (o : Oracle) (faults : Faults)
  /-- The periodic completion of deletions. -/
  | complete
  | retention (o : Oracle)
  | restart (settings : Settings) (t : Nat)

def World.step (X : Crypto) (w : World) : Event → World
  | .request q o => w.stepRequest X q o
  | .resume i o faults => w.stepTask X i o faults
  | .complete => w.spawn (.erase .maintenance)
  | .retention o => w.stepRetention X o
  | .restart settings t => w.stepRestart settings t

end PallaSync
