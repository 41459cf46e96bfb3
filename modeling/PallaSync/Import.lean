import PallaSync.Mutation

/-!
# Import and re-seed

`stage` stores the verified history of a chain without giving it a position
in any log; `reseed` opens a new log on the staged history, under parameters
of the next generation.
-/

namespace PallaSync

open Atomic

/-! ## Staging -/

def importFields : FieldTable :=
  [("parameters_history", .array), ("epoch_history", .array), ("device_history", .array),
   ("envelopes", .array), ("compactions", .array)]

/-- The kinds of an import with the members that list them. -/
def importKinds : List (Schema × String) :=
  [(.parameters, "parameters_history"), (.epoch, "epoch_history"),
   (.device, "device_history"), (.envelope, "envelopes"), (.compaction, "compactions")]

def importObject (X : Crypto) (chainId : String) (schema : Schema) (obj : Json) :
    Except ApiError Unit := do
  validate X obj schema
  Check.failIf (s obj "chain_id" != chainId) (err .importConflict)

def importObjects (X : Crypto) (chainId : String) (v : Json) : Except ApiError Unit :=
  Check.each (fun k => Check.each (importObject X chainId k.1) (a v k.2)) importKinds

/-- Stored parameters of the previous generation are the ones named. -/
def parametersLinked (X : Crypto) (st : Store) (p : Json) : Bool :=
  n p "generation" == 0 ||
    (st.object .parameters (toString (n p "generation" - 1))).all fun prev =>
      s p "previous_parameters_hash" == X.objectHash prev

def stageParameters (X : Crypto) (admin : String) (p : Json) : Tx Unit := do
  failIf (s p "admin_public_key" != admin) (err .importConflict)
  lift (verify X p admin .parameters)
  let linked ← look (parametersLinked X · p)
  failIf (!linked) (err .importConflict)
  let _ ← putObject X .parameters p none

/-- The key that must have signed a device's certificate, when the signer is
known already: verified in this import or stored before. -/
def certificateKey (st : Store) (admin : String) (verified : List (String × Json))
    (d : Json) : Except ApiError (Option String) :=
  let cert := d.get "enrollment"
  if s cert "signer_kind" = "admin" then .ok (some admin)
  else match verified.lookup (s cert "signer_device_id") with
    | some signer => do
        Check.failIf (n signer "generation" != n d "generation") (err .importConflict)
        pure (some (s signer "device_public_key"))
    | none => .ok (((st.object .device (s cert "signer_device_id")).filter fun d2 =>
        n d2 "generation" == n d "generation").map (s · "device_public_key"))

/-- Verify and store one device whose signer's key is known. -/
def stageDevice (X : Crypto) (key : String) (d : Json) : Tx Unit := do
  lift (Check.orElse (verify X (d.get "enrollment") key .enrollment)
    (err .enrollmentCertificateInvalid))
  lift (verify X d (s d "device_public_key") .deviceRecord)
  let _ ← putObject X .device d none

/-- One pass over the unresolved devices: the ones left over, and the ones
verified so far. -/
def resolvePass (X : Crypto) (admin : String) :
    List Json → List (String × Json) → Tx (List Json × List (String × Json))
  | [], verified => pure ([], verified)
  | d :: ds, verified => do
      let key ← check fun st _ => certificateKey st admin verified d
      match key with
      | some key => do
          stageDevice X key d
          resolvePass X admin ds ((s d "device_id", d) :: verified)
      | none => do
          let (next, verified) ← resolvePass X admin ds verified
          pure (d :: next, verified)

/-- Passes until all devices are resolved; a pass that resolves none fails.
Every pass but the last shortens the list, so `fuel` never runs out when it
starts at the number of devices. -/
def resolveDevices (X : Crypto) (admin : String) :
    Nat → List Json → List (String × Json) → Tx Unit
  | _, [], _ => pure ()
  | 0, _ :: _, _ => throw (err .enrollmentCertificateInvalid)
  | fuel + 1, d :: ds, verified => do
      let (next, verified) ← resolvePass X admin (d :: ds) verified
      failIf (next.length == (d :: ds).length) (err .enrollmentCertificateInvalid)
      resolveDevices X admin fuel next verified

def historicalKey (st : Store) (admin : String) (v : Json) : Except ApiError String :=
  if s v "signer_kind" = "admin" then .ok admin
  else do
    let d ← Check.require (st.object .device (s v "signer_device_id")) (err .importConflict)
    Check.failIf (n d "generation" != n v "generation") (err .importConflict)
    pure (s d "device_public_key")

/-- A stored epoch of the previous number is the one named. -/
def epochLinked (X : Crypto) (st : Store) (epoch : Json) : Bool :=
  n epoch "epoch" == 0 ||
    (st.object .epoch (toString (n epoch "epoch" - 1))).all fun previous =>
      s epoch "previous_epoch_hash" == X.objectHash previous

/-- The stored devices among the members are of the epoch's generation. -/
def membersMatch (st : Store) (epoch : Json) : Bool :=
  (strings epoch "members").all fun id =>
    (st.object .device id).all fun d => n d "generation" == n epoch "generation"

def stageEpoch (X : Crypto) (admin : String) (epoch : Json) : Tx Unit := do
  let linked ← look (epochLinked X · epoch)
  failIf (!linked) (err .epochChainInvalid)
  let key ← check fun st _ => historicalKey st admin epoch
  lift (verify X epoch key .epoch)
  let matching ← look (membersMatch · epoch)
  failIf (!matching) (err .importConflict)
  let _ ← putObject X .epoch epoch none

/-- The members an imported envelope repeats from its epoch. -/
def importedEpochKeys : List String :=
  ["generation", "epoch", "epoch_commitment", "previous_epoch_hash"]

/-- An imported envelope belongs to a stored epoch. -/
def importedEnvelope (X : Crypto) (st : Store) (env : Json) : Except ApiError Unit := do
  let epoch ← Check.require (st.object .epoch (toString (n env "epoch"))) (err .importConflict)
  Check.failIf (!importedEpochKeys.all fun k => env.get k == epoch.get k) (err .importConflict)
  Check.failIf (s env "recipient_kind" == "recovery" &&
      X.objectHash env != s epoch "recovery_envelope_hash")
    (err .importConflict)

def stageEnvelope (X : Crypto) (admin : String) (env : Json) : Tx Unit := do
  check fun st _ => importedEnvelope X st env
  let key ← check fun st _ => historicalKey st admin env
  lift (verify X env key .envelope)
  let _ ← putObject X .envelope env none

def stageCompaction (X : Crypto) (comp : Json) : Tx Unit := do
  let d ← look (·.object .device (s comp "device_id"))
  let d ← require d (err .importConflict)
  lift (verify X comp (s d "device_public_key") .compaction)
  let _ ← putObject X .compaction comp none

/-- The bodies of the staged objects of a kind. -/
def stagedBodies (st : Store) (kind : Kind) : List Json :=
  st.objects.rows.filterMap fun r => if r.kind = kind ∧ r.logId = none then r.body else none

/-- The staged history, rechecked as a whole. -/
def stagedHistory (X : Crypto) (st : Store) : Except ApiError Unit := do
  Check.failIf (!(stagedBodies st .parameters).all (parametersLinked X st))
    (err .importConflict)
  Check.each (fun epoch => do
    Check.failIf (!epochLinked X st epoch) (err .epochChainInvalid)
    Check.failIf (!membersMatch st epoch) (err .importConflict)) (stagedBodies st .epoch)

/-- The terminal head of an import agrees with the chain and with what was
staged for it before. -/
def terminalHead (X : Crypto) (st : Store) (p e : Json) : Except ApiError Unit := do
  Check.failIf (st.chain.any fun c => c.parametersHash X != X.objectHash p ||
      c.epochHash X != X.objectHash e || c.adminPublicKey != s p "admin_public_key")
    (err .importConflict)
  Check.failIf (st.imports.any fun i => i.parameters != p || i.epoch != e)
    (err .importConflict)

/-- Store the five histories of an import. -/
def stageObjects (X : Crypto) (admin : String) (v : Json) : Tx Unit := do
  each (stageParameters X admin) (a v "parameters_history")
  resolveDevices X admin (a v "device_history").length (a v "device_history") []
  each (stageEpoch X admin) (a v "epoch_history")
  each (stageEnvelope X admin) (a v "envelopes")
  each (stageCompaction X) (a v "compactions")

/-- A chain that is only staged is there, but not writable. -/
def stageChain (R : Relay) (p e : Json) (logId : String) : Tx Unit := do
  let transparencyId ← newId
  let noticeId ← newId
  setChain fun _ =>
    { Chain.new R.crypto p e logId transparencyId noticeId with writable := false }
  save R

def stage (R : Relay) (v : Json) : Tx Json := do
  let X := R.crypto
  lift (fields X v importFields)
  failIf ((a v "parameters_history").isEmpty || (a v "epoch_history").isEmpty)
    (err .importConflict)
  let p := (a v "parameters_history").getLastD .null
  let e := (a v "epoch_history").getLastD .null
  let chainId := s p "chain_id"
  check fun st _ => terminalHead X st p e
  lift (importObjects X chainId v)
  stageObjects X (s p "admin_public_key") v
  check fun st _ => stagedHistory X st
  let fresh ← newId
  let staged ← look (·.imports)
  let logId := (staged.map (·.logId)).getD fresh
  setStore fun st => { st with
    imports := st.imports.or (some { logId, parameters := p, epoch := e }) }
  let current ← look (·.chain)
  match current with
  | some _ => pure ()
  | none => stageChain R p e logId
  check fun st _ => st.quota R
  pure (.obj [("chain_id", .str chainId), ("log_id", .str logId), ("state", .str "staged")])

/-! ## Re-seeding -/

def reseedFields : FieldTable :=
  [("parameters", .object), ("epoch", .object), ("envelopes", .array),
   ("compaction", .object), ("admin_operation", .object), ("device_records", .array)]

/-- The next generation's parameters, and the staged head they build on. -/
def reseedCheck (R : Relay) (st : Store) (old : Chain) (v : Json) :
    Except ApiError Import := do
  let X := R.crypto
  let p := v.get "parameters"
  adminOperation X st old (v.get "admin_operation") "reseed"
    (target v ["parameters", "epoch", "envelopes", "compaction", "device_records"])
  Check.failIf (s p "chain_id" != old.chainId || s p "admin_public_key" != old.adminPublicKey ||
      n p "generation" != old.generation + 1 ||
      s p "previous_parameters_hash" != old.parametersHash X)
    (err .generationMismatch)
  verify X p (s p "admin_public_key") .parameters
  Check.failIf ((a v "device_records").isEmpty ||
      decide (R.cfg.limits.maxDevices < (a v "device_records").length))
    (err .memberSetMismatch)
  let imported ← Check.require st.imports (err .importConflict)
  Check.failIf (imported.parameters != old.parameters || imported.epoch != old.epoch)
    (err .casMismatch)
  pure imported

/-- The kinds re-logged at a re-seed, in order. -/
def adoptedKinds : List Kind := [.parameters, .device, .envelope, .epoch, .admin]

def idLe (kind : Kind) (x y : String) : Bool :=
  if kind = .parameters ∨ kind = .epoch then decide (castInteger x ≤ castInteger y)
  else Json.textLe x y

/-- The staged objects of a kind, in order. -/
def stagedIds (st : Store) (kind : Kind) : List String :=
  ((st.objects.select fun r => decide (r.kind = kind) && r.logId.isNone).map
    (·.objectId)).insertionSort fun x y => idLe kind x y = true

/-- Named in the revocations of some stored epoch. -/
def everRevoked (st : Store) (id : String) : Bool :=
  (st.bodies .epoch).any fun b => (strings b "revoked_device_ids").contains id

/-- Log one staged object; a device is registered as well, revoked unless it
is of the old generation and no stored epoch revokes it. -/
def adoptStaged (X : Crypto) (oldGeneration : Nat) (kind : Kind) (id : String) :
    Tx Receipt := do
  let obj ← look (·.object kind id)
  let obj ← require obj (err .panicked)
  if kind = .device then do
    let revoked ← look (everRevoked · id)
    enlist X (if revoked || n obj "generation" != oldGeneration then .revoked else .active) obj
  else do
    let (_, r) ← append X kind obj
    pure r

def adoptKind (X : Crypto) (oldGeneration : Nat) (kind : Kind) : Tx (List Receipt) := do
  let ids ← look (stagedIds · kind)
  collect (adoptStaged X oldGeneration kind) ids

/-- Start the new log: transparency goes on where it was. -/
def reincarnate (X : Crypto) (p : Json) (logId : String) : Tx Unit := do
  let _ ← newId
  let noticeId ← newId
  setChain fun old =>
    { Chain.new X p old.epoch logId old.transparencyId noticeId with
      transparencyIndex := old.transparencyIndex
      transparencyHash := old.transparencyHash }

/-- The epoch of a re-seed revokes every device there was. -/
def reseedEpochCheck (X : Crypto) (st : Store) (c : Chain) (v : Json) :
    Except ApiError Unit := do
  Check.failIf (s (v.get "epoch") "reason" != "reseed") (err .epochChainInvalid)
  bundle X st c (v.get "epoch") (a v "envelopes") (a v "device_records") false true

/-- The first compaction of a new log covers nothing. -/
def reseedCompactionCheck (X : Crypto) (st : Store) (c : Chain) (v : Json) :
    Except ApiError Unit := do
  Check.failIf (n (v.get "compaction") "covered_through_seq" != 0) (err .compactionUnsafe)
  compaction X st c (v.get "compaction") (a v "device_records")

def reseed (R : Relay) (auth : Auth) (v : Json) : Tx Json := do
  let X := R.crypto
  lift auth.requireAdmin
  lift (fields X v reseedFields)
  let p := v.get "parameters"
  lift (validate X p .parameters)
  let id := s (v.get "admin_operation") "operation_id"
  let before ← check fun st _ => st.outcomes? X .reseed id v
  match before with
  | some response => pure response
  | none => do
      let old ← chain
      let imported ← check fun st c => reseedCheck R st c v
      reincarnate X p imported.logId
      check fun st c => Check.each (stagedDeviceCheck X st c) (a v "device_records")
      let adopted ← collect (adoptKind X old.generation) adoptedKinds
      check fun st c => reseedEpochCheck X st c v
      let (_, r) ← append X .parameters p
      let (_, rs) ← commitEpoch X {
        epoch := v.get "epoch", envelopes := a v "envelopes",
        staged := a v "device_records", admin := some (v.get "admin_operation"),
        genesis := false }
      check fun st c => reseedCompactionCheck X st c v
      let (_, r') ← append X .compaction (v.get "compaction")
      let c ← chain
      let response := (c.result X).set "upload_receipts"
        (receiptsJson (adopted.flatten ++ r :: rs ++ [r']))
      outcome X .reseed id v response
      setStore fun st => { st with imports := none }
      pure response

end PallaSync
