import PallaSync.Store

/-!
# Signers and their standing

Who an authenticated request speaks for, and what the registry says of that
device now. The three checks below are what every later transaction of a
request re-establishes for itself: `signingKey` and `activeDevice` for the
author of a signed object, `checkState` for the bearer of a device token.
-/

namespace PallaSync

open Check

inductive Route where
  | genesis | importChain | delete | parametersGet | reseed | enroll | devices | revoke
  | ownEnvelopes | ack | recordsGet | recordsPost | repair | offer | request
  | requestsGet | approve | reject | epochsGet | epochsPost | epochGet | recovery
  | envelopesPost | log | head | prune | snapshot | snapshotsGet | partsPost | partGet
  | snapshotGet | exportChain | notice | deletion | receipt | transparencyHead
  | transparency
deriving DecidableEq, Repr

/-- The routes of the `GET` method. -/
def Route.isGet : Route → Bool
  | .parametersGet | .devices | .ownEnvelopes | .recordsGet | .requestsGet | .epochsGet
  | .epochGet | .recovery | .log | .head | .snapshotsGet | .partGet | .snapshotGet
  | .exportChain | .notice | .deletion | .receipt | .transparencyHead
  | .transparency => true
  | _ => false

/-- The routes a device may use before it has acknowledged its keys. -/
def Route.whilePending : Route → Bool
  | .parametersGet | .epochsGet | .epochGet | .ownEnvelopes | .ack => true
  | _ => false

/-- An authenticated signer: the admin when `device` is `none`. -/
structure Auth where
  token : Json
  device : Option String

namespace Auth

def admin (auth : Auth) : Bool := auth.device.isNone

def requireAdmin (auth : Auth) : Except ApiError Unit :=
  failIf (!auth.admin) (err .adminRequired)

def owns (auth : Auth) (id : String) : Bool := auth.admin || auth.device == some id

end Auth

/-- The key of a registered, active device of the current generation. -/
def activeDevice (st : Store) (c : Chain) (id : String) : Except ApiError String := do
  let d ← require (st.object .device id) (err .deviceUnknown)
  failIf (n d "generation" != c.generation) (err .generationMismatch)
  let status ← require (st.status id) (err .storageUnavailable)
  failIf (status != .active)
    (err (if status = .revoked then .deviceRevoked else .devicePendingKeys))
  pure (s d "device_public_key")

def signingKey (st : Store) (c : Chain) (v : Json) : Except ApiError String :=
  if s v "signer_kind" = "admin" then .ok c.adminPublicKey
  else activeDevice st c (s v "signer_device_id")

/-- The standing of a device towards a route. -/
def deviceState (st : Store) (c : Chain) (id : String) (route : Route) :
    Except ApiError Unit := do
  let d ← require (st.object .device id) (err .deviceUnknown)
  failIf (n d "generation" != c.generation) (err .generationMismatch)
  let status ← require (st.status id) (err .deviceUnknown)
  failIf (status == .revoked) (err .deviceRevoked)
  failIf (status == .pendingKeys && !route.whilePending) (err .devicePendingKeys)

def checkState (st : Store) (c : Chain) (auth : Auth) (route : Route) :
    Except ApiError Unit :=
  match auth.device with
  | none => .ok ()
  | some id => deviceState st c id route

end PallaSync
