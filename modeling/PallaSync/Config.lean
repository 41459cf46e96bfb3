import PallaSync.Crypto
import PallaSync.Error

/-!
# Operator configuration

The part of the operator's disclosure and settings that the data path reads.
The bounds of the disclosure schema are fields of the structure, so a
configuration the relay would refuse at start-up cannot be built.
-/

namespace PallaSync

/-- `jcs::MAX_INTEGER` -/
def maxInteger : Nat := 9007199254740991

structure RatePolicy where
  requestsPerMinute : Nat
  burst : Nat
  positive : 1 ≤ requestsPerMinute ∧ 1 ≤ burst

inductive RateScope where
  | authorizedSigner | recordUploadDevice | enrollmentSourceIp | enrollmentOffer
  | publicDocumentIp
deriving DecidableEq, Repr

def RateScope.text : RateScope → String
  | .authorizedSigner => "authorized_signer"
  | .recordUploadDevice => "record_upload_device"
  | .enrollmentSourceIp => "enrollment_source_ip"
  | .enrollmentOffer => "enrollment_offer"
  | .publicDocumentIp => "public_document_ip"

/-- The disclosed limits. -/
structure Limits where
  maxDevices : Nat
  maxRecordsPerUpload : Nat
  pageLimit : Nat
  devices_le : 1 ≤ maxDevices ∧ maxDevices ≤ 128
  records_le : 1 ≤ maxRecordsPerUpload ∧ maxRecordsPerUpload ≤ 64
  page_le : 1 ≤ pageLimit ∧ pageLimit ≤ 1000

/-- What the relay is started with. The model runs under one disclosure: `origin`,
`limits`, rates, replay mode and deletion deadline stay as they are at every
start, as they do when the recorded disclosure is started again. `AppState::new`
also takes a changed disclosure under a higher revision; no run of the model has
such a start. The remaining settings may differ from one start to the next. -/
structure RelayConfig where
  origin : String
  limits : Limits
  rateLimits : RateScope → RatePolicy
  restartBarrier : Bool
  activeDeleteMaxMs : Nat
  maxBytes : Option Nat
  shutdownAtMs : Option Nat
  migrationOrigin : Option String
  stopWrites : Bool

/-- The settings read from the environment at each start. -/
structure Settings where
  maxBytes : Option Nat
  shutdownAtMs : Option Nat
  migrationOrigin : Option String
  stopWrites : Bool

/-- The configuration of a start under the same disclosure. -/
def RelayConfig.restarted (cfg : RelayConfig) (o : Settings) : RelayConfig :=
  { cfg with
    maxBytes := o.maxBytes
    shutdownAtMs := o.shutdownAtMs
    migrationOrigin := o.migrationOrigin
    stopWrites := o.stopWrites }

/-- `write_guard` at clock reading `t`. -/
def RelayConfig.writeGuard (cfg : RelayConfig) (t : Nat) : Except ApiError Unit :=
  if cfg.stopWrites || cfg.shutdownAtMs.any (· ≤ t) then
    .error ((err .relayShuttingDown).withContext (.obj [
      ("migration_origin", Json.ofOption cfg.migrationOrigin),
      ("shutdown_at_ms", Json.ofOptionNat cfg.shutdownAtMs)]))
  else .ok ()

/-- The relay: its primitives and its configuration. -/
structure Relay where
  crypto : Crypto
  cfg : RelayConfig

end PallaSync
