import PallaSync.Json

/-!
# Protocol errors

The closed catalogue of error codes with the status and the retry flag of
each. A code is spelled as on the wire (`Code.text`). A panic of the handler
(an `unwrap` of a missing value) has no code on the wire; it is modelled as
the failure `panicked`, which like every failure rolls its transaction back.
-/

namespace PallaSync

inductive Code where
  | invalidJson | invalidField | cursorInvalid | filterNotAllowed
  | tokenRequired | tokenNotYetValid | tokenExpired | tokenReplayed
  | tokenTtlTooLong | tokenSignatureInvalid | tokenBindingMismatch
  | adminRequired | devicePendingKeys | deviceUnknown | enrollmentNotAllowed
  | rotationNotAllowed | deviceRevoked | deviceKeyMismatch
  | envelopeAccessDenied | endpointNotFound | chainNotFound | deviceNotFound
  | epochNotFound | offerNotFound | envelopeNotFound | snapshotPartNotFound
  | snapshotNotFound | receiptNotFound | methodNotAllowed | requestTimeout
  | chainExists | recordIdConflict | deviceIdConflict | requestIdConflict
  | envelopeIdConflict | operationIdConflict | importConflict | epochStale
  | casMismatch | generationMismatch | memberSetMismatch
  | recoveryEnvelopeRequired | historyKeyExpired | cursorExpired
  | logIdMismatch | logPruned | snapshotIncomplete | compactionUnsafe
  | repairProofRequired | transparencyIdMismatch
  | transparencyRangeUnavailable | chainDeleted | payloadTooLarge
  | deviceLimitReached | unsupportedMediaType | objectSignatureInvalid
  | enrollmentCertificateInvalid | epochChainInvalid | rateLimited
  | internalError | relayShuttingDown | quotaExceeded | storageUnavailable
  | panicked
deriving DecidableEq, Repr

def Code.text : Code → String
  | .invalidJson => "INVALID_JSON"
  | .invalidField => "INVALID_FIELD"
  | .cursorInvalid => "CURSOR_INVALID"
  | .filterNotAllowed => "FILTER_NOT_ALLOWED"
  | .tokenRequired => "TOKEN_REQUIRED"
  | .tokenNotYetValid => "TOKEN_NOT_YET_VALID"
  | .tokenExpired => "TOKEN_EXPIRED"
  | .tokenReplayed => "TOKEN_REPLAYED"
  | .tokenTtlTooLong => "TOKEN_TTL_TOO_LONG"
  | .tokenSignatureInvalid => "TOKEN_SIGNATURE_INVALID"
  | .tokenBindingMismatch => "TOKEN_BINDING_MISMATCH"
  | .adminRequired => "ADMIN_REQUIRED"
  | .devicePendingKeys => "DEVICE_PENDING_KEYS"
  | .deviceUnknown => "DEVICE_UNKNOWN"
  | .enrollmentNotAllowed => "ENROLLMENT_NOT_ALLOWED"
  | .rotationNotAllowed => "ROTATION_NOT_ALLOWED"
  | .deviceRevoked => "DEVICE_REVOKED"
  | .deviceKeyMismatch => "DEVICE_KEY_MISMATCH"
  | .envelopeAccessDenied => "ENVELOPE_ACCESS_DENIED"
  | .endpointNotFound => "ENDPOINT_NOT_FOUND"
  | .chainNotFound => "CHAIN_NOT_FOUND"
  | .deviceNotFound => "DEVICE_NOT_FOUND"
  | .epochNotFound => "EPOCH_NOT_FOUND"
  | .offerNotFound => "OFFER_NOT_FOUND"
  | .envelopeNotFound => "ENVELOPE_NOT_FOUND"
  | .snapshotPartNotFound => "SNAPSHOT_PART_NOT_FOUND"
  | .snapshotNotFound => "SNAPSHOT_NOT_FOUND"
  | .receiptNotFound => "RECEIPT_NOT_FOUND"
  | .methodNotAllowed => "METHOD_NOT_ALLOWED"
  | .requestTimeout => "REQUEST_TIMEOUT"
  | .chainExists => "CHAIN_EXISTS"
  | .recordIdConflict => "RECORD_ID_CONFLICT"
  | .deviceIdConflict => "DEVICE_ID_CONFLICT"
  | .requestIdConflict => "REQUEST_ID_CONFLICT"
  | .envelopeIdConflict => "ENVELOPE_ID_CONFLICT"
  | .operationIdConflict => "OPERATION_ID_CONFLICT"
  | .importConflict => "IMPORT_CONFLICT"
  | .epochStale => "EPOCH_STALE"
  | .casMismatch => "CAS_MISMATCH"
  | .generationMismatch => "GENERATION_MISMATCH"
  | .memberSetMismatch => "MEMBER_SET_MISMATCH"
  | .recoveryEnvelopeRequired => "RECOVERY_ENVELOPE_REQUIRED"
  | .historyKeyExpired => "HISTORY_KEY_EXPIRED"
  | .cursorExpired => "CURSOR_EXPIRED"
  | .logIdMismatch => "LOG_ID_MISMATCH"
  | .logPruned => "LOG_PRUNED"
  | .snapshotIncomplete => "SNAPSHOT_INCOMPLETE"
  | .compactionUnsafe => "COMPACTION_UNSAFE"
  | .repairProofRequired => "REPAIR_PROOF_REQUIRED"
  | .transparencyIdMismatch => "TRANSPARENCY_ID_MISMATCH"
  | .transparencyRangeUnavailable => "TRANSPARENCY_RANGE_UNAVAILABLE"
  | .chainDeleted => "CHAIN_DELETED"
  | .payloadTooLarge => "PAYLOAD_TOO_LARGE"
  | .deviceLimitReached => "DEVICE_LIMIT_REACHED"
  | .unsupportedMediaType => "UNSUPPORTED_MEDIA_TYPE"
  | .objectSignatureInvalid => "OBJECT_SIGNATURE_INVALID"
  | .enrollmentCertificateInvalid => "ENROLLMENT_CERTIFICATE_INVALID"
  | .epochChainInvalid => "EPOCH_CHAIN_INVALID"
  | .rateLimited => "RATE_LIMITED"
  | .internalError => "INTERNAL_ERROR"
  | .relayShuttingDown => "RELAY_SHUTTING_DOWN"
  | .quotaExceeded => "QUOTA_EXCEEDED"
  | .storageUnavailable => "STORAGE_UNAVAILABLE"
  | .panicked => ""

/-- Status and retry flag of a code. -/
def catalogue : Code → Nat × Bool
  | .invalidJson | .invalidField | .cursorInvalid | .filterNotAllowed => (400, false)
  | .tokenRequired | .tokenNotYetValid | .tokenExpired | .tokenReplayed => (401, true)
  | .tokenTtlTooLong | .tokenSignatureInvalid | .tokenBindingMismatch => (401, false)
  | .adminRequired | .devicePendingKeys | .deviceUnknown | .enrollmentNotAllowed
  | .rotationNotAllowed => (403, true)
  | .deviceRevoked | .deviceKeyMismatch | .envelopeAccessDenied => (403, false)
  | .endpointNotFound => (404, false)
  | .chainNotFound | .deviceNotFound | .epochNotFound | .offerNotFound
  | .envelopeNotFound | .snapshotPartNotFound | .snapshotNotFound
  | .receiptNotFound => (404, true)
  | .methodNotAllowed => (405, false)
  | .requestTimeout => (408, true)
  | .chainExists | .recordIdConflict | .deviceIdConflict | .requestIdConflict
  | .envelopeIdConflict | .operationIdConflict | .importConflict => (409, false)
  | .epochStale | .casMismatch | .generationMismatch | .memberSetMismatch
  | .recoveryEnvelopeRequired | .historyKeyExpired | .cursorExpired
  | .logIdMismatch | .logPruned | .snapshotIncomplete | .compactionUnsafe
  | .repairProofRequired | .transparencyIdMismatch
  | .transparencyRangeUnavailable => (409, true)
  | .chainDeleted => (410, false)
  | .payloadTooLarge | .deviceLimitReached => (413, true)
  | .unsupportedMediaType => (415, false)
  | .objectSignatureInvalid | .enrollmentCertificateInvalid | .epochChainInvalid =>
      (422, false)
  | .rateLimited => (429, true)
  | .internalError => (500, true)
  | .relayShuttingDown => (503, true)
  | .quotaExceeded | .storageUnavailable => (507, true)
  | .panicked => (500, false)

structure ApiError where
  code : Code
  context : Option Json := none
deriving DecidableEq, Repr

def err (code : Code) : ApiError := { code }

namespace ApiError

def withContext (e : ApiError) (v : Json) : ApiError := { e with context := some v }

def status (e : ApiError) : Nat := (catalogue e.code).1

def retryable (e : ApiError) : Bool := (catalogue e.code).2

end ApiError

end PallaSync
