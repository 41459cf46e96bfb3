import PallaSync.Lib.Keyed
import PallaSync.Lib.Atomic
import PallaSync.Lib.Runs
import PallaSync.Lib.HashLine
import PallaSync.Lib.Versioned
import PallaSync.Lib.Keyset
import PallaSync.Lib.Passes
import PallaSync.Lib.Repeats
import PallaSync.Lib.Mirrored
import PallaSync.Sync
import PallaSync.Commits
import PallaSync.Evidence
import PallaSync.Course
import PallaSync.Reach
import PallaSync.Permanence
import PallaSync.Succession
import PallaSync.Replay
import PallaSync.Erasure
import PallaSync.StagedImport
import PallaSync.Nonces
import PallaSync.Parts
import PallaSync.Ancestry
import PallaSync.Retries
import PallaSync.Outsiders
import PallaSync.Batches
import PallaSync.Repair
import PallaSync.Origins
import PallaSync.Revocations
import PallaSync.Heads
import PallaSync.Provenance
import PallaSync.Rates
import PallaSync.Query
import PallaSync.LegacyPages
import PallaSync.LegacyTokens
import PallaSync.Jcs
import PallaSync.Pages
import PallaSync.LogPages
import PallaSync.RangePages
import PallaSync.Listings
import PallaSync.ObjectPages
import PallaSync.Offers
import PallaSync.RequestPages
import PallaSync.Resolution
import PallaSync.ImportOrder
import PallaSync.Restaging
import PallaSync.Barrier
import PallaSync.Admission
import PallaSync.Standing
import PallaSync.Expiry
import PallaSync.Coverage
import PallaSync.Recoverable
import PallaSync.Keyholders
import PallaSync.Dating
import PallaSync.Quota
import PallaSync.Completions
import PallaSync.Screening
import PallaSync.Capacity
