import PallaSync.Domain
import Mathlib.Data.List.TakeWhile

/-!
# Key expiry

A blind relay removes old envelopes only after an admin-authorized snapshot
handoff. `handoff` records, at a prune, which old epochs have no envelope
left above the prune point; `expire` blanks the envelopes of those whose time
has come.
-/

namespace PallaSync

open Atomic

/-- `CAST(id AS INTEGER)`: the leading digits. -/
def castInteger (id : String) : Nat :=
  Nat.ofDigitChars 10 (id.toList.takeWhile Char.isDigit) 0

theorem castInteger_toString (k : Nat) : castInteger (toString k) = k := by
  have hd : (Nat.toDigits 10 k).takeWhile Char.isDigit = Nat.toDigits 10 k :=
    List.takeWhile_eq_self_iff.mpr fun c hc =>
      Nat.isDigit_of_mem_toDigits (by decide) (by decide) hc
  show Nat.ofDigitChars 10 ((Nat.repr k).toList.takeWhile Char.isDigit) 0 = k
  rw [Nat.toList_repr, hd, Nat.ofDigitChars_ten_toDigits]

/-- Decimal identifiers are the numbers they spell. -/
theorem toString_inj {j k : Nat} (h : toString j = toString k) : j = k := by
  rw [← castInteger_toString j, h, castInteger_toString]

/-- The stored epochs before the current one. -/
def olderEpochs (st : Store) (c : Chain) : List Json :=
  st.objects.rows.filterMap fun r =>
    if r.kind = .epoch ∧ castInteger r.objectId < n c.epoch "epoch" then r.body else none

/-- An envelope of the epoch above the prune point or in another log. -/
def lateEnvelope (c : Chain) (number through : Nat) (r : ObjectRow) : Bool :=
  decide (r.kind = .envelope) && r.body.any (fun b => b.get "epoch" == .num number) &&
    (r.relaySeq.any (through < ·) || r.logId.any (· != c.logId))

/-- When an epoch was committed, from its log entry. -/
def committedAt (st : Store) (number : Nat) : Option Nat := do
  let o ← st.objects.find? (.epoch, toString number)
  let logId ← o.logId
  let seq ← o.relaySeq
  let row ← st.log.find? (logId, seq)
  let entry ← row.entry
  entry.committedAtMs

/-- Record the handoff of one old epoch, unless it has a late envelope. -/
def handoffEpoch (comp : Json) (through : Nat) (epoch : Json) : Tx Unit := do
  let c ← chain
  let number := n epoch "epoch"
  let late ← look fun st => st.objects.rows.any (lateEnvelope c number through)
  if late then pure ()
  else do
    let successor ← look (·.object .epoch (toString (number + 1)))
    failIf successor.isNone (err .compactionUnsafe)
    let committed ← look (committedAt · (number + 1))
    let committed ← require committed (err .storageUnavailable)
    let t ← now
    let due := if s c.policy "epoch_retention" = "immediate" then t
      else committed + n c.policy "epoch_window_ms"
    setStore fun st => { st with
      handoffs := st.handoffs.insertIgnore
        { epoch := number, compactionId := s comp "compaction_id", dueAtMs := due,
          expired := false } }

/-- The log entry of an envelope of the epoch. -/
def LogEntry.isEnvelopeOf (e : LogEntry) (epoch : Nat) : Bool :=
  decide (e.kind = .envelope) && e.object.get "epoch" == .num epoch

/-- Blank the envelopes of one handed-off epoch. -/
def Store.expireEpoch (st : Store) (c : Chain) (epoch : Nat) : Store :=
  { st with
    log := st.log.update
      (fun r => r.entry.any (·.isEnvelopeOf epoch) && decide (r.seq < c.minAvailableSeq))
      (fun r => { r with entry := none }) LogRow.key_removed
    objects := st.objects.update
      (fun r => decide (r.kind = .envelope) && r.body.any (·.get "epoch" == .num epoch))
      (fun r => { r with body := none }) ObjectRow.key_removed
    handoffs := st.handoffs.update (·.epoch == epoch) (fun r => { r with expired := true })
      fun _ => rfl }

/-- The handed-off epochs that are due at `t`. -/
def Store.due (st : Store) (t : Nat) : List Nat :=
  (st.handoffs.select fun r => !r.expired && decide (r.dueAtMs ≤ t)).map (·.epoch)

def expire : Tx Unit := do
  let c ← chain
  let t ← now
  let epochs ← look (·.due t)
  each (fun epoch => setStore (·.expireEpoch c epoch)) epochs

def handoff (comp : Json) (through : Nat) : Tx Unit := do
  let c ← chain
  if s c.policy "epoch_retention" = "retain" then pure ()
  else do
    let epochs ← look (olderEpochs · c)
    each (handoffEpoch comp through) epochs
    expire

/-- `expired(epoch)` -/
def Store.expired (st : Store) (epoch : Nat) : Bool :=
  (st.handoffs.find? epoch).any (·.expired)

end PallaSync
