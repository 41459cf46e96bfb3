import PallaSync.Moves
import PallaSync.Lib.Versioned

/-!
# Versions of the registry

A trigger copies every row that is written to the registry into its history,
under the next number (`registryCopying`). So the copies of a device tell its
life, and the copies up to a number are the registry as it stood when there
were that many.
-/

namespace PallaSync

/-! ## The life of a device -/

/-- What the registry says of a device. -/
structure Enlistment where
  status : Status
  enrolledSeq : Nat
  revokedSeq : Option Nat
deriving DecidableEq

def RegistryRow.enlistment (r : RegistryRow) : Enlistment :=
  ⟨r.status, r.enrolledSeq, r.revokedSeq⟩

def RegistryHistoryRow.enlistment (h : RegistryHistoryRow) : Enlistment :=
  ⟨h.status, h.enrolledSeq, h.revokedSeq⟩

namespace Enlistment

/-- A device is added without a position of revocation. -/
def New (e : Enlistment) : Prop := e.revokedSeq = none

/-- What becomes of an enlistment: it is activated, unless it was revoked, or
revoked. -/
inductive Next : Enlistment → Enlistment → Prop where
  | activated {e} : e.status ≠ .revoked → Next e { e with status := .active }
  | revoked {e} (seq : Nat) : Next e { e with status := .revoked, revokedSeq := some seq }

variable {e f : Enlistment}

theorem Next.enrolledSeq (h : Next e f) : f.enrolledSeq = e.enrolledSeq := by
  cases h <;> rfl

/-- Revocation is for good. -/
theorem Next.stays_revoked (h : Next e f) (he : e.status = .revoked) : f.status = .revoked := by
  cases h with
  | activated hne => exact absurd he hne
  | revoked seq => rfl

/-- No device waits for its keys again. -/
theorem Next.settles (h : Next e f) : f.status ≠ .pendingKeys := by
  cases h <;> simp

/-- What becomes of a device in the end. -/
theorem Next.stays (h : Relation.ReflTransGen Next e f) :
    f.enrolledSeq = e.enrolledSeq ∧ (e.status = .revoked → f.status = .revoked) ∧
      (f.status = .pendingKeys → f = e) := by
  induction h with
  | refl => exact ⟨rfl, id, fun _ => rfl⟩
  | tail _ hn ih =>
      obtain ⟨hseq, hrevoked, -⟩ := ih
      exact ⟨hn.enrolledSeq.trans hseq, fun he => hn.stays_revoked (hrevoked he),
        fun hf => absurd hf hn.settles⟩

end Enlistment

open Enlistment

/-! ## Versions -/

/-- The history of the registry. -/
def registryCopying : Copying RegistryRow RegistryHistoryRow String Enlistment where
  key := RegistryRow.deviceId
  content := RegistryRow.enlistment
  copy i r := {
    id := i, deviceId := r.deviceId, status := r.status, enrolledSeq := r.enrolledSeq,
    revokedSeq := r.revokedSeq }
  number := RegistryHistoryRow.id
  owner := RegistryHistoryRow.deviceId
  copied := RegistryHistoryRow.enlistment
  number_copy _ _ := rfl
  owner_copy _ _ := rfl
  copied_copy _ _ := rfl

/-- The copies of a device up to a version. -/
def Store.copiesUpTo (st : Store) (id : String) (version : Nat) : List Enlistment :=
  registryCopying.upTo st.registryHistory id version

/-- The registry and its history belong together. -/
def Store.Versioned (st : Store) : Prop :=
  registryCopying.Versioned New Next st.registryHistory st.registry

theorem blank_versioned : Store.blank.Versioned := .blank

namespace Store.Versioned

variable {st st' : Store}

theorem of_eq (hv : st'.registryHistory = st.registryHistory) (hr : st'.registry = st.registry)
    (h : st.Versioned) : st'.Versioned := by
  rw [Store.Versioned, hv, hr]
  exact h

/-- A device that is added has no position of revocation. -/
theorem insert {row : RegistryRow} (h : st.Versioned) (hinsert : st.insertRegistry row = some st')
    (hrow : row.revokedSeq = none) : st'.Versioned := by
  obtain ⟨tab, htab, rfl⟩ := Option.map_eq_some_iff.mp hinsert
  exact Copying.Versioned.insert h htab hrow

theorem update {p : RegistryRow → Bool} {f : RegistryRow → RegistryRow}
    {hf : ∀ r, (f r).deviceId = r.deviceId} (h : st.Versioned)
    (hnext : ∀ r, p r → Next r.enlistment (f r).enlistment) :
    (st.updateRegistry p f hf).Versioned :=
  Copying.Versioned.update hf h fun r _ hr => hnext r hr

end Store.Versioned

end PallaSync
