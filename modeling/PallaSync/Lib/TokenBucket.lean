import Mathlib.Algebra.Order.Field.Basic
import Mathlib.Tactic.FieldSimp
import Mathlib.Tactic.Linarith

/-!
# Token buckets

A bucket gains `refill` tokens per unit of time, up to `burst`, and is only
written when a token is taken: what it kept then, and when, tells what it holds
later. Whatever the times are, the tokens taken since `start` were there at
`start`, or have been refilled since (`Earned`): no window yields more than
`burst` and the refill of its length (`Earned.le`).
-/

namespace TokenBucket

variable {K : Type*} [Field K] [LinearOrder K] [IsStrictOrderedRing K]

/-- What a bucket kept when it was last taken from. -/
structure Kept (K : Type*) where
  tokens : K
  time : ℕ

/-- The tokens at time `t`; a bucket that was never taken from is full. -/
def available (refill burst : K) (b : Option (Kept K)) (t : ℕ) : K :=
  match b with
  | some b => min (b.tokens + ((t - b.time : ℕ) : K) * refill) burst
  | none => burst

/-- `k` tokens were taken since `start`: what is left and what was taken is no
more than a full bucket and the refill. -/
def Earned (refill burst : K) (start : ℕ) (b : Option (Kept K)) (k : ℕ) : Prop :=
  k = 0 ∨ ∃ last, b = some last ∧ 0 ≤ last.tokens ∧ start ≤ last.time ∧
    last.tokens + k ≤ burst + ((last.time - start : ℕ) : K) * refill

variable {refill burst : K} {start t : ℕ} {b : Option (Kept K)} {k : ℕ}

omit [IsStrictOrderedRing K] in
theorem available_le (b : Option (Kept K)) (t : ℕ) : available refill burst b t ≤ burst := by
  cases b with
  | none => exact le_refl _
  | some b => exact min_le_right _ _

theorem Earned.take (h : Earned refill burst start b k) (hrefill : 0 ≤ refill)
    (hstart : start ≤ t) (hle : ∀ last, b = some last → last.time ≤ t)
    (hone : 1 ≤ available refill burst b t) :
    Earned refill burst start (some ⟨available refill burst b t - 1, t⟩) (k + 1) := by
  refine .inr ⟨_, rfl, sub_nonneg.mpr hone, hstart, ?_⟩
  show available refill burst b t - 1 + ((k + 1 : ℕ) : K) ≤ burst + ((t - start : ℕ) : K) * refill
  have hsum : available refill burst b t + k ≤ burst + ((t - start : ℕ) : K) * refill := by
    obtain rfl | ⟨last, rfl, -, hfrom, hlast⟩ := h
    · have hfull : available refill burst b t ≤ burst := available_le b t
      have hgain : 0 ≤ ((t - start : ℕ) : K) * refill := mul_nonneg (Nat.cast_nonneg _) hrefill
      push_cast
      linarith
    · have hto := hle last rfl
      have hheld : available refill burst (some last) t ≤
          last.tokens + ((t - last.time : ℕ) : K) * refill := min_le_left _ _
      -- the refill since `start` is the one up to the last take and the one after it
      have hsplit : ((t - start : ℕ) : K) * refill =
          ((t - last.time : ℕ) : K) * refill + ((last.time - start : ℕ) : K) * refill := by
        rw [← add_mul, ← Nat.cast_add]
        congr 2
        omega
      linarith
  push_cast
  linarith

/-- Tokens that are not counted were earned as well. -/
theorem Earned.mono {j : ℕ} (h : Earned refill burst start b k) (hj : j ≤ k) :
    Earned refill burst start b j := by
  obtain rfl | ⟨last, hb, hnonneg, hfrom, hlast⟩ := h
  · exact .inl (Nat.le_zero.mp hj)
  · have hcast : (j : K) ≤ k := Nat.cast_le.mpr hj
    exact .inr ⟨last, hb, hnonneg, hfrom, by linarith⟩

/-- No window yields more than a full bucket and its refill. -/
theorem Earned.le {stop : ℕ} (h : Earned refill burst start b k) (hrefill : 0 ≤ refill)
    (hburst : 0 ≤ burst) (hle : ∀ last, b = some last → start ≤ last.time → last.time ≤ stop) :
    (k : K) ≤ burst + ((stop - start : ℕ) : K) * refill := by
  obtain rfl | ⟨last, rfl, hnonneg, hfrom, hlast⟩ := h
  · have hgain : 0 ≤ ((stop - start : ℕ) : K) * refill := mul_nonneg (Nat.cast_nonneg _) hrefill
    push_cast
    linarith
  · have hto := hle last rfl hfrom
    have hlength : ((last.time - start : ℕ) : K) ≤ ((stop - start : ℕ) : K) :=
      Nat.cast_le.mpr (by omega)
    have hgain := mul_le_mul_of_nonneg_right hlength hrefill
    linarith

/-- A token is there as soon as the missing part was refilled. -/
theorem one_le_available {wait : ℕ} (hrefill : 0 < refill) (hburst : 1 ≤ burst)
    (hle : ∀ last, b = some last → last.time ≤ t)
    (hwait : (1 - available refill burst b t) / refill ≤ wait) :
    1 ≤ available refill burst b (t + wait) := by
  cases b with
  | none => exact hburst
  | some last =>
      refine le_min ?_ hburst
      have hto := hle last rfl
      have hmissing : 1 - available refill burst (some last) t ≤ (wait : K) * refill :=
        (div_le_iff₀ hrefill).mp hwait
      have hheld : available refill burst (some last) t ≤
          last.tokens + ((t - last.time : ℕ) : K) * refill := min_le_left _ _
      have hsplit : ((t + wait - last.time : ℕ) : K) * refill =
          ((t - last.time : ℕ) : K) * refill + (wait : K) * refill := by
        rw [← add_mul, ← Nat.cast_add]
        congr 2
        omega
      linarith

end TokenBucket
