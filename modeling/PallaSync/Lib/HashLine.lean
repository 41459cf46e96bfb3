import Mathlib.Data.Option.Basic

/-!
# Hash lines

A hash line is a numbered sequence of entries in which the hash at position
`i` is computed from the hash at `i - 1`, the number `i` and a digest of the
entry; position 0 carries a fixed initial hash. The entries may be dropped
and even their digests kept elsewhere, so a line is described by two
relations and not by a list: `row i` is the hash stored at position `i`, and
`digest i d` says that `d` is what is recorded of entry `i`.

`Linked` is the whole law (the positions are exactly `1..len`, every hash is
the link of its predecessor, the last one is `last`). Two lemmas carry it
through any program: `Linked.extend` for one entry added at the end, and
`Linked.mono` for changes that leave the stored hashes alone and lose no
digest.
-/

namespace HashLine

variable {H D : Type*}

/-- The hash at position `i`, the initial one at 0. -/
def hashAt (h0 : H) (row : Nat → Option H) (i : Nat) : Option H :=
  if i = 0 then some h0 else row i

@[simp] theorem hashAt_zero (h0 : H) (row : Nat → Option H) :
    hashAt h0 row 0 = some h0 := rfl

theorem hashAt_pos {h0 : H} {row : Nat → Option H} {i : Nat} (hi : 0 < i) :
    hashAt h0 row i = row i :=
  if_neg (Nat.pos_iff_ne_zero.mp hi)

theorem hashAt_congr {h0 : H} {row row' : Nat → Option H} {i : Nat}
    (h : row' i = row i) : hashAt h0 row' i = hashAt h0 row i := by
  unfold hashAt
  rw [h]

/-- The positions with a hash are `1..len`, each hash links to the one before
it through a recorded digest, and the last is `last`. -/
structure Linked (link : H → Nat → D → H) (h0 : H) (row : Nat → Option H)
    (digest : Nat → D → Prop) (len : Nat) (last : H) : Prop where
  dom : ∀ i, (row i).isSome ↔ 1 ≤ i ∧ i ≤ len
  linked : ∀ i h, row i = some h →
    ∃ p d, hashAt h0 row (i - 1) = some p ∧ digest i d ∧ h = link p i d
  last_eq : hashAt h0 row len = some last

variable {link : H → Nat → D → H} {h0 : H} {row row' : Nat → Option H}
  {digest digest' : Nat → D → Prop} {len : Nat} {last : H}

theorem linked_empty (h : ∀ i, row i = none) : Linked link h0 row digest 0 h0 where
  dom := fun i => by simp [h]; omega
  linked := fun i x hx => by rw [h] at hx; cases hx
  last_eq := rfl

/-- The line survives any change that keeps its hashes and its digests. -/
theorem Linked.mono (h : Linked link h0 row digest len last)
    (hrow : ∀ i, row' i = row i) (hd : ∀ i d, digest i d → digest' i d) :
    Linked link h0 row' digest' len last := by
  obtain rfl : row' = row := funext hrow
  refine ⟨h.dom, fun i x hx => ?_, h.last_eq⟩
  obtain ⟨p, d, hp, hdig, hx⟩ := h.linked i x hx
  exact ⟨p, d, hp, hd i d hdig, hx⟩

/-- One entry more: the new hash links to the old last one. -/
theorem Linked.extend (h : Linked link h0 row digest len last) {d : D}
    (hrow : ∀ i, i ≠ len + 1 → row' i = row i)
    (hnew : row' (len + 1) = some (link last (len + 1) d))
    (hd : ∀ i x, digest i x → digest' i x) (hdnew : digest' (len + 1) d) :
    Linked link h0 row' digest' (len + 1) (link last (len + 1) d) where
  dom := fun i => by
    by_cases hi : i = len + 1
    · subst hi
      simp [hnew]
    · rw [hrow i hi, h.dom]
      omega
  linked := fun i x hx => by
    by_cases hi : i = len + 1
    · subst hi
      obtain rfl : link last (len + 1) d = x := Option.some.inj (hnew.symm.trans hx)
      refine ⟨last, d, ?_, hdnew, rfl⟩
      rw [Nat.add_sub_cancel, hashAt_congr (hrow len (by omega))]
      exact h.last_eq
    · rw [hrow i hi] at hx
      have hbound := (h.dom i).mp (by rw [hx]; rfl)
      obtain ⟨p, dx, hp, hdig, hx⟩ := h.linked i x hx
      refine ⟨p, dx, ?_, hd i dx hdig, hx⟩
      rw [hashAt_congr (hrow (i - 1) (by omega))]
      exact hp
  last_eq := by rw [hashAt_pos (Nat.succ_pos len), hnew]

end HashLine
