import PallaSync.Json
import Mathlib.Data.List.Sort

/-!
# The order of texts

The server sorts identifiers, field names and query parameters by their bytes,
which is the order of their code points. It is a total order.
-/

namespace PallaSync

namespace Json

theorem charsLt_irrefl (x : List Char) : charsLt x x = false := by
  induction x with
  | nil => rfl
  | cons c x ih =>
      have hc : Nat.blt c.toNat c.toNat = false := by
        rw [Bool.eq_false_iff, ne_eq, Nat.blt_eq]
        exact Nat.lt_irrefl _
      simp [charsLt, ih, hc]

theorem charsLt_trans {x y z : List Char} (hxy : charsLt x y = true) (hyz : charsLt y z = true) :
    charsLt x z = true := by
  induction x generalizing y z with
  | nil =>
      rcases z with _ | ⟨d, z⟩
      · cases y <;> exact absurd hyz (by simp [charsLt])
      · rfl
  | cons c x ih =>
      rcases y with _ | ⟨d, y⟩
      · exact absurd hxy (by simp [charsLt])
      rcases z with _ | ⟨e, z⟩
      · exact absurd hyz (by simp [charsLt])
      simp only [charsLt, Bool.or_eq_true, Nat.blt_eq, Bool.and_eq_true, beq_iff_eq] at *
      rcases hxy with hlt | ⟨rfl, hxy⟩
      · rcases hyz with hlt' | ⟨rfl, _⟩
        · exact .inl (hlt.trans hlt')
        · exact .inl hlt
      · rcases hyz with hlt' | ⟨rfl, hyz⟩
        · exact .inl hlt'
        · exact .inr ⟨rfl, ih hxy hyz⟩

theorem charsLt_or_eq (x y : List Char) : charsLt x y = true ∨ x = y ∨ charsLt y x = true := by
  induction x generalizing y with
  | nil =>
      rcases y with _ | ⟨d, y⟩
      · exact .inr (.inl rfl)
      · exact .inl rfl
  | cons c x ih =>
      rcases y with _ | ⟨d, y⟩
      · exact .inr (.inr rfl)
      simp only [charsLt, Bool.or_eq_true, Nat.blt_eq, Bool.and_eq_true, beq_iff_eq]
      rcases Nat.lt_trichotomy c.toNat d.toNat with hlt | heq | hgt
      · exact .inl (.inl hlt)
      · have hcd : c = d := Char.toNat_inj.mp heq
        subst hcd
        rcases ih y with h | rfl | h
        · exact .inl (.inr ⟨rfl, h⟩)
        · exact .inr (.inl rfl)
        · exact .inr (.inr (.inr ⟨rfl, h⟩))
      · exact .inr (.inr (.inl hgt))

theorem textLt_irrefl (x : String) : textLt x x = false := charsLt_irrefl _

theorem textLt_trans {x y z : String} (hxy : textLt x y = true) (hyz : textLt y z = true) :
    textLt x z = true :=
  charsLt_trans hxy hyz

theorem textLt_or_eq (x y : String) : textLt x y = true ∨ x = y ∨ textLt y x = true := by
  rcases charsLt_or_eq x.toList y.toList with h | h | h
  · exact .inl h
  · exact .inr (.inl (String.toList_inj.mp h))
  · exact .inr (.inr h)

theorem textLt_asymm {x y : String} (h : textLt x y = true) : textLt y x = false := by
  by_contra hyx
  have hxx := textLt_trans h (Bool.of_not_eq_false hyx)
  rw [textLt_irrefl] at hxx
  cases hxx

theorem textLt_ne {x y : String} (h : textLt x y = true) : x ≠ y := by
  rintro rfl
  rw [textLt_irrefl] at h
  cases h

theorem textLe_iff {x y : String} : textLe x y = true ↔ textLt x y = true ∨ x = y := by
  unfold textLe
  rw [Bool.not_eq_true']
  constructor
  · intro h
    rcases textLt_or_eq x y with hlt | heq | hgt
    · exact .inl hlt
    · exact .inr heq
    · rw [h] at hgt
      cases hgt
  · rintro (h | rfl)
    · exact textLt_asymm h
    · exact textLt_irrefl x

instance : Std.Total fun x y : String => textLe x y = true where
  total x y := by
    rcases textLt_or_eq x y with h | rfl | h
    · exact .inl (textLe_iff.mpr (.inl h))
    · exact .inl (textLe_iff.mpr (.inr rfl))
    · exact .inr (textLe_iff.mpr (.inl h))

instance : IsTrans String fun x y => textLe x y = true where
  trans x y z hxy hyz := by
    rcases textLe_iff.mp hxy with hlt | rfl
    · rcases textLe_iff.mp hyz with hlt' | rfl
      · exact textLe_iff.mpr (.inl (textLt_trans hlt hlt'))
      · exact hxy
    · exact hyz

instance : Std.Antisymm fun x y : String => textLe x y = true where
  antisymm x y hxy hyx := by
    rcases textLe_iff.mp hxy with hlt | rfl
    · rcases textLe_iff.mp hyx with hgt | rfl
      · have hasymm := textLt_asymm hlt
        rw [hgt] at hasymm
        cases hasymm
      · rfl
    · rfl

end Json

end PallaSync
