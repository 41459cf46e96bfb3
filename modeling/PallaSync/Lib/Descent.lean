import Mathlib.Data.List.Nodup

/-!
# Descents

Things that point to other things, down to roots: who vouched for whom, up to
an authority that needs no voucher. `Grounded` says that from `a` the links
lead to a root; since it is built from the roots on, whatever adds one grounded
thing at a time keeps everything grounded (`Grounded.mono`, `.link`).

Where every thing has at most one link, and a root has none, there is one way
down (`Path.unique`), so it passes nothing twice (`Path.nodup`).
-/

namespace Descent

variable {α : Type*} {root root' : α → Prop} {link link' : α → α → Prop} {a b : α}
  {path path' : List α}

/-- From `a` the links lead to a root. -/
inductive Grounded (root : α → Prop) (link : α → α → Prop) : α → Prop where
  | root {x : α} : root x → Grounded root link x
  | link {x y : α} : link x y → Grounded root link y → Grounded root link x

theorem Grounded.mono (h : Grounded root link a) (hroot : ∀ a, root a → root' a)
    (hlink : ∀ a b, link a b → link' a b) : Grounded root' link' a := by
  induction h with
  | root h => exact .root (hroot _ h)
  | link h _ ih => exact .link (hlink _ _ h) ih

/-- A way from `a` down to a root. -/
inductive Path (root : α → Prop) (link : α → α → Prop) : α → List α → Prop where
  | root {x : α} : root x → Path root link x [x]
  | link {x y : α} {ys : List α} : link x y → Path root link y ys → Path root link x (x :: ys)

namespace Path

theorem mono (h : Path root link a path) (hroot : ∀ a, root a → root' a)
    (hlink : ∀ a b, link a b → link' a b) : Path root' link' a path := by
  induction h with
  | root h => exact .root (hroot _ h)
  | link h _ ih => exact .link (hlink _ _ h) ih

/-- What a property of the first point gives the next one, all points have. -/
theorem all {P : α → Prop} (h : Path root link a path) (ha : P a)
    (hlink : ∀ a b, P a → link a b → P b) : ∀ x ∈ path, P x := by
  induction h with
  | root _ => simpa using ha
  | link hab _ ih => exact List.forall_mem_cons.mpr ⟨ha, ih (hlink _ _ ha hab)⟩

/-- Every point of the way has its own way down, a tail of it. -/
theorem suffix (h : Path root link a path) (hb : b ∈ path) :
    ∃ path', Path root link b path' ∧ path' <:+ path := by
  induction h with
  | root h =>
      obtain rfl := List.mem_singleton.mp hb
      exact ⟨_, .root h, List.suffix_rfl⟩
  | link hab h ih =>
      obtain rfl | hb := List.mem_cons.mp hb
      · exact ⟨_, .link hab h, List.suffix_rfl⟩
      · obtain ⟨path', hpath, hsuffix⟩ := ih hb
        exact ⟨path', hpath, hsuffix.trans (List.suffix_cons _ _)⟩

section Deterministic

variable (hroot : ∀ a b, root a → ¬link a b)
  (hlink : ∀ a b b', link a b → link a b' → b = b')

include hroot hlink

/-- There is one way down. -/
theorem unique (h : Path root link a path) (h' : Path root link a path') : path = path' := by
  induction h generalizing path' with
  | root hr =>
      cases h' with
      | root _ => rfl
      | link hab _ => exact absurd hab (hroot _ _ hr)
  | link hab _ ih =>
      cases h' with
      | root hr => exact absurd hab (hroot _ _ hr)
      | link hab' h' =>
          obtain rfl := hlink _ _ _ hab hab'
          rw [ih h']

/-- The way down passes nothing twice. -/
theorem nodup (h : Path root link a path) : path.Nodup := by
  induction h with
  | root _ => exact List.nodup_singleton _
  | @link a b path hab h ih =>
      refine List.nodup_cons.mpr ⟨fun hmem => ?_, ih⟩
      obtain ⟨path', hpath, hsuffix⟩ := h.suffix hmem
      have hlength := hsuffix.length_le
      rw [hpath.unique hroot hlink (.link hab h), List.length_cons] at hlength
      omega

end Deterministic

end Path

/-- What is grounded has a way down. -/
theorem Grounded.exists_path (h : Grounded root link a) : ∃ path, Path root link a path := by
  induction h with
  | root h => exact ⟨_, .root h⟩
  | link hab _ ih =>
      obtain ⟨path, hpath⟩ := ih
      exact ⟨_, .link hab hpath⟩

end Descent
