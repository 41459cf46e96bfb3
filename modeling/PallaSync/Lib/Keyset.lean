import Mathlib.Data.List.Infix
import Mathlib.Data.List.Sort

/-!
# Keyset pages

Rows in the strict order of their keys are read page by page: a page takes
some rows from the first one after a key on, and the next page goes on after
the last key that was taken. No row is taken twice and none is passed over,
however many rows a page takes (`above_eq_append`).
-/

namespace Keyset

variable {ρ κ : Type*} (key : ρ → κ) (lt : κ → κ → Bool)

/-- The rows after a key. -/
def above (k : κ) (rows : List ρ) : List ρ := rows.filter fun r => lt k (key r)

/-- The key of the last row, `k` before the first. -/
def reached (k : κ) (rows : List ρ) : κ := (rows.getLast?.map key).getD k

/-- The rows are in the strict order of their keys. -/
abbrev Increasing (rows : List ρ) : Prop := rows.Pairwise fun x y => lt (key x) (key y) = true

/-- A strict order, of which no two members of a set of keys are equal. -/
structure Strict (P : κ → Prop) : Prop where
  irrefl : ∀ k, lt k k = false
  trans : ∀ {x y z}, lt x y = true → lt y z = true → lt x z = true
  total : ∀ {x y}, P x → P y → lt x y = false → lt y x = false → x = y

variable {key lt} {P : κ → Prop} {k : κ} {r : ρ} {rows taken : List ρ}

@[simp] theorem mem_above : r ∈ above key lt k rows ↔ r ∈ rows ∧ lt k (key r) = true := by
  rw [above, List.mem_filter]

@[simp] theorem reached_nil : reached key k [] = k := rfl

@[simp] theorem reached_cons : reached key k (r :: rows) = reached key (key r) rows := by
  cases rows with
  | nil => rfl
  | cons next rows => simp [reached, List.getLast?_cons]

theorem reached_append (xs ys : List ρ) :
    reached key k (xs ++ ys) = reached key (reached key k xs) ys := by
  induction xs generalizing k with
  | nil => rfl
  | cons x xs ih => rw [List.cons_append, reached_cons, reached_cons, ih]

namespace Strict

variable (h : Strict lt P)

include h

theorem ne {x y : κ} (hlt : lt x y = true) : x ≠ y := by
  rintro rfl
  rw [h.irrefl] at hlt
  cases hlt

theorem asymm {x y : κ} (hlt : lt x y = true) : lt y x = false := by
  cases hyx : lt y x with
  | false => rfl
  | true => exact absurd rfl (h.ne (h.trans hlt hyx))

/-- Increasing rows with the same members are the same. -/
theorem eq_of_mem_iff {rows' : List ρ} (hrows : Increasing key lt rows)
    (hrows' : Increasing key lt rows') (hmem : ∀ r, r ∈ rows ↔ r ∈ rows') : rows = rows' := by
  have hirrefl : Std.Irrefl fun x y : ρ => lt (key x) (key y) = true :=
    ⟨fun x => by rw [h.irrefl]; exact Bool.false_ne_true⟩
  have hanti : Std.Antisymm fun x y : ρ => lt (key x) (key y) = true :=
    ⟨fun x y hxy hyx => absurd rfl (h.ne (h.trans hxy hyx))⟩
  exact hrows.eq_of_mem_iff hrows' hmem

/-- Sorted rows with distinct keys are increasing. -/
theorem increasing_insertionSort {rows : List ρ} (hP : ∀ r ∈ rows, P (key r))
    (hkeys : (rows.map key).Nodup) (hneg : ∀ {x y z : κ}, lt y x = false → lt z y = false →
      lt z x = false) :
    Increasing key lt (rows.insertionSort fun x y => lt (key y) (key x) = false) := by
  have htotal : Std.Total fun x y : ρ => lt (key y) (key x) = false := by
    refine ⟨fun x y => ?_⟩
    cases hyx : lt (key y) (key x) with
    | false => exact .inl rfl
    | true => exact .inr (h.asymm hyx)
  have htrans : IsTrans ρ fun x y : ρ => lt (key y) (key x) = false := ⟨fun x y z => hneg⟩
  have hsorted := List.pairwise_insertionSort (fun x y : ρ => lt (key y) (key x) = false) rows
  have hnodup : ((rows.insertionSort fun x y => lt (key y) (key x) = false).map key).Nodup :=
    ((List.perm_insertionSort _ _).map key).nodup_iff.mpr hkeys
  refine (hsorted.and (List.pairwise_map.mp hnodup)).imp_of_mem ?_
  rintro x y hx hy ⟨hle, hne⟩
  rw [List.mem_insertionSort] at hx hy
  by_contra hlt
  exact hne (h.total (hP x hx) (hP y hy) (Bool.of_not_eq_true hlt) hle)

theorem le_reached (hrows : Increasing key lt rows) (hk : ∀ r ∈ rows, lt k (key r) = true) :
    (reached key k rows = k ∨ lt k (reached key k rows) = true) ∧
      ∀ r ∈ rows, key r = reached key k rows ∨ lt (key r) (reached key k rows) = true := by
  induction rows generalizing k with
  | nil => exact ⟨.inl rfl, by simp⟩
  | cons x rows ih =>
      obtain ⟨hx, hrest⟩ := List.pairwise_cons.mp hrows
      obtain ⟨hfirst, hall⟩ := ih hrest hx
      have hkx : lt k (key x) = true := hk x List.mem_cons_self
      rw [reached_cons]
      refine ⟨.inr ?_, List.forall_mem_cons.mpr ⟨?_, hall⟩⟩
      · obtain he | hlt := hfirst
        · rwa [he]
        · exact h.trans hkx hlt
      · exact hfirst.imp_left Eq.symm

/-- What a page takes and what is left for the next one. -/
theorem above_eq_append (hrows : Increasing key lt rows)
    (htaken : taken <+: above key lt k rows) :
    above key lt k rows = taken ++ above key lt (reached key k taken) rows := by
  obtain ⟨rest, hrest⟩ := htaken
  have hincreasing : Increasing key lt (taken ++ rest) := by
    rw [hrest]
    exact hrows.sublist List.filter_sublist
  obtain ⟨htakenInc, -, hacross⟩ := List.pairwise_append.mp hincreasing
  have hk : ∀ r ∈ taken, lt k (key r) = true := fun r hr => by
    have hmem : r ∈ above key lt k rows := by
      rw [← hrest]
      exact List.mem_append_left _ hr
    exact (mem_above.mp hmem).2
  obtain ⟨hfirst, hlast⟩ := h.le_reached htakenInc hk
  have hsub : above key lt (reached key k taken) rows =
      above key lt (reached key k taken) (above key lt k rows) := by
    rw [above, above, above, List.filter_filter]
    refine List.filter_congr fun r _ => ?_
    cases hr : lt (reached key k taken) (key r) with
    | false => rfl
    | true =>
        obtain he | hlt := hfirst
        · rw [he] at hr
          simp [hr]
        · simp [h.trans hlt hr]
  have hnone : taken.filter (fun r => lt (reached key k taken) (key r)) = [] := by
    refine List.filter_eq_nil_iff.mpr fun r hr => ?_
    obtain he | hlt := hlast r hr
    · rw [← he, h.irrefl]
      exact Bool.false_ne_true
    · rw [h.asymm hlt]
      exact Bool.false_ne_true
  have hall : rest.filter (fun r => lt (reached key k taken) (key r)) = rest := by
    refine List.filter_eq_self.mpr fun r hr => ?_
    cases htaken : taken.getLast? with
    | none =>
        have hmem : r ∈ above key lt k rows := by
          rw [← hrest]
          exact List.mem_append_right _ hr
        rw [reached, htaken]
        exact (mem_above.mp hmem).2
    | some x =>
        rw [reached, htaken]
        exact hacross x (List.mem_of_getLast? htaken) r hr
  rw [hsub, ← hrest, above, List.filter_append, hnone, hall, List.nil_append]

/-- A page and the pages after it take a part of the rows from the first on. -/
theorem prefix_append {taken' : List ρ} (hrows : Increasing key lt rows)
    (htaken : taken <+: above key lt k rows)
    (htaken' : taken' <+: above key lt (reached key k taken) rows) :
    taken ++ taken' <+: above key lt k rows := by
  rw [h.above_eq_append hrows htaken]
  exact (List.prefix_append_right_inj taken).mpr htaken'

end Strict

end Keyset
