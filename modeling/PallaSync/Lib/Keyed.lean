import Mathlib.Data.List.Nodup
import Mathlib.Data.List.Perm.Basic

/-!
# Keyed tables

A table is a list of rows no two of which share a key, the way a relational
store keeps a `PRIMARY KEY`. The uniqueness is a field of the table, so a
table with a duplicate key cannot be built and no later proof re-proves it:
`insert?` is the only way to add a row and it refuses a taken key, `update`
asks for a proof that the rewriting leaves keys alone, `delete` only drops
rows.

Everything is stated over membership. A row is found by its key exactly when
it is a member (`find?_eq_some`), and each operation comes with the one
lemma that says which rows are members afterwards.
-/

/-- A list of rows with pairwise distinct keys. -/
structure Table (ρ : Type*) {κ : Type*} (key : ρ → κ) where
  rows : List ρ
  keyed : (rows.map key).Nodup

namespace Table

variable {ρ κ : Type*} {key : ρ → κ}

instance : Membership ρ (Table ρ key) := ⟨fun t r => r ∈ t.rows⟩

theorem mem_def {t : Table ρ key} {r : ρ} : r ∈ t ↔ r ∈ t.rows := Iff.rfl

/-- Two members with one key are one row. -/
theorem eq_of_key {t : Table ρ key} {r r' : ρ} (hr : r ∈ t) (hr' : r' ∈ t)
    (h : key r = key r') : r = r' :=
  List.inj_on_of_nodup_map t.keyed hr hr' h

def empty : Table ρ key := ⟨[], List.nodup_nil⟩

instance : Inhabited (Table ρ key) := ⟨empty⟩

@[simp] theorem not_mem_empty (r : ρ) : r ∉ (empty : Table ρ key) :=
  List.not_mem_nil

/-! ## Lookup -/

section Lookup

variable [DecidableEq κ]

/-- The row with key `k`, if there is one. -/
def find? (t : Table ρ key) (k : κ) : Option ρ :=
  t.rows.find? fun r => decide (key r = k)

theorem find?_eq_some {t : Table ρ key} {k : κ} {r : ρ} :
    t.find? k = some r ↔ r ∈ t ∧ key r = k := by
  constructor
  · intro h
    exact ⟨List.mem_of_find?_eq_some h, by simpa using List.find?_some h⟩
  · rintro ⟨hr, rfl⟩
    cases h : t.find? (key r) with
    | none =>
        have hne := List.find?_eq_none.mp h r hr
        simp at hne
    | some r' =>
        have hk : key r' = key r := by simpa using List.find?_some h
        rw [eq_of_key (List.mem_of_find?_eq_some h) hr hk]

theorem find?_eq_none {t : Table ρ key} {k : κ} :
    t.find? k = none ↔ ∀ r ∈ t, key r ≠ k := by
  simp [find?, List.find?_eq_none, mem_def]

theorem find?_of_mem {t : Table ρ key} {r : ρ} (h : r ∈ t) :
    t.find? (key r) = some r :=
  find?_eq_some.mpr ⟨h, rfl⟩

theorem find?_isSome {t : Table ρ key} {k : κ} :
    (t.find? k).isSome ↔ ∃ r ∈ t, key r = k := by
  rw [Option.isSome_iff_exists]
  exact exists_congr fun r => find?_eq_some

@[simp] theorem find?_empty (k : κ) : (empty : Table ρ key).find? k = none := rfl

theorem mem_of_find? {t : Table ρ key} {k : κ} {r : ρ} (h : t.find? k = some r) : r ∈ t :=
  (find?_eq_some.mp h).1

/-- A row that was found has the key it was found by. -/
theorem key_of_find? {t : Table ρ key} {k : κ} {r : ρ} (h : t.find? k = some r) : key r = k :=
  (find?_eq_some.mp h).2

/-- Lookup depends only on the members with that key. -/
theorem find?_congr {t t' : Table ρ key} {k : κ}
    (h : ∀ r, key r = k → (r ∈ t ↔ r ∈ t')) : t.find? k = t'.find? k := by
  refine Option.ext fun r => ?_
  rw [find?_eq_some, find?_eq_some]
  exact ⟨fun ⟨hr, hk⟩ => ⟨(h r hk).mp hr, hk⟩, fun ⟨hr, hk⟩ => ⟨(h r hk).mpr hr, hk⟩⟩

end Lookup

/-! ## Insertion -/

section Insert

variable [DecidableEq κ]

/-- Add a row; `none` when its key is taken. -/
def insert? (t : Table ρ key) (r : ρ) : Option (Table ρ key) :=
  if h : key r ∈ t.rows.map key then none
  else some ⟨t.rows ++ [r], by
    rw [List.map_append, List.nodup_append]
    exact ⟨t.keyed, by simp, fun a ha b hb he => h (by simp_all)⟩⟩

/-- Add a row unless its key is taken. -/
def insertIgnore (t : Table ρ key) (r : ρ) : Table ρ key :=
  (t.insert? r).getD t

theorem insert?_eq_some {t t' : Table ρ key} {r : ρ} (h : t.insert? r = some t') :
    (∀ x ∈ t, key x ≠ key r) ∧ ∀ x, x ∈ t' ↔ x ∈ t ∨ x = r := by
  unfold insert? at h
  split at h
  · cases h
  · rename_i hn
    obtain rfl := Option.some.inj h
    refine ⟨fun x hx he => hn (List.mem_map.mpr ⟨x, hx, he⟩), fun x => ?_⟩
    simp [mem_def]

theorem insert?_eq_none {t : Table ρ key} {r : ρ} :
    t.insert? r = none ↔ ∃ x ∈ t, key x = key r := by
  unfold insert?
  split
  · rename_i h
    simpa [mem_def] using h
  · rename_i h
    simpa [mem_def] using h

/-- A row whose key is free can be added. -/
theorem insert?_of_free {t : Table ρ key} {r : ρ} (h : t.find? (key r) = none) :
    ∃ t', t.insert? r = some t' := by
  cases ht : t.insert? r with
  | some t' => exact ⟨t', rfl⟩
  | none =>
      obtain ⟨x, hx, hk⟩ := insert?_eq_none.mp ht
      exact absurd hk (find?_eq_none.mp h x hx)

theorem find?_insert?_of_ne {t t' : Table ρ key} {r : ρ} {k : κ}
    (h : t.insert? r = some t') (hk : key r ≠ k) : t'.find? k = t.find? k := by
  refine find?_congr fun x hx => ?_
  rw [(insert?_eq_some h).2]
  exact ⟨fun hm => hm.resolve_right fun he => hk (he ▸ hx), Or.inl⟩

theorem find?_insert?_self {t t' : Table ρ key} {r : ρ}
    (h : t.insert? r = some t') : t'.find? (key r) = some r :=
  find?_of_mem (((insert?_eq_some h).2 r).mpr (Or.inr rfl))

/-- The key of an added row was free. -/
theorem find?_insert?_free {t t' : Table ρ key} {r : ρ} (h : t.insert? r = some t') :
    t.find? (key r) = none :=
  find?_eq_none.mpr (insert?_eq_some h).1

/-- Every lookup after an insertion. -/
theorem find?_insert? {t t' : Table ρ key} {r : ρ} (h : t.insert? r = some t') (k : κ) :
    t'.find? k = if k = key r then some r else t.find? k := by
  split
  · rename_i hk
    rw [hk]
    exact find?_insert?_self h
  · rename_i hk
    exact find?_insert?_of_ne h (Ne.symm hk)

/-- The members of a table one lookup of which is new. -/
theorem mem_of_find?_insert {t t' : Table ρ key} {k : κ} {r : ρ}
    (h : ∀ q, t'.find? q = if q = k then some r else t.find? q) {x : ρ} (hx : x ∈ t') :
    x ∈ t ∨ x = r := by
  have hfind := find?_of_mem hx
  rw [h] at hfind
  split at hfind
  · exact .inr (Option.some.inj hfind).symm
  · exact .inl (mem_of_find? hfind)

theorem find?_of_find?_insert {t t' : Table ρ key} {k : κ} {r : ρ}
    (h : ∀ q, t'.find? q = if q = k then some r else t.find? q) (hfree : t.find? k = none)
    {q : κ} {x : ρ} (hx : t.find? q = some x) : t'.find? q = some x := by
  rw [h, if_neg]
  · exact hx
  · rintro rfl
    exact absurd (hfree.symm.trans hx) (by simp)

theorem find?_insertIgnore (t : Table ρ key) (r : ρ) (k : κ) :
    (t.insertIgnore r).find? k =
      if k = key r then some ((t.find? k).getD r) else t.find? k := by
  unfold insertIgnore
  cases hi : t.insert? r with
  | some t' =>
      rw [Option.getD_some, find?_insert? hi]
      split
      · rename_i hk
        rw [hk, find?_insert?_free hi, Option.getD_none]
      · rfl
  | none =>
      rw [Option.getD_none]
      split
      · rename_i hk
        obtain ⟨x, hx, he⟩ := insert?_eq_none.mp hi
        rw [find?_eq_some.mpr ⟨hx, he.trans hk.symm⟩, Option.getD_some]
      · rfl

/-- A row whose key is taken is not added. -/
theorem insertIgnore_of_found {t : Table ρ key} {r : ρ} (h : (t.find? (key r)).isSome) :
    t.insertIgnore r = t := by
  obtain ⟨x, hx⟩ := Option.isSome_iff_exists.mp h
  rw [insertIgnore, insert?_eq_none.mpr ⟨x, find?_eq_some.mp hx⟩, Option.getD_none]

theorem mem_insertIgnore_of_mem {t : Table ρ key} {r x : ρ} (h : x ∈ t) :
    x ∈ t.insertIgnore r := by
  unfold insertIgnore
  cases hi : t.insert? r with
  | none => exact h
  | some t' => exact ((insert?_eq_some hi).2 x).mpr (Or.inl h)

theorem mem_insertIgnore {t : Table ρ key} {r x : ρ} (h : x ∈ t.insertIgnore r) :
    x ∈ t ∨ (x = r ∧ ∀ y ∈ t, key y ≠ key r) := by
  unfold insertIgnore at h
  cases hi : t.insert? r with
  | none => exact Or.inl (by simpa [hi] using h)
  | some t' =>
      rw [hi, Option.getD_some, (insert?_eq_some hi).2] at h
      exact h.imp_right fun he => ⟨he, (insert?_eq_some hi).1⟩

/-- What all rows and an added one have, all rows have afterwards. -/
theorem forall_insert? {t t' : Table ρ key} {r : ρ} {P : ρ → Prop} (h : ∀ x ∈ t, P x) (hr : P r)
    (hi : t.insert? r = some t') : ∀ x ∈ t', P x := fun x hx => by
  obtain hx | rfl := ((insert?_eq_some hi).2 x).mp hx
  · exact h x hx
  · exact hr

theorem forall_insertIgnore {t : Table ρ key} {r : ρ} {P : ρ → Prop} (h : ∀ x ∈ t, P x)
    (hr : P r) : ∀ x ∈ t.insertIgnore r, P x := fun x hx => by
  obtain hx | ⟨rfl, -⟩ := mem_insertIgnore hx
  · exact h x hx
  · exact hr

end Insert

/-! ## Rewriting and deletion -/

/-- Rewrite the rows that satisfy `p`; the rewriting must not touch keys. -/
def update (t : Table ρ key) (p : ρ → Bool) (f : ρ → ρ)
    (hf : ∀ r, key (f r) = key r) : Table ρ key :=
  ⟨t.rows.map fun r => if p r then f r else r, by
    rw [List.map_map]
    have hk : (key ∘ fun r => if p r then f r else r) = key := by
      funext r
      simp only [Function.comp]
      split
      · exact hf r
      · rfl
    rw [hk]
    exact t.keyed⟩

theorem mem_update {t : Table ρ key} {p : ρ → Bool} {f : ρ → ρ}
    {hf : ∀ r, key (f r) = key r} {x : ρ} :
    x ∈ t.update p f hf ↔ ∃ r ∈ t, x = if p r then f r else r := by
  simp only [mem_def, update, List.mem_map]
  exact exists_congr fun r => and_congr_right fun _ => eq_comm

/-- What all rows have and the rewriting keeps, all rows have afterwards. -/
theorem forall_update {t : Table ρ key} {p : ρ → Bool} {f : ρ → ρ} (hf : ∀ r, key (f r) = key r)
    {P : ρ → Prop} (h : ∀ r ∈ t, P r) (hP : ∀ r, P r → P (f r)) : ∀ r ∈ t.update p f hf, P r :=
  fun x hx => by
    obtain ⟨r, hr, rfl⟩ := mem_update.mp hx
    split
    · exact hP r (h r hr)
    · exact h r hr

theorem mem_update_of_mem {t : Table ρ key} {p : ρ → Bool} {f : ρ → ρ}
    {hf : ∀ r, key (f r) = key r} {r : ρ} (h : r ∈ t) :
    (if p r then f r else r) ∈ t.update p f hf :=
  mem_update.mpr ⟨r, h, rfl⟩

theorem find?_update [DecidableEq κ] {t : Table ρ key} {p : ρ → Bool} {f : ρ → ρ}
    (hf : ∀ r, key (f r) = key r) {k : κ} :
    (t.update p f hf).find? k = (t.find? k).map fun r => if p r then f r else r := by
  cases h : t.find? k with
  | none =>
      rw [Option.map_none, find?_eq_none]
      intro x hx
      obtain ⟨r, hr, rfl⟩ := mem_update.mp hx
      have := find?_eq_none.mp h r hr
      split
      · rwa [hf]
      · exact this
  | some r =>
      obtain ⟨hr, hk⟩ := find?_eq_some.mp h
      rw [Option.map_some, find?_eq_some]
      refine ⟨mem_update_of_mem hr, ?_⟩
      split
      · rwa [hf]
      · exact hk

/-- Rewrite every row by its position; the rewriting must not touch keys. -/
def mapIdx (t : Table ρ key) (f : Nat → ρ → ρ) (hf : ∀ i r, key (f i r) = key r) :
    Table ρ key :=
  ⟨t.rows.mapIdx f, by
    have hk : (t.rows.mapIdx f).map key = t.rows.map key := by
      refine List.ext_getElem (by simp) fun i h₁ h₂ => ?_
      simp [hf]
    rw [hk]
    exact t.keyed⟩

theorem find?_mapIdx_none [DecidableEq κ] {t : Table ρ key} {f : Nat → ρ → ρ}
    (hf : ∀ i r, key (f i r) = key r) {k : κ} (h : t.find? k = none) :
    (t.mapIdx f hf).find? k = none := by
  rw [find?_eq_none] at h ⊢
  intro x hx
  obtain ⟨i, hi, rfl⟩ := List.mem_mapIdx.mp hx
  rw [hf]
  exact h _ (List.getElem_mem hi)

theorem find?_mapIdx_some [DecidableEq κ] {t : Table ρ key} {f : Nat → ρ → ρ}
    (hf : ∀ i r, key (f i r) = key r) {k : κ} {r : ρ} (h : t.find? k = some r) :
    ∃ i, ∃ _ : (r, i) ∈ t.rows.zipIdx, (t.mapIdx f hf).find? k = some (f i r) := by
  obtain ⟨hr, hk⟩ := find?_eq_some.mp h
  obtain ⟨i, hi, rfl⟩ := List.mem_iff_getElem.mp hr
  refine ⟨i, List.mem_zipIdx_iff_getElem?.mpr (by simp [hi]), find?_eq_some.mpr ⟨?_, ?_⟩⟩
  · exact List.mem_mapIdx.mpr ⟨i, hi, rfl⟩
  · rw [hf]
    exact hk

/-- Drop the rows that satisfy `p`. -/
def delete (t : Table ρ key) (p : ρ → Bool) : Table ρ key :=
  ⟨t.rows.filter fun r => !p r, t.keyed.sublist (List.filter_sublist.map _)⟩

theorem mem_delete {t : Table ρ key} {p : ρ → Bool} {x : ρ} :
    x ∈ t.delete p ↔ x ∈ t ∧ p x = false := by
  simp [mem_def, delete]

/-- Write a row over the row with its key, or add it. -/
def upsert [DecidableEq κ] (t : Table ρ key) (r : ρ) : Table ρ key :=
  (t.delete fun x => decide (key x = key r)).insertIgnore r

theorem mem_upsert [DecidableEq κ] {t : Table ρ key} {r x : ρ} :
    x ∈ t.upsert r ↔ x = r ∨ (x ∈ t ∧ key x ≠ key r) := by
  have hfree : ∀ y ∈ t.delete fun x => decide (key x = key r), key y ≠ key r :=
    fun y hy => by simpa using (mem_delete.mp hy).2
  unfold upsert insertIgnore
  cases hi : (t.delete fun x => decide (key x = key r)).insert? r with
  | none =>
      obtain ⟨y, hy, he⟩ := insert?_eq_none.mp hi
      exact absurd he (hfree y hy)
  | some t' =>
      rw [Option.getD_some, (insert?_eq_some hi).2, mem_delete]
      simp [or_comm]

theorem find?_upsert [DecidableEq κ] (t : Table ρ key) (r : ρ) (k : κ) :
    (t.upsert r).find? k = if k = key r then some r else t.find? k := by
  refine Option.ext fun x => ?_
  rw [find?_eq_some, mem_upsert]
  by_cases hk : k = key r
  · rw [if_pos hk, Option.some.injEq]
    constructor
    · rintro ⟨rfl | ⟨-, hne⟩, hkey⟩
      · rfl
      · exact absurd (hkey.trans hk) hne
    · rintro rfl
      exact ⟨.inl rfl, hk.symm⟩
  · rw [if_neg hk, find?_eq_some]
    constructor
    · rintro ⟨rfl | ⟨hx, -⟩, hkey⟩
      · exact absurd hkey.symm hk
      · exact ⟨hx, hkey⟩
    · rintro ⟨hx, rfl⟩
      exact ⟨.inr ⟨hx, hk⟩, rfl⟩

/-! ## Selection -/

/-- The rows that satisfy `p`, in table order. -/
def select (t : Table ρ key) (p : ρ → Bool) : List ρ := t.rows.filter p

theorem mem_select {t : Table ρ key} {p : ρ → Bool} {x : ρ} :
    x ∈ t.select p ↔ x ∈ t ∧ p x = true := by
  simp [select, mem_def]

theorem select_nodup (t : Table ρ key) (p : ρ → Bool) : ((t.select p).map key).Nodup :=
  t.keyed.sublist (List.filter_sublist.map _)

/-- The rows with one key are the row with this key. -/
theorem select_key [DecidableEq κ] (t : Table ρ key) (k : κ) :
    t.select (fun r => decide (key r = k)) = (t.find? k).toList := by
  obtain ⟨rows, keyed⟩ := t
  show rows.filter (fun r => decide (key r = k)) = (rows.find? fun r => decide (key r = k)).toList
  induction rows with
  | nil => rfl
  | cons r rows ih =>
      obtain ⟨hfresh, hkeyed⟩ := List.nodup_cons.mp keyed
      rw [List.filter_cons, List.find?_cons]
      cases hk : decide (key r = k) with
      | false => exact ih hkeyed
      | true =>
          have hnone : rows.filter (fun x => decide (key x = k)) = [] := by
            refine List.filter_eq_nil_iff.mpr fun x hx h => hfresh ?_
            rw [of_decide_eq_true hk, ← of_decide_eq_true h]
            exact List.mem_map_of_mem hx
          rw [hnone]
          rfl

/-- The number of rows that satisfy `p`. -/
def count (t : Table ρ key) (p : ρ → Bool) : Nat := (t.select p).length

end Table
