import Mathlib.Data.List.Basic

/-!
# Public JSON values

The values the relay reads, stores and signs. Client objects reach the relay
through the strict parser, which admits no negative, fractional or large
number, so a number is a natural one. An object lists its members in key
order, as the map of the source does.

`s`, `n` and `a` read a member with the source's defaults: a missing or
mistyped member reads as the empty string, 0 or the empty array.
-/

namespace PallaSync

inductive Json where
  | null
  | bool (b : Bool)
  | num (n : Nat)
  | str (s : String)
  | arr (items : List Json)
  | obj (members : List (String × Json))
deriving Repr, Inhabited

namespace Json

mutual

def decEq : (x y : Json) → Decidable (x = y)
  | .null, .null => isTrue rfl
  | .bool x, .bool y =>
      if h : x = y then isTrue (by rw [h]) else isFalse (by simp [h])
  | .num x, .num y =>
      if h : x = y then isTrue (by rw [h]) else isFalse (by simp [h])
  | .str x, .str y =>
      if h : x = y then isTrue (by rw [h]) else isFalse (by simp [h])
  | .arr xs, .arr ys =>
      match decEqItems xs ys with
      | isTrue h => isTrue (by rw [h])
      | isFalse h => isFalse (by simp [h])
  | .obj xs, .obj ys =>
      match decEqMembers xs ys with
      | isTrue h => isTrue (by rw [h])
      | isFalse h => isFalse (by simp [h])
  | .null, .bool _ => isFalse nofun
  | .null, .num _ => isFalse nofun
  | .null, .str _ => isFalse nofun
  | .null, .arr _ => isFalse nofun
  | .null, .obj _ => isFalse nofun
  | .bool _, .null => isFalse nofun
  | .bool _, .num _ => isFalse nofun
  | .bool _, .str _ => isFalse nofun
  | .bool _, .arr _ => isFalse nofun
  | .bool _, .obj _ => isFalse nofun
  | .num _, .null => isFalse nofun
  | .num _, .bool _ => isFalse nofun
  | .num _, .str _ => isFalse nofun
  | .num _, .arr _ => isFalse nofun
  | .num _, .obj _ => isFalse nofun
  | .str _, .null => isFalse nofun
  | .str _, .bool _ => isFalse nofun
  | .str _, .num _ => isFalse nofun
  | .str _, .arr _ => isFalse nofun
  | .str _, .obj _ => isFalse nofun
  | .arr _, .null => isFalse nofun
  | .arr _, .bool _ => isFalse nofun
  | .arr _, .num _ => isFalse nofun
  | .arr _, .str _ => isFalse nofun
  | .arr _, .obj _ => isFalse nofun
  | .obj _, .null => isFalse nofun
  | .obj _, .bool _ => isFalse nofun
  | .obj _, .num _ => isFalse nofun
  | .obj _, .str _ => isFalse nofun
  | .obj _, .arr _ => isFalse nofun

def decEqItems : (xs ys : List Json) → Decidable (xs = ys)
  | [], [] => isTrue rfl
  | [], _ :: _ => isFalse nofun
  | _ :: _, [] => isFalse nofun
  | x :: xs, y :: ys =>
      match decEq x y, decEqItems xs ys with
      | isTrue h, isTrue hs => isTrue (by rw [h, hs])
      | isFalse h, _ => isFalse (by simp [h])
      | _, isFalse hs => isFalse (by simp [hs])

def decEqMembers : (xs ys : List (String × Json)) → Decidable (xs = ys)
  | [], [] => isTrue rfl
  | [], _ :: _ => isFalse nofun
  | _ :: _, [] => isFalse nofun
  | (k, x) :: xs, (k', y) :: ys =>
      if hk : k = k' then
        match decEq x y, decEqMembers xs ys with
        | isTrue h, isTrue hs => isTrue (by rw [hk, h, hs])
        | isFalse h, _ => isFalse (by simp [h])
        | _, isFalse hs => isFalse (by simp [hs])
      else isFalse (by simp [hk])

end

instance : DecidableEq Json := decEq

/-- `v[key]`: `null` when there is no such member. -/
def get : Json → String → Json
  | .obj members, key => (members.lookup key).getD .null
  | _, _ => .null

/-- `v.get(key)`: distinguishes a missing member from a null one. -/
def get? : Json → String → Option Json
  | .obj members, key => members.lookup key
  | _, _ => none

def asStr : Json → Option String
  | .str s => some s
  | _ => none

def asNat : Json → Option Nat
  | .num n => some n
  | _ => none

def asArr : Json → Option (List Json)
  | .arr items => some items
  | _ => none

def isNull : Json → Bool
  | .null => true
  | _ => false

/-- A string, or `null`. -/
def ofOption : Option String → Json
  | some s => .str s
  | none => .null

/-- A number, or `null`. -/
def ofOptionNat : Option Nat → Json
  | some n => .num n
  | none => .null

/-- An object without one of its members. -/
def remove : Json → String → Json
  | .obj members, key => .obj (members.filter fun p => p.1 != key)
  | v, _ => v

/-- Texts are compared by their code points. -/
def charsLt : List Char → List Char → Bool
  | _, [] => false
  | [], _ :: _ => true
  | x :: xs, y :: ys => Nat.blt x.toNat y.toNat || (x == y && charsLt xs ys)

def textLt (x y : String) : Bool := charsLt x.toList y.toList

def textLe (x y : String) : Bool := !textLt y x

/-- Insert or overwrite one member, keeping the members in key order. -/
def setMember (key : String) (x : Json) : List (String × Json) → List (String × Json)
  | [] => [(key, x)]
  | (k, y) :: rest =>
      if key = k then (key, x) :: rest
      else if textLt key k then (key, x) :: (k, y) :: rest
      else (k, y) :: setMember key x rest

theorem lookup_setMember (key : String) (x : Json) (members : List (String × Json))
    (name : String) :
    (setMember key x members).lookup name =
      if name = key then some x else members.lookup name := by
  induction members with
  | nil =>
      by_cases h : name = key
      · simp [setMember, h]
      · simp [setMember, h, List.lookup_cons, beq_eq_false_iff_ne.mpr h]
  | cons m rest ih =>
      obtain ⟨k, y⟩ := m
      unfold setMember
      by_cases hk : key = k
      · subst hk
        by_cases h : name = key
        · simp [h]
        · simp [h, List.lookup_cons, beq_eq_false_iff_ne.mpr h]
      · rw [if_neg hk]
        by_cases h : name = key
        · subst h
          rw [if_pos rfl]
          split
          · simp
          · rw [List.lookup_cons, beq_eq_false_iff_ne.mpr hk]
            exact ih.trans (if_pos rfl)
        · rw [if_neg h] at ih ⊢
          split
          · simp [List.lookup_cons, beq_eq_false_iff_ne.mpr h]
          · rw [List.lookup_cons, List.lookup_cons, ih]

/-- `v[key] = x`. -/
def set : Json → String → Json → Json
  | .obj members, key, x => .obj (setMember key x members)
  | v, _, _ => v

theorem get_set (members : List (String × Json)) (key : String) (x : Json) (name : String) :
    ((Json.obj members).set key x).get name =
      if name = key then x else (Json.obj members).get name := by
  show ((setMember key x members).lookup name).getD .null = _
  rw [lookup_setMember]
  split <;> rfl

theorem remove_set (v : Json) (key : String) (x : Json) :
    (v.set key x).remove key = v.remove key := by
  cases v with
  | obj members =>
      refine congrArg obj ?_
      induction members with
      | nil => simp [setMember]
      | cons m rest ih =>
          obtain ⟨k, y⟩ := m
          unfold setMember
          split
          · rename_i hk
            simp [hk]
          · split
            · simp
            · simp [List.filter_cons, ih]
  | null | bool _ | num _ | str _ | arr _ => rfl

theorem get_set_ne (v : Json) {key name : String} (x : Json) (h : name ≠ key) :
    (v.set key x).get name = v.get name := by
  cases v with
  | obj members => rw [get_set, if_neg h]
  | null | bool _ | num _ | str _ | arr _ => rfl

end Json

/-- `v[key].as_str().unwrap_or("")` -/
def s (v : Json) (key : String) : String := (v.get key).asStr.getD ""

/-- `v[key].as_u64().unwrap_or(0)` -/
def n (v : Json) (key : String) : Nat := (v.get key).asNat.getD 0

/-- `v[key].as_array()`, or the empty array. -/
def a (v : Json) (key : String) : List Json := (v.get key).asArr.getD []

/-- The array at `key` as strings; `""` stands for an element that is none,
which the checked schemas exclude. -/
def strings (v : Json) (key : String) : List String :=
  (a v key).map fun x => x.asStr.getD ""

theorem mem_strings {v : Json} {key id : String} :
    id ∈ strings v key ↔ ∃ x ∈ a v key, x.asStr.getD "" = id := by
  simp [strings]

end PallaSync
