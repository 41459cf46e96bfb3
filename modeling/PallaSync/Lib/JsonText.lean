import Mathlib.Data.List.Basic

/-!
# JSON texts

The grammar of RFC 8259 as a relation between a tree and the texts that write
it, by recursion on the tree. Strings are decoded: an escape `\u` names a code
unit, two surrogates in a row name one character, and a surrogate without its
partner names none, so that a text with one writes no tree. Numbers are kept as
their tokens and members in their order, duplicates included. A text writes one
tree at most (`text_unique`).
-/

namespace JsonText

/-- What a text writes. -/
inductive Tree where
  | null
  | bool (b : Bool)
  | number (token : List Char)
  | string (text : String)
  | array (items : List Tree)
  | object (members : List (String × Tree))

/-! ## Tokens -/

def IsWs (t : List Char) : Prop := ∀ c ∈ t, c = ' ' ∨ c = '\t' ∨ c = '\n' ∨ c = '\r'

/-- `0`, or digits that do not begin with `0`. -/
def IsInt (t : List Char) : Prop :=
  t = ['0'] ∨ ∃ c rest, t = c :: rest ∧ c.isDigit ∧ c ≠ '0' ∧ ∀ x ∈ rest, x.isDigit

def IsDigits (t : List Char) : Prop := t ≠ [] ∧ ∀ x ∈ t, x.isDigit

def IsFraction (t : List Char) : Prop := t = [] ∨ ∃ ds, IsDigits ds ∧ t = '.' :: ds

def IsExponent (t : List Char) : Prop :=
  t = [] ∨ ∃ e sign ds, (e = 'e' ∨ e = 'E') ∧ (sign = [] ∨ sign = ['+'] ∨ sign = ['-']) ∧
    IsDigits ds ∧ t = e :: (sign ++ ds)

def IsNumber (t : List Char) : Prop :=
  ∃ sign int frac exp, (sign = [] ∨ sign = ['-']) ∧ IsInt int ∧ IsFraction frac ∧
    IsExponent exp ∧ t = sign ++ (int ++ (frac ++ exp))

/-- A unit of a string: a character, or a half of one. -/
inductive CodeUnit where
  | scalar (c : Char)
  | surrogate (u : Nat)

def hexDigit (c : Char) : Option Nat :=
  if '0' ≤ c ∧ c ≤ '9' then some (c.toNat - 48)
  else if 'a' ≤ c ∧ c ≤ 'f' then some (c.toNat - 87)
  else if 'A' ≤ c ∧ c ≤ 'F' then some (c.toNat - 55)
  else none

/-- The code unit of four hexadecimal digits. -/
def codeUnit (a b c d : Char) : Option CodeUnit := do
  let a ← hexDigit a
  let b ← hexDigit b
  let c ← hexDigit c
  let d ← hexDigit d
  let u := a * 4096 + b * 256 + c * 16 + d
  pure (if 55296 ≤ u ∧ u < 57344 then .surrogate u else .scalar (Char.ofNat u))

/-- The characters that a letter behind a backslash stands for. -/
def escaped (e : Char) : Option Char :=
  [('"', '"'), ('\\', '\\'), ('/', '/'), ('b', Char.ofNat 8), ('f', Char.ofNat 12),
    ('n', '\n'), ('r', '\r'), ('t', '\t')].lookup e

/-- The inside of a string and its units. -/
inductive Chars : List Char → List CodeUnit → Prop
  | nil : Chars [] []
  | plain {c : Char} {t : List Char} {units : List CodeUnit} (hc : 32 ≤ c.toNat)
      (hquote : c ≠ '"') (hslash : c ≠ '\\') (h : Chars t units) :
      Chars (c :: t) (.scalar c :: units)
  | escape {e c : Char} {t : List Char} {units : List CodeUnit} (he : escaped e = some c)
      (h : Chars t units) : Chars ('\\' :: e :: t) (.scalar c :: units)
  | unicode {a b c d : Char} {u : CodeUnit} {t : List Char} {units : List CodeUnit}
      (hu : codeUnit a b c d = some u) (h : Chars t units) :
      Chars ('\\' :: 'u' :: a :: b :: c :: d :: t) (u :: units)

/-- The characters of units, when every surrogate has its partner. -/
def characters : List CodeUnit → Option (List Char)
  | [] => some []
  | .scalar c :: units => (characters units).map (c :: ·)
  | .surrogate high :: .surrogate low :: units =>
      if high < 56320 ∧ 56320 ≤ low then
        (characters units).map
          (Char.ofNat (65536 + (high - 55296) * 1024 + (low - 56320)) :: ·)
      else none
  | .surrogate _ :: _ => none

/-- The inside of a string that denotes a text. -/
def Quotes (text : String) (body : List Char) : Prop :=
  ∃ units, Chars body units ∧ characters units = some text.toList

/-! ## Texts -/

/-- With white space around. -/
def Padded (P : List Char → Prop) (t : List Char) : Prop :=
  ∃ before inner after, IsWs before ∧ P inner ∧ IsWs after ∧ t = before ++ (inner ++ after)

/-- A name, a colon and what is behind it. -/
def Member (name : String) (P : List Char → Prop) (t : List Char) : Prop :=
  ∃ before body after inner, IsWs before ∧ Quotes name body ∧ IsWs after ∧ P inner ∧
    t = before ++ '"' :: (body ++ '"' :: (after ++ ':' :: inner))

mutual

/-- The texts that write a tree. -/
def Value : Tree → List Char → Prop
  | .null, t => t = ['n', 'u', 'l', 'l']
  | .bool b, t => t = if b then ['t', 'r', 'u', 'e'] else ['f', 'a', 'l', 's', 'e']
  | .number token, t => IsNumber token ∧ t = token
  | .string text, t => ∃ body, Quotes text body ∧ t = '"' :: (body ++ ['"'])
  | .array items, t => ∃ body, Items items body ∧ t = '[' :: (body ++ [']'])
  | .object members, t => ∃ body, Members members body ∧ t = '{' :: (body ++ ['}'])

def Items : List Tree → List Char → Prop
  | [], t => IsWs t
  | [v], t => Padded (Value v) t
  | v :: w :: items, t =>
      ∃ first rest, Padded (Value v) first ∧ Items (w :: items) rest ∧ t = first ++ ',' :: rest

def Members : List (String × Tree) → List Char → Prop
  | [], t => IsWs t
  | [(name, v)], t => Member name (Padded (Value v)) t
  | (name, v) :: m :: members, t =>
      ∃ first rest, Member name (Padded (Value v)) first ∧ Members (m :: members) rest ∧
        t = first ++ ',' :: rest

end

/-- A whole text. -/
def Text (tree : Tree) (t : List Char) : Prop := Padded (Value tree) t

/-! ## A text writes one tree -/

/-- Lists that begin with characters of a class and go on without one. -/
theorem append_inj_of_class {p : Char → Prop} {a b k l : List Char} (ha : ∀ c ∈ a, p c)
    (hb : ∀ c ∈ b, p c) (hk : ∀ c, k.head? = some c → ¬p c)
    (hl : ∀ c, l.head? = some c → ¬p c) (h : a ++ k = b ++ l) : a = b ∧ k = l := by
  induction a generalizing b with
  | nil =>
      cases b with
      | nil => exact ⟨rfl, h⟩
      | cons c b =>
          refine absurd (hb c List.mem_cons_self) (hk c ?_)
          rw [show k = c :: b ++ l from h]
          rfl
  | cons c a ih =>
      cases b with
      | nil =>
          refine absurd (ha c List.mem_cons_self) (hl c ?_)
          rw [← show c :: a ++ k = l from h]
          rfl
      | cons c' b =>
          obtain ⟨rfl, htail⟩ := List.cons.inj h
          obtain ⟨rfl, hrest⟩ := ih (fun x hx => ha x (List.mem_cons_of_mem _ hx))
            (fun x hx => hb x (List.mem_cons_of_mem _ hx)) htail
          exact ⟨rfl, hrest⟩

/-! ### White space -/

def IsSpace (c : Char) : Prop := c = ' ' ∨ c = '\t' ∨ c = '\n' ∨ c = '\r'

/-- The list does not begin with white space. -/
def Visible (k : List Char) : Prop := ∀ c, k.head? = some c → ¬IsSpace c

theorem ws_unique {a b k l : List Char} (ha : IsWs a) (hb : IsWs b) (hk : Visible k)
    (hl : Visible l) (h : a ++ k = b ++ l) : a = b ∧ k = l :=
  append_inj_of_class (p := IsSpace) ha hb hk hl h

/-! ### Numbers -/

def IsNumeral (c : Char) : Prop :=
  c.isDigit = true ∨ c = '-' ∨ c = '+' ∨ c = '.' ∨ c = 'e' ∨ c = 'E'

theorem isInt_numeral {t : List Char} (h : IsInt t) : ∀ c ∈ t, c.isDigit = true := by
  rintro c hc
  rcases h with rfl | ⟨d, rest, rfl, hd, -, hrest⟩
  · obtain rfl := List.mem_singleton.mp hc
    rfl
  · rcases List.mem_cons.mp hc with rfl | hc
    · exact hd
    · exact hrest c hc

theorem isNumber_numeral {t : List Char} (h : IsNumber t) : ∀ c ∈ t, IsNumeral c := by
  obtain ⟨sign, int, frac, exp, hsign, hint, hfrac, hexp, rfl⟩ := h
  intro c hc
  simp only [List.mem_append] at hc
  rcases hc with hc | hc | hc | hc
  · rcases hsign with rfl | rfl
    · cases hc
    · exact .inr (.inl (List.mem_singleton.mp hc))
  · exact .inl (isInt_numeral hint c hc)
  · rcases hfrac with rfl | ⟨ds, ⟨-, hds⟩, rfl⟩
    · cases hc
    · rcases List.mem_cons.mp hc with rfl | hc
      · exact .inr (.inr (.inr (.inl rfl)))
      · exact .inl (hds c hc)
  · rcases hexp with rfl | ⟨e, esign, ds, he, hesign, ⟨-, hds⟩, rfl⟩
    · cases hc
    · rcases List.mem_cons.mp hc with rfl | hc
      · exact .inr (.inr (.inr (.inr he)))
      · rcases List.mem_append.mp hc with hc | hc
        · rcases hesign with rfl | rfl | rfl
          · cases hc
          · exact .inr (.inr (.inl (List.mem_singleton.mp hc)))
          · exact .inr (.inl (List.mem_singleton.mp hc))
        · exact .inl (hds c hc)

theorem isNumber_head {t : List Char} (h : IsNumber t) :
    ∃ c rest, t = c :: rest ∧ (c = '-' ∨ c.isDigit = true) := by
  obtain ⟨sign, int, frac, exp, hsign, hint, -, -, rfl⟩ := h
  rcases hsign with rfl | rfl
  · rcases hint with rfl | ⟨c, rest, rfl, hc, -⟩
    · exact ⟨'0', _, rfl, .inr rfl⟩
    · exact ⟨c, _, rfl, .inr hc⟩
  · exact ⟨'-', _, rfl, .inl rfl⟩

/-! ### Strings -/

theorem chars_unique {a b k l : List Char} {us vs : List CodeUnit} (ha : Chars a us)
    (hb : Chars b vs) (h : a ++ '"' :: k = b ++ '"' :: l) : us = vs ∧ k = l := by
  have hquoted : escaped 'u' = none := rfl
  induction ha generalizing b vs with
  | nil =>
      cases hb with
      | nil => exact ⟨rfl, (List.cons.inj h).2⟩
      | plain _ hquote => exact absurd (List.cons.inj h).1.symm hquote
      | escape => exact absurd (List.cons.inj h).1 (by decide)
      | unicode => exact absurd (List.cons.inj h).1 (by decide)
  | plain _ hquote hslash _ ih =>
      cases hb with
      | nil => exact absurd (List.cons.inj h).1 hquote
      | plain _ _ _ hb =>
          obtain ⟨rfl, htail⟩ := List.cons.inj h
          obtain ⟨rfl, hrest⟩ := ih hb htail
          exact ⟨rfl, hrest⟩
      | escape => exact absurd (List.cons.inj h).1 hslash
      | unicode => exact absurd (List.cons.inj h).1 hslash
  | escape he _ ih =>
      cases hb with
      | nil => exact absurd (List.cons.inj h).1 (by decide)
      | plain _ _ hslash => exact absurd (List.cons.inj h).1.symm hslash
      | escape he' hb =>
          obtain ⟨-, hletter⟩ := List.cons.inj h
          obtain ⟨rfl, htail⟩ := List.cons.inj hletter
          obtain rfl := Option.some.inj (he.symm.trans he')
          obtain ⟨rfl, hrest⟩ := ih hb htail
          exact ⟨rfl, hrest⟩
      | unicode =>
          obtain ⟨-, hletter⟩ := List.cons.inj h
          obtain ⟨rfl, -⟩ := List.cons.inj hletter
          rw [hquoted] at he
          cases he
  | unicode hu _ ih =>
      cases hb with
      | nil => exact absurd (List.cons.inj h).1 (by decide)
      | plain _ _ hslash => exact absurd (List.cons.inj h).1.symm hslash
      | escape he' =>
          obtain ⟨-, hletter⟩ := List.cons.inj h
          obtain ⟨rfl, -⟩ := List.cons.inj hletter
          rw [hquoted] at he'
          cases he'
      | unicode hu' hb =>
          simp only [List.cons_append, List.cons.injEq, true_and] at h
          obtain ⟨rfl, rfl, rfl, rfl, htail⟩ := h
          obtain rfl := Option.some.inj (hu.symm.trans hu')
          obtain ⟨rfl, hrest⟩ := ih hb htail
          exact ⟨rfl, hrest⟩

theorem quotes_unique {x y : String} {a b k l : List Char} (ha : Quotes x a) (hb : Quotes y b)
    (h : a ++ '"' :: k = b ++ '"' :: l) : x = y ∧ k = l := by
  obtain ⟨us, hus, hx⟩ := ha
  obtain ⟨vs, hvs, hy⟩ := hb
  obtain ⟨rfl, hrest⟩ := chars_unique hus hvs h
  exact ⟨String.toList_injective (Option.some.inj (hx.symm.trans hy)), hrest⟩

/-! ### Lists -/

/-- `P`, one after the other, with commas between them. -/
def Separated {α : Type} (P : α → List Char → Prop) : List α → List Char → Prop
  | [], t => IsWs t
  | [x], t => P x t
  | x :: y :: xs, t =>
      ∃ first rest, P x first ∧ Separated P (y :: xs) rest ∧ t = first ++ ',' :: rest

/-- What may follow behind white space. -/
def Shuts (k : List Char) : Prop := ∀ c, k.head? = some c → c = ',' ∨ c = ']' ∨ c = '}'

/-- What may follow at once. -/
def Stops (k : List Char) : Prop :=
  ∀ c, k.head? = some c → IsSpace c ∨ c = ',' ∨ c = ']' ∨ c = '}'

/-- A reading of `x` and one of any other value, in one list and each up to where
its rest satisfies `F`, are of the same value and leave the same rest. -/
def Unique {α : Type} (P : α → List Char → Prop) (F : List Char → Prop) (x : α) : Prop :=
  ∀ y a b k l, P x a → P y b → F k → F l → a ++ k = b ++ l → x = y ∧ k = l

/-- Behind white space `P` begins with a character that ends nothing. -/
def Begins {α : Type} (P : α → List Char → Prop) : Prop :=
  ∀ x t, P x t → ∃ before c rest, IsWs before ∧ t = before ++ c :: rest ∧
    ¬IsSpace c ∧ c ≠ ']' ∧ c ≠ '}'

theorem visible_cons {c : Char} (h : ¬IsSpace c) (k : List Char) : Visible (c :: k) := by
  intro d hd
  obtain rfl := Option.some.inj hd
  exact h

theorem shuts_cons {c : Char} (h : c = ',' ∨ c = ']' ∨ c = '}') (k : List Char) :
    Shuts (c :: k) := by
  intro d hd
  obtain rfl := Option.some.inj hd
  exact h

theorem Shuts.visible {k : List Char} (h : Shuts k) : Visible k := by
  intro c hc
  rcases h c hc with rfl | rfl | rfl <;> simp [IsSpace]

theorem Shuts.stops_append {k t : List Char} (h : Shuts k) (ht : IsWs t) : Stops (t ++ k) := by
  intro c hc
  cases t with
  | nil => exact .inr (h c hc)
  | cons d t =>
      obtain rfl := Option.some.inj hc
      exact .inl (ht d List.mem_cons_self)

section Lists

variable {α : Type} {P : α → List Char → Prop} {shut : Char}

theorem Separated.begins {x : α} {xs : List α} {t : List Char} (hP : Begins P)
    (h : Separated P (x :: xs) t) : ∃ before c rest, IsWs before ∧ t = before ++ c :: rest ∧
      ¬IsSpace c ∧ c ≠ ']' ∧ c ≠ '}' := by
  cases xs with
  | nil => exact hP x t h
  | cons y xs =>
      obtain ⟨first, rest, hfirst, -, rfl⟩ := h
      obtain ⟨before, c, tail, hbefore, rfl, hc⟩ := hP x first hfirst
      exact ⟨before, c, tail ++ ',' :: rest, hbefore, by simp, hc⟩

/-- White space and a list that is not empty do not end alike. -/
theorem Separated.not_empty {x : α} {xs : List α} {t w k l : List Char} (hP : Begins P)
    (hshut : shut = ']' ∨ shut = '}') (hw : IsWs w) (h : Separated P (x :: xs) t) :
    w ++ shut :: k ≠ t ++ shut :: l := by
  intro heq
  obtain ⟨before, c, rest, hbefore, rfl, hspace, hsquare, hcurly⟩ := h.begins hP
  have hshow : ¬IsSpace shut := by rcases hshut with rfl | rfl <;> simp [IsSpace]
  rw [List.append_assoc] at heq
  obtain ⟨-, hrest⟩ := ws_unique hw hbefore (visible_cons hshow k) (visible_cons hspace _) heq
  obtain ⟨rfl, -⟩ := List.cons.inj hrest
  rcases hshut with rfl | rfl
  · exact hsquare rfl
  · exact hcurly rfl

theorem separated_unique (hshut : shut = ']' ∨ shut = '}') (hP : Begins P) {xs : List α}
    (hxs : ∀ x ∈ xs, Unique P Shuts x) {ys : List α} {a b k l : List Char}
    (ha : Separated P xs a) (hb : Separated P ys b) (h : a ++ shut :: k = b ++ shut :: l) :
    xs = ys ∧ k = l := by
  have hfollow : ∀ k, Shuts (shut :: k) := shuts_cons (.inr hshut)
  have hcomma : shut ≠ ',' := by rcases hshut with rfl | rfl <;> decide
  induction xs generalizing ys a b with
  | nil =>
      cases ys with
      | nil =>
          obtain ⟨-, hrest⟩ := ws_unique ha hb (hfollow k).visible (hfollow l).visible h
          exact ⟨rfl, (List.cons.inj hrest).2⟩
      | cons y ys => exact absurd h (hb.not_empty hP hshut ha)
  | cons x xs ih =>
      have hx := hxs x List.mem_cons_self
      have htail := fun z hz => hxs z (List.mem_cons_of_mem _ hz)
      rcases ys with _ | ⟨y, ys⟩
      · exact absurd h.symm (ha.not_empty hP hshut hb)
      rcases xs with _ | ⟨x', xs⟩ <;> rcases ys with _ | ⟨y', ys⟩
      · obtain ⟨rfl, hrest⟩ := hx y a b _ _ ha hb (hfollow k) (hfollow l) h
        exact ⟨rfl, (List.cons.inj hrest).2⟩
      · obtain ⟨first, rest, hfirst, -, rfl⟩ := hb
        rw [List.append_assoc] at h
        obtain ⟨-, hrest⟩ := hx y a first _ _ ha hfirst (hfollow k) (shuts_cons (.inl rfl) _) h
        exact absurd (List.cons.inj hrest).1 hcomma
      · obtain ⟨first, rest, hfirst, -, rfl⟩ := ha
        rw [List.append_assoc] at h
        obtain ⟨-, hrest⟩ := hx y first b _ _ hfirst hb (shuts_cons (.inl rfl) _) (hfollow l) h
        exact absurd (List.cons.inj hrest).1.symm hcomma
      · obtain ⟨first, rest, hfirst, hrest, rfl⟩ := ha
        obtain ⟨first', rest', hfirst', hrest', rfl⟩ := hb
        rw [List.append_assoc, List.append_assoc] at h
        obtain ⟨rfl, hbehind⟩ := hx y first first' _ _ hfirst hfirst'
          (shuts_cons (.inl rfl) _) (shuts_cons (.inl rfl) _) h
        obtain ⟨hys, hkl⟩ := ih htail hrest hrest' (List.cons.inj hbehind).2
        exact ⟨congrArg (x :: ·) hys, hkl⟩

end Lists

/-! ### Values -/

/-- The first character of the texts of a tree. -/
def Opens : Tree → Char → Prop
  | .null, c => c = 'n'
  | .bool b, c => c = if b then 't' else 'f'
  | .number _, c => c = '-' ∨ c.isDigit = true
  | .string _, c => c = '"'
  | .array _, c => c = '['
  | .object _, c => c = '{'

theorem Value.opens {v : Tree} {t : List Char} (h : Value v t) :
    ∃ c rest, t = c :: rest ∧ Opens v c := by
  cases v with
  | null => exact ⟨_, _, h, rfl⟩
  | bool b =>
      cases b with
      | false => exact ⟨_, _, h, rfl⟩
      | true => exact ⟨_, _, h, rfl⟩
  | number token =>
      obtain ⟨hnumber, rfl⟩ := h
      exact isNumber_head hnumber
  | string text =>
      obtain ⟨body, -, rfl⟩ := h
      exact ⟨_, _, rfl, rfl⟩
  | array items =>
      obtain ⟨body, -, rfl⟩ := h
      exact ⟨_, _, rfl, rfl⟩
  | object members =>
      obtain ⟨body, -, rfl⟩ := h
      exact ⟨_, _, rfl, rfl⟩

theorem Opens.ends_nothing {v : Tree} {c : Char} (h : Opens v c) :
    ¬IsSpace c ∧ c ≠ ']' ∧ c ≠ '}' := by
  have hdigit : c.isDigit = true → ¬IsSpace c ∧ c ≠ ']' ∧ c ≠ '}' := by
    intro hd
    refine ⟨?_, ?_, ?_⟩
    · rintro (rfl | rfl | rfl | rfl) <;> cases hd
    · rintro rfl
      cases hd
    · rintro rfl
      cases hd
  cases v with
  | number =>
      rcases h with rfl | hd
      · simp [IsSpace]
      · exact hdigit hd
  | bool b =>
      obtain rfl := h
      cases b <;> simp [IsSpace]
  | null | string | array | object =>
      obtain rfl := h
      simp [IsSpace]

/-- The form of a tree, and the one that a first character announces. -/
def Tree.form : Tree → Nat
  | .null => 0
  | .bool false => 1
  | .bool true => 2
  | .number _ => 3
  | .string _ => 4
  | .array _ => 5
  | .object _ => 6

def announced (c : Char) : Nat :=
  if c = 'n' then 0 else if c = 'f' then 1 else if c = 't' then 2 else if c = '"' then 4
  else if c = '[' then 5 else if c = '{' then 6 else 3

theorem Opens.form {v : Tree} {c : Char} (h : Opens v c) : v.form = announced c := by
  cases v with
  | number token =>
      have hother : c ≠ 'n' ∧ c ≠ 'f' ∧ c ≠ 't' ∧ c ≠ '"' ∧ c ≠ '[' ∧ c ≠ '{' := by
        refine ⟨?_, ?_, ?_, ?_, ?_, ?_⟩ <;> rintro rfl <;> rcases h with h | h <;> cases h
      obtain ⟨h₁, h₂, h₃, h₄, h₅, h₆⟩ := hother
      simp [Tree.form, announced, h₁, h₂, h₃, h₄, h₅, h₆]
  | bool b =>
      obtain rfl := h
      cases b <;> rfl
  | null | string | array | object =>
      obtain rfl := h
      rfl

/-- Two values that are read in one list are of one form. -/
theorem Value.same_form {v y : Tree} {a b k l : List Char} (ha : Value v a) (hb : Value y b)
    (h : a ++ k = b ++ l) : v.form = y.form := by
  obtain ⟨c, rest, rfl, hc⟩ := ha.opens
  obtain ⟨d, rest', rfl, hd⟩ := hb.opens
  obtain ⟨rfl, -⟩ := List.cons.inj h
  exact hc.form.trans hd.form.symm

theorem padded_begins : Begins fun v => Padded (Value v) := by
  rintro v t ⟨before, inner, after, hbefore, hinner, -, rfl⟩
  obtain ⟨c, rest, rfl, hc⟩ := hinner.opens
  exact ⟨before, c, rest ++ after, hbefore, rfl, hc.ends_nothing⟩

theorem member_begins :
    Begins fun m : String × Tree => Member m.1 (Padded (Value m.2)) := by
  rintro m t ⟨before, body, after, inner, hbefore, -, -, -, rfl⟩
  exact ⟨before, '"', _, hbefore, rfl, by simp [IsSpace]⟩

theorem padded_unique {v : Tree} (hv : Unique Value Stops v) :
    Unique (fun v => Padded (Value v)) Shuts v := by
  rintro y a b k l ⟨before, inner, after, hbefore, hinner, hafter, rfl⟩
    ⟨before', inner', after', hbefore', hinner', hafter', rfl⟩ hk hl h
  simp only [List.append_assoc] at h
  have hvisible : ∀ {v t k}, Value v t → Visible (t ++ k) := fun ht => by
    obtain ⟨c, rest, rfl, hc⟩ := ht.opens
    exact visible_cons hc.ends_nothing.1 _
  obtain ⟨-, hinside⟩ := ws_unique hbefore hbefore' (hvisible hinner) (hvisible hinner') h
  obtain ⟨rfl, hbehind⟩ := hv y inner inner' _ _ hinner hinner' (hk.stops_append hafter)
    (hl.stops_append hafter') hinside
  exact ⟨rfl, (ws_unique hafter hafter' hk.visible hl.visible hbehind).2⟩

theorem member_unique {m : String × Tree} (hv : Unique Value Stops m.2) :
    Unique (fun m : String × Tree => Member m.1 (Padded (Value m.2))) Shuts m := by
  rintro m' a b k l ⟨before, body, after, inner, hbefore, hname, hafter, hinner, rfl⟩
    ⟨before', body', after', inner', hbefore', hname', hafter', hinner', rfl⟩ hk hl h
  simp only [List.append_assoc, List.cons_append] at h
  have hquote : ¬IsSpace '"' := by simp [IsSpace]
  have hcolon : ¬IsSpace ':' := by simp [IsSpace]
  obtain ⟨-, hquoted⟩ :=
    ws_unique hbefore hbefore' (visible_cons hquote _) (visible_cons hquote _) h
  obtain ⟨hnames, hbehind⟩ := quotes_unique hname hname' (List.cons.inj hquoted).2
  obtain ⟨-, hvalues⟩ :=
    ws_unique hafter hafter' (visible_cons hcolon _) (visible_cons hcolon _) hbehind
  obtain ⟨htrees, hrest⟩ :=
    padded_unique hv m'.2 inner inner' k l hinner hinner' hk hl (List.cons.inj hvalues).2
  exact ⟨Prod.ext hnames htrees, hrest⟩

theorem items_separated : ∀ {items : List Tree} {t : List Char}, Items items t →
    Separated (fun v => Padded (Value v)) items t
  | [], _, h => h
  | [_], _, h => h
  | _ :: _ :: _, _, ⟨first, rest, hfirst, hrest, ht⟩ =>
      ⟨first, rest, hfirst, items_separated hrest, ht⟩

theorem members_separated : ∀ {members : List (String × Tree)} {t : List Char},
    Members members t →
    Separated (fun m : String × Tree => Member m.1 (Padded (Value m.2))) members t
  | [], _, h => h
  | [_], _, h => h
  | _ :: _ :: _, _, ⟨first, rest, hfirst, hrest, ht⟩ =>
      ⟨first, rest, hfirst, members_separated hrest, ht⟩

/-- A number ends where its numerals do. -/
theorem number_unique (token : List Char) : Unique Value Stops (.number token) := by
  rintro y a b k l ⟨hnumber, rfl⟩ hb hk hl h
  have hform := Value.same_form (v := .number a) ⟨hnumber, rfl⟩ hb h
  have hno : ∀ {k}, Stops k → ∀ c, k.head? = some c → ¬IsNumeral c := by
    intro k hk c hc hnumeral
    rcases hk c hc with (rfl | rfl | rfl | rfl) | rfl | rfl | rfl <;>
      simp [IsNumeral, Char.isDigit] at hnumeral
  cases y with
  | number token =>
      obtain ⟨hnumber', rfl⟩ := hb
      obtain ⟨rfl, hrest⟩ := append_inj_of_class (isNumber_numeral hnumber)
        (isNumber_numeral hnumber') (hno hk) (hno hl) h
      exact ⟨rfl, hrest⟩
  | bool b => cases b <;> cases hform
  | null | string | array | object => cases hform

mutual

/-- A value that is followed by white space, a comma or a closing bracket is
read in one way. -/
theorem value_unique : ∀ v : Tree, Unique Value Stops v
  | .null, y, a, b, k, l, ha, hb, _, _, h => by
      have hform := ha.same_form hb h
      cases y with
      | null =>
          obtain rfl := ha
          obtain rfl := hb
          exact ⟨rfl, List.append_cancel_left h⟩
      | bool b => cases b <;> cases hform
      | number | string | array | object => cases hform
  | .bool x, y, a, b, k, l, ha, hb, _, _, h => by
      have hform := ha.same_form hb h
      cases y with
      | bool x' =>
          have hsame : x = x' := by cases x <;> cases x' <;> first | rfl | cases hform
          obtain rfl := hsame
          obtain rfl := ha
          obtain rfl := hb
          exact ⟨rfl, List.append_cancel_left h⟩
      | null | number | string | array | object => cases x <;> cases hform
  | .number token, y, a, b, k, l, ha, hb, hk, hl, h =>
      number_unique token y a b k l ha hb hk hl h
  | .string text, y, a, b, k, l, ha, hb, _, _, h => by
      have hform := ha.same_form hb h
      cases y with
      | string text' =>
          obtain ⟨body, hbody, rfl⟩ := ha
          obtain ⟨body', hbody', rfl⟩ := hb
          have hinside : body ++ '"' :: k = body' ++ '"' :: l := by simpa using h
          obtain ⟨rfl, hrest⟩ := quotes_unique hbody hbody' hinside
          exact ⟨rfl, hrest⟩
      | bool b => cases b <;> cases hform
      | null | number | array | object => cases hform
  | .array items, y, a, b, k, l, ha, hb, _, _, h => by
      have hform := ha.same_form hb h
      cases y with
      | array items' =>
          obtain ⟨body, hbody, rfl⟩ := ha
          obtain ⟨body', hbody', rfl⟩ := hb
          have hinside : body ++ ']' :: k = body' ++ ']' :: l := by simpa using h
          obtain ⟨rfl, hrest⟩ := separated_unique (.inl rfl) padded_begins
            (fun v hv => padded_unique (items_unique items v hv)) (items_separated hbody)
            (items_separated hbody') hinside
          exact ⟨rfl, hrest⟩
      | bool b => cases b <;> cases hform
      | null | number | string | object => cases hform
  | .object members, y, a, b, k, l, ha, hb, _, _, h => by
      have hform := ha.same_form hb h
      cases y with
      | object members' =>
          obtain ⟨body, hbody, rfl⟩ := ha
          obtain ⟨body', hbody', rfl⟩ := hb
          have hinside : body ++ '}' :: k = body' ++ '}' :: l := by simpa using h
          obtain ⟨rfl, hrest⟩ := separated_unique (.inr rfl) member_begins
            (fun m hm => member_unique (members_unique members m hm)) (members_separated hbody)
            (members_separated hbody') hinside
          exact ⟨rfl, hrest⟩
      | bool b => cases b <;> cases hform
      | null | number | string | array => cases hform

theorem items_unique : ∀ items : List Tree, ∀ v ∈ items, Unique Value Stops v
  | [] => fun _ hv => by cases hv
  | v :: items => List.forall_mem_cons.mpr ⟨value_unique v, items_unique items⟩

theorem members_unique : ∀ members : List (String × Tree), ∀ m ∈ members, Unique Value Stops m.2
  | [] => fun _ hm => by cases hm
  | (_, v) :: members => List.forall_mem_cons.mpr ⟨value_unique v, members_unique members⟩

end

/-- A text writes one tree. -/
theorem text_unique {v y : Tree} {t : List Char} (h : Text v t) (h' : Text y t) : v = y :=
  (padded_unique (value_unique v) y t t [] [] h h' (by simp [Shuts]) (by simp [Shuts]) rfl).1

/-! ## What is asked of a tree -/

namespace Tree

mutual

/-- How deep arrays and objects are nested. -/
def depth : Tree → Nat
  | .array items => depthItems items + 1
  | .object members => depthMembers members + 1
  | _ => 0

def depthItems : List Tree → Nat
  | [] => 0
  | v :: items => max v.depth (depthItems items)

def depthMembers : List (String × Tree) → Nat
  | [] => 0
  | (_, v) :: members => max v.depth (depthMembers members)

end

mutual

/-- Every number token satisfies `P`. -/
def Numbers (P : List Char → Prop) : Tree → Prop
  | .number token => P token
  | .array items => NumbersItems P items
  | .object members => NumbersMembers P members
  | _ => True

def NumbersItems (P : List Char → Prop) : List Tree → Prop
  | [] => True
  | v :: items => v.Numbers P ∧ NumbersItems P items

def NumbersMembers (P : List Char → Prop) : List (String × Tree) → Prop
  | [] => True
  | (_, v) :: members => v.Numbers P ∧ NumbersMembers P members

end

mutual

/-- No object has two members of one name. -/
def Distinct : Tree → Prop
  | .array items => DistinctItems items
  | .object members => (members.map Prod.fst).Nodup ∧ DistinctMembers members
  | _ => True

def DistinctItems : List Tree → Prop
  | [] => True
  | v :: items => v.Distinct ∧ DistinctItems items

def DistinctMembers : List (String × Tree) → Prop
  | [] => True
  | (_, v) :: members => v.Distinct ∧ DistinctMembers members

end

end Tree

end JsonText
