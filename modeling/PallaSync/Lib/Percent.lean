import Mathlib.Data.UInt
import Mathlib.Data.Fintype.Basic
import Mathlib.Data.List.TakeWhile

/-!
# Percent encoding and parameter lists

Bytes written with `%` escapes, and lists of named values written
`name=value&name=value`. What an escape's two bytes are read as is a parameter
(`Escapes`): the two theorems that matter, that what was encoded is read back
and that a list of encoded parameters splits into its parts, hold of every
reading that knows the upper case digits and keeps clear of the separators.
-/

namespace Percent

def percent : UInt8 := 37
def ampersand : UInt8 := 38
def equals : UInt8 := 61

/-- The bytes that are written as they are. -/
def unreserved (v : UInt8) : Bool :=
  (48 ≤ v && v ≤ 57) || (65 ≤ v && v ≤ 90) || (97 ≤ v && v ≤ 122) ||
    [45, 46, 95, 126].contains v

/-- The upper case hexadecimal digit of a number below 16. -/
def hexDigit (k : UInt8) : UInt8 := if k < 10 then 48 + k else 55 + k

/-- The number a hexadecimal digit stands for. -/
def hexValue (h : UInt8) : Option UInt8 :=
  if 48 ≤ h && h ≤ 57 then some (h - 48)
  else if 65 ≤ h && h ≤ 70 then some (h - 55)
  else if 97 ≤ h && h ≤ 102 then some (h - 87)
  else none

def encodeByte (v : UInt8) : List UInt8 :=
  if unreserved v then [v] else [percent, hexDigit (v / 16), hexDigit (v % 16)]

def encode (bytes : List UInt8) : List UInt8 := bytes.flatMap encodeByte

/-- A byte that is no part of the notation. -/
def plain (v : UInt8) : Bool := v != percent && v != ampersand && v != equals

/-- How the two bytes of an escape are read: the encoder's digits as the byte
they encode, and no separator as a digit. -/
structure Escapes where
  read : UInt8 → UInt8 → Option UInt8
  reads : ∀ v, read (hexDigit (v / 16)) (hexDigit (v % 16)) = some v
  clear : ∀ {h l v}, read h l = some v → plain h = true ∧ plain l = true

/-- Every `%` begins an escape. -/
def Escaped (e : Escapes) (raw : List UInt8) : Prop :=
  ∀ before after, raw = before ++ percent :: after →
    ∃ h l rest v, after = h :: l :: rest ∧ e.read h l = some v

/-- The bytes a text stands for. -/
def decode (e : Escapes) : List UInt8 → Option (List UInt8)
  | [] => some []
  | c :: rest =>
      if c = percent then
        match rest with
        | h :: l :: rest => (e.read h l).bind fun v => (decode e rest).map (v :: ·)
        | _ => none
      else (decode e rest).map (c :: ·)

/-- A part before the first separator and the part after it. -/
def splitOnce (sep : UInt8) (part : List UInt8) : List UInt8 × List UInt8 :=
  (part.takeWhile (· != sep), (part.dropWhile (· != sep)).drop 1)

/-- The names and values as they are written. -/
def rawPairs (raw : List UInt8) : List (List UInt8 × List UInt8) :=
  if raw.isEmpty then [] else (raw.splitOn ampersand).map (splitOnce equals)

/-- The names and values that written ones stand for. -/
def readAll (e : Escapes) :
    List (List UInt8 × List UInt8) → Option (List (List UInt8 × List UInt8))
  | [] => some []
  | p :: ps =>
      (decode e p.1).bind fun name =>
        (decode e p.2).bind fun value => (readAll e ps).map ((name, value) :: ·)

/-- The names and values a raw text stands for. -/
def parameters (e : Escapes) (raw : List UInt8) : Option (List (List UInt8 × List UInt8)) :=
  readAll e (rawPairs raw)

def encodePair (p : List UInt8 × List UInt8) : List UInt8 × List UInt8 :=
  (encode p.1, encode p.2)

/-- A list of written names and values, written out. -/
def render (ps : List (List UInt8 × List UInt8)) : List UInt8 :=
  [ampersand].intercalate (ps.map fun p => p.1 ++ equals :: p.2)

/-! ## Escapes -/

variable {e : Escapes}

theorem escaped_nil : Escaped e [] := by
  intro before after h
  cases before <;> cases h

theorem escaped_cons {c : UInt8} {rest : List UInt8} :
    Escaped e (c :: rest) ↔
      (c = percent → ∃ h l tail v, rest = h :: l :: tail ∧ e.read h l = some v) ∧
        Escaped e rest := by
  constructor
  · intro h
    refine ⟨?_, fun before after heq => h (c :: before) after (by rw [heq, List.cons_append])⟩
    rintro rfl
    exact h [] rest rfl
  · rintro ⟨hc, hrest⟩ before after heq
    rcases before with _ | ⟨d, before⟩
    · obtain ⟨rfl, rfl⟩ := List.cons.inj heq
      exact hc rfl
    · obtain ⟨rfl, rfl⟩ := List.cons.inj heq
      exact hrest before after rfl

theorem plain_ne {v : UInt8} (h : plain v = true) : v ≠ percent ∧ v ≠ ampersand ∧ v ≠ equals := by
  simpa [plain, and_assoc] using h

/-- A separator stands outside every escape. -/
theorem escaped_separate {front back : List UInt8} {sep : UInt8} (hsep : plain sep = false)
    (hne : sep ≠ percent) :
    Escaped e (front ++ sep :: back) ↔ Escaped e front ∧ Escaped e back := by
  constructor
  · intro h
    refine ⟨fun before after heq => ?_, fun before after heq => ?_⟩
    · subst heq
      obtain ⟨x, y, rest, v, heq, hread⟩ := h before (after ++ sep :: back) (by simp)
      obtain ⟨hx, hy⟩ := e.clear hread
      -- both digits stand before the separator, which is none
      rcases after with _ | ⟨x', _ | ⟨y', after⟩⟩
      · obtain ⟨rfl, -⟩ := List.cons.inj heq
        rw [hx] at hsep
        cases hsep
      · obtain ⟨-, heq⟩ := List.cons.inj heq
        obtain ⟨rfl, -⟩ := List.cons.inj heq
        rw [hy] at hsep
        cases hsep
      · rw [List.cons_append, List.cons_append, List.cons.injEq, List.cons.injEq] at heq
        obtain ⟨rfl, rfl, -⟩ := heq
        exact ⟨x', y', after, v, rfl, hread⟩
    · subst heq
      exact h (front ++ sep :: before) after (by simp)
  · rintro ⟨hfront, hback⟩
    induction front with
    | nil => exact escaped_cons.mpr ⟨fun h => absurd h hne, hback⟩
    | cons c front ih =>
        obtain ⟨hc, hrest⟩ := escaped_cons.mp hfront
        rw [List.cons_append]
        refine escaped_cons.mpr ⟨fun hpercent => ?_, ih hrest⟩
        obtain ⟨x, y, tail, v, rfl, hread⟩ := hc hpercent
        exact ⟨x, y, tail ++ sep :: back, v, rfl, hread⟩

theorem decode_escape (h l : UInt8) (rest : List UInt8) :
    decode e (percent :: h :: l :: rest) =
      (e.read h l).bind fun v => (decode e rest).map (v :: ·) := by
  rw [decode, if_pos rfl]

theorem decode_other {c : UInt8} (hc : c ≠ percent) (rest : List UInt8) :
    decode e (c :: rest) = (decode e rest).map (c :: ·) := by
  rw [decode.eq_def]
  exact if_neg hc

theorem decode_short {rest : List UInt8} (hshort : ∀ h l tail, rest = h :: l :: tail → False) :
    decode e (percent :: rest) = none := by
  rw [decode, if_pos rfl]
  exact hshort

/-- An escape's own bytes begin no escape. -/
theorem escaped_escape {h l v : UInt8} (hread : e.read h l = some v) (rest : List UInt8) :
    Escaped e (percent :: h :: l :: rest) ↔ Escaped e rest := by
  obtain ⟨hh, hl⟩ := e.clear hread
  rw [escaped_cons, escaped_cons, escaped_cons]
  constructor
  · rintro ⟨-, -, -, hrest⟩
    exact hrest
  · intro hrest
    refine ⟨fun _ => ⟨h, l, rest, v, rfl, hread⟩, fun heq => ?_, fun heq => ?_, hrest⟩
    · exact absurd heq (plain_ne hh).1
    · exact absurd heq (plain_ne hl).1

/-- A text can be read exactly when its escapes can. -/
theorem decode_isSome (raw : List UInt8) : (decode e raw).isSome ↔ Escaped e raw := by
  induction raw using decode.induct with
  | case1 => exact ⟨fun _ => escaped_nil, fun _ => rfl⟩
  | case2 h l rest ih =>
      rw [decode_escape]
      cases hread : e.read h l with
      | none =>
          refine ⟨fun hsome => (by cases hsome), fun hesc => ?_⟩
          obtain ⟨x, y, tail, v, heq, hv⟩ := hesc [] _ rfl
          simp only [List.cons.injEq] at heq
          obtain ⟨rfl, rfl, -⟩ := heq
          rw [hread] at hv
          cases hv
      | some v =>
          rw [escaped_escape hread, ← ih, Option.bind_some, Option.isSome_map]
  | case3 rest hshort =>
      rw [decode_short hshort]
      refine ⟨fun hsome => ?_, fun hesc => ?_⟩
      · cases hsome
      · obtain ⟨x, y, tail, v, heq, hv⟩ := hesc [] _ rfl
        exact absurd heq (hshort _ _ _)
  | case4 c rest hc ih =>
      rw [decode_other hc, Option.isSome_map, ih, escaped_cons]
      exact ⟨fun h => ⟨fun heq => absurd heq hc, h⟩, fun h => h.2⟩

theorem forall_byte {P : UInt8 → Prop} (h : ∀ k : Fin 256, P (.ofFin k)) (v : UInt8) : P v :=
  h v.toFin

theorem unreserved_plain (v : UInt8) : unreserved v = true → plain v = true :=
  forall_byte (P := fun v => unreserved v = true → plain v = true) (by decide +kernel) v

theorem encodeByte_clear (v : UInt8) : ∀ x ∈ encodeByte v, x = percent ∨ plain x = true :=
  fun x hx => of_decide_eq_true <| List.all_eq_true.mp (forall_byte
    (P := fun v => (encodeByte v).all (fun x => x = percent ∨ plain x = true) = true)
    (by decide +kernel) v) x hx

theorem unreserved_ne {v : UInt8} (h : unreserved v = true) : v ≠ percent :=
  (plain_ne (unreserved_plain v h)).1

/-- What was encoded is read back. -/
theorem decode_encode (bytes : List UInt8) : decode e (encode bytes) = some bytes := by
  induction bytes with
  | nil => rfl
  | cons v bytes ih =>
      have hcons : encode (v :: bytes) = encodeByte v ++ encode bytes := rfl
      rw [hcons, encodeByte]
      split
      · rename_i hfree
        rw [List.singleton_append, decode_other (unreserved_ne hfree), ih, Option.map_some]
      · rw [List.cons_append, List.cons_append, List.singleton_append, decode_escape, e.reads, ih]
        rfl

theorem encode_injective {x y : List UInt8} (e : Escapes) (h : encode x = encode y) : x = y := by
  have hx : decode e (encode x) = some x := decode_encode x
  rw [h, decode_encode] at hx
  exact (Option.some.inj hx).symm

/-- What is encoded holds no separator. -/
theorem encode_clear {bytes : List UInt8} {sep : UInt8} (hsep : plain sep = false)
    (hne : sep ≠ percent) : sep ∉ encode bytes := by
  intro hmem
  obtain ⟨v, -, hv⟩ := List.mem_flatMap.mp hmem
  rcases encodeByte_clear v sep hv with heq | hplain
  · exact hne heq
  · rw [hsep] at hplain
    cases hplain

/-- One reading extends another. -/
theorem decode_extends {e' : Escapes} (hext : ∀ {h l v}, e.read h l = some v → e'.read h l = some v)
    {raw bytes : List UInt8} (h : decode e raw = some bytes) : decode e' raw = some bytes := by
  induction raw using decode.induct generalizing bytes with
  | case1 => exact h
  | case2 x y rest ih =>
      rw [decode_escape] at h ⊢
      obtain ⟨v, hread, h⟩ := Option.bind_eq_some_iff.mp h
      obtain ⟨tail, htail, rfl⟩ := Option.map_eq_some_iff.mp h
      rw [hext hread, Option.bind_some, ih htail, Option.map_some]
  | case3 rest hshort =>
      rw [decode_short hshort] at h
      cases h
  | case4 c rest hc ih =>
      rw [decode_other hc] at h ⊢
      obtain ⟨tail, htail, rfl⟩ := Option.map_eq_some_iff.mp h
      rw [ih htail, Option.map_some]

/-! ## Parameter lists -/

theorem splitOnce_not_mem {sep : UInt8} {part : List UInt8} (h : sep ∉ part) :
    splitOnce sep part = (part, []) := by
  have hall : ∀ x ∈ part, (x != sep) = true := by
    intro x hx
    rw [bne_iff_ne]
    rintro rfl
    exact h hx
  rw [splitOnce, List.takeWhile_eq_self_iff.mpr hall, List.dropWhile_eq_nil_iff.mpr hall,
    List.drop_nil]

theorem splitOnce_append {sep : UInt8} {name : List UInt8} (h : sep ∉ name)
    (value : List UInt8) : splitOnce sep (name ++ sep :: value) = (name, value) := by
  have hall : ∀ x ∈ name, (x != sep) = true := by
    intro x hx
    rw [bne_iff_ne]
    rintro rfl
    exact h hx
  rw [splitOnce, List.takeWhile_append_of_pos hall, List.dropWhile_append_of_pos hall,
    List.takeWhile_cons_of_neg (by simp), List.dropWhile_cons_of_neg (by simp),
    List.append_nil, List.drop_one, List.tail_cons]

theorem splitOnce_cases (sep : UInt8) (part : List UInt8) :
    sep ∉ part ∧ splitOnce sep part = (part, []) ∨
      ∃ name value, sep ∉ name ∧ part = name ++ sep :: value ∧
        splitOnce sep part = (name, value) := by
  by_cases h : sep ∈ part
  · obtain ⟨name, value, rfl, hname⟩ := List.eq_append_cons_of_mem h
    exact .inr ⟨name, value, hname, rfl, splitOnce_append hname value⟩
  · exact .inl ⟨h, splitOnce_not_mem h⟩

theorem escaped_splitOnce (part : List UInt8) :
    Escaped e part ↔
      Escaped e (splitOnce equals part).1 ∧ Escaped e (splitOnce equals part).2 := by
  rcases splitOnce_cases equals part with ⟨-, hsplit⟩ | ⟨name, value, -, rfl, hsplit⟩
  · rw [hsplit]
    exact ⟨fun h => ⟨h, escaped_nil⟩, fun h => h.1⟩
  · rw [hsplit]
    exact escaped_separate (by decide) (by decide)

theorem escaped_intercalate (parts : List (List UInt8)) :
    Escaped e ([ampersand].intercalate parts) ↔ ∀ part ∈ parts, Escaped e part := by
  induction parts with
  | nil => simp [escaped_nil]
  | cons part parts ih =>
      rcases parts with _ | ⟨next, parts⟩
      · simp
      · rw [List.intercalate_cons_cons, List.append_assoc, List.singleton_append,
          escaped_separate (by decide) (by decide), ih, List.forall_mem_cons (l := next :: parts)]

/-- Whether escapes can be read does not depend on where the pairs are cut. -/
theorem escaped_rawPairs (raw : List UInt8) :
    Escaped e raw ↔ ∀ p ∈ rawPairs raw, Escaped e p.1 ∧ Escaped e p.2 := by
  rcases raw with _ | ⟨c, raw⟩
  · simp [rawPairs, escaped_nil]
  · have hparts := escaped_intercalate (e := e) ((c :: raw).splitOn ampersand)
    rw [List.intercalate_splitOn] at hparts
    rw [hparts, rawPairs]
    simp only [List.isEmpty_cons, Bool.false_eq_true, if_false, List.forall_mem_map,
      ← escaped_splitOnce]

theorem readAll_isSome (ps : List (List UInt8 × List UInt8)) :
    (readAll e ps).isSome ↔ ∀ p ∈ ps, Escaped e p.1 ∧ Escaped e p.2 := by
  induction ps with
  | nil => simp [readAll]
  | cons p ps ih =>
      rw [List.forall_mem_cons, ← ih, ← decode_isSome, ← decode_isSome, readAll]
      cases decode e p.1 <;> cases decode e p.2 <;> simp

/-- A raw text denotes parameters exactly when every `%` begins an escape. -/
theorem parameters_isSome (raw : List UInt8) : (parameters e raw).isSome ↔ Escaped e raw := by
  rw [parameters, readAll_isSome, escaped_rawPairs]

theorem readAll_extends {e' : Escapes}
    (hext : ∀ {h l v}, e.read h l = some v → e'.read h l = some v)
    {ps qs : List (List UInt8 × List UInt8)} (h : readAll e ps = some qs) :
    readAll e' ps = some qs := by
  induction ps generalizing qs with
  | nil => exact h
  | cons p ps ih =>
      rw [readAll] at h ⊢
      obtain ⟨name, hname, h⟩ := Option.bind_eq_some_iff.mp h
      obtain ⟨value, hvalue, h⟩ := Option.bind_eq_some_iff.mp h
      obtain ⟨tail, htail, rfl⟩ := Option.map_eq_some_iff.mp h
      rw [decode_extends hext hname, decode_extends hext hvalue, ih htail]
      rfl

theorem readAll_encode (ps : List (List UInt8 × List UInt8)) :
    readAll e (ps.map encodePair) = some ps := by
  induction ps with
  | nil => rfl
  | cons p ps ih =>
      rw [List.map_cons, readAll, encodePair, decode_encode, decode_encode, ih]
      rfl

/-- A list written out is cut into the parts it was written from. -/
theorem rawPairs_render {ps : List (List UInt8 × List UInt8)}
    (hnames : ∀ p ∈ ps, equals ∉ p.1 ∧ ampersand ∉ p.1) (hvalues : ∀ p ∈ ps, ampersand ∉ p.2) :
    rawPairs (render ps) = ps := by
  rcases ps with _ | ⟨p, ps⟩
  · rfl
  have hclear : ∀ part ∈ (p :: ps).map (fun p => p.1 ++ equals :: p.2), ampersand ∉ part := by
    intro part hpart
    obtain ⟨q, hq, rfl⟩ := List.mem_map.mp hpart
    rw [List.mem_append, List.mem_cons]
    rintro (h | h | h)
    · exact (hnames q hq).2 h
    · exact absurd h (by decide)
    · exact hvalues q hq h
  have hsplit := List.splitOn_intercalate ampersand hclear (by simp)
  have hwritten : (render (p :: ps)).isEmpty = false := by
    rw [Bool.eq_false_iff, ne_eq, List.isEmpty_iff]
    intro hnil
    unfold render at hnil
    rw [hnil, List.splitOn_nil, List.map_cons] at hsplit
    simp at hsplit
  rw [rawPairs, if_neg (by simp [hwritten]), render, hsplit, List.map_map]
  calc (p :: ps).map (splitOnce equals ∘ fun p => p.1 ++ equals :: p.2)
      = (p :: ps).map id :=
        List.map_congr_left fun q hq => splitOnce_append (hnames q hq).1 q.2
    _ = p :: ps := List.map_id _

/-- Encoded parameters, written out, are read back. -/
theorem parameters_render (ps : List (List UInt8 × List UInt8)) :
    parameters e (render (ps.map encodePair)) = some ps := by
  have hamp {bytes : List UInt8} : ampersand ∉ encode bytes :=
    encode_clear (by decide) (by decide)
  have heq {bytes : List UInt8} : equals ∉ encode bytes :=
    encode_clear (by decide) (by decide)
  rw [parameters, rawPairs_render, readAll_encode]
  · intro q hq
    obtain ⟨p, -, rfl⟩ := List.mem_map.mp hq
    exact ⟨heq, hamp⟩
  · intro q hq
    obtain ⟨p, -, rfl⟩ := List.mem_map.mp hq
    exact hamp

end Percent
