import PallaSync.Authenticate
import PallaSync.Texts
import PallaSync.Lib.Percent

/-!
# The canonical query

A token is bound to its request's query, written canonically: the parameters
are percent-decoded, encoded again and sorted by their bytes, and no name may
occur twice. Two raw queries with one canonical form are one query, so the form
must say what was asked and nothing else.

The hexadecimal digits are read by the standard library's radix parser, which
takes a leading `+` for a sign. A raw query with an escape like `%+f` is
therefore accepted; every other raw query is accepted when it should be.
-/

namespace PallaSync

open Percent

/-- The bytes of a text. -/
def utf8 (text : String) : List UInt8 := text.toList.flatMap String.utf8EncodeChar

/-- Bytes below 128 as a text. -/
def asciiText (bytes : List UInt8) : String :=
  String.ofList (bytes.map fun v => Char.ofNat v.toNat)

def hexPair (h l : UInt8) : Option UInt8 :=
  (hexValue h).bind fun x => (hexValue l).map fun y => 16 * x + y

/-- Two bytes read as a number of base 16, with an optional sign `+`. -/
def fromStrRadix (h l : UInt8) : Option UInt8 :=
  if h = 43 then hexValue l else hexPair h l

/-- A name or a value, decoded and encoded again. -/
def pct : List UInt8 → Except ApiError String
  | [] => .ok ""
  | c :: rest =>
      if c = percent then
        match rest with
        | h :: l :: rest =>
            match fromStrRadix h l with
            | some v => (pct rest).map (asciiText (encodeByte v) ++ ·)
            | none => .error (err .invalidField)
        | _ => .error (err .invalidField)
      else (pct rest).map (asciiText (encodeByte c) ++ ·)

/-- Parameters are ordered by name, then by value. -/
def paramLe (p q : String × String) : Bool :=
  Json.textLt p.1 q.1 || (p.1 == q.1 && Json.textLe p.2 q.2)

def repeated : Query → Bool
  | p :: q :: rest => p.1 == q.1 || repeated (q :: rest)
  | _ => false

def canonicalQuery (raw : List UInt8) : Except ApiError Query := do
  let out ← (rawPairs raw).mapM fun p => do
    let k ← pct p.1
    let v ← pct p.2
    pure (k, v)
  let out := out.insertionSort fun p q => paramLe p q = true
  Check.failIf (repeated out) (err .invalidField)
  pure out

/-! ## Readings of an escape -/

theorem hexValue_plain {h x : UInt8} (hx : hexValue h = some x) : plain h = true := by
  have hall := forall_byte (P := fun h => (hexValue h).isSome = true → plain h = true)
    (by decide +kernel) h
  exact hall (by rw [hx]; rfl)

theorem hexPair_eq_some {h l v : UInt8} :
    hexPair h l = some v ↔ ∃ x y, hexValue h = some x ∧ hexValue l = some y ∧ 16 * x + y = v := by
  simp [hexPair, Option.bind_eq_some_iff, Option.map_eq_some_iff]

/-- Two hexadecimal digits. -/
def hexadecimal : Escapes where
  read := hexPair
  reads v := forall_byte (P := fun v => hexPair (hexDigit (v / 16)) (hexDigit (v % 16)) = some v)
    (by decide +kernel) v
  clear hread := by
    obtain ⟨x, y, hx, hy, -⟩ := hexPair_eq_some.mp hread
    exact ⟨hexValue_plain hx, hexValue_plain hy⟩

theorem fromStrRadix_of_hexPair {h l v : UInt8} (hread : hexPair h l = some v) :
    fromStrRadix h l = some v := by
  unfold fromStrRadix
  split
  · rename_i hplus
    obtain ⟨x, y, hx, -, -⟩ := hexPair_eq_some.mp hread
    rw [hplus] at hx
    cases hx
  · exact hread

/-- What the radix parser takes. -/
def radix : Escapes where
  read := fromStrRadix
  reads v := fromStrRadix_of_hexPair (hexadecimal.reads v)
  clear {h l v} hread := by
    unfold fromStrRadix at hread
    split at hread
    · rename_i hplus
      exact ⟨by rw [hplus]; rfl, hexValue_plain hread⟩
    · exact hexadecimal.clear hread

/-! ## The code on decoded parameters -/

def textPair (p : List UInt8 × List UInt8) : String × String :=
  (asciiText (encode p.1), asciiText (encode p.2))

theorem asciiText_append (x y : List UInt8) : asciiText (x ++ y) = asciiText x ++ asciiText y := by
  rw [asciiText, List.map_append, String.ofList_append]
  rfl

theorem asciiText_encode_cons (v : UInt8) (bytes : List UInt8) :
    asciiText (encode (v :: bytes)) = asciiText (encodeByte v) ++ asciiText (encode bytes) :=
  asciiText_append _ _

theorem pct_escape (h l : UInt8) (rest : List UInt8) :
    pct (percent :: h :: l :: rest) = match fromStrRadix h l with
      | some v => (pct rest).map (asciiText (encodeByte v) ++ ·)
      | none => .error (err .invalidField) := by
  rw [pct, if_pos rfl]

theorem pct_short {rest : List UInt8} (hshort : ∀ h l tail, rest = h :: l :: tail → False) :
    pct (percent :: rest) = .error (err .invalidField) := by
  rw [pct, if_pos rfl]
  exact hshort

theorem pct_other {c : UInt8} (hc : c ≠ percent) (rest : List UInt8) :
    pct (c :: rest) = (pct rest).map (asciiText (encodeByte c) ++ ·) := by
  rw [pct.eq_def]
  exact if_neg hc

/-- A text is accepted when its escapes can be read, and is what they encode. -/
theorem pct_eq (s : List UInt8) :
    pct s = match decode radix s with
      | some bytes => .ok (asciiText (encode bytes))
      | none => .error (err .invalidField) := by
  induction s using decode.induct with
  | case1 => rfl
  | case2 h l rest ih =>
      rw [pct_escape, decode_escape, show radix.read h l = fromStrRadix h l from rfl]
      cases fromStrRadix h l with
      | none => rfl
      | some v =>
          simp only [ih, Option.bind_some]
          cases decode radix rest with
          | none => rfl
          | some bytes => simp only [Option.map_some, asciiText_encode_cons]; rfl
  | case3 rest hshort => rw [pct_short hshort, decode_short hshort]
  | case4 c rest hc ih =>
      rw [pct_other hc, decode_other hc, ih]
      cases decode radix rest with
      | none => rfl
      | some bytes => simp only [Option.map_some, asciiText_encode_cons]; rfl

theorem pct_all (ps : List (List UInt8 × List UInt8)) :
    (ps.mapM fun p => do
      let k ← pct p.1
      let v ← pct p.2
      pure (k, v)) = match readAll radix ps with
        | some qs => .ok (qs.map textPair)
        | none => .error (err .invalidField) := by
  induction ps with
  | nil => rfl
  | cons p ps ih =>
      rw [List.mapM_cons, ih, readAll, pct_eq, pct_eq]
      cases decode radix p.1 with
      | none => rfl
      | some name =>
          cases decode radix p.2 with
          | none => rfl
          | some value => cases readAll radix ps <;> rfl

/-! ## Sorting -/

theorem paramLe_iff {p q : String × String} :
    paramLe p q = true ↔ Json.textLt p.1 q.1 = true ∨ p.1 = q.1 ∧ Json.textLe p.2 q.2 = true := by
  simp [paramLe]

instance : Std.Total fun p q : String × String => paramLe p q = true where
  total p q := by
    rw [paramLe_iff, paramLe_iff]
    rcases Json.textLt_or_eq p.1 q.1 with h | h | h
    · exact .inl (.inl h)
    · rcases Std.Total.total (r := fun x y => Json.textLe x y = true) p.2 q.2 with h' | h'
      · exact .inl (.inr ⟨h, h'⟩)
      · exact .inr (.inr ⟨h.symm, h'⟩)
    · exact .inr (.inl h)

instance : IsTrans (String × String) fun p q => paramLe p q = true where
  trans p q r hpq hqr := by
    rw [paramLe_iff] at *
    rcases hpq with hlt | ⟨heq, hle⟩
    · rcases hqr with hlt' | ⟨heq', -⟩
      · exact .inl (Json.textLt_trans hlt hlt')
      · exact .inl (heq' ▸ hlt)
    · rcases hqr with hlt' | ⟨heq', hle'⟩
      · exact .inl (heq ▸ hlt')
      · exact .inr ⟨heq.trans heq',
          IsTrans.trans (r := fun x y => Json.textLe x y = true) _ _ _ hle hle'⟩

instance : Std.Antisymm fun p q : String × String => paramLe p q = true where
  antisymm p q hpq hqp := by
    rw [paramLe_iff] at *
    rcases hpq with hlt | ⟨heq, hle⟩
    · rcases hqp with hgt | ⟨heq, -⟩
      · exact absurd hgt (by simp [Json.textLt_asymm hlt])
      · exact absurd heq.symm (Json.textLt_ne hlt)
    · rcases hqp with hgt | ⟨-, hge⟩
      · exact absurd heq.symm (Json.textLt_ne hgt)
      · exact Prod.ext heq
          (Std.Antisymm.antisymm (r := fun x y => Json.textLe x y = true) _ _ hle hge)

/-- A sorted list whose neighbours have different names has no name twice. -/
theorem repeated_sorted {q : Query} (hsorted : q.Pairwise fun p p' => paramLe p p' = true) :
    repeated q = false ↔ (q.map Prod.fst).Nodup := by
  induction q with
  | nil => simp [repeated]
  | cons p q ih =>
      obtain ⟨hp, hq⟩ := List.pairwise_cons.mp hsorted
      rcases q with _ | ⟨p', q⟩
      · simp [repeated]
      have hcons : ((p :: p' :: q).map Prod.fst).Nodup ↔
          p.1 ∉ (p' :: q).map Prod.fst ∧ ((p' :: q).map Prod.fst).Nodup := List.nodup_cons
      rw [repeated, Bool.or_eq_false_iff, ih hq, hcons]
      refine and_congr_left fun hnodup => ?_
      rw [beq_eq_false_iff_ne]
      constructor
      · intro hne hmem
        obtain ⟨r, hr, heq⟩ := List.mem_map.mp hmem
        rcases paramLe_iff.mp (hp p' List.mem_cons_self) with hlt | ⟨heq', -⟩
        · -- the names go up from here, so the first one does not come again
          rcases List.mem_cons.mp hr with rfl | hr
          · exact hne heq.symm
          · have hle := (List.pairwise_cons.mp hq).1 r hr
            rcases paramLe_iff.mp hle with hlt' | ⟨heq', -⟩
            · exact Json.textLt_ne (Json.textLt_trans hlt hlt') heq.symm
            · exact hne (heq'.trans heq).symm
        · exact hne heq'
      · intro hnot heq
        exact hnot (List.mem_map.mpr ⟨p', List.mem_cons_self, heq.symm⟩)

/-! ## What is accepted -/

/-- A `%` with a sign and a digit behind it. -/
def SignedEscape (raw : List UInt8) : Prop :=
  ∃ before after, raw = before ++ percent :: 43 :: after

/-- The decoded names are pairwise distinct. -/
def DistinctNames (e : Escapes) (raw : List UInt8) : Prop :=
  ∃ ps, parameters e raw = some ps ∧ (ps.map Prod.fst).Nodup

/-- Two raw queries ask for the same values of the same names. -/
def SameMap (raw raw' : List UInt8) : Prop :=
  ∃ ps ps', parameters hexadecimal raw = some ps ∧ parameters hexadecimal raw' = some ps' ∧
    ∀ p, p ∈ ps ↔ p ∈ ps'

theorem utf8Size_small {c : Char} (h : c.toNat < 128) : c.utf8Size = 1 := by
  have hle : c.val ≤ 0x7f := by
    rw [UInt32.le_iff_toNat_le]
    exact Nat.le_of_lt_succ h
  simp [Char.utf8Size, hle]

theorem toNat_ascii (v : UInt8) (h : v < 128) :
    String.utf8EncodeChar (Char.ofNat v.toNat) = [v] :=
  forall_byte (P := fun v => v < 128 → String.utf8EncodeChar (Char.ofNat v.toNat) = [v])
    (by decide +kernel) v h

theorem utf8_asciiText {bytes : List UInt8} (h : ∀ v ∈ bytes, v < 128) :
    utf8 (asciiText bytes) = bytes := by
  rw [utf8, asciiText, String.toList_ofList, List.flatMap_map]
  induction bytes with
  | nil => rfl
  | cons v bytes ih =>
      rw [List.flatMap_cons, toNat_ascii v (h v List.mem_cons_self),
        ih fun x hx => h x (List.mem_cons_of_mem _ hx)]
      rfl

theorem encode_ascii (bytes : List UInt8) : ∀ v ∈ encode bytes, v < 128 := by
  intro v hv
  obtain ⟨x, -, hx⟩ := List.mem_flatMap.mp hv
  have hall := forall_byte (P := fun x => (encodeByte x).all (fun v => v < 128) = true)
    (by decide +kernel) x
  exact of_decide_eq_true (List.all_eq_true.mp hall v hx)

theorem utf8_append (x y : String) : utf8 (x ++ y) = utf8 x ++ utf8 y := by
  rw [utf8, String.toList_append, List.flatMap_append]
  rfl

theorem textPair_injective : Function.Injective textPair := by
  intro p p' h
  have htext {x y : List UInt8} (h : asciiText (encode x) = asciiText (encode y)) : x = y := by
    have hbytes := congrArg utf8 h
    rw [utf8_asciiText (encode_ascii x), utf8_asciiText (encode_ascii y)] at hbytes
    exact encode_injective radix hbytes
  exact Prod.ext (htext (congrArg Prod.fst h)) (htext (congrArg Prod.snd h))

theorem names_nodup (ps : List (List UInt8 × List UInt8)) :
    ((ps.map textPair).map Prod.fst).Nodup ↔ (ps.map Prod.fst).Nodup := by
  have hname : Function.Injective fun x => asciiText (encode x) := by
    intro x y h
    have hpair : textPair (x, []) = textPair (y, []) := Prod.ext h rfl
    exact congrArg Prod.fst (textPair_injective hpair)
  rw [← List.nodup_map_iff hname, List.map_map, List.map_map]
  rfl

abbrev sorted (q : Query) : Query := q.insertionSort fun p p' => paramLe p p' = true

/-- The canonical form, from what the raw query denotes under the radix parser. -/
theorem canonicalQuery_ok {raw : List UInt8} {q : Query} :
    canonicalQuery raw = .ok q ↔
      ∃ ps, parameters radix raw = some ps ∧ (ps.map Prod.fst).Nodup ∧
        q = sorted (ps.map textPair) := by
  unfold canonicalQuery
  rw [pct_all, ← parameters]
  cases hps : parameters radix raw with
  | none =>
      constructor
      · intro h
        cases h
      · rintro ⟨ps, hps, -⟩
        cases hps
  | some ps =>
      have hrepeated := repeated_sorted
        (List.pairwise_insertionSort (fun p p' => paramLe p p' = true) (ps.map textPair))
      have hperm := (List.perm_insertionSort (fun p p' => paramLe p p' = true)
        (ps.map textPair)).map Prod.fst
      rw [hperm.nodup_iff, names_nodup] at hrepeated
      constructor
      · intro h
        obtain ⟨out, hout, h⟩ := Check.bind_ok.mp h
        obtain rfl := Except.ok.inj hout
        obtain ⟨u, hfail, h⟩ := Check.bind_ok.mp h
        exact ⟨ps, rfl, hrepeated.mp (Check.failIf_ok.mp hfail), (Except.ok.inj h).symm⟩
      · rintro ⟨ps', heq, hnodup, rfl⟩
        obtain rfl := Option.some.inj heq
        refine Check.bind_ok.mpr ⟨_, rfl, Check.bind_ok.mpr ⟨(), ?_, rfl⟩⟩
        exact Check.failIf_ok.mpr (hrepeated.mpr hnodup)

theorem canonicalQuery_isOk {raw : List UInt8} :
    (canonicalQuery raw).isOk ↔ DistinctNames radix raw := by
  constructor
  · intro h
    cases hq : canonicalQuery raw with
    | error e =>
        rw [hq] at h
        cases h
    | ok q =>
        obtain ⟨ps, hps, hnodup, -⟩ := canonicalQuery_ok.mp hq
        exact ⟨ps, hps, hnodup⟩
  · rintro ⟨ps, hps, hnodup⟩
    rw [canonicalQuery_ok.mpr ⟨ps, hps, hnodup, rfl⟩]
    rfl

theorem utf8_intercalate (sep : String) (texts : List String) :
    utf8 (sep.intercalate texts) = (utf8 sep).intercalate (texts.map utf8) := by
  induction texts with
  | nil => rw [String.intercalate_nil]; rfl
  | cons text texts ih =>
      rcases texts with _ | ⟨next, texts⟩
      · rw [String.intercalate_singleton, List.map_singleton, List.intercalate_singleton]
      · rw [String.intercalate_cons_cons, utf8_append, utf8_append, ih, List.map_cons,
          List.map_cons, List.map_cons, List.intercalate_cons_cons]

/-- The canonical string denotes the parameters it was made of. -/
theorem utf8_queryString (ps : List (List UInt8 × List UInt8)) :
    utf8 (queryString (ps.map textPair)) = render (ps.map encodePair) := by
  rw [queryString, utf8_intercalate, render, List.map_map, List.map_map, List.map_map]
  refine congrArg _ (List.map_congr_left fun p _ => ?_)
  show utf8 (asciiText (encode p.1) ++ "=" ++ asciiText (encode p.2)) = _
  rw [utf8_append, utf8_append, utf8_asciiText (encode_ascii _), utf8_asciiText (encode_ascii _),
    List.append_assoc]
  rfl

/-- The parameters of a canonical form, in its order. -/
theorem sorted_textPair (ps : List (List UInt8 × List UInt8)) :
    ∃ qs : List (List UInt8 × List UInt8), qs.Perm ps ∧
      sorted (ps.map textPair) = qs.map textPair := by
  have hperm := List.perm_insertionSort (fun p p' => paramLe p p' = true) (ps.map textPair)
  have hrange : sorted (ps.map textPair) ∈ Set.range (List.map textPair) := by
    rw [Set.range_list_map]
    intro x hx
    obtain ⟨p, -, rfl⟩ := List.mem_map.mp (hperm.mem_iff.mp hx)
    exact ⟨p, rfl⟩
  obtain ⟨qs, hqs⟩ := hrange
  rw [show List.insertionSort _ _ = _ from hqs.symm] at hperm
  exact ⟨qs, (List.map_perm_map_iff textPair_injective).mp hperm, hqs.symm⟩

/-- Canonicalising the canonical string changes nothing. -/
theorem canonicalQuery_queryString {raw : List UInt8} {q : Query}
    (h : canonicalQuery raw = .ok q) : canonicalQuery (utf8 (queryString q)) = .ok q := by
  obtain ⟨ps, -, hnodup, rfl⟩ := canonicalQuery_ok.mp h
  obtain ⟨qs, hperm, hsorted⟩ := sorted_textPair ps
  have hpairwise := List.pairwise_insertionSort (fun p p' => paramLe p p' = true) (ps.map textPair)
  refine canonicalQuery_ok.mpr ⟨qs, ?_, (hperm.map Prod.fst).nodup_iff.mpr hnodup, ?_⟩
  · rw [hsorted, utf8_queryString, parameters_render]
  · rw [← hsorted]
    exact hpairwise.insertionSort_eq.symm

theorem queryString_inj {raw raw' : List UInt8} {q q' : Query} (h : canonicalQuery raw = .ok q)
    (h' : canonicalQuery raw' = .ok q') (heq : queryString q = queryString q') : q = q' := by
  have hq := canonicalQuery_queryString h
  rw [heq, canonicalQuery_queryString h'] at hq
  exact (Except.ok.inj hq).symm

theorem sorted_eq {ps ps' : List (List UInt8 × List UInt8)} (h : (ps.map Prod.fst).Nodup)
    (h' : (ps'.map Prod.fst).Nodup) :
    sorted (ps.map textPair) = sorted (ps'.map textPair) ↔ ∀ p, p ∈ ps ↔ p ∈ ps' := by
  have hperm := List.perm_insertionSort (fun p p' => paramLe p p' = true)
  constructor
  · intro heq
    have hmaps := ((hperm (ps.map textPair)).symm.trans (List.Perm.of_eq heq)).trans
      (hperm (ps'.map textPair))
    exact fun p => ((List.map_perm_map_iff textPair_injective).mp hmaps).mem_iff
  · intro hmem
    have hps := (List.perm_ext_iff_of_nodup h.of_map h'.of_map).mpr hmem
    have hmaps := ((hperm (ps.map textPair)).trans (hps.map textPair)).trans
      (hperm (ps'.map textPair)).symm
    exact hmaps.eq_of_pairwise' (List.pairwise_insertionSort _ _) (List.pairwise_insertionSort _ _)

/-! ## Acceptance, aliasing and stability -/

/-- The raw query is accepted exactly when its escapes are hexadecimal and its
decoded names distinct. -/
def Accepts (raw : List UInt8) : Prop :=
  (canonicalQuery raw).isOk ↔ Escaped hexadecimal raw ∧ DistinctNames hexadecimal raw

/-- Both accepted, two raw queries have one canonical string exactly when they
denote the same map. -/
def Alike (raw raw' : List UInt8) : Prop :=
  ∀ q q', canonicalQuery raw = .ok q → canonicalQuery raw' = .ok q' →
    (queryString q = queryString q' ↔ SameMap raw raw')

/-- The canonical string is its own canonical form. -/
def Stable (raw : List UInt8) : Prop :=
  ∀ q, canonicalQuery raw = .ok q → canonicalQuery (utf8 (queryString q)) = .ok q

/-- Accepted for a signed escape: there is one, it can be read with the sign,
and the names so read are distinct. -/
def SignTaken (raw : List UInt8) : Prop :=
  SignedEscape raw ∧ Escaped radix raw ∧ DistinctNames radix raw

theorem parameters_extends {raw : List UInt8} {ps : List (List UInt8 × List UInt8)}
    (h : parameters hexadecimal raw = some ps) : parameters radix raw = some ps :=
  readAll_extends fromStrRadix_of_hexPair h

theorem not_escaped_signed {raw : List UInt8} (h : SignedEscape raw) :
    ¬ Escaped hexadecimal raw := by
  intro hesc
  obtain ⟨before, after, rfl⟩ := h
  obtain ⟨h, l, rest, v, heq, hread⟩ := hesc before (43 :: after) rfl
  obtain ⟨rfl, -⟩ := List.cons.inj heq
  have hpair : hexPair 43 l = some v := hread
  obtain ⟨x, y, hx, -⟩ := hexPair_eq_some.mp hpair
  cases hx

/-- Without a sign the radix parser reads hexadecimal pairs. -/
theorem escaped_unsigned {raw : List UInt8} (h : ¬ SignedEscape raw) (hesc : Escaped radix raw) :
    Escaped hexadecimal raw := by
  intro before after heq
  obtain ⟨x, l, rest, v, rfl, hread⟩ := hesc before after heq
  have hx : x ≠ 43 := by
    rintro rfl
    exact h ⟨before, l :: rest, heq⟩
  have hpair : fromStrRadix x l = hexPair x l := if_neg hx
  have hradix : fromStrRadix x l = some v := hread
  exact ⟨x, l, rest, v, rfl, hpair.symm.trans hradix⟩

theorem DistinctNames.escaped {e : Escapes} {raw : List UInt8} (h : DistinctNames e raw) :
    Escaped e raw := by
  obtain ⟨ps, hps, -⟩ := h
  rw [← parameters_isSome, hps]
  rfl

theorem accepts_iff (raw : List UInt8) : Accepts raw ↔ ¬ SignTaken raw := by
  rw [Accepts, canonicalQuery_isOk]
  constructor
  · rintro h ⟨hsigned, -, hdistinct⟩
    exact not_escaped_signed hsigned (h.mp hdistinct).1
  · intro hfree
    constructor
    · intro hdistinct
      have hunsigned : ¬ SignedEscape raw :=
        fun hsigned => hfree ⟨hsigned, hdistinct.escaped, hdistinct⟩
      have hesc := escaped_unsigned hunsigned hdistinct.escaped
      refine ⟨hesc, ?_⟩
      obtain ⟨qs, hqs⟩ := Option.isSome_iff_exists.mp ((parameters_isSome raw).mpr hesc)
      obtain ⟨ps, hps, hnodup⟩ := hdistinct
      rw [parameters_extends hqs] at hps
      obtain rfl := Option.some.inj hps
      exact ⟨qs, hqs, hnodup⟩
    · rintro ⟨-, ps, hps, hnodup⟩
      exact ⟨ps, parameters_extends hps, hnodup⟩

theorem alike_of_accepts {raw raw' : List UInt8} (h : Accepts raw) (h' : Accepts raw') :
    Alike raw raw' := by
  intro q q' hq hq'
  obtain ⟨-, ps, hps, hnodup⟩ := h.mp (by rw [hq]; rfl)
  obtain ⟨-, ps', hps', hnodup'⟩ := h'.mp (by rw [hq']; rfl)
  obtain ⟨_, hradix, -, rfl⟩ := canonicalQuery_ok.mp hq
  obtain ⟨_, hradix', -, rfl⟩ := canonicalQuery_ok.mp hq'
  rw [parameters_extends hps] at hradix
  rw [parameters_extends hps'] at hradix'
  obtain rfl := Option.some.inj hradix
  obtain rfl := Option.some.inj hradix'
  have hiff := sorted_eq hnodup hnodup'
  constructor
  · intro heq
    exact ⟨ps, ps', hps, hps', hiff.mp (queryString_inj hq hq' heq)⟩
  · rintro ⟨rs, rs', hrs, hrs', hmem⟩
    rw [hps] at hrs
    rw [hps'] at hrs'
    obtain rfl := Option.some.inj hrs
    obtain rfl := Option.some.inj hrs'
    rw [hiff.mpr hmem]

/-- Two raw queries are accepted as they should be, compared as they should be
and canonicalised once and for all exactly when neither is accepted for a
signed escape. -/
theorem query_canonical (raw raw' : List UInt8) :
    (Accepts raw ∧ Accepts raw' ∧ Alike raw raw' ∧ Stable raw ∧ Stable raw') ↔
      ¬ SignTaken raw ∧ ¬ SignTaken raw' := by
  rw [← accepts_iff, ← accepts_iff]
  constructor
  · rintro ⟨h, h', -⟩
    exact ⟨h, h'⟩
  · rintro ⟨h, h'⟩
    exact ⟨h, h', alike_of_accepts h h', fun _ => canonicalQuery_queryString,
      fun _ => canonicalQuery_queryString⟩

/-- `a=%+f` is accepted, though `+` is no hexadecimal digit. -/
theorem query_canonical_signed : ¬ Accepts [97, 61, 37, 43, 102] := by
  rw [accepts_iff, not_not]
  refine ⟨⟨[97, 61], [102], rfl⟩, ?_, ?_⟩
  · exact DistinctNames.escaped ⟨[([97], [15])], by decide +kernel, by decide⟩
  · exact ⟨[([97], [15])], by decide +kernel, by decide⟩

end PallaSync
