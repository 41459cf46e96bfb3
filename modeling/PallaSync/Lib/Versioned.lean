import PallaSync.Lib.Keyed
import Mathlib.Data.List.Chain
import Mathlib.Logic.Relation

/-!
# Versioned tables

A table whose rows are copied, whenever they are written, to the end of a
history, under the next number. The copies of one key are its life: each goes
on from the one before, and the last one is the row. So what the history says
up to a number is what the table said when the history had that length, and it
goes on saying so while rows are written (`upTo_eq`).
-/

/-! ## Lives -/

/-- Successive contents: the first of a kind, and each the next of the one before. -/
structure Life {γ : Type*} (First : γ → Prop) (Next : γ → γ → Prop) (es : List γ) : Prop where
  first : ∀ e, es.head? = some e → First e
  steps : es.IsChain Next

namespace Life

variable {γ : Type*} {First : γ → Prop} {Next : γ → γ → Prop} {es fs : List γ} {e f : γ}

theorem nil : Life First Next ([] : List γ) := ⟨by simp, .nil⟩

theorem single (h : First e) : Life First Next [e] := by
  refine ⟨fun x hx => ?_, .singleton e⟩
  obtain rfl := Option.some.inj hx
  exact h

theorem snoc (h : Life First Next es) (hlast : es.getLast? = some e) (hnext : Next e f) :
    Life First Next (es ++ [f]) := by
  refine ⟨fun x hx => h.first x ?_, List.isChain_append.mpr ⟨h.steps, .singleton f, ?_⟩⟩
  · rw [List.head?_append] at hx
    cases es with
    | nil => cases hlast
    | cons y ys => exact hx
  · rintro x hx y hy
    obtain rfl := Option.some.inj (hlast.symm.trans hx)
    obtain rfl := Option.some.inj hy
    exact hnext

/-- What the first content has and every step keeps, all of them have. -/
theorem forall_mem {P : γ → Prop} (h : Life First Next es) (hfirst : ∀ e, First e → P e)
    (hnext : ∀ e f, Next e f → P e → P f) : ∀ e ∈ es, P e := by
  obtain ⟨hstart, hsteps⟩ := h
  have hhead : ∀ e, es.head? = some e → P e := fun e he => hfirst e (hstart e he)
  clear hstart
  induction es with
  | nil => simp
  | cons e es ih =>
      have he : P e := hhead e rfl
      refine List.forall_mem_cons.mpr ⟨he, ih hsteps.tail fun f hf => ?_⟩
      exact hnext e f ((List.isChain_cons.mp hsteps).1 f hf) he

/-- From the last of some first contents on to the last of all. -/
theorem later (h : Life First Next es) (hfront : fs <+: es) (hlast : fs.getLast? = some e) :
    ∃ f, es.getLast? = some f ∧ Relation.ReflTransGen Next e f := by
  obtain ⟨t, rfl⟩ := hfront
  have hsteps := h.steps
  clear h
  induction t generalizing fs e with
  | nil => exact ⟨e, by rw [List.append_nil]; exact hlast, .refl⟩
  | cons x t ih =>
      rw [List.append_cons] at hsteps ⊢
      obtain ⟨f, hf, hreach⟩ := ih List.getLast?_concat hsteps
      have hfirst := (List.isChain_append.mp (List.isChain_append.mp hsteps).1).2.2
      exact ⟨f, hf, .head (hfirst e hlast x rfl) hreach⟩

end Life

/-! ## Histories -/

/-- How the rows of a table are copied, and the copies read. -/
structure Copying (ρ η κ γ : Type*) where
  key : ρ → κ
  content : ρ → γ
  copy : Nat → ρ → η
  number : η → Nat
  owner : η → κ
  copied : η → γ
  number_copy : ∀ i r, number (copy i r) = i
  owner_copy : ∀ i r, owner (copy i r) = key r
  copied_copy : ∀ i r, copied (copy i r) = content r

namespace Copying

variable {ρ η κ γ : Type*} (C : Copying ρ η κ γ)

/-- Copies are put at the end under the next numbers. -/
def record (hist : List η) (rows : List ρ) : List η :=
  hist ++ rows.zipIdx.map fun (r, i) => C.copy (hist.length + i + 1) r

section Reads

variable [DecidableEq κ]

/-- What the copies of a key say, the oldest first. -/
def copies (hist : List η) (k : κ) : List γ :=
  (hist.filter fun h => decide (C.owner h = k)).map C.copied

/-- What those up to a number say. -/
def upTo (hist : List η) (k : κ) (version : Nat) : List γ :=
  (hist.filter fun h => decide (C.owner h = k) && decide (C.number h ≤ version)).map C.copied

/-- The copies are numbered, and those of a key are its life up to its row. -/
structure Versioned (First : γ → Prop) (Next : γ → γ → Prop) (hist : List η)
    (tab : Table ρ C.key) : Prop where
  numbered : hist.map C.number = List.range' 1 hist.length
  current : ∀ k, (C.copies hist k).getLast? = (tab.find? k).map C.content
  life : ∀ k, Life First Next (C.copies hist k)

end Reads

variable {C} {First : γ → Prop} {Next : γ → γ → Prop} {hist hist' : List η}
  {tab tab' : Table ρ C.key} {rows : List ρ} {k : κ} {version : Nat}

theorem record_length : (C.record hist rows).length = hist.length + rows.length := by
  simp [record]

theorem record_numbers : (C.record hist rows).map C.number =
    hist.map C.number ++ List.range' (hist.length + 1) rows.length := by
  have hcopies : (rows.zipIdx.map fun p => hist.length + p.2 + 1) =
      List.range' (hist.length + 1) rows.length := by
    have hindex : (fun p : ρ × Nat => hist.length + p.2 + 1) =
        (hist.length + 1 + ·) ∘ Prod.snd := by
      funext p
      simp only [Function.comp_apply]
      omega
    rw [hindex, ← List.map_map, List.zipIdx_map_snd, List.map_add_range', Nat.add_zero]
  rw [record, List.map_append, List.map_map]
  refine congrArg _ (Eq.trans (List.map_congr_left fun p _ => ?_) hcopies)
  exact C.number_copy _ _

variable [DecidableEq κ]

theorem record_copies : C.copies (C.record hist rows) k =
    C.copies hist k ++ (rows.filter fun r => decide (C.key r = k)).map C.content := by
  rw [copies, record, List.filter_append, List.map_append, List.filter_map, List.map_map]
  have hrows : rows.filter (fun r => decide (C.key r = k)) =
      (rows.zipIdx.filter ((fun r => decide (C.key r = k)) ∘ Prod.fst)).map Prod.fst := by
    rw [← List.filter_map, List.zipIdx_map_fst]
  rw [hrows, List.map_map]
  refine congrArg (C.copies hist k ++ ·) ?_
  have hfilter : rows.zipIdx.filter ((fun h => decide (C.owner h = k)) ∘
      fun p : ρ × Nat => C.copy (hist.length + p.2 + 1) p.1) =
      rows.zipIdx.filter ((fun r => decide (C.key r = k)) ∘ Prod.fst) :=
    List.filter_congr fun p _ => by simp only [Function.comp_apply, C.owner_copy]
  rw [hfilter]
  exact List.map_congr_left fun p _ => C.copied_copy _ _

namespace Versioned

theorem blank : C.Versioned First Next [] .empty := ⟨rfl, fun _ => rfl, fun _ => .nil⟩

/-- Rows that are written and copied: of each key at most one, that goes on
from the row there was. -/
theorem record (h : C.Versioned First Next hist tab)
    (hrows : ∀ k, rows.filter (fun r => decide (C.key r = k)) = [] ∧ tab'.find? k = tab.find? k ∨
      ∃ r, rows.filter (fun r => decide (C.key r = k)) = [r] ∧ tab'.find? k = some r ∧
        Life First Next (C.copies hist k ++ [C.content r])) :
    C.Versioned First Next (C.record hist rows) tab' where
  numbered := by
    rw [record_numbers, h.numbered, record_length, Nat.add_comm _ 1, List.range'_append_1]
  current k := by
    rw [record_copies]
    obtain ⟨hnone, hsame⟩ | ⟨r, hone, hfind, -⟩ := hrows k
    · rw [hnone, hsame, List.map_nil, List.append_nil, h.current]
    · rw [hone, hfind]
      simp
  life k := by
    rw [record_copies]
    obtain ⟨hnone, -⟩ | ⟨r, hone, -, hlife⟩ := hrows k
    · rw [hnone, List.map_nil, List.append_nil]
      exact h.life k
    · rw [hone]
      exact hlife

theorem insert {r : ρ} (h : C.Versioned First Next hist tab) (htab : tab.insert? r = some tab')
    (hr : First (C.content r)) : C.Versioned First Next (C.record hist [r]) tab' := by
  refine h.record fun k => ?_
  rw [Table.find?_insert? htab]
  by_cases hk : k = C.key r
  · subst hk
    have hnew : C.copies hist (C.key r) = [] := by
      rw [← List.getLast?_eq_none_iff, h.current, Table.find?_insert?_free htab]
      rfl
    refine .inr ⟨r, by simp, if_pos rfl, ?_⟩
    rw [hnew]
    exact Life.single hr
  · exact .inl ⟨by simp [Ne.symm hk], if_neg hk⟩

theorem update {p : ρ → Bool} {f : ρ → ρ} (hf : ∀ r, C.key (f r) = C.key r)
    (h : C.Versioned First Next hist tab)
    (hnext : ∀ r ∈ tab, p r → Next (C.content r) (C.content (f r))) :
    C.Versioned First Next (C.record hist ((tab.select p).map f)) (tab.update p f hf) := by
  refine h.record fun k => ?_
  have hrows : ((tab.select p).map f).filter (fun r => decide (C.key r = k)) =
      ((tab.find? k).toList.filter p).map f := by
    have hkey : (tab.select p).filter (fun r => decide (C.key r = k)) =
        (tab.find? k).toList.filter p := by
      rw [← Table.select_key, Table.select, Table.select, List.filter_filter, List.filter_filter]
      exact List.filter_congr fun r _ => Bool.and_comm _ _
    rw [List.filter_map, ← hkey]
    congr 2
    funext r
    simp only [Function.comp_apply, hf]
  rw [Table.find?_update hf, hrows]
  cases hr : tab.find? k with
  | none => exact .inl ⟨rfl, rfl⟩
  | some r =>
      cases hp : p r with
      | false => exact .inl ⟨by simp [hp], by simp [hp]⟩
      | true =>
          have hlast : (C.copies hist k).getLast? = some (C.content r) := by rw [h.current, hr]; rfl
          exact .inr ⟨f r, by simp [hp], by simp [hp],
            (h.life k).snoc hlast (hnext r (Table.mem_of_find? hr) hp)⟩

theorem number_le (h : C.Versioned First Next hist tab) {x : η} (hx : x ∈ hist) :
    C.number x ≤ hist.length := by
  have hmem := List.mem_map_of_mem (f := C.number) hx
  rw [h.numbered, List.mem_range'_1] at hmem
  omega

/-- The copies up to the last number are all there are. -/
theorem upTo_length (h : C.Versioned First Next hist tab) (k : κ) :
    C.upTo hist k hist.length = C.copies hist k :=
  congrArg (List.map C.copied) (List.filter_congr fun x hx => by simp [h.number_le hx])

/-- Copies that are added have later numbers. -/
theorem number_later {later : List η} (h : C.Versioned First Next hist' tab')
    (hlater : hist ++ later = hist') (hversion : version ≤ hist.length) :
    ∀ x ∈ later, ¬C.number x ≤ version := fun x hx => by
  have hnumbers := h.numbered
  rw [← hlater, List.map_append, List.length_append, ← List.range'_append_1] at hnumbers
  obtain ⟨-, hnew⟩ := List.append_inj hnumbers (by simp)
  have hmem := List.mem_map_of_mem (f := C.number) hx
  rw [hnew, List.mem_range'_1] at hmem
  omega

/-- A version is read off a later history as it was. -/
theorem upTo_eq (h : C.Versioned First Next hist' tab') (hfront : hist <+: hist')
    (hversion : version ≤ hist.length) (k : κ) :
    C.upTo hist' k version = C.upTo hist k version := by
  obtain ⟨later, hlater⟩ := hfront
  have hlate := h.number_later hlater hversion
  have hnone : later.filter (fun x => decide (C.owner x = k) && decide (C.number x ≤ version)) =
      [] := List.filter_eq_nil_iff.mpr fun x hx => by simp [hlate x hx]
  rw [upTo, upTo, ← hlater, List.filter_append, hnone, List.append_nil]

/-- What a later history says of an earlier table: what it said then. -/
theorem upTo_current (h : C.Versioned First Next hist tab)
    (h' : C.Versioned First Next hist' tab') (hfront : hist <+: hist') (k : κ) :
    (C.upTo hist' k hist.length).getLast? = (tab.find? k).map C.content := by
  rw [h'.upTo_eq hfront le_rfl, h.upTo_length, h.current]

/-- What became of a row since an earlier table. -/
theorem became (h : C.Versioned First Next hist tab) (h' : C.Versioned First Next hist' tab')
    (hfront : hist <+: hist') {r : ρ} (hr : tab.find? k = some r) :
    ∃ r', tab'.find? k = some r' ∧ Relation.ReflTransGen Next (C.content r) (C.content r') := by
  have hcopies : C.copies hist k <+: C.copies hist' k := (hfront.filter _).map _
  have hlast := h.current k
  rw [hr] at hlast
  obtain ⟨e, he, hreach⟩ := (h'.life k).later hcopies hlast
  rw [h'.current] at he
  obtain ⟨r', hr', rfl⟩ := Option.map_eq_some_iff.mp he
  exact ⟨r', hr', hreach⟩

/-- What the first content of a key has and every step keeps, its row has. -/
theorem invariant {P : γ → Prop} (h : C.Versioned First Next hist tab) (hfirst : ∀ e, First e → P e)
    (hnext : ∀ e f, Next e f → P e → P f) {r : ρ} (hr : tab.find? k = some r) :
    P (C.content r) := by
  have hlast := h.current k
  rw [hr] at hlast
  exact (h.life k).forall_mem hfirst hnext _ (List.mem_of_getLast? hlast)

/-- A key that some version knows has a row. -/
theorem known (h : C.Versioned First Next hist tab) {e : γ} (he : e ∈ C.upTo hist k version) :
    (tab.find? k).isSome := by
  have hsub : C.upTo hist k version ⊆ C.copies hist k := by
    refine List.map_subset _ fun x hx => ?_
    obtain ⟨hx, hp⟩ := List.mem_filter.mp hx
    exact List.mem_filter.mpr ⟨hx, (Bool.and_eq_true _ _ ▸ hp).1⟩
  have hlast : (C.copies hist k).getLast?.isSome :=
    List.getLast?_isSome.mpr (List.ne_nil_of_mem (hsub he))
  rwa [h.current, Option.isSome_map] at hlast

end Versioned

/-! ## The last copies -/

variable (C)

/-- The copies that are the last of their key up to a number. -/
def latest (hist : List η) (version : Nat) : List η :=
  hist.filter fun h => decide (C.number h ≤ version) && hist.all fun x =>
    !(decide (C.owner x = C.owner h) && decide (C.number h < C.number x ∧ C.number x ≤ version))

variable {C}

theorem mem_latest {h : η} : h ∈ C.latest hist version ↔ h ∈ hist ∧ C.number h ≤ version ∧
    ∀ x ∈ hist, C.owner x = C.owner h → C.number h < C.number x → version < C.number x := by
  simp only [latest, List.mem_filter, Bool.and_eq_true, decide_eq_true_eq, List.all_eq_true,
    Bool.not_eq_true', Bool.and_eq_false_iff, decide_eq_false_iff_not]
  refine and_congr_right fun _ => and_congr_right fun _ => forall_congr' fun x =>
    imp_congr_right fun _ => ?_
  constructor
  · intro hx ho hlt
    have := hx.resolve_left (absurd ho)
    omega
  · intro hx
    by_cases ho : C.owner x = C.owner h
    · refine .inr fun hlt => ?_
      have := hx ho hlt.1
      omega
    · exact .inl ho

namespace Versioned

theorem ascending (h : C.Versioned First Next hist tab) :
    hist.Pairwise fun x y => C.number x < C.number y := by
  have hpairwise : (hist.map C.number).Pairwise (· < ·) := by
    rw [h.numbered]
    exact List.pairwise_lt_range'
  exact List.pairwise_map.mp hpairwise

/-- A key has one last copy. -/
theorem latest_nodup (h : C.Versioned First Next hist tab) :
    ((C.latest hist version).map C.owner).Nodup := by
  refine List.pairwise_map.mpr ((h.ascending.filter _).imp_of_mem ?_)
  intro x y hx hy hlt he
  obtain ⟨-, -, hlast⟩ := mem_latest.mp hx
  obtain ⟨hmem, hle, -⟩ := mem_latest.mp hy
  exact absurd hle (Nat.not_le.mpr (hlast y hmem he.symm hlt))

/-- The last copies up to a version stay what they were. -/
theorem latest_eq (h : C.Versioned First Next hist' tab') (hfront : hist <+: hist')
    (hversion : version ≤ hist.length) : C.latest hist' version = C.latest hist version := by
  obtain ⟨later, hlater⟩ := hfront
  have hlate := h.number_later hlater hversion
  have hnone (p : η → Bool) : later.filter (fun x => decide (C.number x ≤ version) && p x) = [] :=
    List.filter_eq_nil_iff.mpr fun x hx => by simp [hlate x hx]
  rw [latest, latest, ← hlater, List.filter_append, hnone, List.append_nil]
  refine List.filter_congr fun x _ => ?_
  have hall : (later.all fun y => !(decide (C.owner y = C.owner x) &&
      decide (C.number x < C.number y ∧ C.number y ≤ version))) = true :=
    List.all_eq_true.mpr fun y hy => by simp [hlate y hy]
  rw [List.all_append, hall, Bool.and_true]

/-- The last copies of all are the rows. -/
theorem latest_current (h : C.Versioned First Next hist tab) {x : η}
    (hx : x ∈ C.latest hist hist.length) :
    ∃ r, tab.find? (C.owner x) = some r ∧ C.content r = C.copied x := by
  obtain ⟨hmem, -, hlast⟩ := mem_latest.mp hx
  obtain ⟨front, back, rfl⟩ := List.append_of_mem hmem
  have hnone : back.filter (fun y => decide (C.owner y = C.owner x)) = [] := by
    refine List.filter_eq_nil_iff.mpr fun y hy => ?_
    rw [decide_eq_true_eq]
    intro ho
    have hlt := (List.pairwise_cons.mp (List.pairwise_append.mp h.ascending).2.1).1 y hy
    have hin : y ∈ front ++ x :: back := List.mem_append_right _ (List.mem_cons_of_mem _ hy)
    exact absurd (h.number_le hin) (Nat.not_le.mpr (hlast y hin ho hlt))
  have hcurrent := h.current (C.owner x)
  rw [copies, List.filter_append, List.filter_cons_of_pos (by simp), hnone, List.map_append,
    List.map_singleton, List.getLast?_concat] at hcurrent
  obtain ⟨r, hr, he⟩ := Option.map_eq_some_iff.mp hcurrent.symm
  exact ⟨r, hr, he⟩

/-- The rows of some of the last copies. -/
theorem latest_rows (h : C.Versioned First Next hist tab) {xs : List η}
    (hxs : xs ⊆ C.latest hist hist.length) :
    ∃ rs : List ρ, rs.map C.key = xs.map C.owner ∧ rs.map C.content = xs.map C.copied ∧
      ∀ r ∈ rs, r ∈ tab := by
  induction xs with
  | nil => exact ⟨[], rfl, rfl, by simp⟩
  | cons x xs ih =>
      obtain ⟨hx, hxs⟩ := List.cons_subset.mp hxs
      obtain ⟨rs, hkeys, hcontents, hmem⟩ := ih hxs
      obtain ⟨r, hr, hcontent⟩ := h.latest_current hx
      refine ⟨r :: rs, ?_, ?_, List.forall_mem_cons.mpr ⟨Table.mem_of_find? hr, hmem⟩⟩
      · rw [List.map_cons, List.map_cons, hkeys, Table.key_of_find? hr]
      · rw [List.map_cons, List.map_cons, hcontents, hcontent]

/-- And every row has its last copy. -/
theorem current_latest (h : C.Versioned First Next hist tab) {r : ρ} (hr : tab.find? k = some r) :
    ∃ x ∈ C.latest hist hist.length, C.owner x = k ∧ C.copied x = C.content r := by
  have hlast := h.current k
  rw [hr, Option.map_some, copies, List.getLast?_map] at hlast
  obtain ⟨x, hx, he⟩ := Option.map_eq_some_iff.mp hlast
  obtain ⟨hmem, ho⟩ := List.mem_filter.mp (List.mem_of_getLast? hx)
  rw [decide_eq_true_eq] at ho
  obtain ⟨front, hfront⟩ := List.getLast?_eq_some_iff.mp hx
  refine ⟨x, mem_latest.mpr ⟨hmem, h.number_le hmem, fun y hy hoy hlt => ?_⟩, ho, he⟩
  have hin : y ∈ hist.filter fun z => decide (C.owner z = k) :=
    List.mem_filter.mpr ⟨hy, decide_eq_true (hoy.trans ho)⟩
  have hpairwise := h.ascending.filter fun z => decide (C.owner z = k)
  rw [hfront] at hin hpairwise
  obtain hy | hy := List.mem_append.mp hin
  · have := (List.pairwise_append.mp hpairwise).2.2 y hy x List.mem_cons_self
    omega
  · obtain rfl := List.mem_singleton.mp hy
    omega

end Versioned

end Copying
