import Mathlib.Data.List.Basic
import Mathlib.Data.List.Perm.Basic

/-!
# Passes over a list

Items are taken into a state, each as soon as what it needs is there; one that
is too early is left for the next pass. A pass that takes nothing ends the
matter. In whatever order the items stand, all of them are taken if and only if
each is supported by others that are (`passes_iff`).
-/

namespace Passes

variable {α σ ε : Type} (attempt : α → σ → Except ε (Option σ))

/-- One pass: the items left over, and the state after the others. -/
def pass : List α → σ → Except ε (List α × σ)
  | [], s => .ok ([], s)
  | x :: xs, s =>
      match attempt x s with
      | .error e => .error e
      | .ok (some t) => pass xs t
      | .ok none => (pass xs s).map fun r => (x :: r.1, r.2)

/-- Passes until nothing is left; one that takes nothing fails. -/
def passes (stuck : ε) : Nat → List α → σ → Except ε σ
  | _, [], s => .ok s
  | 0, _ :: _, _ => .error stuck
  | fuel + 1, x :: xs, s =>
      match pass attempt (x :: xs) s with
      | .error e => .error e
      | .ok (left, t) =>
          if left.length = (x :: xs).length then .error stuck else passes stuck fuel left t

/-- Items taken one after the other. -/
inductive Takes : List α → σ → σ → Prop where
  | nil {s} : Takes [] s s
  | cons {x xs s t u} : attempt x s = .ok (some t) → Takes xs t u → Takes (x :: xs) s u

variable {attempt} {x : α} {xs ys left : List α} {s t u : σ} {stuck : ε} {fuel : Nat}

theorem Takes.append (h : Takes attempt xs s t) (h' : Takes attempt ys t u) :
    Takes attempt (xs ++ ys) s u := by
  induction h with
  | nil => exact h'
  | cons hx _ ih => exact .cons hx (ih h')

/-- A pass takes some of the items and leaves the others. -/
theorem pass_takes (h : pass attempt xs s = .ok (left, t)) :
    ∃ taken, Takes attempt taken s t ∧ (taken ++ left).Perm xs := by
  induction xs generalizing s left with
  | nil =>
      obtain ⟨rfl, rfl⟩ := Prod.mk.inj (Except.ok.inj h)
      exact ⟨[], .nil, .refl _⟩
  | cons x xs ih =>
      unfold pass at h
      split at h
      · cases h
      · rename_i u hx
        obtain ⟨taken, htakes, hperm⟩ := ih h
        exact ⟨x :: taken, .cons hx htakes, hperm.cons x⟩
      · cases hrest : pass attempt xs s with
        | error e => rw [hrest] at h; cases h
        | ok r =>
            rw [hrest] at h
            obtain ⟨rfl, rfl⟩ := Prod.mk.inj (Except.ok.inj h)
            obtain ⟨taken, htakes, hperm⟩ := ih hrest
            exact ⟨taken, htakes, List.perm_middle.trans (hperm.cons x)⟩

/-- Passes that succeed have taken every item, in some order. -/
theorem passes_takes (h : passes attempt stuck fuel xs s = .ok t) :
    ∃ taken, Takes attempt taken s t ∧ taken.Perm xs := by
  induction fuel generalizing xs s with
  | zero =>
      cases xs with
      | nil =>
          obtain rfl := Except.ok.inj h
          exact ⟨[], .nil, .refl _⟩
      | cons x xs => cases h
  | succ fuel ih =>
      cases xs with
      | nil =>
          obtain rfl := Except.ok.inj h
          exact ⟨[], .nil, .refl _⟩
      | cons x xs =>
          unfold passes at h
          split at h
          · cases h
          · rename_i left u hpass
            split at h
            · cases h
            · obtain ⟨taken, htakes, hperm⟩ := pass_takes hpass
              obtain ⟨rest, hrest, hleft⟩ := ih h
              exact ⟨taken ++ rest, htakes.append hrest, (hleft.append_left taken).trans hperm⟩

/-! ## Support -/

/-- Items of a list that can be taken one after the other: each needs only
items that are themselves supported. -/
inductive Supported (needs : (α → Prop) → α → Prop) (items : List α) : α → Prop where
  | intro {z : α} (T : α → Prop) : z ∈ items → needs T z → (∀ y, T y → Supported needs items y) →
      Supported needs items z

/-- How the items of a list are taken: whether one can be depends only on which
others were taken before. `Holds T s` says that `s` is a state after `T`. -/
structure Gathering (attempt : α → σ → Except ε (Option σ)) (items : List α)
    (needs : (α → Prop) → α → Prop) (good : α → Prop) (Holds : List α → σ → Prop) : Prop where
  mono : ∀ {T T' : α → Prop} {x}, (∀ y, T y → T' y) → needs T x → needs T' x
  take : ∀ {T s x}, Holds T s → x ∈ items → needs (· ∈ T) x → good x →
    ∃ t, attempt x s = .ok (some t) ∧ Holds (x :: T) t
  bad : ∀ {T s x}, Holds T s → x ∈ items → needs (· ∈ T) x → ¬good x → ∃ e, attempt x s = .error e
  wait : ∀ {T s x}, Holds T s → x ∈ items → ¬needs (· ∈ T) x → attempt x s = .ok none ∨
    (∃ e, attempt x s = .error e) ∧ ¬needs (· ∈ items) x
  within : ∀ {T s}, Holds T s → ∀ x ∈ T, x ∈ items

namespace Gathering

variable {items T : List α} {needs : (α → Prop) → α → Prop} {good : α → Prop}
  {Holds : List α → σ → Prop}

/-- An item that was taken had what it needs, and was good. -/
theorem taken (h : Gathering attempt items needs good Holds) (hs : Holds T s) (hx : x ∈ items)
    (ht : attempt x s = .ok (some t)) : needs (· ∈ T) x ∧ good x ∧ Holds (x :: T) t := by
  by_cases hn : needs (· ∈ T) x
  · by_cases hg : good x
    · obtain ⟨u, hu, hholds⟩ := h.take hs hx hn hg
      obtain rfl := Option.some.inj (Except.ok.inj (ht.symm.trans hu))
      exact ⟨hn, hg, hholds⟩
    · obtain ⟨e, he⟩ := h.bad hs hx hn hg
      cases ht.symm.trans he
  · obtain hnone | ⟨⟨e, he⟩, -⟩ := h.wait hs hx hn
    · cases ht.symm.trans hnone
    · cases ht.symm.trans he

/-- So all that were taken are supported. -/
theorem takes (h : Gathering attempt items needs good Holds) (htakes : Takes attempt xs s t)
    (hs : Holds T s) (hxs : ∀ x ∈ xs, x ∈ items)
    (hT : ∀ x ∈ T, Supported needs items x) :
    Holds (xs.reverse ++ T) t ∧ ∀ x ∈ xs, Supported needs items x ∧ good x := by
  induction htakes generalizing T with
  | nil => exact ⟨hs, by simp⟩
  | @cons x xs s t u hx _ ih =>
      obtain ⟨hitem, hitems⟩ := List.forall_mem_cons.mp hxs
      obtain ⟨hn, hg, hholds⟩ := h.taken hs hitem hx
      have hsupported : Supported needs items x := .intro _ hitem hn hT
      obtain ⟨hlast, hrest⟩ := ih hholds hitems (List.forall_mem_cons.mpr ⟨hsupported, hT⟩)
      refine ⟨?_, List.forall_mem_cons.mpr ⟨⟨hsupported, hg⟩, hrest⟩⟩
      rwa [List.reverse_cons, List.append_assoc]

/-- A pass over items that are supported and good does not fail, and takes at
least those that have what they need when it starts. -/
theorem pass_ok (h : Gathering attempt items needs good Holds) (hs : Holds T s)
    (hxs : ∀ x ∈ xs, Supported needs items x ∧ good x) :
    ∃ left t, pass attempt xs s = .ok (left, t) ∧ left.Sublist xs ∧
      (∀ x ∈ left, ¬needs (· ∈ T) x) ∧ ∃ taken, Holds (taken ++ T) t ∧ (taken ++ left).Perm xs := by
  have hitem : ∀ {x}, Supported needs items x → x ∈ items := fun hx => by
    cases hx with
    | intro _ hmem _ _ => exact hmem
  induction xs generalizing s T with
  | nil => exact ⟨[], s, rfl, .slnil, by simp, [], hs, .refl _⟩
  | cons x xs ih =>
      obtain ⟨⟨hx, hg⟩, hrest⟩ := List.forall_mem_cons.mp hxs
      by_cases hn : needs (· ∈ T) x
      · obtain ⟨t, ht, hholds⟩ := h.take hs (hitem hx) hn hg
        obtain ⟨left, u, hpass, hsub, hleft, taken, hu, hperm⟩ := ih hholds hrest
        refine ⟨left, u, by rw [pass, ht]; exact hpass, hsub.cons x, fun y hy hy' => ?_,
          taken ++ [x], by rwa [List.append_assoc], ?_⟩
        · exact hleft y hy (h.mono (fun z hz => List.mem_cons_of_mem x hz) hy')
        · rw [List.append_assoc]
          exact List.perm_middle.trans (hperm.cons x)
      · have hnone : attempt x s = .ok none := by
          refine (h.wait hs (hitem hx) hn).resolve_right fun hnever => ?_
          cases hx with
          | intro T' _ hneeds hall =>
              exact hnever.2 (h.mono (fun y hy => hitem (hall y hy)) hneeds)
        obtain ⟨left, u, hpass, hsub, hleft, taken, hu, hperm⟩ := ih hs hrest
        refine ⟨x :: left, u, ?_, hsub.cons_cons x, List.forall_mem_cons.mpr ⟨hn, hleft⟩, taken, hu,
          List.perm_middle.trans (hperm.cons x)⟩
        rw [pass, hnone, hpass]
        rfl

/-- While not all supported items were taken, one that was not has what it needs. -/
theorem progress (h : Gathering attempt items needs good Holds) (hxs : xs ≠ [])
    (hsupported : ∀ x ∈ xs, Supported needs items x)
    (hall : ∀ x, Supported needs items x → x ∈ xs ∨ x ∈ T) : ∃ x ∈ xs, needs (· ∈ T) x := by
  by_contra hnone
  have hstuck : ∀ x, Supported needs items x → x ∈ T := by
    intro x hx
    induction hx with
    | @intro x T' hmem hneeds hT' ih =>
        refine (hall x (.intro T' hmem hneeds hT')).resolve_left fun hx => hnone ⟨x, hx, ?_⟩
        exact h.mono ih hneeds
  obtain ⟨x, hx⟩ := List.exists_mem_of_ne_nil xs hxs
  have hx' := hsupported x hx
  cases hx' with
  | intro T' hmem hneeds hT' =>
      exact hnone ⟨x, hx, h.mono (fun y hy => hstuck y (hT' y hy)) hneeds⟩

theorem passes_ok (h : Gathering attempt items needs good Holds) (hs : Holds T s)
    (hfuel : xs.length ≤ fuel) (hxs : ∀ x ∈ xs, Supported needs items x ∧ good x)
    (hall : ∀ x, Supported needs items x → x ∈ xs ∨ x ∈ T) :
    ∃ t, passes attempt stuck fuel xs s = .ok t := by
  induction fuel generalizing xs s T with
  | zero =>
      obtain rfl := List.eq_nil_of_length_eq_zero (Nat.le_zero.mp hfuel)
      exact ⟨s, rfl⟩
  | succ fuel ih =>
      cases xs with
      | nil => exact ⟨s, rfl⟩
      | cons x xs =>
          obtain ⟨left, t, hpass, hsub, hleft, taken, hholds, hperm⟩ := h.pass_ok hs hxs
          have hshort : left.length ≠ (x :: xs).length := fun he => by
            have hsame := hsub.eq_of_length he
            obtain ⟨y, hy, hneeds⟩ :=
              h.progress (List.cons_ne_nil x xs) (fun y hy => (hxs y hy).1) hall
            exact hleft y (hsame ▸ hy) hneeds
          have hless := Nat.lt_of_le_of_ne hsub.length_le hshort
          obtain ⟨u, hu⟩ := ih hholds (by omega) (fun y hy => hxs y (hsub.subset hy)) fun y hy => by
            obtain hy | hy := hall y hy
            · obtain hy | hy := List.mem_append.mp (hperm.mem_iff.mpr hy)
              · exact .inr (List.mem_append_left _ hy)
              · exact .inl hy
            · exact .inr (List.mem_append_right _ hy)
          refine ⟨u, ?_⟩
          rw [passes, hpass]
          exact (if_neg hshort).trans hu

/-- All items are taken if and only if all are supported and good; as many
passes as there are items are enough. -/
theorem passes_iff (h : Gathering attempt items needs good Holds) (hs : Holds [] s) :
    (∃ t, passes attempt stuck items.length items s = .ok t) ↔
      ∀ x ∈ items, Supported needs items x ∧ good x := by
  constructor
  · rintro ⟨t, ht⟩ x hx
    obtain ⟨taken, htakes, hperm⟩ := passes_takes ht
    have htaken := (h.takes htakes hs (fun x hx => hperm.mem_iff.mp hx) (by simp)).2
    exact htaken x (hperm.mem_iff.mpr hx)
  · intro hall
    refine h.passes_ok hs (Nat.le_refl _) hall fun x hx => .inl ?_
    cases hx with
    | intro _ hmem _ _ => exact hmem

/-- What there is at the end: the state after all items. -/
theorem passes_holds (h : Gathering attempt items needs good Holds) (hs : Holds [] s)
    (ht : passes attempt stuck fuel items s = .ok t) : ∃ T, T.Perm items ∧ Holds T t := by
  obtain ⟨taken, htakes, hperm⟩ := passes_takes ht
  have hholds := (h.takes htakes hs (fun x hx => hperm.mem_iff.mp hx) (by simp)).1
  rw [List.append_nil] at hholds
  exact ⟨taken.reverse, taken.reverse_perm.trans hperm, hholds⟩

end Gathering

end Passes
