import Mathlib.Logic.Relation

/-!
# Atomic programs

A program that reads and writes a store of type `σ` and can fail with an
`ε`. A failed run has no store: the caller keeps the one it started with, as
a database transaction that is rolled back does. So only successful runs
have anything to say about the store, and every proof about such a program
starts from `m s = .ok (a, s')` and takes the program apart.

`Atomic.bind_ok` and its companions are that taking apart, one lemma a
construct; `Atomic.each_ok` and `Atomic.collect_ok` do it for the two loops a
program may have. Programs are written as straight lines (`failIf`, `lift`,
`each`, no early return), which is what keeps the lemmas applicable.
-/

/-- Programs over a store that either succeed or leave no trace. -/
abbrev Atomic (ε σ : Type) := StateT σ (Except ε)

namespace Atomic

variable {ε σ α β : Type}

/-- Stop with `e` when `c` holds. -/
def failIf (c : Bool) (e : ε) : Atomic ε σ Unit :=
  fun s => if c then .error e else .ok ((), s)

/-- A check that reads nothing but its arguments. -/
def lift (x : Except ε α) : Atomic ε σ α :=
  fun s => match x with
    | .ok a => .ok (a, s)
    | .error e => .error e

/-- The value of an option, or the failure `e`. -/
def require (x : Option α) (e : ε) : Atomic ε σ α :=
  fun s => match x with
    | some a => .ok (a, s)
    | none => .error e

/-- Read a projection of the store. -/
def read (f : σ → α) : Atomic ε σ α := fun s => .ok (f s, s)

/-- Rewrite the store. -/
def write (f : σ → σ) : Atomic ε σ Unit := fun s => .ok ((), f s)

/-- Run `f` on every element, in order. -/
def each (f : α → Atomic ε σ Unit) : List α → Atomic ε σ Unit
  | [] => pure ()
  | x :: xs => do
      f x
      each f xs

/-- Run `f` on every element, in order, and keep the results. -/
def collect (f : α → Atomic ε σ β) : List α → Atomic ε σ (List β)
  | [] => pure []
  | x :: xs => do
      let b ← f x
      let bs ← collect f xs
      pure (b :: bs)

/-! ## Taking a successful run apart -/

@[simp] theorem pure_ok {a b : α} {s t : σ} :
    (pure a : Atomic ε σ α) s = .ok (b, t) ↔ b = a ∧ s = t := by
  show (Except.ok (a, s) : Except ε (α × σ)) = .ok (b, t) ↔ _
  rw [Except.ok.injEq, Prod.mk.injEq, eq_comm]

theorem bind_ok {m : Atomic ε σ α} {f : α → Atomic ε σ β} {s t : σ} {b : β} :
    (m >>= f) s = .ok (b, t) ↔ ∃ a s', m s = .ok (a, s') ∧ f a s' = .ok (b, t) := by
  show (m s >>= fun p => f p.1 p.2) = .ok (b, t) ↔ _
  cases m s with
  | error e => simp [bind, Except.bind]
  | ok p =>
      constructor
      · exact fun h => ⟨p.1, p.2, rfl, h⟩
      · rintro ⟨a, s', he, h⟩
        cases he
        exact h

/-- Go on after a step that succeeds. -/
theorem bind_of_ok {m : Atomic ε σ α} {f : α → Atomic ε σ β} {s t : σ} {a : α}
    (h : m s = .ok (a, t)) : (m >>= f) s = f a t := by
  show (m s >>= fun p => f p.1 p.2) = f a t
  rw [h]
  rfl

/-- Stop at a step that fails. -/
theorem bind_of_error {m : Atomic ε σ α} {f : α → Atomic ε σ β} {s : σ} {e : ε}
    (h : m s = .error e) : (m >>= f) s = .error e := by
  show (m s >>= fun p => f p.1 p.2) = .error e
  rw [h]
  rfl

@[simp] theorem throw_ok {e : ε} {s t : σ} {a : α} :
    (throw e : Atomic ε σ α) s = .ok (a, t) ↔ False := by
  show (Except.error e : Except ε (α × σ)) = .ok (a, t) ↔ False
  simp

@[simp] theorem failIf_ok {c : Bool} {e : ε} {s t : σ} {u : Unit} :
    (failIf c e : Atomic ε σ Unit) s = .ok (u, t) ↔ c = false ∧ s = t := by
  unfold failIf
  cases c <;> simp [eq_comm]

@[simp] theorem lift_ok {x : Except ε α} {s t : σ} {a : α} :
    (lift x : Atomic ε σ α) s = .ok (a, t) ↔ x = .ok a ∧ s = t := by
  unfold lift
  cases x with
  | error e => simp
  | ok b => simp [eq_comm]

@[simp] theorem require_ok {x : Option α} {e : ε} {s t : σ} {a : α} :
    (require x e : Atomic ε σ α) s = .ok (a, t) ↔ x = some a ∧ s = t := by
  unfold require
  cases x with
  | none => simp
  | some b => simp [eq_comm]

@[simp] theorem read_ok {f : σ → α} {s t : σ} {a : α} :
    (read f : Atomic ε σ α) s = .ok (a, t) ↔ a = f s ∧ s = t := by
  simp [read, eq_comm]

@[simp] theorem write_ok {f : σ → σ} {s t : σ} {u : Unit} :
    (write f : Atomic ε σ Unit) s = .ok (u, t) ↔ t = f s := by
  simp [write, eq_comm]

theorem ite_ok {c : Prop} [Decidable c] {m n : Atomic ε σ α} {s t : σ} {a : α} :
    (if c then m else n) s = .ok (a, t) ↔
      (c ∧ m s = .ok (a, t)) ∨ (¬c ∧ n s = .ok (a, t)) := by
  split <;> simp_all

/-! ## Loops

A loop of steps each of which is an `R`-step is an `R`-path, and when the
element decides what its step does, the path visits the elements in order. -/

theorem each_nil_ok {f : α → Atomic ε σ Unit} {s t : σ} {u : Unit} :
    each f [] s = .ok (u, t) ↔ s = t := by
  simp [each]

theorem each_cons_ok {f : α → Atomic ε σ Unit} {x : α} {xs : List α} {s t : σ} {u : Unit} :
    each f (x :: xs) s = .ok (u, t) ↔
      ∃ s', f x s = .ok ((), s') ∧ each f xs s' = .ok (u, t) := by
  simp only [each, bind_ok]
  exact ⟨fun ⟨_, s', h⟩ => ⟨s', h⟩, fun ⟨s', h⟩ => ⟨(), s', h⟩⟩

theorem collect_nil_ok {f : α → Atomic ε σ β} {s t : σ} {bs : List β} :
    collect f [] s = .ok (bs, t) ↔ bs = [] ∧ s = t := by
  simp [collect]

theorem collect_cons_ok {f : α → Atomic ε σ β} {x : α} {xs : List α} {s t : σ}
    {bs : List β} :
    collect f (x :: xs) s = .ok (bs, t) ↔
      ∃ b s' bs', f x s = .ok (b, s') ∧ collect f xs s' = .ok (bs', t) ∧ bs = b :: bs' := by
  simp only [collect, bind_ok, pure_ok]
  constructor
  · rintro ⟨b, s', hb, bs', s'', hbs, rfl, rfl⟩
    exact ⟨b, s', bs', hb, hbs, rfl⟩
  · rintro ⟨b, s', bs', hb, hbs, rfl⟩
    exact ⟨b, s', hb, bs', t, hbs, rfl, rfl⟩

/-- What every step of a loop preserves, the loop preserves. -/
theorem each_preserves {P : σ → Prop} {f : α → Atomic ε σ Unit}
    {xs : List α} (hf : ∀ x ∈ xs, ∀ s t u, P s → f x s = .ok (u, t) → P t)
    {s t : σ} {u : Unit} (hs : P s) (h : each f xs s = .ok (u, t)) : P t := by
  induction xs generalizing s with
  | nil => rw [← each_nil_ok.mp h]; exact hs
  | cons x xs ih =>
      obtain ⟨s', hx, hxs⟩ := each_cons_ok.mp h
      exact ih (fun y hy => hf y (List.mem_cons_of_mem _ hy))
        (hf x List.mem_cons_self s s' () hs hx) hxs

theorem collect_preserves {P : σ → Prop} {f : α → Atomic ε σ β}
    {xs : List α} (hf : ∀ x ∈ xs, ∀ s t b, P s → f x s = .ok (b, t) → P t)
    {s t : σ} {bs : List β} (hs : P s) (h : collect f xs s = .ok (bs, t)) : P t := by
  induction xs generalizing s bs with
  | nil => rw [← (collect_nil_ok.mp h).2]; exact hs
  | cons x xs ih =>
      obtain ⟨b, s', bs', hx, hxs, -⟩ := collect_cons_ok.mp h
      exact ih (fun y hy => hf y (List.mem_cons_of_mem _ hy))
        (hf x List.mem_cons_self s s' b hs hx) hxs

/-! ## What a program leaves alone

A program leaves a projection of the store alone when no successful run
changes it. The rules follow the program, so a proof is the program's outline. -/

/-- No successful run of `m` changes `f`. -/
def Leaves {γ : Type} (f : σ → γ) (m : Atomic ε σ α) : Prop :=
  ∀ s a t, m s = .ok (a, t) → f t = f s

namespace Leaves

variable {γ : Type} {f : σ → γ}

theorem pure (a : α) : Leaves f (pure a : Atomic ε σ α) := by
  intro s b t h
  obtain ⟨-, rfl⟩ := pure_ok.mp h
  rfl

theorem bind {m : Atomic ε σ α} {k : α → Atomic ε σ β} (hm : Leaves f m)
    (hk : ∀ a, Leaves f (k a)) : Leaves f (m >>= k) := by
  intro s b t h
  obtain ⟨a, s', h₁, h₂⟩ := bind_ok.mp h
  exact (hk a s' b t h₂).trans (hm s a s' h₁)

theorem failIf (c : Bool) (e : ε) : Leaves f (failIf c e : Atomic ε σ Unit) := by
  intro s b t h
  obtain ⟨-, rfl⟩ := failIf_ok.mp h
  rfl

theorem lift (x : Except ε α) : Leaves f (lift x : Atomic ε σ α) := by
  intro s b t h
  obtain ⟨-, rfl⟩ := lift_ok.mp h
  rfl

theorem require (x : Option α) (e : ε) : Leaves f (require x e : Atomic ε σ α) := by
  intro s b t h
  obtain ⟨-, rfl⟩ := require_ok.mp h
  rfl

theorem each {g : α → Atomic ε σ Unit} (hg : ∀ x, Leaves f (g x)) (xs : List α) :
    Leaves f (each g xs) := fun s _ _ h =>
  each_preserves (P := fun t => f t = f s)
    (fun x _ t t' u ht h => (hg x t u t' h).trans ht) rfl h

end Leaves

/-! ## What a program keeps

More generally, a program keeps a relation between the store before and
after it. `Frame` packs a relation that holds of what does nothing and of
what is done in two steps; the rules follow the program once more. -/

structure Frame (σ : Type) where
  rel : σ → σ → Prop
  refl : ∀ s, rel s s
  trans : ∀ {s t u}, rel s t → rel t u → rel s u

/-- Every successful run of `m` is a step of the frame. -/
def Keeps (F : Frame σ) (m : Atomic ε σ α) : Prop :=
  ∀ s a t, m s = .ok (a, t) → F.rel s t

namespace Keeps

variable {F : Frame σ}

theorem pure (a : α) : Keeps F (pure a : Atomic ε σ α) := by
  intro s b t h
  obtain ⟨-, rfl⟩ := pure_ok.mp h
  exact F.refl s

theorem bind {m : Atomic ε σ α} {k : α → Atomic ε σ β} (hm : Keeps F m)
    (hk : ∀ a, Keeps F (k a)) : Keeps F (m >>= k) := by
  intro s b t h
  obtain ⟨a, s', h₁, h₂⟩ := bind_ok.mp h
  exact F.trans (hm s a s' h₁) (hk a s' b t h₂)

theorem failIf (c : Bool) (e : ε) : Keeps F (failIf c e : Atomic ε σ Unit) := by
  intro s b t h
  obtain ⟨-, rfl⟩ := failIf_ok.mp h
  exact F.refl s

theorem lift (x : Except ε α) : Keeps F (lift x : Atomic ε σ α) := by
  intro s b t h
  obtain ⟨-, rfl⟩ := lift_ok.mp h
  exact F.refl s

theorem require (x : Option α) (e : ε) : Keeps F (require x e : Atomic ε σ α) := by
  intro s b t h
  obtain ⟨-, rfl⟩ := require_ok.mp h
  exact F.refl s

theorem throw (e : ε) : Keeps F (throw e : Atomic ε σ α) := by
  intro s b t h
  exact (throw_ok.mp h).elim

theorem ite {c : Prop} [Decidable c] {m k : Atomic ε σ α} (hm : Keeps F m)
    (hk : Keeps F k) : Keeps F (if c then m else k) := by
  split
  · exact hm
  · exact hk

theorem each {g : α → Atomic ε σ Unit} (hg : ∀ x, Keeps F (g x)) (xs : List α) :
    Keeps F (each g xs) := fun s _ _ h =>
  each_preserves (P := F.rel s) (fun x _ t t' u ht h => F.trans ht (hg x t u t' h)) (F.refl s) h

theorem collect {g : α → Atomic ε σ β} (hg : ∀ x, Keeps F (g x)) (xs : List α) :
    Keeps F (collect g xs) := fun s _ _ h =>
  collect_preserves (P := F.rel s) (fun x _ t t' b ht h => F.trans ht (hg x t b t' h)) (F.refl s) h

end Keeps

/-- Every successful run of `m` is a step of the frame, but for one run of
`once` at most. -/
def KeepsBut (F : Frame σ) (once : Atomic ε σ Unit) (m : Atomic ε σ α) : Prop :=
  ∀ s a t, m s = .ok (a, t) → F.rel s t ∨
    ∃ u v, F.rel s u ∧ once u = .ok ((), v) ∧ F.rel v t

namespace KeepsBut

variable {F : Frame σ} {once : Atomic ε σ Unit}

theorem of_keeps {m : Atomic ε σ α} (h : Keeps F m) : KeepsBut F once m :=
  fun s a t hm => .inl (h s a t hm)

theorem self : KeepsBut F once once :=
  fun s _ t hm => .inr ⟨s, t, F.refl s, hm, F.refl t⟩

/-- The exception may be a step of the frame after all. -/
theorem keeps {m : Atomic ε σ α} (h : KeepsBut F once m) (honce : Keeps F once) : Keeps F m := by
  intro s a t hm
  obtain hst | ⟨u, v, hbefore, hrun, hafter⟩ := h s a t hm
  · exact hst
  · exact F.trans hbefore (F.trans (honce u () v hrun) hafter)

/-- The exception comes later. -/
theorem later {m : Atomic ε σ α} {k : α → Atomic ε σ β} (hm : Keeps F m)
    (hk : ∀ a, KeepsBut F once (k a)) : KeepsBut F once (m >>= k) := by
  intro s b t h
  obtain ⟨a, s', h₁, h₂⟩ := bind_ok.mp h
  have hfirst := hm s a s' h₁
  obtain hrest | ⟨u, v, hbefore, honce, hafter⟩ := hk a s' b t h₂
  · exact .inl (F.trans hfirst hrest)
  · exact .inr ⟨u, v, F.trans hfirst hbefore, honce, hafter⟩

/-- The exception is over. -/
theorem earlier {m : Atomic ε σ α} {k : α → Atomic ε σ β} (hm : KeepsBut F once m)
    (hk : ∀ a, Keeps F (k a)) : KeepsBut F once (m >>= k) := by
  intro s b t h
  obtain ⟨a, s', h₁, h₂⟩ := bind_ok.mp h
  have hlast := hk a s' b t h₂
  obtain hfirst | ⟨u, v, hbefore, honce, hafter⟩ := hm s a s' h₁
  · exact .inl (F.trans hfirst hlast)
  · exact .inr ⟨u, v, hbefore, honce, F.trans hafter hlast⟩

theorem ite {c : Prop} [Decidable c] {m k : Atomic ε σ α} (hm : KeepsBut F once m)
    (hk : KeepsBut F once k) : KeepsBut F once (if c then m else k) := by
  split
  · exact hm
  · exact hk

end KeepsBut

/-! ## What a program leaves behind

A program ensures what its last write and check do, whatever came before. -/

/-- Every successful run of `m` ends in a store with `P`. -/
def Ensures (P : σ → Prop) (m : Atomic ε σ α) : Prop := ∀ s a t, m s = .ok (a, t) → P t

namespace Ensures

variable {P : σ → Prop}

theorem last {m : Atomic ε σ α} {k : α → Atomic ε σ β} (hk : ∀ a, Ensures P (k a)) :
    Ensures P (m >>= k) := by
  intro s b t h
  obtain ⟨a, s', -, h⟩ := bind_ok.mp h
  exact hk a s' b t h

/-- What is ensured before an answer is ensured after it. -/
theorem answer {m : Atomic ε σ α} {f : α → β} (hm : Ensures P m) :
    Ensures P (m >>= fun a => Pure.pure (f a)) := by
  intro s b t h
  obtain ⟨a, s', h₁, h₂⟩ := bind_ok.mp h
  obtain ⟨-, rfl⟩ := pure_ok.mp h₂
  exact hm s a s' h₁

end Ensures

/-! ## What a program maintains

An invariant of the store, where what a check established of its answer helps
later steps to keep it. -/

/-- From a store with `I`, a successful run of `m` ends in one again, with an
answer that has `P`. -/
def Maintains (I : σ → Prop) (P : α → Prop) (m : Atomic ε σ α) : Prop :=
  ∀ s a t, I s → m s = .ok (a, t) → I t ∧ P a

namespace Maintains

variable {I : σ → Prop} {P : α → Prop} {Q : β → Prop} {m n : Atomic ε σ α}

theorem weaken {P' : α → Prop} (hm : Maintains I P m) (h : ∀ a, P a → P' a) :
    Maintains I P' m := fun s a t hs hrun =>
  ⟨(hm s a t hs hrun).1, h a (hm s a t hs hrun).2⟩

theorem pure {a : α} (h : P a) : Maintains I P (Pure.pure a : Atomic ε σ α) := by
  intro s b t hs hrun
  obtain ⟨rfl, rfl⟩ := pure_ok.mp hrun
  exact ⟨hs, h⟩

theorem bind {k : α → Atomic ε σ β} (hm : Maintains I P m)
    (hk : ∀ a, P a → Maintains I Q (k a)) : Maintains I Q (m >>= k) := by
  intro s b t hs hrun
  obtain ⟨a, s', h₁, h₂⟩ := bind_ok.mp hrun
  obtain ⟨hs', ha⟩ := hm s a s' hs h₁
  exact hk a ha s' b t hs' h₂

theorem failIf (c : Bool) (e : ε) :
    Maintains I (fun _ => c = false) (failIf c e : Atomic ε σ Unit) := by
  intro s b t hs hrun
  obtain ⟨hc, rfl⟩ := failIf_ok.mp hrun
  exact ⟨hs, hc⟩

theorem lift (x : Except ε α) : Maintains I (fun a => x = .ok a) (lift x : Atomic ε σ α) := by
  intro s b t hs hrun
  obtain ⟨hx, rfl⟩ := lift_ok.mp hrun
  exact ⟨hs, hx⟩

theorem require (x : Option α) (e : ε) :
    Maintains I (fun a => x = some a) (require x e : Atomic ε σ α) := by
  intro s b t hs hrun
  obtain ⟨hx, rfl⟩ := require_ok.mp hrun
  exact ⟨hs, hx⟩

theorem throw (e : ε) : Maintains I P (MonadExcept.throw e : Atomic ε σ α) := by
  intro s b t _ hrun
  exact (throw_ok.mp hrun).elim

theorem ite {c : Prop} [Decidable c] (hm : c → Maintains I P m) (hn : ¬c → Maintains I P n) :
    Maintains I P (if c then m else n) := by
  split
  · exact hm ‹_›
  · exact hn ‹_›

theorem each {f : α → Atomic ε σ Unit} {xs : List α}
    (hf : ∀ x ∈ xs, Maintains I (fun _ => True) (f x)) :
    Maintains I (fun _ => True) (each f xs) := fun _ _ _ hs hrun =>
  ⟨each_preserves (P := I) (fun x hx t t' u ht h => (hf x hx t u t' ht h).1) hs hrun, trivial⟩

theorem collect {f : α → Atomic ε σ β} {xs : List α} (hf : ∀ x ∈ xs, Maintains I Q (f x)) :
    Maintains I (fun bs => ∀ b ∈ bs, Q b) (collect f xs) := by
  intro s bs t hs hrun
  induction xs generalizing s bs with
  | nil =>
      obtain ⟨rfl, rfl⟩ := collect_nil_ok.mp hrun
      exact ⟨hs, fun b hb => (List.not_mem_nil hb).elim⟩
  | cons x xs ih =>
      obtain ⟨b, s', bs', hx, hxs, rfl⟩ := collect_cons_ok.mp hrun
      obtain ⟨hs', hb⟩ := hf x List.mem_cons_self s b s' hs hx
      obtain ⟨ht, hbs⟩ := ih (fun y hy => hf y (List.mem_cons_of_mem _ hy)) s' bs' hs' hxs
      exact ⟨ht, List.forall_mem_cons.mpr ⟨hb, hbs⟩⟩

end Maintains

/-! ## One way to fail

A program that hides why it fails answers every failed check alike. It does
so at a store unless the store meets what all the checks together ask for;
the rules collect that, check by check. -/

/-- At `s` the program fails with `e`, or `P` holds. -/
def FailsUnless (e : ε) (P : Prop) (m : Atomic ε σ α) (s : σ) : Prop := m s = .error e ∨ P

namespace FailsUnless

variable {e : ε} {P : Prop} {s : σ}

/-- After a step that succeeds, the rest decides. -/
theorem step {m : Atomic ε σ α} {k : α → Atomic ε σ β} {a : α} {t : σ} (hm : m s = .ok (a, t))
    (h : FailsUnless e P (k a) t) : FailsUnless e P (m >>= k) s :=
  h.imp_left (bind_of_ok hm).trans

/-- A failing step decides. -/
theorem stop {m : Atomic ε σ α} {k : α → Atomic ε σ β} (hm : m s = .error e) :
    FailsUnless e P (m >>= k) s := .inl (bind_of_error hm)

theorem bind {m : Atomic ε σ α} {k : α → Atomic ε σ β} (h : FailsUnless e P m s) :
    FailsUnless e P (m >>= k) s := h.elim stop .inr

theorem failIf {c : Bool} {k : Unit → Atomic ε σ β} (h : c = false → FailsUnless e P (k ()) s) :
    FailsUnless e P (failIf c e >>= k) s := by
  cases c with
  | true => exact stop rfl
  | false => exact step (a := ()) rfl (h rfl)

theorem require {x : Option α} {k : α → Atomic ε σ β}
    (h : ∀ a, x = some a → FailsUnless e P (k a) s) :
    FailsUnless e P (require x e >>= k) s := by
  cases x with
  | none => exact stop rfl
  | some a => exact step (a := a) rfl (h a rfl)

theorem lift {x : Except ε α} {k : α → Atomic ε σ β} (hx : ∀ e', x = .error e' → e' = e)
    (h : ∀ a, x = .ok a → FailsUnless e P (k a) s) : FailsUnless e P (lift x >>= k) s := by
  cases x with
  | error e' =>
      obtain rfl := hx e' rfl
      exact stop rfl
  | ok a => exact step (a := a) rfl (h a rfl)

end FailsUnless

/-- From `s` the program does not fail with `e`. -/
def Avoids (e : ε) (s : σ) (m : Atomic ε σ α) : Prop := m s ≠ .error e

namespace Avoids

variable {e : ε} {s : σ} {m n : Atomic ε σ α}

theorem bind {f : α → Atomic ε σ β} (hm : Avoids e s m)
    (hf : ∀ a t, m s = .ok (a, t) → Avoids e t (f a)) : Avoids e s (m >>= f) := by
  show (m s >>= fun p => f p.1 p.2) ≠ .error e
  cases h : m s with
  | error e' =>
      intro he
      exact hm (h.trans (congrArg Except.error (Except.error.inj he)))
  | ok p => exact hf p.1 p.2 h

theorem pure (a : α) : Avoids e s (Pure.pure a : Atomic ε σ α) := fun h => by cases h

theorem lift {x : Except ε α} (h : x ≠ .error e) : Avoids e s (Atomic.lift x) := by
  cases x with
  | error e' => exact fun he => h (congrArg Except.error (Except.error.inj he))
  | ok a => exact fun he => by cases he

theorem failIf {c : Bool} {e' : ε} (h : e' ≠ e) : Avoids e s (Atomic.failIf c e') := by
  cases c with
  | true => exact fun he => h (Except.error.inj he)
  | false => exact fun he => by cases he

theorem require {x : Option α} {e' : ε} (h : e' ≠ e) : Avoids e s (Atomic.require x e') := by
  cases x with
  | none => exact fun he => h (Except.error.inj he)
  | some a => exact fun he => by cases he

theorem read (f : σ → α) : Avoids e s (Atomic.read f) := fun h => by cases h

theorem write (f : σ → σ) : Avoids e s (Atomic.write f) := fun h => by cases h

end Avoids

/-! ## How a program fails

What the failures of a program have in common, whatever store it starts from. -/

/-- Every failure of `m` has `P`. -/
def FailsWith (P : ε → Prop) (m : Atomic ε σ α) : Prop := ∀ s e, m s = .error e → P e

namespace FailsWith

variable {P : ε → Prop} {m n : Atomic ε σ α}

theorem pure (a : α) : FailsWith P (Pure.pure a : Atomic ε σ α) := fun _ _ h => by cases h

theorem throw {e : ε} (h : P e) : FailsWith P (MonadExcept.throw e : Atomic ε σ α) :=
  fun _ _ he => Except.error.inj he ▸ h

theorem bind {k : α → Atomic ε σ β} (hm : FailsWith P m) (hk : ∀ a, FailsWith P (k a)) :
    FailsWith P (m >>= k) := by
  intro s e h
  replace h : (m s >>= fun p => k p.1 p.2) = .error e := h
  cases hs : m s with
  | error e' =>
      rw [hs] at h
      obtain rfl := Except.error.inj h
      exact hm s e' hs
  | ok p =>
      rw [hs] at h
      exact hk p.1 p.2 e h

theorem lift {x : Except ε α} (h : ∀ e, x = .error e → P e) :
    FailsWith P (Atomic.lift x : Atomic ε σ α) := by
  intro s e he
  cases x with
  | error e' => exact h e (congrArg Except.error (Except.error.inj he))
  | ok a => cases he

theorem failIf {c : Bool} {e : ε} (h : P e) :
    FailsWith P (Atomic.failIf c e : Atomic ε σ Unit) := by
  intro s e' he
  cases c with
  | true => exact Except.error.inj he ▸ h
  | false => cases he

theorem require {x : Option α} {e : ε} (h : P e) :
    FailsWith P (Atomic.require x e : Atomic ε σ α) := by
  intro s e' he
  cases x with
  | none => exact Except.error.inj he ▸ h
  | some a => cases he

theorem read (f : σ → α) : FailsWith P (Atomic.read f : Atomic ε σ α) := fun s e h => by cases h

theorem write (f : σ → σ) : FailsWith P (Atomic.write f : Atomic ε σ Unit) :=
  fun s e h => by cases h

theorem collect {f : α → Atomic ε σ β} (hf : ∀ x, FailsWith P (f x)) :
    ∀ xs, FailsWith P (collect f xs)
  | [] => .pure _
  | x :: xs => .bind (hf x) fun _ => .bind (collect hf xs) fun _ => .pure _

end FailsWith

end Atomic

/-! ## Checks

Checks are `Except` computations: they read, decide and change nothing. -/

namespace Check

variable {ε α β : Type}

def failIf (c : Bool) (e : ε) : Except ε Unit :=
  if c then .error e else .ok ()

def require (x : Option α) (e : ε) : Except ε α :=
  match x with
  | some a => .ok a
  | none => .error e

/-- Check every element, in order. -/
def each (f : α → Except ε Unit) : List α → Except ε Unit
  | [] => .ok ()
  | x :: xs => do
      f x
      each f xs

theorem bind_ok {m : Except ε α} {f : α → Except ε β} {b : β} :
    (m >>= f) = .ok b ↔ ∃ a, m = .ok a ∧ f a = .ok b := by
  cases m with
  | error e => simp [bind, Except.bind]
  | ok a => simp [bind, Except.bind]

@[simp] theorem pure_ok {a b : α} : (pure a : Except ε α) = .ok b ↔ b = a := by
  show (Except.ok a : Except ε α) = .ok b ↔ _
  rw [Except.ok.injEq, eq_comm]

@[simp] theorem throw_ok {e : ε} {a : α} : (throw e : Except ε α) = .ok a ↔ False := by
  show (Except.error e : Except ε α) = .ok a ↔ False
  simp

@[simp] theorem failIf_ok {c : Bool} {e : ε} {u : Unit} :
    failIf c e = .ok u ↔ c = false := by
  unfold failIf
  cases c <;> simp

@[simp] theorem require_ok {x : Option α} {e : ε} {a : α} :
    require x e = .ok a ↔ x = some a := by
  cases x <;> simp [require]

theorem each_ok {f : α → Except ε Unit} {xs : List α} {u : Unit} :
    each f xs = .ok u ↔ ∀ x ∈ xs, f x = .ok () := by
  induction xs with
  | nil => simp [each]
  | cons x xs ih =>
      simp only [each, bind_ok, ih, List.mem_cons, forall_eq_or_imp]
      exact ⟨fun ⟨_, h⟩ => h, fun h => ⟨(), h⟩⟩

theorem ite_ok {c : Prop} [Decidable c] {m n : Except ε α} {a : α} :
    (if c then m else n) = .ok a ↔ (c ∧ m = .ok a) ∨ (¬c ∧ n = .ok a) := by
  split <;> simp_all

/-- A check whose failures are all reported as `e`. -/
def orElse (x : Except ε α) (e : ε) : Except ε α :=
  match x with
  | .ok a => .ok a
  | .error _ => .error e

@[simp] theorem orElse_ok {x : Except ε α} {e : ε} {a : α} :
    orElse x e = .ok a ↔ x = .ok a := by
  cases x <;> simp [orElse]

/-! Failures that a check does not have. -/

theorem bind_avoids {m : Except ε α} {f : α → Except ε β} {e : ε} (hm : m ≠ .error e)
    (hf : ∀ a, m = .ok a → f a ≠ .error e) : (m >>= f) ≠ .error e := by
  cases h : m with
  | error e' =>
      intro he
      exact hm (h.trans (congrArg Except.error (Except.error.inj he)))
  | ok a => exact hf a h

theorem pure_avoids (a : α) (e : ε) : (pure a : Except ε α) ≠ .error e := fun h => by cases h

theorem failIf_avoids {c : Bool} {e e' : ε} (h : e' ≠ e) : failIf c e' ≠ .error e := by
  cases c with
  | true => exact fun he => h (Except.error.inj he)
  | false => exact fun he => by cases he

theorem require_avoids {x : Option α} {e e' : ε} (h : e' ≠ e) : require x e' ≠ .error e := by
  cases x with
  | none => exact fun he => h (Except.error.inj he)
  | some a => exact fun he => by cases he

theorem orElse_error {x : Except ε α} {e e' : ε} (h : orElse x e = .error e') : e' = e := by
  cases x with
  | ok a => cases h
  | error _ => exact (Except.error.inj h).symm

/-! What the failures of a check have in common. -/

/-- Every failure of the check has `P`. -/
def FailsWith (P : ε → Prop) (x : Except ε α) : Prop := ∀ e, x = .error e → P e

namespace FailsWith

variable {P : ε → Prop} {x y : Except ε α}

theorem ok (a : α) : FailsWith P (.ok a : Except ε α) := fun e h => by cases h

theorem pure (a : α) : FailsWith P (Pure.pure a : Except ε α) := .ok a

theorem error {e : ε} (h : P e) : FailsWith P (.error e : Except ε α) :=
  fun _ he => Except.error.inj he ▸ h

theorem bind {f : α → Except ε β} (hx : FailsWith P x) (hf : ∀ a, FailsWith P (f a)) :
    FailsWith P (x >>= f) := by
  intro e h
  cases x with
  | error e' => exact hx e (congrArg Except.error (Except.error.inj h))
  | ok a => exact hf a e h

theorem failIf {c : Bool} {e : ε} (h : P e) : FailsWith P (Check.failIf c e) := by
  cases c with
  | true => exact error h
  | false => exact ok _

theorem require {o : Option α} {e : ε} (h : P e) : FailsWith P (Check.require o e) := by
  cases o with
  | none => exact error h
  | some a => exact ok a

theorem orElse {e : ε} (h : P e) : FailsWith P (Check.orElse x e) :=
  fun _ he => orElse_error he ▸ h

theorem map {f : α → β} (hx : FailsWith P x) : FailsWith P (x.map f) := by
  intro e h
  cases x with
  | error e' => exact hx e (congrArg Except.error (Except.error.inj h))
  | ok a => cases h

theorem ite {c : Prop} [Decidable c] (hx : c → FailsWith P x) (hy : ¬c → FailsWith P y) :
    FailsWith P (if c then x else y) := by
  split
  · exact hx ‹_›
  · exact hy ‹_›

end FailsWith

end Check
