import PallaSync.Lib.Atomic

/-!
# Two runs of a program

Stores related by `r` that a program cannot tell apart: when it succeeds on one
of them, it succeeds on the other with the same answer, and leaves related
stores (`Mirrored`). The rules go over the program.
-/

namespace Atomic

variable {ε σ α β : Type} {r : σ → σ → Prop}

/-- What a program answers on a store it answers on a related one. -/
def Mirrored (r : σ → σ → Prop) (m : Atomic ε σ α) : Prop :=
  ∀ s t a s', r s s' → m s = .ok (a, t) → ∃ t', m s' = .ok (a, t') ∧ r t t'

namespace Mirrored

theorem pure (a : α) : Mirrored r (Pure.pure a : Atomic ε σ α) := fun _ _ _ _ hr h => by
  obtain ⟨rfl, rfl⟩ := pure_ok.mp h
  exact ⟨_, rfl, hr⟩

theorem bind {m : Atomic ε σ α} {k : α → Atomic ε σ β} (hm : Mirrored r m)
    (hk : ∀ a, Mirrored r (k a)) : Mirrored r (m >>= k) := fun _ _ _ _ hr h => by
  obtain ⟨a, u, hu, h⟩ := bind_ok.mp h
  obtain ⟨u', hu', hr'⟩ := hm _ _ _ _ hr hu
  obtain ⟨t', ht', hr''⟩ := hk a _ _ _ _ hr' h
  exact ⟨t', bind_ok.mpr ⟨a, u', hu', ht'⟩, hr''⟩

theorem failIf (c : Bool) (e : ε) : Mirrored r (Atomic.failIf c e : Atomic ε σ Unit) :=
  fun _ _ _ _ hr h => by
    obtain ⟨hc, rfl⟩ := failIf_ok.mp h
    exact ⟨_, failIf_ok.mpr ⟨hc, rfl⟩, hr⟩

theorem lift (x : Except ε α) : Mirrored r (Atomic.lift x : Atomic ε σ α) := fun _ _ _ _ hr h => by
  obtain ⟨hx, rfl⟩ := lift_ok.mp h
  exact ⟨_, lift_ok.mpr ⟨hx, rfl⟩, hr⟩

theorem require (x : Option α) (e : ε) : Mirrored r (Atomic.require x e : Atomic ε σ α) :=
  fun _ _ _ _ hr h => by
    obtain ⟨hx, rfl⟩ := require_ok.mp h
    exact ⟨_, require_ok.mpr ⟨hx, rfl⟩, hr⟩

theorem read {f : σ → α} (hf : ∀ s s', r s s' → f s' = f s) :
    Mirrored r (Atomic.read f : Atomic ε σ α) := fun _ _ _ _ hr h => by
  obtain ⟨rfl, rfl⟩ := read_ok.mp h
  exact ⟨_, read_ok.mpr ⟨(hf _ _ hr).symm, rfl⟩, hr⟩

theorem write {f : σ → σ} (hf : ∀ s s', r s s' → r (f s) (f s')) :
    Mirrored r (Atomic.write f : Atomic ε σ Unit) := fun _ _ _ _ hr h => by
  obtain rfl := write_ok.mp h
  exact ⟨_, write_ok.mpr rfl, hf _ _ hr⟩

theorem each {f : α → Atomic ε σ Unit} (hf : ∀ x, Mirrored r (f x)) (xs : List α) :
    Mirrored r (Atomic.each f xs) := by
  induction xs with
  | nil => exact .pure ()
  | cons x xs ih => exact .bind (hf x) fun _ => ih

end Mirrored

end Atomic
