import PallaSync.Lib.Atomic

/-!
# Programs that can be repeated

A program that has run goes through again, from any later store on which what
it looks at is still as it has to be: with the same answer, and without another
change (`Repeats`). The frame says which stores are later, and `good` what is
needed of one besides; only runs from stores after `base` are looked at.
-/

namespace Atomic

variable {ε σ α β : Type} {F : Frame σ} {base : σ} {good : σ → Prop}

/-- A run is a step of the frame, and is repeated from any good store later on. -/
def Repeats (F : Frame σ) (base : σ) (good : σ → Prop) (m : Atomic ε σ α) : Prop :=
  ∀ s a t, F.rel base s → m s = .ok (a, t) →
    F.rel s t ∧ ∀ u, F.rel t u → good u → m u = .ok (a, u)

namespace Repeats

/-- A program that changes nothing, and succeeds on later stores as well. -/
theorem of_reads {m : Atomic ε σ α} (hstill : ∀ s a t, m s = .ok (a, t) → s = t)
    (hagain : ∀ s a u, m s = .ok (a, s) → F.rel s u → m u = .ok (a, u)) :
    Repeats F base good m := fun s a t _ h => by
  obtain rfl := hstill s a t h
  exact ⟨F.refl s, fun u hu _ => hagain s a u h hu⟩

theorem pure (a : α) : Repeats F base good (Pure.pure a : Atomic ε σ α) :=
  .of_reads (fun _ _ _ h => (pure_ok.mp h).2)
    fun _ _ _ h _ => pure_ok.mpr ⟨(pure_ok.mp h).1, rfl⟩

theorem bind {m : Atomic ε σ α} {k : α → Atomic ε σ β} (hm : Repeats F base good m)
    (hk : ∀ a, Repeats F base good (k a)) : Repeats F base good (m >>= k) :=
  fun _ _ _ hbase h => by
    obtain ⟨a, s', hs', h⟩ := bind_ok.mp h
    obtain ⟨hstep, hagain⟩ := hm _ _ _ hbase hs'
    obtain ⟨hstep', hagain'⟩ := hk a _ _ _ (F.trans hbase hstep) h
    refine ⟨F.trans hstep hstep', fun u hu hgood => ?_⟩
    exact bind_ok.mpr ⟨a, u, hagain u (F.trans hstep' hu) hgood, hagain' u hu hgood⟩

theorem failIf (c : Bool) (e : ε) : Repeats F base good (Atomic.failIf c e : Atomic ε σ Unit) :=
  .of_reads (fun _ _ _ h => (failIf_ok.mp h).2)
    fun _ _ _ h _ => failIf_ok.mpr ⟨(failIf_ok.mp h).1, rfl⟩

theorem lift (x : Except ε α) : Repeats F base good (Atomic.lift x : Atomic ε σ α) :=
  .of_reads (fun _ _ _ h => (lift_ok.mp h).2)
    fun _ _ _ h _ => lift_ok.mpr ⟨(lift_ok.mp h).1, rfl⟩

/-- A guard that held, and holds of good stores from then on. -/
theorem guard {f : σ → Bool} {e : ε} {m : Atomic ε σ α}
    (hf : ∀ s u, F.rel base s → F.rel s u → good u → f s = true → f u = true)
    (hm : Repeats F base good m) :
    Repeats F base good (Atomic.read f >>= fun b => Atomic.failIf (!b) e >>= fun _ => m) :=
  fun s a t hbase h => by
    simp only [bind_ok, read_ok, failIf_ok] at h ⊢
    obtain ⟨_, _, ⟨rfl, rfl⟩, _, _, ⟨hheld, rfl⟩, h⟩ := h
    obtain ⟨hstep, hagain⟩ := hm _ _ _ hbase h
    refine ⟨hstep, fun u hu hgood => ⟨_, _, ⟨rfl, rfl⟩, (), _, ⟨?_, rfl⟩, hagain u hu hgood⟩⟩
    rw [Bool.not_eq_false'] at hheld ⊢
    exact hf s u hbase (F.trans hstep hu) hgood hheld

/-- What was found is found again. -/
theorem found {f : σ → Option β} {e : ε} {k : β → Atomic ε σ α}
    (hf : ∀ s u b, F.rel s u → f s = some b → f u = some b)
    (hk : ∀ b, Repeats F base good (k b)) :
    Repeats F base good (Atomic.read f >>= fun x => Atomic.require x e >>= k) :=
  fun s a t hbase h => by
    simp only [bind_ok, read_ok, require_ok] at h ⊢
    obtain ⟨_, _, ⟨rfl, rfl⟩, b, _, ⟨hb, rfl⟩, h⟩ := h
    obtain ⟨hstep, hagain⟩ := hk b _ _ _ hbase h
    refine ⟨hstep, fun u hu hgood => ⟨_, _, ⟨rfl, rfl⟩, b, _, ⟨?_, rfl⟩, hagain u hu hgood⟩⟩
    exact hf s u b (F.trans hstep hu) hb

theorem each {f : α → Atomic ε σ Unit} {xs : List α}
    (hf : ∀ x ∈ xs, Repeats F base good (f x)) : Repeats F base good (Atomic.each f xs) := by
  induction xs with
  | nil => exact .pure ()
  | cons x xs ih =>
      obtain ⟨hx, hxs⟩ := List.forall_mem_cons.mp hf
      exact .bind hx fun _ => ih hxs

end Repeats

end Atomic
