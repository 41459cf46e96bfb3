import Mathlib.Data.List.Induction

/-!
# Runs of a machine

A machine is a step function on states, taking an event; a run is its fold
over a list of events. An interleaving of clients is one such list, so what
holds after every run holds under every interleaving.

`run_invariant` is the induction behind every statement about reachable
states, `run_keeps` the one behind every statement about two states of one
run (what an earlier state has, a later state still has), and
`run_invariant_of` the first one again for runs all of whose steps meet a
side condition. `observe` lists what the steps of a run show to an observer,
such as the readings of a clock.
-/

namespace Machine

variable {σ ε : Type*}

/-- The state after the events `es`, from `s`. -/
def run (step : σ → ε → σ) (s : σ) (es : List ε) : σ := es.foldl step s

variable {step : σ → ε → σ}

@[simp] theorem run_nil (s : σ) : run step s [] = s := rfl

@[simp] theorem run_cons (s : σ) (e : ε) (es : List ε) :
    run step s (e :: es) = run step (step s e) es := rfl

theorem run_append (s : σ) (es es' : List ε) :
    run step s (es ++ es') = run step (run step s es) es' :=
  List.foldl_append

theorem run_snoc (s : σ) (es : List ε) (e : ε) :
    run step s (es ++ [e]) = step (run step s es) e := by
  rw [run_append, run_cons, run_nil]

/-- What holds at the start and is kept by every step holds after every run. -/
theorem run_invariant {I : σ → Prop} {s : σ} (hs : I s)
    (hstep : ∀ s e, I s → I (step s e)) (es : List ε) : I (run step s es) := by
  induction es generalizing s with
  | nil => exact hs
  | cons e es ih => exact ih (hstep s e hs)

/-- A relation between an earlier and a later state of one run. -/
theorem run_keeps {I : σ → Prop} {K : σ → σ → Prop} {s : σ} (hs : I s)
    (hstep : ∀ s e, I s → I (step s e)) (hrefl : ∀ s, I s → K s s)
    (hkeep : ∀ s t e, I s → I t → K s t → K s (step t e)) (es : List ε) :
    K s (run step s es) := by
  induction es using List.reverseRecOn with
  | nil => exact hrefl s hs
  | append_singleton es e ih =>
      rw [run_snoc]
      exact hkeep s _ e hs (run_invariant hs hstep es) ih

/-- What does not hold at the start and holds after a run, some step of the
run brought about. -/
theorem run_turns {P : σ → Prop} {s : σ} {es : List ε} (hs : ¬P s) (h : P (run step s es)) :
    ∃ es₁ e es₂, es = es₁ ++ e :: es₂ ∧ ¬P (run step s es₁) ∧ P (step (run step s es₁) e) := by
  induction es using List.reverseRecOn with
  | nil => exact absurd h hs
  | append_singleton es e ih =>
      by_cases hbefore : P (run step s es)
      · obtain ⟨es₁, e', es₂, rfl, hnot, hturn⟩ := ih hbefore
        exact ⟨es₁, e', es₂ ++ [e], by simp, hnot, hturn⟩
      · rw [run_snoc] at h
        exact ⟨es, e, [], rfl, hbefore, h⟩

/-- Every step of the run `es` from `s` meets `C`. -/
def StepsMeet (step : σ → ε → σ) (C : σ → ε → Prop) : σ → List ε → Prop
  | _, [] => True
  | s, e :: es => C s e ∧ StepsMeet step C (step s e) es

/-- What holds at the start and is kept by the steps that meet `C` holds
after every run whose steps all meet `C`. -/
theorem run_invariant_of {I : σ → Prop} {C : σ → ε → Prop} {s : σ} (hs : I s)
    (hstep : ∀ s e, I s → C s e → I (step s e)) {es : List ε}
    (hes : StepsMeet step C s es) : I (run step s es) := by
  induction es generalizing s with
  | nil => exact hs
  | cons e es ih => exact ih (hstep s e hs hes.1) hes.2

theorem stepsMeet_append {C : σ → ε → Prop} {s : σ} {es es' : List ε} :
    StepsMeet step C s (es ++ es') ↔
      StepsMeet step C s es ∧ StepsMeet step C (run step s es) es' := by
  induction es generalizing s with
  | nil => simp [StepsMeet]
  | cons e es ih => simp [StepsMeet, ih, and_assoc]

/-- A run whose steps do not all meet `C` has a step that does not. -/
theorem stepsMeet_or_breaks (step : σ → ε → σ) (C : σ → ε → Prop) (s : σ) (es : List ε) :
    StepsMeet step C s es ∨
      ∃ es₁ e es₂, es = es₁ ++ e :: es₂ ∧ ¬C (run step s es₁) e := by
  induction es generalizing s with
  | nil => exact .inl trivial
  | cons e es ih =>
      by_cases hC : C s e
      · obtain hrest | ⟨es₁, e', es₂, rfl, hnot⟩ := ih (step s e)
        · exact .inl ⟨hC, hrest⟩
        · exact .inr ⟨e :: es₁, e', es₂, rfl, hnot⟩
      · exact .inr ⟨[], e, es, rfl, hC⟩

/-- `StepsMeet` of a decided condition, as a computation. -/
def stepsAll (step : σ → ε → σ) (c : σ → ε → Bool) : σ → List ε → Bool
  | _, [] => true
  | s, e :: es => c s e && stepsAll step c (step s e) es

theorem stepsMeet_of_all {c : σ → ε → Bool} {C : σ → ε → Prop}
    (hc : ∀ s e, c s e = true → C s e) {s : σ} {es : List ε}
    (h : stepsAll step c s es = true) : StepsMeet step C s es := by
  induction es generalizing s with
  | nil => trivial
  | cons e es ih =>
      simp only [stepsAll, Bool.and_eq_true] at h
      exact ⟨hc s e h.1, ih h.2⟩

/-! ## Observations -/

variable {α : Type*}

/-- What the steps of the run `es` from `s` show, in order. -/
def observe (step : σ → ε → σ) (obs : σ → ε → Option α) : σ → List ε → List α
  | _, [] => []
  | s, e :: es => (obs s e).toList ++ observe step obs (step s e) es

variable {obs : σ → ε → Option α}

theorem observe_append (s : σ) (es es' : List ε) :
    observe step obs s (es ++ es') =
      observe step obs s es ++ observe step obs (run step s es) es' := by
  induction es generalizing s with
  | nil => rfl
  | cons e es ih => simp [observe, ih]

/-- What every step keeps of a state and of what was observed up to it, a run
of steps that meet `C` keeps. -/
theorem run_observed {I : σ → List α → Prop} {C : ε → Prop}
    (hstep : ∀ s e as, I s as → C e → I (step s e) (as ++ (obs s e).toList)) {s : σ} {as : List α}
    (hs : I s as) {es : List ε} (hes : ∀ e ∈ es, C e) :
    I (run step s es) (as ++ observe step obs s es) := by
  induction es generalizing s as with
  | nil => simpa [observe] using hs
  | cons e es ih =>
      rw [observe, ← List.append_assoc]
      exact ih (hstep s e as hs (hes e List.mem_cons_self))
        fun e' he' => hes e' (List.mem_cons_of_mem _ he')

end Machine
