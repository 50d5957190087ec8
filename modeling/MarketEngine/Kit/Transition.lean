import Mathlib.Data.Nat.Notation

/-! # Runs of a transition system

A step relation with labels, its finite runs from an initial state, and the
rules that turn a fact about one step into a fact about every run.
-/

namespace Transition

variable {σ τ α : Type*}

/-- The state reached from `s₀` by steps with the given labels. -/
inductive Run (step : σ → α → σ → Prop) (s₀ : σ) : List α → σ → Prop
  | start : Run step s₀ [] s₀
  | next {labels : List α} {s s' : σ} {a : α} (hrun : Run step s₀ labels s)
      (hstep : step s a s') : Run step s₀ (labels ++ [a]) s'

/-- Only the steps that a guard allows in their first state. -/
def Guarded (guard : σ → α → Prop) (step : σ → α → σ → Prop) : σ → α → σ → Prop :=
  fun s a s' => guard s a ∧ step s a s'

variable {step step' : σ → α → σ → Prop} {s₀ s : σ} {labels : List α}

/-- An invariant that may depend on the number of steps so far. -/
theorem Run.invariant_length (h : Run step s₀ labels s) {I : ℕ → σ → Prop} (h0 : I 0 s₀)
    (hstep : ∀ n s a s', n < labels.length → I n s → step s a s' → I (n + 1) s') :
    I labels.length s := by
  induction h with
  | start => exact h0
  | @next labels s s' a _ hs ih =>
    rw [List.length_append, List.length_singleton] at hstep ⊢
    exact hstep _ _ _ _ (by omega) (ih fun n s a s' hn => hstep n s a s' (by omega)) hs

/-- An invariant that may depend on the labels so far. -/
theorem Run.invariant_labels (h : Run step s₀ labels s) {I : List α → σ → Prop} (h0 : I [] s₀)
    (hstep : ∀ labels s a s', I labels s → step s a s' → I (labels ++ [a]) s') : I labels s := by
  induction h with
  | start => exact h0
  | next _ hs ih => exact hstep _ _ _ _ ih hs

theorem Run.eq_of_nil (h : Run step s₀ [] s) : s = s₀ := by
  generalize hl : ([] : List α) = all at h
  cases h with
  | start => rfl
  | next => simp at hl

/-- The last step of a run. -/
theorem Run.last {a : α} (h : Run step s₀ (labels ++ [a]) s) :
    ∃ s', Run step s₀ labels s' ∧ step s' a s := by
  generalize hl : labels ++ [a] = all at h
  cases h with
  | start => simp at hl
  | next hrun hstep =>
    obtain ⟨rfl, ha⟩ := List.append_inj' hl rfl
    obtain rfl : a = _ := List.singleton_inj.mp ha
    exact ⟨_, hrun, hstep⟩

/-- A run goes on where another one ends. -/
theorem Run.trans {labels' : List α} {s' : σ} (h : Run step s₀ labels s)
    (h' : Run step s labels' s') : Run step s₀ (labels ++ labels') s' := by
  induction h' with
  | start => rwa [List.append_nil]
  | next _ hs ih =>
    rw [← List.append_assoc]
    exact .next ih hs

/-- A run of one system is a run of any system that allows its steps. -/
theorem Run.mono (h : Run step s₀ labels s) (hstep : ∀ s a s', step s a s' → step' s a s') :
    Run step' s₀ labels s := by
  induction h with
  | start => exact .start
  | next _ hs ih => exact .next ih (hstep _ _ _ hs)

end Transition
