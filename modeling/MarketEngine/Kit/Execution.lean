import Mathlib.Order.Nat
import MarketEngine.Kit.Transition

/-! # Executions without end

A transition system that is scheduled for ever: at every moment one step is taken,
or nothing happens. What a helpful step brings nearer comes to pass when helpful
steps come again and again.
-/

namespace Transition

variable {σ α : Type*}

/-- The states and the steps between them, from the first moment on. -/
structure Execution (step : σ → α → σ → Prop) (s₀ : σ) where
  state : ℕ → σ
  label : ℕ → Option α
  zero : state 0 = s₀
  idle : ∀ t, label t = none → state (t + 1) = state t
  steps : ∀ t a, label t = some a → step (state t) a (state (t + 1))

variable {step : σ → α → σ → Prop} {s₀ s : σ} {labels : List α}

namespace Execution

/-- The steps taken before a moment. -/
def past (e : Execution step s₀) (t : ℕ) : List α := (List.range t).filterMap e.label

theorem past_succ (e : Execution step s₀) (t : ℕ) :
    e.past (t + 1) = e.past t ++ (e.label t).toList := by
  simp [past, List.range_succ, List.filterMap_append, List.filterMap_cons]
  cases e.label t <;> rfl

theorem run (e : Execution step s₀) (t : ℕ) : Run step s₀ (e.past t) (e.state t) := by
  induction t with
  | zero =>
    rw [e.zero]
    exact .start
  | succ t ih =>
    rw [past_succ]
    cases hlabel : e.label t with
    | none =>
      rw [e.idle t hlabel]
      simpa using ih
    | some a => exact .next ih (e.steps t a hlabel)

end Execution

/-- A run, and then nothing more. -/
theorem Run.execution (h : Run step s₀ labels s) :
    ∃ e : Execution step s₀, (∀ t, e.label t = labels[t]?) ∧
      ∀ t, labels.length ≤ t → e.state t = s := by
  induction h with
  | start => exact ⟨⟨fun _ => s₀, fun _ => none, rfl, fun _ _ => rfl, by simp⟩, by simp, by simp⟩
  | @next labels s s' a _ hstep ih =>
    obtain ⟨e, hlabels, hlast⟩ := ih
    have hlabel : ∀ t, t ≠ labels.length → (labels ++ [a])[t]? = labels[t]? := by
      intro t ht
      rcases Nat.lt_or_gt_of_ne ht with hlt | hgt
      · exact List.getElem?_append_left hlt
      · rw [List.getElem?_eq_none (by simp; omega), List.getElem?_eq_none (by omega)]
    refine ⟨⟨fun t => if t ≤ labels.length then e.state t else s', fun t => (labels ++ [a])[t]?,
      by simp [e.zero], fun t ht => ?_, fun t b ht => ?_⟩, fun t => rfl, fun t ht => ?_⟩
    · have hge : labels.length + 1 ≤ t := by simpa using ht
      simp [show ¬ t ≤ labels.length by omega, show ¬ t + 1 ≤ labels.length by omega]
    · rcases Nat.lt_trichotomy t labels.length with hlt | rfl | hgt
      · rw [hlabel t hlt.ne, ← hlabels] at ht
        simpa [hlt.le, Nat.succ_le_of_lt hlt] using e.steps t b ht
      · obtain rfl : a = b := by simpa using ht
        simpa [hlast, Nat.not_succ_le_self] using hstep
      · rw [hlabel t hgt.ne', List.getElem?_eq_none hgt.le] at ht
        cases ht
    · rw [List.length_append, List.length_singleton] at ht
      simp [show ¬ t ≤ labels.length by omega]

/-! ## Progress -/

/-- As long as `P` lasts the rank does not rise, and it falls at a helpful moment. If these come
again and again then `Q` comes. -/
theorem eventually_of_rank {P Q H : ℕ → Prop} (rank : ℕ → ℕ)
    (hfair : ∀ t, P t → ∃ u, t ≤ u ∧ H u)
    (hstep : ∀ t, P t → Q (t + 1) ∨
      P (t + 1) ∧ rank (t + 1) ≤ rank t ∧ (H t → rank (t + 1) < rank t))
    {t : ℕ} (h : P t) : ∃ u, t ≤ u ∧ Q u := by
  generalize hr : rank t = r
  induction r using Nat.strong_induction_on generalizing t with
  | _ r ih =>
    obtain ⟨u, htu, hhelpful⟩ := hfair t h
    -- up to the helpful moment, `P` lasts or `Q` comes
    have hlasts : (∃ v, t ≤ v ∧ Q v) ∨ P u ∧ rank u ≤ r := by
      clear hhelpful
      induction u, htu using Nat.le_induction with
      | base => exact .inr ⟨h, hr.le⟩
      | succ u htu ih' =>
        rcases ih' with hq | ⟨hp, hle⟩
        · exact .inl hq
        · rcases hstep u hp with hq | ⟨hp', hle', -⟩
          · exact .inl ⟨u + 1, by omega, hq⟩
          · exact .inr ⟨hp', hle'.trans hle⟩
    rcases hlasts with hq | ⟨hp, hle⟩
    · exact hq
    · rcases hstep u hp with hq | ⟨hp', -, hlt⟩
      · exact ⟨u + 1, by omega, hq⟩
      · have hfalls := hlt hhelpful
        obtain ⟨v, huv, hq⟩ := ih (rank (u + 1)) (by omega) hp' rfl
        exact ⟨v, by omega, hq⟩

/-- If the measure falls again and again until `Q` comes, then `Q` comes. -/
theorem eventually_of_measure {Q : ℕ → Prop} (measure : ℕ → ℕ)
    (hstep : ∀ t, ∃ u, Q u ∨ measure u < measure t) : ∃ u, Q u := by
  suffices h : ∀ r t, measure t = r → ∃ u, Q u from h _ 0 rfl
  intro r
  induction r using Nat.strong_induction_on with
  | _ r ih =>
    rintro t rfl
    obtain ⟨u, hq | hlt⟩ := hstep t
    · exact ⟨u, hq⟩
    · exact ih _ hlt u rfl

end Transition
