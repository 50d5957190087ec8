import MarketEngine.Kit.Transition

/-! # Machines that answer

A machine answers each input and moves to a next state. A transition system whose
labels pair an input with an answer refines a machine when related states answer
alike and stay related; then whole runs give the answers of the machine.
-/

namespace Transition

variable {σ τ α β γ : Type*}

/-- The state of a machine after a list of inputs. -/
def after (machine : τ → α → β × τ) (t : τ) (inputs : List α) : τ :=
  inputs.foldl (fun t a => (machine t a).2) t

/-- What a machine answers to a list of inputs. -/
def answers (machine : τ → α → β × τ) : τ → List α → List β
  | _, [] => []
  | t, a :: inputs => (machine t a).1 :: answers machine (machine t a).2 inputs

variable {machine : τ → α → β × τ} {step : σ → α × γ → σ → Prop} {s₀ s : σ} {t₀ : τ}
  {labels : List (α × γ)}

theorem after_append (t : τ) (inputs inputs' : List α) :
    after machine t (inputs ++ inputs') = after machine (after machine t inputs) inputs' :=
  List.foldl_append

end Transition
