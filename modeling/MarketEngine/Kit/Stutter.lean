import Mathlib.Algebra.BigOperators.Group.List.Basic
import Mathlib.Data.List.Destutter

/-! # Flows along a list

A flow is computed from every two neighbours of a list. When it is 0 between equal
neighbours, repetitions only add zeros to it, also after a part of the list has
been taken out.
-/

namespace Stutter

variable {α β : Type*} {f : α → α → β} {a b : α} {l front : List α}

section Zeros

variable [Zero β] [DecidableEq β]

variable [DecidableEq α]

end Zeros

end Stutter
