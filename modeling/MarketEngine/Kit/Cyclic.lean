import Mathlib.Algebra.Group.Fin.Basic
import MarketEngine.Kit.Pool

/-! # Counting around a circle

The slots of a pool of `m` slots as a circle, walked forwards from any slot. A
probe sequence and the window of a ring buffer are both such walks.
-/

namespace Cyclic

variable {m : ℕ} [NeZero m]

/-- The slot `j` steps ahead of `s`. -/
def ahead (s : Fin m) (j : ℕ) : Fin m := s + Fin.ofNat m j

@[simp] theorem ahead_zero (s : Fin m) : ahead s 0 = s := by
  have h : Fin.ofNat m 0 = 0 := rfl
  simp only [ahead, h, add_zero]

theorem ahead_succ (s : Fin m) (j : ℕ) : ahead (s + 1) j = ahead s (j + 1) := by
  have h : Fin.ofNat m (j + 1) = 1 + Fin.ofNat m j := by
    apply Fin.ext
    simp [Fin.val_add, Fin.ofNat, Nat.add_comm]
  rw [ahead, ahead, h, add_assoc]

theorem ahead_add_one (s : Fin m) (j : ℕ) : ahead s (j + 1) = ahead s j + 1 := by
  have h : Fin.ofNat m (j + 1) = Fin.ofNat m j + 1 := by
    apply Fin.ext
    simp [Fin.val_add, Fin.ofNat]
  rw [ahead, ahead, h, add_assoc]

/-- Every slot is fewer than `m` steps ahead. -/
theorem exists_ahead (s u : Fin m) : ∃ j < m, ahead s j = u := by
  refine ⟨(u - s).val, (u - s).isLt, ?_⟩
  rw [ahead, Fin.ofNat_val_eq_self, add_sub_cancel]

theorem ahead_inj {s : Fin m} {i j : ℕ} (hi : i < m) (hj : j < m) :
    ahead s i = ahead s j ↔ i = j := by
  rw [ahead, ahead, add_right_inj, Pool.ofNat_inj hi hj]

theorem ahead_eq_self {s : Fin m} {j : ℕ} (hj : j < m) : ahead s j = s ↔ j = 0 := by
  simpa using ahead_inj (s := s) hj (Nat.pos_of_ne_zero (NeZero.ne m))

/-- A full turn leads back. -/
theorem ahead_full (s : Fin m) : ahead s m = s := by
  have h : Fin.ofNat m m = 0 := by
    apply Fin.ext
    simp [Fin.ofNat]
  rw [ahead, h, add_zero]

theorem forall_ahead_succ {P : Fin m → Prop} {s : Fin m} {n : ℕ} :
    (∀ i < n + 1, P (ahead s i)) ↔ P s ∧ ∀ i < n, P (ahead (s + 1) i) := by
  simp only [ahead_succ]
  constructor
  · intro h
    exact ⟨by simpa using h 0 (by omega), fun i hi => h (i + 1) (by omega)⟩
  · rintro ⟨h0, h⟩ i hi
    cases i with
    | zero => simpa using h0
    | succ i => exact h i (by omega)

end Cyclic
