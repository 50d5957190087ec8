import Mathlib.Algebra.GroupWithZero.Nat
import Mathlib.Data.List.FinRange
import Mathlib.Logic.Function.Basic

/-! # Pools of slots

A pool is a preallocated vector of fixed length. Slots are read and written at
typed indices; a heap array is also read and written at computed positions.
-/

/-- A vector of `n` slots, allocated once. -/
structure Pool (α : Type*) (n : ℕ) where
  cells : Fin n → α

namespace Pool

variable {α : Type*} {n : ℕ}

def get (p : Pool α n) (i : Fin n) : α := p.cells i

def set (p : Pool α n) (i : Fin n) (x : α) : Pool α n := ⟨Function.update p.cells i x⟩

/-- Update slot `i` in place. -/
def modify (p : Pool α n) (i : Fin n) (f : α → α) : Pool α n := p.set i (f (p.get i))

/-- The slots in index order. -/
def toList (p : Pool α n) : List α := (List.finRange n).map p.get

@[ext] theorem ext {p q : Pool α n} (h : ∀ i, p.get i = q.get i) : p = q := by
  cases p; cases q
  congr
  exact funext h

@[simp] theorem get_set_self (p : Pool α n) (i : Fin n) (x : α) : (p.set i x).get i = x := by
  simp [get, set]

theorem get_set_of_ne (p : Pool α n) {i j : Fin n} (x : α) (h : j ≠ i) :
    (p.set i x).get j = p.get j := by
  simp [get, set, h]

theorem get_set (p : Pool α n) (i j : Fin n) (x : α) :
    (p.set i x).get j = if j = i then x else p.get j := by
  split
  · next h => rw [h, get_set_self]
  · next h => exact get_set_of_ne p x h

@[simp] theorem get_modify_self (p : Pool α n) (i : Fin n) (f : α → α) :
    (p.modify i f).get i = f (p.get i) := by
  simp [modify]

theorem get_modify_of_ne (p : Pool α n) {i j : Fin n} (f : α → α) (h : j ≠ i) :
    (p.modify i f).get j = p.get j :=
  get_set_of_ne p _ h

theorem get_modify (p : Pool α n) (i j : Fin n) (f : α → α) :
    (p.modify i f).get j = if j = i then f (p.get j) else p.get j := by
  rw [modify, get_set]
  split
  · next h => rw [h]
  · rfl

section Positions

variable [NeZero n]

/-- Read at a computed position; the callers keep it below `n`. -/
def read (p : Pool α n) (i : ℕ) : α := p.get (Fin.ofNat n i)

/-- Write at a computed position; the callers keep it below `n`. -/
def write (p : Pool α n) (i : ℕ) (x : α) : Pool α n := p.set (Fin.ofNat n i) x

theorem ofNat_inj {i j : ℕ} (hi : i < n) (hj : j < n) :
    Fin.ofNat n i = Fin.ofNat n j ↔ i = j := by
  simp [Fin.ext_iff, Nat.mod_eq_of_lt hi, Nat.mod_eq_of_lt hj]

theorem read_write (p : Pool α n) {i j : ℕ} (hi : i < n) (hj : j < n) (x : α) :
    (p.write i x).read j = if j = i then x else p.read j := by
  simp only [read, write, get_set, ofNat_inj hj hi]

end Positions

end Pool
