import Mathlib.Algebra.Group.Int.Defs
import Mathlib.Algebra.Group.Nat.Defs
import Mathlib.Data.Int.Notation
import Mathlib.Data.Nat.Notation
import Mathlib.Tactic.SplitIfs

/-! # Signed words

The integers that 64-bit words stand for, as long as nothing overflows.
-/

namespace SignedWord

variable {a : Int64}

theorem toInt64_eq_ofInt (n : UInt64) : n.toInt64 = Int64.ofInt n.toNat := by
  rw [Int64.ofInt_eq_ofNat, ← UInt64.toInt64_ofNat', UInt64.ofNat_toNat]

theorem toInt_add_ofInt {i : ℤ} (hlo : -2 ^ 63 ≤ a.toInt + i) (hhi : a.toInt + i < 2 ^ 63) :
    (a + Int64.ofInt i).toInt = a.toInt + i := by
  have hsum : a + Int64.ofInt i = Int64.ofInt (a.toInt + i) := by
    rw [Int64.ofInt_add, Int64.ofInt_toInt]
  rw [hsum, Int64.toInt_ofInt_of_le hlo hhi]

theorem toInt_neg (hmin : -2 ^ 63 < a.toInt) : (-a).toInt = -a.toInt := by
  have hlt := a.toInt_lt
  have hneg : -a = Int64.ofInt (-a.toInt) := by rw [Int64.ofInt_neg, Int64.ofInt_toInt]
  rw [hneg, Int64.toInt_ofInt_of_le] <;> omega

theorem toInt_sub {b : Int64} (hlo : -2 ^ 63 ≤ a.toInt - b.toInt)
    (hhi : a.toInt - b.toInt < 2 ^ 63) : (a - b).toInt = a.toInt - b.toInt := by
  have hsub : a - b = Int64.ofInt (a.toInt - b.toInt) := by
    rw [Int64.ofInt_sub, Int64.ofInt_toInt, Int64.ofInt_toInt]
  rw [hsub, Int64.toInt_ofInt_of_le hlo hhi]

theorem toNat_toUInt64 (h : 0 ≤ a.toInt) : (a.toUInt64.toNat : ℤ) = a.toInt := by
  rw [Int64.toNat_toUInt64_of_le (Int64.le_iff_toInt_le.mpr h), ← Int64.toNat_toInt]
  omega

theorem abs_eq_ite (a : Int64) : a.abs = if a < 0 then -a else a := by
  apply Int64.toBitVec_inj.mp
  rw [Int64.toBitVec_abs, BitVec.abs_eq, BitVec.msb_eq_toInt]
  have hneg : a.toBitVec.toInt < 0 ↔ a < 0 := (Int64.lt_iff_toInt_lt (y := 0)).symm
  by_cases h : a < 0
  · rw [if_pos h, if_pos (by simpa using hneg.mpr h), Int64.toBitVec_neg]
  · rw [if_neg h, if_neg (by simpa using mt hneg.mp h)]

/-- The absolute value is exact, but for the one word without a negative. -/
theorem toNat_abs (hmin : -2 ^ 63 < a.toInt) : a.abs.toUInt64.toNat = a.toInt.natAbs := by
  rw [abs_eq_ite]
  split_ifs with hneg
  · have hlt := Int64.lt_iff_toInt_lt.mp hneg
    rw [Int64.toInt_zero] at hlt
    have hexact := toInt_neg hmin
    have := toNat_toUInt64 (a := -a) (by omega)
    omega
  · have hge := mt Int64.lt_iff_toInt_lt.mpr hneg
    rw [Int64.toInt_zero] at hge
    have := toNat_toUInt64 (a := a) (by omega)
    omega

theorem abs_toUInt64 (hmin : -2 ^ 63 < a.toInt) : a.abs.toUInt64 = .ofNat a.toInt.natAbs := by
  rw [← toNat_abs hmin, UInt64.ofNat_toNat]

theorem eq_zero_iff : a = 0 ↔ a.toInt = 0 := by
  rw [← Int64.toInt_inj, Int64.toInt_zero]

theorem pos_iff : 0 < a ↔ 0 < a.toInt := by
  rw [Int64.lt_iff_toInt_lt, Int64.toInt_zero]

/-! ## Checked operations -/

/-- What a signed word can hold. -/
def Fits (i : ℤ) : Prop := -2 ^ 63 ≤ i ∧ i < 2 ^ 63

instance (i : ℤ) : Decidable (Fits i) := inferInstanceAs (Decidable (_ ∧ _))

/-- The word for an exact result, unless that overflows. -/
def checked (i : ℤ) : Option Int64 := if Fits i then some (Int64.ofInt i) else none

section

variable {b r : Int64}

theorem toInt_ofInt {i : ℤ} (h : Fits i) : (Int64.ofInt i).toInt = i :=
  Int64.toInt_ofInt_of_le h.1 h.2

theorem toInt_mul (h : Fits (a.toInt * b.toInt)) : (a * b).toInt = a.toInt * b.toInt := by
  have hproduct := toInt_ofInt h
  rwa [Int64.ofInt_mul, Int64.ofInt_toInt, Int64.ofInt_toInt] at hproduct

end

end SignedWord
