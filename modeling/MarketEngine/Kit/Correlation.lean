import Mathlib.Algebra.Order.BigOperators.Ring.Finset
import Mathlib.Algebra.Order.Field.Basic
import Mathlib.Data.Fintype.Card
import Mathlib.Tactic.FieldSimp
import Mathlib.Tactic.Linarith
import Mathlib.Tactic.LinearCombination

/-! # Correlation

The quotient of a product by the root of the two squares lies between minus one
and one, and takes these values only for families that are proportional. Nothing
is needed of the root but its square.
-/

namespace Correlation

variable {ι F : Type*} [Fintype ι] [Field F] {f g : ι → F} {root : F}

def product (f g : ι → F) : F := ∑ i, f i * g i

/-- The differences to the mean. -/
def deviation (f : ι → F) (i : ι) : F := f i - (∑ j, f j) / Fintype.card ι

/-! ## Products -/

theorem product_comm (f g : ι → F) : product f g = product g f := by
  simp [product, mul_comm]

@[simp] theorem product_neg_right (f g : ι → F) : product f (-g) = -product f g := by
  simp [product]

@[simp] theorem product_neg_left (f g : ι → F) : product (-f) g = -product f g := by
  simp [product]

theorem product_scale (t : F) (f g : ι → F) :
    product (fun i => t * f i) g = t * product f g := by
  simp [product, Finset.mul_sum, mul_assoc]

/-- The square of a combination. -/
theorem product_combination (a b : F) (f g : ι → F) :
    product (fun i => a * f i - b * g i) (fun i => a * f i - b * g i) =
      a ^ 2 * product f f - 2 * a * b * product f g + b ^ 2 * product g g := by
  simp only [product, Finset.mul_sum, ← Finset.sum_sub_distrib, ← Finset.sum_add_distrib]
  exact Finset.sum_congr rfl fun i _ => by ring

variable [LinearOrder F] [IsStrictOrderedRing F]

theorem product_self_nonneg (f : ι → F) : 0 ≤ product f f :=
  Finset.sum_nonneg fun i _ => mul_self_nonneg (f i)

theorem product_self_eq_zero_iff : product f f = 0 ↔ ∀ i, f i = 0 := by
  simp [product, Finset.sum_mul_self_eq_zero_iff]

/-! ## The quotient -/

section Quotient

variable (hroot : root * root = product f f * product g g) (hpos : 0 < root)

include hroot hpos

theorem product_self_pos : 0 < product g g := by
  rcases (product_self_nonneg g).eq_or_lt with hzero | hlt
  · rw [← hzero, mul_zero] at hroot
    exact absurd (mul_self_eq_zero.mp hroot) hpos.ne'
  · exact hlt

theorem abs_quotient_le_one : |product f g / root| ≤ 1 := by
  have hsq : product f g ^ 2 ≤ root ^ 2 := by
    have hle := Finset.sum_mul_sq_le_sq_mul_sq Finset.univ f g
    simp only [sq] at hle ⊢
    exact hle.trans_eq hroot.symm
  rw [abs_div, abs_of_pos hpos, div_le_one hpos]
  exact abs_le_of_sq_le_sq hsq hpos.le

/-- The quotient is one for families that are proportional, and for no others. -/
theorem quotient_eq_one_iff :
    product f g / root = 1 ↔ ∃ t, 0 < t ∧ ∀ i, f i = t * g i := by
  have hg := product_self_pos hroot hpos
  rw [div_eq_one_iff_eq hpos.ne']
  constructor
  · intro hproduct
    have hzero := product_combination (product g g) root f g
    have hcombination : product (fun i => product g g * f i - root * g i)
        (fun i => product g g * f i - root * g i) = 0 := by
      rw [hzero, hproduct]
      linear_combination -product g g * hroot
    refine ⟨root / product g g, div_pos hpos hg, fun i => ?_⟩
    have hi := product_self_eq_zero_iff.mp hcombination i
    field_simp
    linarith
  · rintro ⟨t, ht, hf⟩
    obtain rfl : f = fun i => t * g i := funext hf
    rw [product_scale, product_comm, product_scale] at hroot
    rw [product_scale]
    have hsquare : root ^ 2 = (t * product g g) ^ 2 := by
      linear_combination hroot
    exact ((pow_left_inj₀ hpos.le (mul_pos ht hg).le two_ne_zero).mp hsquare).symm

/-- The quotient is minus one for families that are proportional against each other. -/
theorem quotient_eq_neg_one_iff :
    product f g / root = -1 ↔ ∃ t, 0 < t ∧ ∀ i, f i = t * -g i := by
  have hroot' : root * root = product f f * product (-g) (-g) := by simpa using hroot
  have hone := quotient_eq_one_iff hroot' hpos
  rw [product_neg_right, neg_div, neg_eq_iff_eq_neg] at hone
  exact hone

end Quotient

/-! ## Deviations -/

theorem deviation_lt_iff (f : ι → F) (i j : ι) : deviation f i < deviation f j ↔ f i < f j :=
  sub_lt_sub_iff_right _

theorem deviation_eq_zero_iff : (∀ i, deviation f i = 0) ↔ ∀ i j, f i = f j := by
  constructor
  · rintro hzero i j
    have hi := hzero i
    have hj := hzero j
    simp only [deviation, sub_eq_zero] at hi hj
    exact hi.trans hj.symm
  · rintro hconstant i
    have hcard : (Fintype.card ι : F) ≠ 0 :=
      Nat.cast_ne_zero.mpr (Fintype.card_pos_iff.mpr ⟨i⟩).ne'
    have hsum : ∑ j, f j = Fintype.card ι * f i := by
      simp [fun j => hconstant j i]
    rw [deviation, hsum, mul_div_cancel_left₀ _ hcard, sub_self]

/-- Families that add up to a constant deviate against each other. -/
theorem deviation_of_add_eq {t : F} (h : ∀ i, f i + g i = t) (i : ι) :
    deviation f i = -deviation g i := by
  have hcard : (Fintype.card ι : F) ≠ 0 :=
    Nat.cast_ne_zero.mpr (Fintype.card_pos_iff.mpr ⟨i⟩).ne'
  have hsum : ∑ j, f j + ∑ j, g j = Fintype.card ι * t := by
    simp [← Finset.sum_add_distrib, h]
  have hi := h i
  unfold deviation
  field_simp
  linear_combination Fintype.card ι * hi - hsum

end Correlation
