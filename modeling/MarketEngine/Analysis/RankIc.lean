import Mathlib.Algebra.BigOperators.Fin
import Mathlib.Analysis.Real.Sqrt
import Mathlib.Data.Fin.VecNotation
import MarketEngine.Analysis.BlockBootstrap
import MarketEngine.Kit.Correlation

/-! # The rank correlation

`rank_ic` is the correlation of the ranks of two series. It sees nothing of the
series but how their entries compare, and it is one or minus one for two series
that compare alike or against each other, and for no others.
-/

namespace MarketEngine

open Correlation MidRank

variable {α F : Type} [LinearOrder α] [Field F] {n : ℕ}

/-! ## The lists of the script -/

theorem toList_averageRank (argsort : Argsort α) (x : Fin n → α)
    (empty : Pool ℚ (List.ofFn x).length) :
    (averageRank argsort empty (List.ofFn x).get).toList = List.ofFn (midRank x) := by
  have hrank : ∀ k, midRank (List.ofFn x).get k = midRank x (Fin.cast List.length_ofFn k) := by
    rintro k
    have hget : (List.ofFn x).get = x ∘ finCongr (List.length_ofFn (f := x)) := by
      ext i
      rw [List.get_ofFn]
      rfl
    rw [hget, midRank_comp_equiv]
    rfl
  refine List.ext_getElem (by simp [Pool.toList]) fun i hi hi' => ?_
  simp [Pool.toList, get_averageRank, hrank]

theorem centred_ofFn (ranks : Fin n → ℚ) :
    (centred (List.ofFn ranks) : List F) = List.ofFn (deviation fun i => (ranks i : F)) := by
  have hdeviation : (deviation fun i => (ranks i : F)) =
      fun i => (ranks i : F) - (∑ j, (ranks j : F)) / n := by
    ext i
    simp [deviation]
  simp [centred, ← List.map_eq_flatMap, List.map_ofFn, List.sum_ofFn, Function.comp_def,
    hdeviation]

theorem sum_zipWith_ofFn (f g : Fin n → F) :
    (List.zipWith (fun a b => a * b) (List.ofFn f) (List.ofFn g)).sum = product f g := by
  have hzip : List.zipWith (fun a b => a * b) (List.ofFn f) (List.ofFn g) =
      List.ofFn fun i => f i * g i :=
    List.ext_getElem (by simp) fun i hi hi' => by simp
  rw [hzip, List.sum_ofFn, product]

/-! ## Scores -/

/-- The differences of the ranks to their mean. -/
def scores (F : Type) [Field F] (x : Fin n → α) : Fin n → F :=
  deviation fun i => (midRank x i : F)

theorem rankIc_ofFn [DecidableEq F] (np : Numpy α F) (x y : Fin n → α) :
    rankIc np (List.ofFn x) (List.ofFn y) =
      if n < 3 then none
      else
        let denom := np.sqrt
          (product (scores F x) (scores F x) * product (scores F y) (scores F y))
        if denom = 0 then none else some (product (scores F x) (scores F y) / denom) := by
  simp only [rankIc, List.length_ofFn, toList_averageRank, centred_ofFn, sum_zipWith_ofFn]
  rfl

theorem scores_congr {x y : Fin n → α} (h : ∀ i j, x i < x j ↔ y i < y j) :
    scores F x = scores F y := by
  rw [scores, midRank_congr h, scores]

variable [LinearOrder F] [IsStrictOrderedRing F]

theorem scores_lt_iff (x : Fin n → α) (i j : Fin n) :
    scores F x i < scores F x j ↔ x i < x j := by
  rw [scores, deviation_lt_iff, Rat.cast_lt, midRank_lt_iff]

theorem scores_neg {x y : Fin n → α} (h : ∀ i j, x i < x j ↔ y j < y i) (i : Fin n) :
    scores F x i = -scores F y i := by
  refine deviation_of_add_eq (t := (n : F) - 1) (fun i => ?_) i
  have hranks := congrArg (fun r : ℚ => (r : F)) (midRank_add_midRank h i)
  simpa using hranks

/-- The scores of a constant series vanish, and of no other. -/
theorem product_scores_eq_zero_iff (x : Fin n → α) :
    product (scores F x) (scores F x) = 0 ↔ ∀ i j, x i = x j := by
  rw [product_self_eq_zero_iff, scores, deviation_eq_zero_iff]
  constructor
  · rintro hranks i j
    have hnot : ∀ i j, ¬x i < x j := by
      rintro i j hlt
      have hrank := (midRank_lt_iff x i j).mpr hlt
      exact hrank.ne (Rat.cast_injective (hranks i j))
    exact le_antisymm (not_lt.mp (hnot j i)) (not_lt.mp (hnot i j))
  · rintro hconstant i j
    simp [midRank, hconstant i j]

/-- The rank correlation is undefined for short and for constant series. Elsewhere it lies between
minus one and one, which it takes for series that compare alike or against each other, and it
depends on nothing but the comparisons. -/
theorem rank_ic_compares (np : Numpy α F)
    (hsqrt : ∀ t, 0 ≤ t → 0 ≤ np.sqrt t ∧ np.sqrt t * np.sqrt t = t) (x y : Fin n → α) :
    (rankIc np (List.ofFn x) (List.ofFn y) = none ↔
      n < 3 ∨ (∀ i j, x i = x j) ∨ ∀ i j, y i = y j) ∧
    (∀ ic, rankIc np (List.ofFn x) (List.ofFn y) = some ic →
      |ic| ≤ 1 ∧ (ic = 1 ↔ ∀ i j, x i < x j ↔ y i < y j) ∧
        (ic = -1 ↔ ∀ i j, x i < x j ↔ y j < y i)) ∧
    ∀ x' y' : Fin n → α, (∀ i j, x i < x j ↔ x' i < x' j) → (∀ i j, y i < y j ↔ y' i < y' j) →
      rankIc np (List.ofFn x') (List.ofFn y') = rankIc np (List.ofFn x) (List.ofFn y) := by
  obtain ⟨hnonneg, hroot⟩ := hsqrt
    (product (scores F x) (scores F x) * product (scores F y) (scores F y))
    (mul_nonneg (product_self_nonneg _) (product_self_nonneg _))
  have hzero : np.sqrt (product (scores F x) (scores F x) * product (scores F y) (scores F y)) = 0 ↔
      (∀ i j, x i = x j) ∨ ∀ i j, y i = y j := by
    rw [← mul_self_eq_zero, hroot, mul_eq_zero, product_scores_eq_zero_iff,
      product_scores_eq_zero_iff]
  refine ⟨?_, ?_, ?_⟩
  · by_cases hshort : n < 3
    · simp [rankIc_ofFn, hshort]
    · simp only [rankIc_ofFn, hshort, ← hzero, if_false, false_or]
      split_ifs with hdenom <;> simp [hdenom]
  · rintro ic hic
    simp only [rankIc_ofFn] at hic
    split_ifs at hic with hshort hdenom
    obtain rfl := Option.some.inj hic
    have hpos := hnonneg.lt_of_ne' hdenom
    refine ⟨abs_quotient_le_one hroot hpos, ?_, ?_⟩
    · rw [quotient_eq_one_iff hroot hpos]
      constructor
      · rintro ⟨t, ht, hscores⟩ i j
        rw [← scores_lt_iff (F := F), hscores, hscores, mul_lt_mul_iff_right₀ ht, scores_lt_iff]
      · rintro halike
        exact ⟨1, one_pos, fun i => by rw [one_mul, scores_congr halike]⟩
    · rw [quotient_eq_neg_one_iff hroot hpos]
      constructor
      · rintro ⟨t, ht, hscores⟩ i j
        rw [← scores_lt_iff (F := F), hscores, hscores, mul_lt_mul_iff_right₀ ht, neg_lt_neg_iff,
          scores_lt_iff]
      · rintro hagainst
        exact ⟨1, one_pos, fun i => by rw [one_mul, scores_neg hagainst]⟩
  · rintro x' y' hx hy
    simp only [rankIc_ofFn, scores_congr hx, scores_congr hy]

/-- Two series that compare alike, in exact arithmetic. -/
theorem three_alike :
    let np : Numpy ℤ ℝ := ⟨Argsort.sort ℤ, fun _ => ⟨fun _ => 0⟩, Real.sqrt, fun l _ => l.headD 0⟩
    rankIc np (List.ofFn ![3, 1, 3]) (List.ofFn ![70, 20, 70]) = some 1 := by
  intro np
  obtain ⟨hnone, hsome, -⟩ := rank_ic_compares np
    (fun t ht => ⟨Real.sqrt_nonneg t, Real.mul_self_sqrt ht⟩) ![3, 1, 3] ![70, 20, 70]
  cases hic : rankIc np (List.ofFn ![3, 1, 3]) (List.ofFn ![70, 20, 70]) with
  | none => exact absurd (hnone.mp hic) (by decide)
  | some ic =>
    obtain ⟨-, hone, -⟩ := hsome ic hic
    exact congrArg some (hone.mpr (by decide))

end MarketEngine
