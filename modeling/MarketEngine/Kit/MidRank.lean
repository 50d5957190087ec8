import Mathlib.Algebra.Order.Field.Rat
import Mathlib.Data.Fintype.Fin
import Mathlib.Tactic.Linarith
import Mathlib.Tactic.Qify
import Mathlib.Tactic.Ring

/-! # Ranks with ties

The rank of an entry counts the smaller entries, and half of the other entries
that are equal to it. It depends on nothing but the comparisons of the entries,
and in an increasing tuple it is the middle of the run of the entry.
-/

namespace MidRank

variable {ι κ α β : Type*} [Fintype ι] [Fintype κ] [LinearOrder α] [LinearOrder β]

/-- The smaller entries, and half of the other equal ones. -/
def midRank (x : ι → α) (k : ι) : ℚ :=
  (Finset.univ.filter fun m => x m < x k).card +
    ((Finset.univ.filter fun m => x m = x k).card - 1 : ℚ) / 2

/-- The rank moves with its entry. -/
theorem midRank_comp_equiv (x : ι → α) (e : κ ≃ ι) (k : κ) :
    midRank (x ∘ e) k = midRank x (e k) := by
  have hless : (Finset.univ.filter fun m => (x ∘ e) m < (x ∘ e) k).card =
      (Finset.univ.filter fun m => x m < x (e k)).card :=
    Finset.card_equiv e (by simp)
  have hequal : (Finset.univ.filter fun m => (x ∘ e) m = (x ∘ e) k).card =
      (Finset.univ.filter fun m => x m = x (e k)).card :=
    Finset.card_equiv e (by simp)
  rw [midRank, midRank, hless, hequal]

/-- A strictly increasing transformation changes no rank. -/
theorem midRank_comp_strictMono {f : α → β} (hf : StrictMono f) (x : ι → α) (k : ι) :
    midRank (f ∘ x) k = midRank x k := by
  simp only [midRank, Function.comp_apply, hf.lt_iff_lt, hf.injective.eq_iff]

/-- Tuples that compare alike have the same ranks. -/
theorem midRank_congr {x : ι → α} {y : ι → β} (h : ∀ i j, x i < x j ↔ y i < y j) :
    midRank x = midRank y := by
  have heq : ∀ i j, x i = x j ↔ y i = y j := by
    rintro i j
    simp [le_antisymm_iff, ← not_lt, h]
  ext k
  simp only [midRank, h, heq]

/-- Ranks compare as the entries do. -/
theorem midRank_lt_iff (x : ι → α) (i j : ι) : midRank x i < midRank x j ↔ x i < x j := by
  have hlt : ∀ i j, x i < x j → midRank x i < midRank x j := by
    classical
    rintro i j hij
    have hsubset : (Finset.univ.filter fun m => x m < x i) ∪
        (Finset.univ.filter fun m => x m = x i) ⊆ Finset.univ.filter fun m => x m < x j := by
      rintro m hm
      simp only [Finset.mem_union, Finset.mem_filter, Finset.mem_univ, true_and] at hm ⊢
      rcases hm with hless | heq
      · exact hless.trans hij
      · exact heq ▸ hij
    have hdisjoint : Disjoint (Finset.univ.filter fun m => x m < x i)
        (Finset.univ.filter fun m => x m = x i) :=
      Finset.disjoint_filter.mpr fun m _ hless heq => hless.ne heq
    have hcard := Finset.card_le_card hsubset
    rw [Finset.card_union_of_disjoint hdisjoint] at hcard
    have hself : 0 < (Finset.univ.filter fun m => x m = x i).card :=
      Finset.card_pos.mpr ⟨i, by simp⟩
    have hself' : 0 < (Finset.univ.filter fun m => x m = x j).card :=
      Finset.card_pos.mpr ⟨j, by simp⟩
    unfold midRank
    qify at hcard hself hself'
    linarith
  constructor
  · intro hrank
    by_contra! hle
    rcases hle.lt_or_eq with hless | heq
    · exact hrank.asymm (hlt j i hless)
    · simp [midRank, heq] at hrank
  · exact hlt i j

/-- The ranks of tuples that compare against each other add up to the last position. -/
theorem midRank_add_midRank {x : ι → α} {y : ι → β} (h : ∀ i j, x i < x j ↔ y j < y i) (k : ι) :
    midRank x k + midRank y k = Fintype.card ι - 1 := by
  classical
  have heq : ∀ m, x m = x k ↔ y m = y k := by
    rintro m
    simp [le_antisymm_iff, ← not_lt, h, and_comm]
  have hnot : ∀ m, ¬x m < x k ↔ y m < y k ∨ x m = x k := by
    rintro m
    rw [heq, h, not_lt, le_iff_lt_or_eq]
  have hdisjoint : Disjoint (Finset.univ.filter fun m => y m < y k)
      (Finset.univ.filter fun m => x m = x k) :=
    Finset.disjoint_filter.mpr fun m _ hless hsame => hless.ne ((heq m).mp hsame)
  have hcard := Finset.card_filter_add_card_filter_not (s := Finset.univ) fun m => x m < x k
  simp only [hnot, Finset.filter_or, Finset.card_union_of_disjoint hdisjoint,
    Finset.card_univ] at hcard
  simp only [midRank, ← heq]
  qify at hcard
  linarith

/-- A position with the smaller entries before it and the greater ones from it on. -/
def Boundary {n : ℕ} (x : Fin n → α) (i : ℕ) : Prop :=
  ∀ m m' : Fin n, m.val < i → i ≤ m'.val → x m < x m'

/-- Equal entries from one boundary to another. -/
structure Run {n : ℕ} (x : Fin n → α) (i j : ℕ) : Prop where
  first : Boundary x i
  last : Boundary x j
  le : j ≤ n
  equal : ∀ m m' : Fin n, i ≤ m.val → m.val < j → i ≤ m'.val → m'.val < j → x m = x m'

variable {n : ℕ} {x : Fin n → α} {i j : ℕ} {k : Fin n}

theorem Run.lt_iff (h : Run x i j) (hik : i ≤ k.val) (hkj : k.val < j) (m : Fin n) :
    x m < x k ↔ m.val < i := by
  constructor
  · intro hlt
    by_contra! hi
    rcases Nat.lt_or_ge m.val j with hj | hj
    · exact hlt.ne (h.equal m k hi hj hik hkj)
    · exact hlt.asymm (h.last k m hkj hj)
  · intro hi
    exact h.first m k hi hik

theorem Run.eq_iff (h : Run x i j) (hik : i ≤ k.val) (hkj : k.val < j) (m : Fin n) :
    x m = x k ↔ m.val < j ∧ ¬m.val < i := by
  constructor
  · intro heq
    constructor
    · by_contra! hj
      exact (h.last k m hkj hj).ne' heq
    · intro hi
      exact (h.first m k hi hik).ne heq
  · rintro ⟨hj, hi⟩
    exact h.equal m k (Nat.le_of_not_lt hi) hj hik hkj

/-- The rank of an entry of a run is the middle of the run. -/
theorem Run.midRank_eq (h : Run x i j) (hik : i ≤ k.val) (hkj : k.val < j) :
    midRank x k = ((i : ℚ) + (j - 1)) / 2 := by
  have hin : i ≤ n := by omega
  have hless : (Finset.univ.filter fun m => x m < x k).card = i := by
    simp only [h.lt_iff hik hkj, Fin.card_filter_val_lt, Nat.min_eq_right hin]
  have hequal : (Finset.univ.filter fun m => x m = x k).card = j - i := by
    have hsubset : (Finset.univ.filter fun m : Fin n => m.val < i) ⊆
        Finset.univ.filter fun m : Fin n => m.val < j := by
      intro m hm
      simp only [Finset.mem_filter, Finset.mem_univ, true_and] at hm ⊢
      omega
    simp only [h.eq_iff hik hkj, Finset.filter_and_not, Finset.card_sdiff_of_subset hsubset,
      Fin.card_filter_val_lt, Nat.min_eq_right h.le, Nat.min_eq_right hin]
  have hle : i ≤ j := by omega
  rw [midRank, hless, hequal, Nat.cast_sub hle]
  ring

end MidRank
