import Mathlib.Data.Fin.Tuple.Sort
import Mathlib.Data.Fin.VecNotation
import MarketEngine.Kit.Loop
import MarketEngine.Kit.MidRank
import MarketEngine.Kit.Pool

/-! # Ranks with ties averaged

`average_rank` sorts the entries, ranks them by their positions and overwrites
the ranks of every run of ties by the average of its first and last ranks. The
entries are compared by value only, and a rank is a half of an integer.
-/

namespace MarketEngine

open MidRank (Boundary Run midRank)

variable {α β : Type} [LinearOrder α] [LinearOrder β] {n : ℕ}

/-- `np.argsort` of kind mergesort: the positions of the entries in increasing order, and equal
entries in the order of their positions. -/
structure Argsort (α : Type) [LinearOrder α] where
  order : {n : ℕ} → (Fin n → α) → Equiv.Perm (Fin n)
  sorted : ∀ {n : ℕ} (x : Fin n → α), Monotone (x ∘ order x)
  stable : ∀ {n : ℕ} (x : Fin n → α) (i j : Fin n), i < j → x (order x i) = x (order x j) →
    order x i < order x j

/-- The only order that sorts an array and keeps its equal entries in place. -/
def Argsort.sort (α : Type) [LinearOrder α] : Argsort α where
  order x := Tuple.sort x
  sorted x := Tuple.monotone_sort x
  stable _ i j hij := (Tuple.eq_sort_iff.mp rfl).2 i j hij

namespace AverageRank

/-- The inner loop: past the entries that are equal to entry `i`. -/
def tieLoop (sorted : Fin n → α) (i : Fin n) : Loop ℕ ℕ where
  body j :=
    if h : j < n then
      if sorted ⟨j, h⟩ = sorted i then .inl (j + 1) else .inr j
    else .inr j
  measure j := n - j
  decreases j j' h := by
    split_ifs at h
    cases h
    omega

/-- The end of the run of ties that begins at `i`. -/
def tieEnd (sorted : Fin n → α) (i : Fin n) : ℕ := (tieLoop sorted i).run (i + 1)

/-- The positions behind `i` and before the end of its run. -/
structure Ties (sorted : Fin n → α) (i : Fin n) (j : ℕ) : Prop where
  lt : i.val < j
  le : j ≤ n
  equal : ∀ m : Fin n, i ≤ m → m.val < j → sorted m = sorted i

omit [LinearOrder α] in
theorem Ties.pred_lt {sorted : Fin n → α} {i : Fin n} {j : ℕ} (h : Ties sorted i j) :
    j - 1 < n := by
  have hlt := h.lt
  have hle := h.le
  omega

theorem tieEnd_ties (sorted : Fin n → α) (i : Fin n) :
    Ties sorted i (tieEnd sorted i) ∧
      ∀ h : tieEnd sorted i < n, sorted ⟨tieEnd sorted i, h⟩ ≠ sorted i := by
  apply (tieLoop sorted i).run_invariant (I := Ties sorted i)
    (Q := fun j => Ties sorted i j ∧ ∀ h : j < n, sorted ⟨j, h⟩ ≠ sorted i)
  · intro j j' hj hbody
    dsimp only [tieLoop] at hbody
    split_ifs at hbody with hlt heq
    cases hbody
    refine ⟨Nat.lt_succ_of_lt hj.lt, hlt, ?_⟩
    intro m hm hmj
    rcases Nat.lt_succ_iff_lt_or_eq.mp hmj with hmj | hmj
    · exact hj.equal m hm hmj
    · rw [show m = ⟨j, hlt⟩ from Fin.ext hmj, heq]
  · intro j r hj hbody
    dsimp only [tieLoop] at hbody
    split_ifs at hbody with hlt heq
    · cases hbody
      exact ⟨hj, fun _ => heq⟩
    · cases hbody
      exact ⟨hj, fun h => absurd h hlt⟩
  · refine ⟨Nat.lt_succ_self _, i.isLt, ?_⟩
    intro m hm hmi
    rw [show m = i from Fin.ext (Nat.le_antisymm (Nat.le_of_lt_succ hmi) hm)]

/-- `ranks[order[k]] = value k` for the positions `k` of a list. -/
def assign (order : Fin n → Fin n) (positions : List (Fin n)) (value : Fin n → ℚ)
    (ranks : Pool ℚ n) : Pool ℚ n :=
  positions.foldl (fun ranks k => ranks.set (order k) (value k)) ranks

/-- The positions of a slice. -/
def slice (i j : ℕ) : List (Fin n) := (List.finRange n).filter fun k => i ≤ k.val ∧ k.val < j

/-- A run of more than one entry gets the average of its first and last ranks. -/
def averageRun (order : Fin n → Fin n) (sorted : Fin n → α) (i : Fin n) (ranks : Pool ℚ n) :
    ℕ × Pool ℚ n :=
  let j := tieEnd sorted i
  let last : Fin n := ⟨j - 1, (tieEnd_ties sorted i).1.pred_lt⟩
  let average := (ranks.get (order i) + ranks.get (order last)) / 2
  (j, if 1 < j - i.val then assign order (slice i j) (fun _ => average) ranks else ranks)

/-- The outer loop: one run after the other. -/
def averageLoop (order : Fin n → Fin n) (sorted : Fin n → α) :
    Loop (ℕ × Pool ℚ n) (Pool ℚ n) where
  body := fun (i, ranks) =>
    if h : i < n then .inl (averageRun order sorted ⟨i, h⟩ ranks) else .inr ranks
  measure := fun (i, _) => n - i
  decreases := by
    rintro ⟨i, ranks⟩ s h
    dsimp only at h
    split_ifs at h with hi
    cases h
    have hlt := (tieEnd_ties sorted ⟨i, hi⟩).1.lt
    dsimp only [averageRun] at hlt ⊢
    omega

end AverageRank

open AverageRank

/-- The ranks of the entries; what `np.empty` returns is overwritten. -/
def averageRank (argsort : Argsort α) (empty : Pool ℚ n) (x : Fin n → α) : Pool ℚ n :=
  let order := argsort.order x
  let ranks := assign order (List.finRange n) (fun k => k.val) empty
  let sorted := x ∘ order
  (averageLoop order sorted).run (0, ranks)

namespace AverageRank

theorem get_assign {order : Fin n → Fin n} (hinj : Function.Injective order)
    (positions : List (Fin n)) (value : Fin n → ℚ) (ranks : Pool ℚ n) (k : Fin n) :
    (assign order positions value ranks).get (order k) =
      if k ∈ positions then value k else ranks.get (order k) := by
  induction positions generalizing ranks with
  | nil => rfl
  | cons m positions ih =>
    have hrest := ih (ranks.set (order m) (value m))
    rw [assign, List.foldl_cons, ← assign, hrest, Pool.get_set]
    by_cases hk : k = m
    · simp [hk]
    · have hne : order k ≠ order m := fun heq => hk (hinj heq)
      simp [hk, hne]

theorem mem_slice {i j : ℕ} {k : Fin n} : k ∈ slice i j ↔ i ≤ k.val ∧ k.val < j := by
  simp [slice]

/-- Up to a boundary the ranks are averaged, and behind it they are positions. -/
structure Averaged (order : Fin n → Fin n) (sorted : Fin n → α) (i : ℕ) (ranks : Pool ℚ n) :
    Prop where
  boundary : Boundary sorted i
  le : i ≤ n
  done : ∀ k : Fin n, k.val < i → ranks.get (order k) = midRank sorted k
  todo : ∀ k : Fin n, i ≤ k.val → ranks.get (order k) = k.val

variable {order : Fin n → Fin n} {sorted : Fin n → α} {i : ℕ} {ranks : Pool ℚ n}

/-- The inner loop ends at a boundary. -/
theorem run_tieEnd (hsorted : Monotone sorted) (hi : i < n) (hboundary : Boundary sorted i) :
    Run sorted i (tieEnd sorted ⟨i, hi⟩) := by
  obtain ⟨hties, hend⟩ := tieEnd_ties sorted ⟨i, hi⟩
  refine ⟨hboundary, ?_, hties.le, ?_⟩
  · intro m m' hm hm'
    have hlt : tieEnd sorted ⟨i, hi⟩ < n := Nat.lt_of_le_of_lt hm' m'.isLt
    have hmi : sorted m ≤ sorted ⟨i, hi⟩ := by
      rcases Nat.lt_or_ge m.val i with hbefore | hafter
      · exact hsorted (Nat.le_of_lt hbefore)
      · exact (hties.equal m hafter hm).le
    calc sorted m ≤ sorted ⟨i, hi⟩ := hmi
      _ < sorted ⟨tieEnd sorted ⟨i, hi⟩, hlt⟩ :=
        lt_of_le_of_ne (hsorted (Nat.le_of_lt hties.lt)) (hend hlt).symm
      _ ≤ sorted m' := hsorted hm'
  · intro m m' him hmj him' hmj'
    rw [hties.equal m him hmj, hties.equal m' him' hmj']

/-- The endpoints of a run are read before they are averaged, and no other rank changes. -/
theorem get_averageRun (hinj : Function.Injective order) (h : Averaged order sorted i ranks)
    (hi : i < n) (k : Fin n) :
    (averageRun order sorted ⟨i, hi⟩ ranks).2.get (order k) =
      if i ≤ k.val ∧ k.val < tieEnd sorted ⟨i, hi⟩ then
        ((i : ℚ) + (tieEnd sorted ⟨i, hi⟩ - 1)) / 2
      else ranks.get (order k) := by
  obtain ⟨hties, -⟩ := tieEnd_ties sorted ⟨i, hi⟩
  have hlt : i < tieEnd sorted ⟨i, hi⟩ := hties.lt
  have hfirst : ranks.get (order ⟨i, hi⟩) = i := h.todo ⟨i, hi⟩ (Nat.le_refl i)
  have hlast : ranks.get (order ⟨tieEnd sorted ⟨i, hi⟩ - 1, hties.pred_lt⟩) =
      tieEnd sorted ⟨i, hi⟩ - 1 := by
    rw [h.todo _ (Nat.le_sub_one_of_lt hlt), Nat.cast_pred (Nat.zero_lt_of_lt hlt)]
  dsimp only [averageRun]
  split_ifs with hmany hk hk
  · rw [get_assign hinj, if_pos (mem_slice.mpr hk), hfirst, hlast]
  · rw [get_assign hinj, if_neg (mt mem_slice.mp hk)]
  · have hki : k = ⟨i, hi⟩ := Fin.ext (by simp only; omega)
    have hend : tieEnd sorted ⟨i, hi⟩ = i + 1 := by omega
    rw [hki, hfirst, hend, Nat.cast_succ]
    ring
  · rfl

/-- One pass averages one run. -/
theorem Averaged.step (hinj : Function.Injective order) (hsorted : Monotone sorted)
    (h : Averaged order sorted i ranks) (hi : i < n) :
    Averaged order sorted (averageRun order sorted ⟨i, hi⟩ ranks).1
      (averageRun order sorted ⟨i, hi⟩ ranks).2 := by
  have hrun := run_tieEnd hsorted hi h.boundary
  obtain ⟨hties, -⟩ := tieEnd_ties sorted ⟨i, hi⟩
  have hlt : i < tieEnd sorted ⟨i, hi⟩ := hties.lt
  refine ⟨hrun.last, hties.le, ?_, ?_⟩
  · intro k hk
    rw [get_averageRun hinj h]
    split_ifs with hin
    · rw [hrun.midRank_eq hin.1 hin.2]
    · apply h.done k
      by_contra! hik
      exact hin ⟨hik, hk⟩
  · intro k hk
    have hjk : tieEnd sorted ⟨i, hi⟩ ≤ k.val := hk
    rw [get_averageRun hinj h, if_neg (by omega)]
    exact h.todo k (by omega)

theorem Averaged.run (hinj : Function.Injective order) (hsorted : Monotone sorted)
    (h : Averaged order sorted i ranks) (k : Fin n) :
    ((averageLoop order sorted).run (i, ranks)).get (order k) = midRank sorted k := by
  have hdone := (averageLoop order sorted).run_invariant
    (I := fun s => Averaged order sorted s.1 s.2) (Q := fun ranks => Averaged order sorted n ranks)
    ?_ ?_ (s := (i, ranks)) h
  · exact hdone.done k k.isLt
  · rintro ⟨i, ranks⟩ s hs hbody
    dsimp only [averageLoop] at hbody
    split_ifs at hbody with hi
    cases hbody
    exact hs.step hinj hsorted hi
  · rintro ⟨i, ranks⟩ r hs hbody
    dsimp only [averageLoop] at hbody
    split_ifs at hbody with hi
    cases hbody
    obtain rfl : i = n := Nat.le_antisymm hs.le (Nat.le_of_not_lt hi)
    exact hs

/-- Before the first pass the ranks are the positions. -/
theorem averaged_zero (hinj : Function.Injective order) (empty : Pool ℚ n) :
    Averaged order sorted 0 (assign order (List.finRange n) (fun k => k.val) empty) := by
  refine ⟨?_, Nat.zero_le n, ?_, ?_⟩
  · intro m m' hm
    exact absurd hm (Nat.not_lt_zero _)
  · intro k hk
    exact absurd hk (Nat.not_lt_zero _)
  · intro k _
    rw [get_assign hinj, if_pos (List.mem_finRange k)]

end AverageRank

theorem get_averageRank (argsort : Argsort α) (empty : Pool ℚ n) (x : Fin n → α) (k : Fin n) :
    (averageRank argsort empty x).get k = midRank x k := by
  have hinj := (argsort.order x).injective
  have hrank := (averaged_zero hinj empty).run hinj (argsort.sorted x) ((argsort.order x).symm k)
  rw [MidRank.midRank_comp_equiv, Equiv.apply_symm_apply] at hrank
  exact hrank

/-- The ranks count the smaller entries and half of the other equal ones. They move with the
entries, and a strictly increasing transformation of the entries keeps them. -/
theorem average_rank_correct (argsort : Argsort α) (argsort' : Argsort β) (empty : Pool ℚ n)
    (x : Fin n → α) :
    (∀ k, (averageRank argsort empty x).get k =
      (Finset.univ.filter fun m => x m < x k).card +
        ((Finset.univ.filter fun m => x m = x k).card - 1 : ℚ) / 2) ∧
    (∀ (p : Equiv.Perm (Fin n)) (k : Fin n),
      (averageRank argsort empty (x ∘ p)).get k = (averageRank argsort empty x).get (p k)) ∧
    ∀ f : α → β, StrictMono f →
      averageRank argsort' empty (f ∘ x) = averageRank argsort empty x := by
  refine ⟨get_averageRank argsort empty x, ?_, ?_⟩
  · intro p k
    rw [get_averageRank, get_averageRank, MidRank.midRank_comp_equiv]
  · intro f hf
    ext k
    rw [get_averageRank, get_averageRank, MidRank.midRank_comp_strictMono hf]

/-- The threes are second and third, and stay so when every entry is doubled. -/
theorem doubled_ranks :
    (averageRank (Argsort.sort ℤ) ⟨fun _ => 0⟩ ((fun z => 2 * z) ∘ ![3, 1, 3])).get 0 = 3 / 2 := by
  obtain ⟨hrank, -, hmono⟩ :=
    average_rank_correct (Argsort.sort ℤ) (Argsort.sort ℤ) ⟨fun _ => 0⟩ ![3, 1, 3]
  rw [hmono _ (fun a b hab => by simpa using hab), hrank]
  decide +kernel

end MarketEngine
