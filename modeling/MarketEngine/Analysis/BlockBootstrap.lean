import Mathlib.Algebra.Field.Basic
import MarketEngine.Analysis.AverageRank

/-! # The block bootstrap of the rank correlation

`block_bootstrap_ic` draws the starts of blocks from the half-open range that
ends at the last start of a block. It therefore never draws that start, and no
resample has the last observation.
-/

namespace MarketEngine

variable {α F : Type} [LinearOrder α] [Field F] [DecidableEq F]

/-- What the script takes from numpy: the sort, what `np.empty` returns, the square root and the
percentiles. -/
structure Numpy (α F : Type) [LinearOrder α] where
  argsort : Argsort α
  empty : (n : ℕ) → Pool ℚ n
  sqrt : F → F
  percentile : List F → ℚ → F

/-- A generator of `np.random`: what a call of `integers` draws. -/
structure Rng where
  integers : (call lo hi size : ℕ) → List ℕ
  length_integers : ∀ call lo hi size, (integers call lo hi size).length = size
  mem_integers : ∀ call lo hi size, lo < hi → ∀ s ∈ integers call lo hi size, lo ≤ s ∧ s < hi

/-- The deviations of some ranks from their mean. -/
def centred (ranks : List ℚ) : List F :=
  let ranks := ranks.map fun r => (r : F)
  let mean := ranks.sum / ranks.length
  ranks.map fun r => r - mean

/-- Spearman rank correlation between feature and forward return; nan is none. -/
def rankIc (np : Numpy α F) (feature forward : List α) : Option F :=
  if feature.length < 3 then none
  else
    let fr : List F := centred (averageRank np.argsort (np.empty _) feature.get).toList
    let gr : List F := centred (averageRank np.argsort (np.empty _) forward.get).toList
    let product (x y : List F) := (List.zipWith (fun a b => a * b) x y).sum
    let denom := np.sqrt (product fr fr * product gr gr)
    if denom = 0 then none else some (product fr gr / denom)

namespace BlockBootstrap

/-- The starts of the blocks of one resample of `n` observations. -/
def starts (rng : Rng) (n block call : ℕ) : List ℕ := rng.integers call 0 (n - block) (n / block)

/-- The observations of one resample: block by block. -/
def indices (rng : Rng) (n block call : ℕ) : List ℕ :=
  (starts rng n block call).flatMap fun s => (List.range block).map fun i => s + i

/-- `x[idx]`, or none when an index is out of range. -/
def select {γ : Type} (x : List γ) (idx : List ℕ) : Option (List γ) := idx.mapM fun i => x[i]?

/-- The rank correlation of one resample. -/
def resampleIc (np : Numpy α F) (rng : Rng) (feature forward : List α) (block call : ℕ) :
    Option (Option F) := do
  let idx := indices rng feature.length block call
  let resampled ← select feature idx
  let forwarded ← select forward idx
  return rankIc np resampled forwarded

end BlockBootstrap

open BlockBootstrap

/-- The bounds of the rank correlation over the resamples, or nan. The outer none is an index that
is out of range. -/
def blockBootstrapIc (np : Numpy α F) (rng : Rng) (feature forward : List α)
    (samples block : ℕ) : Option (Option (F × F)) :=
  let n := feature.length
  if n < block * 2 then some none
  else do
    let ics ← (List.range samples).mapM (resampleIc np rng feature forward block)
    let ics := ics.reduceOption
    if ics.length = 0 then return none
    else return some (np.percentile ics (5 / 2), np.percentile ics (195 / 2))

namespace BlockBootstrap

variable {n block : ℕ}

/-- The windows are the blocks that start before the last start. -/
theorem mem_starts_lt (rng : Rng) (hblock : 1 ≤ block) (hn : 2 * block ≤ n) (call : ℕ) {s : ℕ}
    (hs : s ∈ starts rng n block call) : s + block < n := by
  obtain ⟨-, hlt⟩ := rng.mem_integers call 0 (n - block) (n / block) (by omega) s hs
  omega

/-- No index is out of range, and none is that of the last observation. -/
theorem mem_indices_lt (rng : Rng) (hblock : 1 ≤ block) (hn : 2 * block ≤ n) (call : ℕ) {i : ℕ}
    (hi : i ∈ indices rng n block call) : i + 1 < n := by
  obtain ⟨s, hs, hmem⟩ := List.mem_flatMap.mp hi
  obtain ⟨offset, hoffset, rfl⟩ := List.mem_map.mp hmem
  have hstart := mem_starts_lt rng hblock hn call hs
  have hlt := List.mem_range.mp hoffset
  omega

/-- A generator that draws one start where it can. -/
def constant (w : ℕ) : Rng where
  integers _ lo hi size := List.replicate size (if lo ≤ w ∧ w < hi then w else lo)
  length_integers _ _ _ _ := List.length_replicate
  mem_integers _ lo hi size h s hs := by
    rw [List.eq_of_mem_replicate hs]
    split_ifs with hw
    · exact hw
    · exact ⟨le_refl lo, h⟩

theorem mem_starts_constant {w : ℕ} (hblock : 1 ≤ block) (hw : w + block < n) :
    w ∈ starts (constant w) n block 0 := by
  have hblocks : n / block ≠ 0 := by
    rw [Nat.div_ne_zero_iff]
    omega
  have hrange : 0 ≤ w ∧ w < n - block := by omega
  simp only [starts, constant, if_pos hrange]
  exact List.mem_replicate.mpr ⟨hblocks, rfl⟩

theorem isSome_mapM {γ δ : Type} {f : γ → Option δ} {l : List γ}
    (h : ∀ a ∈ l, (f a).isSome) : (l.mapM f).isSome := by
  induction l with
  | nil => rfl
  | cons a l ih =>
    obtain ⟨b, hb⟩ := Option.isSome_iff_exists.mp (h a List.mem_cons_self)
    obtain ⟨bs, hbs⟩ := Option.isSome_iff_exists.mp
      (ih fun a' ha' => h a' (List.mem_cons_of_mem _ ha'))
    rw [List.mapM_cons, hb, hbs]
    rfl

theorem select_isSome {γ : Type} {x : List γ} {idx : List ℕ} (h : ∀ i ∈ idx, i < x.length) :
    (select x idx).isSome := by
  apply isSome_mapM
  intro i hi
  rw [List.getElem?_eq_getElem (h i hi)]
  rfl

/-- No resample of two series of one length reads out of range. -/
theorem blockBootstrapIc_isSome (np : Numpy α F) (rng : Rng) {feature forward : List α}
    (hlength : feature.length = forward.length) (samples : ℕ) (hblock : 1 ≤ block) :
    (blockBootstrapIc np rng feature forward samples block).isSome := by
  dsimp only [blockBootstrapIc]
  by_cases hshort : feature.length < block * 2
  · rw [if_pos hshort]
    rfl
  · have hresample (call : ℕ) : (resampleIc np rng feature forward block call).isSome := by
      have hrange : ∀ i ∈ indices rng feature.length block call, i < feature.length := by
        intro i hi
        have hlt := mem_indices_lt rng hblock (by omega) call hi
        omega
      obtain ⟨resampled, hresampled⟩ := Option.isSome_iff_exists.mp (select_isSome hrange)
      rw [hlength] at hrange
      obtain ⟨forwarded, hforwarded⟩ := Option.isSome_iff_exists.mp (select_isSome hrange)
      rw [← hlength] at hforwarded
      rw [resampleIc, hresampled, hforwarded]
      rfl
    obtain ⟨ics, hics⟩ := Option.isSome_iff_exists.mp
      (isSome_mapM (l := List.range samples) fun call _ => hresample call)
    rw [if_neg hshort, hics]
    change (if ics.reduceOption.length = 0 then _ else _ : Option (Option (F × F))).isSome = true
    split_ifs <;> rfl

/-- Every index of a resample is one of the series, and every window of it can be drawn. -/
def ResamplesWhole (n block : ℕ) : Prop :=
  (∀ (rng : Rng) (call : ℕ), ∀ i ∈ indices rng n block call, i < n) ∧
    ∀ w, w + block ≤ n → ∃ (rng : Rng) (call : ℕ), w ∈ starts rng n block call

/-- The last window is never drawn and the last observation is in no resample, but every window
before it can be drawn, and every index is in range. -/
theorem not_resamplesWhole (hblock : 1 ≤ block) (hn : 2 * block ≤ n) :
    ¬ResamplesWhole n block ∧
    (∀ (rng : Rng) (call : ℕ), ∀ i ∈ indices rng n block call, i + 1 < n) ∧
    ∀ w, (∃ (rng : Rng) (call : ℕ), w ∈ starts rng n block call) ↔ w + block < n := by
  refine ⟨?_, fun rng call i => mem_indices_lt rng hblock hn call, ?_⟩
  · rintro ⟨-, hcovers⟩
    obtain ⟨rng, call, hmem⟩ := hcovers (n - block) (by omega)
    have hlt := mem_starts_lt rng hblock hn call hmem
    omega
  · intro w
    constructor
    · rintro ⟨rng, call, hmem⟩
      exact mem_starts_lt rng hblock hn call hmem
    · intro hw
      exact ⟨constant w, 0, mem_starts_constant hblock hw⟩

/-- Of five observations in blocks of two, the third begins a block and the fourth does not. -/
theorem third_start_drawn :
    (∃ (rng : Rng) (call : ℕ), 2 ∈ starts rng 5 2 call) ∧
      ¬∃ (rng : Rng) (call : ℕ), 3 ∈ starts rng 5 2 call := by
  obtain ⟨-, -, hdrawn⟩ := not_resamplesWhole (n := 5) (by decide : 1 ≤ 2) (by decide)
  rw [hdrawn, hdrawn]
  decide

/-- Of two observations only the first is drawn. -/
theorem second_not_drawn : ¬ResamplesWhole 2 1 := by
  rintro ⟨-, hcovers⟩
  obtain ⟨rng, call, hmem⟩ := hcovers 1 (by decide)
  exact absurd (mem_starts_lt rng (by decide) (by decide) call hmem) (by decide)

end BlockBootstrap

end MarketEngine
