import Mathlib.Order.Lattice
import Mathlib.Tactic.Common

/-! # Indexed binary heaps

A heap is an array of items with a back-pointer from each item to its position.
A parent ranks at or before its children. The sifting rules say what one exchange
does to a heap that is ordered except around one position, the hole.
-/

namespace IndexHeap

variable {ι α : Type*} [LinearOrder α]

/-- The pair of `i` and its parent is in order. -/
def InOrder (rank : ι → α) (at' : ℕ → ι) (i : ℕ) : Prop :=
  rank (at' ((i - 1) / 2)) ≤ rank (at' i)

def Ordered (rank : ι → α) (at' : ℕ → ι) (n : ℕ) : Prop :=
  ∀ i, 0 < i → i < n → InOrder rank at' i

/-- The children of the hole rank at or after the hole's parent. -/
def Grand (rank : ι → α) (at' : ℕ → ι) (n hole : ℕ) : Prop :=
  0 < hole → ∀ i, 0 < i → i < n → (i - 1) / 2 = hole → rank (at' ((hole - 1) / 2)) ≤ rank (at' i)

/-- Ordered but for the hole and its parent. -/
structure UpHole (rank : ι → α) (at' : ℕ → ι) (n hole : ℕ) : Prop where
  except : ∀ i, 0 < i → i < n → i ≠ hole → InOrder rank at' i
  grand : Grand rank at' n hole

/-- Ordered but for the hole and its children. -/
structure DownHole (rank : ι → α) (at' : ℕ → ι) (n hole : ℕ) : Prop where
  except : ∀ i, 0 < i → i < n → (i - 1) / 2 ≠ hole → InOrder rank at' i
  grand : Grand rank at' n hole

/-- Ordered but for every pair that touches the hole. -/
structure Hole (rank : ι → α) (at' : ℕ → ι) (n hole : ℕ) : Prop where
  except : ∀ i, 0 < i → i < n → i ≠ hole → (i - 1) / 2 ≠ hole → InOrder rank at' i
  grand : Grand rank at' n hole

/-- `next` is `prev` with the items at two positions exchanged. -/
def Swapped (prev next : ℕ → ι) (n i j : ℕ) : Prop :=
  ∀ k < n, next k = if k = i then prev j else if k = j then prev i else prev k

variable {rank : ι → α} {at' next : ℕ → ι} {n hole : ℕ}

theorem Ordered.root_le (h : Ordered rank at' n) {i : ℕ} (hi : i < n) :
    rank (at' 0) ≤ rank (at' i) := by
  induction i using Nat.strongRecOn with
  | ind i ih =>
    rcases Nat.eq_zero_or_pos i with rfl | hpos
    · exact le_rfl
    · exact (ih ((i - 1) / 2) (by omega) (by omega)).trans (h i hpos hi)

/-! ## Sifting up -/

theorem UpHole.stop (h : UpHole rank at' n hole)
    (hs : 0 < hole → rank (at' ((hole - 1) / 2)) ≤ rank (at' hole)) : Ordered rank at' n := by
  intro i hpos hi
  by_cases he : i = hole
  · subst he
    exact hs hpos
  · exact h.except i hpos hi he

theorem UpHole.swap (h : UpHole rank at' n hole) (hpos : 0 < hole) (hn : hole < n)
    (hlt : rank (at' hole) < rank (at' ((hole - 1) / 2)))
    (hs : Swapped at' next n hole ((hole - 1) / 2)) : UpHole rank next n ((hole - 1) / 2) := by
  have hh : next hole = at' ((hole - 1) / 2) := by simp [hs hole hn]
  have hp : next ((hole - 1) / 2) = at' hole := by
    rw [hs _ (by omega), if_neg (by omega), if_pos rfl]
  have ho : ∀ k < n, k ≠ hole → k ≠ (hole - 1) / 2 → next k = at' k := by
    intro k hk h1 h2
    rw [hs k hk, if_neg h1, if_neg h2]
  constructor
  · intro i hi hin hne
    unfold InOrder
    by_cases h1 : i = hole
    · subst h1
      rw [hh, hp]
      exact hlt.le
    · rw [ho i hin h1 hne]
      by_cases h2 : (i - 1) / 2 = hole
      · rw [h2, hh]
        exact h.grand hpos i hi hin h2
      · by_cases h3 : (i - 1) / 2 = (hole - 1) / 2
        · rw [h3, hp]
          have := h.except i hi hin h1
          rw [InOrder, h3] at this
          exact hlt.le.trans this
        · rw [ho _ (by omega) h2 h3]
          exact h.except i hi hin h1
  · intro hp0 i hi hin hip
    have hup := h.except ((hole - 1) / 2) hp0 (by omega) (by omega)
    rw [ho (((hole - 1) / 2 - 1) / 2) (by omega) (by omega) (by omega)]
    by_cases h1 : i = hole
    · subst h1
      rw [hh]
      exact hup
    · rw [ho i hin h1 (by omega)]
      have := h.except i hi hin h1
      rw [InOrder, hip] at this
      exact le_trans hup this

/-! ## Sifting down -/

theorem DownHole.stop (h : DownHole rank at' n hole)
    (hs : ∀ i, 0 < i → i < n → (i - 1) / 2 = hole → rank (at' hole) ≤ rank (at' i)) :
    Ordered rank at' n := by
  intro i hpos hi
  by_cases he : (i - 1) / 2 = hole
  · rw [InOrder, he]
    exact hs i hpos hi he
  · exact h.except i hpos hi he

theorem DownHole.swap {best : ℕ} (h : DownHole rank at' n hole) (hpos : 0 < best) (hn : best < n)
    (hb : (best - 1) / 2 = hole) (hlt : rank (at' best) < rank (at' hole))
    (hmin : ∀ i, 0 < i → i < n → (i - 1) / 2 = hole → rank (at' best) ≤ rank (at' i))
    (hs : Swapped at' next n hole best) : DownHole rank next n best := by
  have hh : next hole = at' best := by simp [hs hole (by omega)]
  have hp : next best = at' hole := by rw [hs _ hn, if_neg (by omega), if_pos rfl]
  have ho : ∀ k < n, k ≠ hole → k ≠ best → next k = at' k := by
    intro k hk h1 h2
    rw [hs k hk, if_neg h1, if_neg h2]
  constructor
  · intro i hi hin hne
    unfold InOrder
    by_cases h1 : (i - 1) / 2 = hole
    · rw [h1, hh]
      by_cases h2 : i = best
      · rw [h2, hp]
        exact hlt.le
      · rw [ho i hin (by omega) h2]
        exact hmin i hi hin h1
    · rw [ho _ (by omega) h1 hne]
      by_cases h2 : i = hole
      · subst h2
        rw [hh]
        exact h.grand hi best hpos hn hb
      · rw [ho i hin h2 (by omega)]
        exact h.except i hi hin h1
  · intro _ i hi hin hip
    have := h.except i hi hin (by omega)
    rw [hb, hh, ho i hin (by omega) (by omega)]
    rwa [InOrder, hip] at this

/-! ## Refilling a hole -/

/-- An item no better than the hole's parent can only move down. -/
theorem Hole.down (h : Hole rank at' n hole)
    (hp : 0 < hole → rank (at' ((hole - 1) / 2)) ≤ rank (at' hole)) :
    DownHole rank at' n hole where
  except i hpos hi hne := by
    by_cases he : i = hole
    · subst he
      exact hp hpos
    · exact h.except i hpos hi he hne
  grand := h.grand

/-- An item better than the hole's parent is better than the hole's children too. -/
theorem Hole.le_child (h : Hole rank at' n hole) (hpos : 0 < hole)
    (hp : rank (at' hole) < rank (at' ((hole - 1) / 2))) :
    ∀ i, 0 < i → i < n → (i - 1) / 2 = hole → rank (at' hole) ≤ rank (at' i) :=
  fun i hi hin hip => hp.le.trans (h.grand hpos i hi hin hip)

theorem Hole.up (h : Hole rank at' n hole) (hpos : 0 < hole)
    (hp : rank (at' hole) < rank (at' ((hole - 1) / 2))) : UpHole rank at' n hole where
  except i hi hin hne := by
    by_cases he : (i - 1) / 2 = hole
    · rw [InOrder, he]
      exact h.le_child hpos hp i hi hin he
    · exact h.except i hi hin hne he
  grand := h.grand

/-- Overwriting one position leaves a hole there. -/
theorem Ordered.overwrite (h : Ordered rank at' n) (hn : hole < n) {x : ι} {k : ℕ} (hk : k ≤ n)
    (hs : ∀ i < k, next i = if i = hole then x else at' i) : Hole rank next k hole where
  except i hi hik hne hpe := by
    rw [InOrder, hs i hik, if_neg hne, hs _ (by omega), if_neg hpe]
    exact h i hi (by omega)
  grand hpos i hi hik hip := by
    rw [hs i hik, if_neg (by omega), hs _ (by omega), if_neg (by omega)]
    have hup := h hole hpos hn
    have := h i hi (by omega)
    rw [InOrder, hip] at this
    exact le_trans hup this

/-- A new last item leaves a hole at its own position. -/
theorem Ordered.upHole (h : Ordered rank at' n) (hs : ∀ i < n, next i = at' i) :
    UpHole rank next (n + 1) n where
  except i hi hin hne := by
    rw [InOrder, hs i (by omega), hs _ (by omega)]
    exact h i hi (by omega)
  grand hpos i hi hin hip := by omega

/-! ## Back-pointers -/

/-- The first `n` positions hold exactly the items of `S`, each pointing back at its own. -/
structure Placed (at' : ℕ → ι) (pos : ι → ℕ) (n : ℕ) (S : ι → Prop) : Prop where
  mem : ∀ i < n, S (at' i)
  pos_at : ∀ i < n, pos (at' i) = i
  pos_lt : ∀ x, S x → pos x < n
  at_pos : ∀ x, S x → at' (pos x) = x

variable {pos pos' : ι → ℕ} {S S' : ι → Prop}

theorem Placed.at_inj (h : Placed at' pos n S) {i j : ℕ} (hi : i < n) (hj : j < n)
    (he : at' i = at' j) : i = j := by
  rw [← h.pos_at i hi, ← h.pos_at j hj, he]

/-- Only the back-pointers of the items in the heap matter. -/
theorem Placed.congr_pos (h : Placed at' pos n S) (hp : ∀ x, S x → pos' x = pos x) :
    Placed at' pos' n S where
  mem := h.mem
  pos_at i hi := by rw [hp _ (h.mem i hi), h.pos_at i hi]
  pos_lt x hx := by rw [hp x hx]; exact h.pos_lt x hx
  at_pos x hx := by rw [hp x hx, h.at_pos x hx]

theorem Placed.swap {i j : ℕ} (h : Placed at' pos n S) (hi : i < n) (hj : j < n)
    (hs : Swapped at' next n i j) (hi' : pos' (at' i) = j) (hj' : pos' (at' j) = i)
    (ho : ∀ x, x ≠ at' i → x ≠ at' j → pos' x = pos x) : Placed next pos' n S where
  mem k hk := by
    rw [hs k hk]
    split_ifs
    · exact h.mem j hj
    · exact h.mem i hi
    · exact h.mem k hk
  pos_at k hk := by
    rw [hs k hk]
    split_ifs with h1 h2
    · rw [hj', h1]
    · rw [hi', h2]
    · rw [ho, h.pos_at k hk]
      · exact fun he => h1 (h.at_inj hk hi he)
      · exact fun he => h2 (h.at_inj hk hj he)
  pos_lt x hx := by
    by_cases h1 : x = at' i
    · rw [h1, hi']; exact hj
    · by_cases h2 : x = at' j
      · rw [h2, hj']; exact hi
      · rw [ho x h1 h2]; exact h.pos_lt x hx
  at_pos x hx := by
    by_cases h1 : x = at' i
    · rw [h1, hi', hs j hj, if_pos rfl]
      split_ifs with h2
      · rw [h2]
      · rfl
    · by_cases h2 : x = at' j
      · rw [h2, hj', hs i hi, if_pos rfl]
      · rw [ho x h1 h2, hs _ (h.pos_lt x hx), if_neg, if_neg, h.at_pos x hx]
        · rintro he
          exact h2 (he ▸ (h.at_pos x hx).symm)
        · rintro he
          exact h1 (he ▸ (h.at_pos x hx).symm)

theorem Placed.push {x : ι} (h : Placed at' pos n S) (hx : ¬ S x)
    (hS : ∀ y, S' y ↔ y = x ∨ S y) (hat : ∀ i < n, next i = at' i) (hn : next n = x)
    (hpx : pos' x = n) (ho : ∀ y, y ≠ x → pos' y = pos y) : Placed next pos' (n + 1) S' where
  mem i hi := by
    rw [hS]
    rcases Nat.lt_succ_iff_lt_or_eq.mp hi with hi | rfl
    · exact .inr (hat i hi ▸ h.mem i hi)
    · exact .inl hn
  pos_at i hi := by
    rcases Nat.lt_succ_iff_lt_or_eq.mp hi with hi | rfl
    · rw [hat i hi, ho, h.pos_at i hi]
      rintro rfl
      exact hx (h.mem i hi)
    · rw [hn, hpx]
  pos_lt y hy := by
    by_cases he : y = x
    · rw [he, hpx]; omega
    · rw [ho y he]
      exact Nat.lt_succ_of_lt (h.pos_lt y (((hS y).mp hy).resolve_left he))
  at_pos y hy := by
    by_cases he : y = x
    · rw [he, hpx, hn]
    · have hy' := ((hS y).mp hy).resolve_left he
      rw [ho y he, hat _ (h.pos_lt y hy'), h.at_pos y hy']

/-- Dropping the item at the last position. -/
theorem Placed.pop {x : ι} (h : Placed at' pos (n + 1) S) (hx : pos x = n) (hSx : S x)
    (hS : ∀ y, S' y ↔ y ≠ x ∧ S y) (ho : ∀ y, y ≠ x → pos' y = pos y) :
    Placed at' pos' n S' := by
  have hxn : at' n = x := hx ▸ h.at_pos x hSx
  have hne : ∀ i < n, at' i ≠ x := by
    intro i hi he
    have := h.at_inj (by omega) (by omega) (he.trans hxn.symm)
    omega
  constructor
  · exact fun i hi => (hS _).mpr ⟨hne i hi, h.mem i (by omega)⟩
  · exact fun i hi => by rw [ho _ (hne i hi), h.pos_at i (by omega)]
  · intro y hy
    obtain ⟨hyx, hy⟩ := (hS y).mp hy
    have h1 := h.pos_lt y hy
    have h2 : pos y ≠ n := by
      rintro he
      exact hyx (by rw [← h.at_pos y hy, he, hxn])
    rw [ho y hyx]
    omega
  · intro y hy
    obtain ⟨hyx, hy⟩ := (hS y).mp hy
    rw [ho y hyx, h.at_pos y hy]

/-- Moving the last item into the place of a dropped one. -/
theorem Placed.refill {x : ι} {p : ℕ} (h : Placed at' pos (n + 1) S) (hx : pos x = p)
    (hpn : p < n) (hSx : S x) (hS : ∀ y, S' y ↔ y ≠ x ∧ S y)
    (hat : ∀ i < n, next i = if i = p then at' n else at' i) (hlast : pos' (at' n) = p)
    (ho : ∀ y, y ≠ x → y ≠ at' n → pos' y = pos y) : Placed next pos' n S' := by
  have hxp : at' p = x := hx ▸ h.at_pos x hSx
  have hne : ∀ i < n + 1, i ≠ p → at' i ≠ x := by
    intro i hi hip he
    exact hip (h.at_inj hi (by omega) (he.trans hxp.symm))
  constructor
  · intro i hi
    rw [hat i hi, hS]
    split_ifs with h1
    · exact ⟨hne n (by omega) (by omega), h.mem n (by omega)⟩
    · exact ⟨hne i (by omega) h1, h.mem i (by omega)⟩
  · intro i hi
    rw [hat i hi]
    split_ifs with h1
    · rw [hlast, h1]
    · rw [ho _ (hne i (by omega) h1), h.pos_at i (by omega)]
      intro he
      have := h.at_inj (by omega) (by omega) he
      omega
  · intro y hy
    obtain ⟨hyx, hy⟩ := (hS y).mp hy
    by_cases he : y = at' n
    · rw [he, hlast]; exact hpn
    · have h1 := h.pos_lt y hy
      have h2 : pos y ≠ n := fun h2 => he (h2 ▸ (h.at_pos y hy).symm)
      rw [ho y hyx he]
      omega
  · intro y hy
    obtain ⟨hyx, hy⟩ := (hS y).mp hy
    by_cases he : y = at' n
    · rw [he, hlast, hat p hpn, if_pos rfl]
    · have h1 := h.pos_lt y hy
      have h2 : pos y ≠ n := fun h2 => he (h2 ▸ (h.at_pos y hy).symm)
      rw [ho y hyx he, hat _ (by omega), if_neg, h.at_pos y hy]
      intro h3
      exact hyx (by rw [← h.at_pos y hy, h3, hxp])

end IndexHeap
