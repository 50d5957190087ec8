import MarketEngine.Book.Opening

/-! # When the priority counter wraps

The priority counter starts again at zero after `2 ^ 64` insertions, and a book
of two slots gets there: an order that comes and goes keeps reusing one slot of
the level index. An order that rests before the counter wraps then has a greater
priority than one that rests after it.
-/

namespace MarketEngine

open ProbeTable Transition

variable {c : Capacity} {b : OrderBook c} {side : Side} {price : Price}

namespace OrderBook

/-! ## Empty slots that stay empty -/

theorem insertLevelLookup_empty {slot : Fin (tableSize c)}
    (hslot : b.levelLookup.get slot = .empty)
    (hfree : Free b.levelLookup (levelHome c ⟨side, price⟩))
    (hne : slot ≠ levelHome c ⟨side, price⟩) (value : Index c) :
    (b.insertLevelLookup side price value).2.levelLookup.get slot = .empty := by
  unfold insertLevelLookup
  split
  · next d hd =>
    rw [destination_of_free hfree hd]
    exact (Pool.get_set_of_ne _ _ hne).trans hslot
  · exact hslot

theorem insertOrderLookup_levelLookup (b : OrderBook c) (id : OrderId) (value : Index c) :
    (b.insertOrderLookup id value).2.levelLookup = b.levelLookup := by
  unfold insertOrderLookup
  split <;> rfl

/-- A new level whose home slot is free leaves the other empty slots empty. -/
theorem acquireLevel_empty {slot : Fin (tableSize c)}
    (hslot : b.levelLookup.get slot = .empty)
    (hfree : Free b.levelLookup (levelHome c ⟨side, price⟩))
    (hne : slot ≠ levelHome c ⟨side, price⟩) :
    (b.acquireLevel side price).2.levelLookup.get slot = .empty := by
  unfold acquireLevel
  split
  · exact hslot
  · split
    · exact hslot
    · next index _ =>
      have hinsert :=
        insertLevelLookup_empty (b := b.takeLevelSlot index side price) hslot hfree hne index
      split
      · next heq => rwa [heq] at hinsert
      · next heq =>
        rw [heq] at hinsert
        rw [ladderPush, setLadder_levelLookup]
        exact hinsert

theorem restOrder_empty {slot : Fin (tableSize c)}
    (hslot : b.levelLookup.get slot = .empty)
    (hfree : Free b.levelLookup (levelHome c ⟨side, price⟩))
    (hne : slot ≠ levelHome c ⟨side, price⟩) (id : OrderId) (q : Quantity) :
    (b.restOrder id side price q).2.levelLookup.get slot = .empty := by
  have hacquire := acquireLevel_empty hslot hfree hne
  unfold restOrder
  split
  · exact hslot
  · split
    · exact hslot
    · split
      · exact hslot
      · next i _ =>
        split
        · next heq => rwa [heq] at hacquire
        · next ℓ b₁ heq =>
          rw [heq] at hacquire
          have hinsert := insertOrderLookup_levelLookup
            ((b₁.takeOrderSlot i id side price q ℓ).linkTail i ℓ) id i
          dsimp only
          split
          · next heq' =>
            rw [heq'] at hinsert
            apply (unlink_empty_iff _ _ _).mpr
            rw [hinsert]
            exact hacquire
          · next heq' =>
            rw [heq'] at hinsert
            exact (congrArg (·.get slot) hinsert).trans hacquire

theorem cancel_empty_iff (b : OrderBook c) (id : OrderId) (slot : Fin (tableSize c)) :
    (b.cancel id).2.levelLookup.get slot = .empty ↔ b.levelLookup.get slot = .empty := by
  unfold cancel
  split
  · rfl
  · exact unlink_empty_iff _ _ _

/-! ## Churn at one price -/

/-- An order to sell at the one price of the run. -/
def arrival (id : OrderId) : MarketDataEvent :=
  { type := .add, orderId := id, side := .sell, priceTicks := 10, quantity := 5 }

def departure : MarketDataEvent := { type := .cancel, orderId := 1 }

def churnHome : Fin (tableSize .two) := levelHome .two ⟨.sell, 10⟩

/-- Only the home of the one key is in use in the level index. -/
def Spared (b : OrderBook .two) : Prop :=
  ∀ slot, slot ≠ churnHome → b.levelLookup.get slot = .empty

/-- The empty book after `k` insertions. -/
def churned (k : ℕ) : PriceTimeBook := { capacity := 2, nextPriority := UInt64.ofNat k }

/-- The order with priority `k` rests. -/
def arrived (k : ℕ) : PriceTimeBook where
  capacity := 2
  resting := [⟨1, .sell, 10, 5, UInt64.ofNat k⟩]
  nextPriority := UInt64.ofNat (k + 1)

variable {b : OrderBook .two} {a : PriceTimeBook} {k : ℕ}

theorem Spared.not_refuses (hspared : Spared b) (h : Represents b a) (call : Call) :
    ¬ b.Refuses call := by
  rw [h.refuses_iff_blocks]
  rintro ⟨hfull, -⟩
  obtain ⟨slot, hslot⟩ : ∃ slot, slot ≠ churnHome := by decide +kernel
  exact hfull slot (hspared slot hslot)

/-- An empty book has no entry in its level index. -/
theorem Represents.free_of_empty (h : Represents b a) (hnil : a.resting = [])
    (slot : Fin (tableSize .two)) : Free b.levelLookup slot := by
  obtain ⟨l, fl, fo, h⟩ := h
  intro key ℓ hocc
  have hactive := ((h.wf.linked.levels.maps_iff key ℓ).mp ⟨slot, hocc⟩).1
  have hl := h.length_eq
  rw [hnil, List.length_nil] at hl
  apply h.wf.linked.nonempty ℓ hactive
  rw [List.eq_nil_of_length_eq_zero hl.symm]
  rfl

theorem ofNat_succ (k : ℕ) : UInt64.ofNat k + 1 = UInt64.ofNat (k + 1) := by
  rw [UInt64.ofNat_add]
  rfl

theorem Represents.arrive (h : Represents b (churned k)) (hspared : Spared b) :
    Represents (b.processEvent (arrival 1)).2 (arrived k) ∧
      Spared (b.processEvent (arrival 1)).2 := by
  have hrefused : b.eventRefused (arrival 1) = false :=
    Bool.eq_false_iff.mpr (hspared.not_refuses h (.event (arrival 1)))
  have hstep := (h.processEvent (arrival 1) (by simp [hrefused])).2
  rw [hrefused] at hstep
  refine ⟨?_, fun slot hslot => ?_⟩
  · rw [arrived, ← ofNat_succ]
    exact hstep
  · exact restOrder_empty (hspared slot hslot) (h.free_of_empty rfl _) hslot 1 5

theorem Represents.depart (h : Represents b (arrived k)) (hspared : Spared b) :
    Represents (b.processEvent departure).2 (churned (k + 1)) ∧
      Spared (b.processEvent departure).2 := by
  have hstep := (h.processEvent departure (by simp [departure])).2
  refine ⟨hstep, fun slot hslot => ?_⟩
  exact (cancel_empty_iff b 1 slot).mpr (hspared slot hslot)

/-- Any number of insertions is reached. -/
theorem exists_churned (k : ℕ) :
    ∃ calls b, KeepsKeys .two calls b ∧ Represents b (churned k) ∧ Spared b := by
  induction k with
  | zero =>
    exact ⟨[], fresh .two, .start, fresh_represents .two, fun _ _ => rfl⟩
  | succ k ih =>
    obtain ⟨calls, b, hrun, hrep, hspared⟩ := ih
    obtain ⟨hrep₁, hspared₁⟩ := hrep.arrive hspared
    obtain ⟨hrep₂, hspared₂⟩ := hrep₁.depart hspared₁
    have hrun₁ : KeepsKeys .two (calls ++ [.event (arrival 1)]) _ :=
      hrun.next ⟨hspared.not_refuses hrep _, rfl⟩
    have hrun₂ : KeepsKeys .two (calls ++ [.event (arrival 1)] ++ [.event departure]) _ :=
      hrun₁.next ⟨hspared₁.not_refuses hrep₁ _, rfl⟩
    exact ⟨_, _, hrun₂, hrep₂, hspared₂⟩

/-- Two orders at one price, the second one inserted after the counter has wrapped. -/
def wrapped : PriceTimeBook where
  capacity := 2
  resting := [⟨1, .sell, 10, 5, 18446744073709551615⟩, ⟨2, .sell, 10, 5, 0⟩]
  nextPriority := 1

/-- A run gets there. -/
theorem exists_wrapped : ∃ calls b, KeepsKeys .two calls b ∧ Represents b wrapped := by
  obtain ⟨calls, b, hrun, hrep, hspared⟩ := exists_churned (2 ^ 64 - 1)
  obtain ⟨hrep₁, hspared₁⟩ := hrep.arrive hspared
  have hrun₁ : KeepsKeys .two (calls ++ [.event (arrival 1)]) _ :=
    hrun.next ⟨hspared.not_refuses hrep _, rfl⟩
  have hnot := hspared₁.not_refuses hrep₁ (.event (arrival 2))
  have hrun₂ : KeepsKeys .two (calls ++ [.event (arrival 1)] ++ [.event (arrival 2)]) _ :=
    hrun₁.next ⟨hnot, rfl⟩
  have hstep := (hrep₁.processEvent (arrival 2) fun h => hnot h.2).2
  rw [Bool.eq_false_iff.mpr hnot] at hstep
  exact ⟨_, _, hrun₂, hstep⟩

end OrderBook

end MarketEngine
