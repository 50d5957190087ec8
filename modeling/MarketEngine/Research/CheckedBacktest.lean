import MarketEngine.Research.Execution

/-! # The checked backtester

The backtester with every operation on `int64_t` checked. It answers what the wrapping
one does, and it answers exactly if the fills of a call and the change of the
commitment stay in range.
-/

namespace MarketEngine.Research

open SignedWord

variable {F : Type} [Double F] {c : Capacity}

/-! ## What fills add up to -/

/-- The units that a fill adds to the position. -/
def Fill.units (fill : Fill) : ℤ := signedUnits fill.quantity fill.side

/-- What a fill takes off the cash. -/
def Fill.cost (fill : Fill) : ℤ := fill.units * fill.price.toInt

def netUnits (fills : List Fill) : ℤ := (fills.map Fill.units).sum

def netCost (fills : List Fill) : ℤ := (fills.map Fill.cost).sum

@[simp] theorem netUnits_nil : netUnits [] = 0 := rfl

@[simp] theorem netCost_nil : netCost [] = 0 := rfl

@[simp] theorem netUnits_cons (fill : Fill) (fills : List Fill) :
    netUnits (fill :: fills) = fill.units + netUnits fills :=
  List.sum_cons

@[simp] theorem netCost_cons (fill : Fill) (fills : List Fill) :
    netCost (fill :: fills) = fill.cost + netCost fills :=
  List.sum_cons

theorem netUnits_append (fills fills' : List Fill) :
    netUnits (fills ++ fills') = netUnits fills + netUnits fills' := by
  simp [netUnits]

theorem netCost_append (fills fills' : List Fill) :
    netCost (fills ++ fills') = netCost fills + netCost fills' := by
  simp [netCost]

/-- Booked one after the other on an exact position and cash, the fills stay in range. -/
def FillsFit : ℤ → ℤ → List Fill → Prop
  | _, _, [] => True
  | position, cashTicks, fill :: fills =>
    (Fits (position + fill.units) ∧ Fits (fill.price.toInt * fill.quantity.toNat) ∧
      Fits (cashTicks - fill.cost)) ∧
    FillsFit (position + fill.units) (cashTicks - fill.cost) fills

instance decidableFillsFit : ∀ (position cashTicks : ℤ) (fills : List Fill),
    Decidable (FillsFit position cashTicks fills)
  | _, _, [] => isTrue trivial
  | position, cashTicks, fill :: fills =>
    haveI := decidableFillsFit (position + fill.units) (cashTicks - fill.cost) fills
    inferInstanceAs (Decidable (_ ∧ _))

theorem fillsFit_append {position cashTicks : ℤ} {fills fills' : List Fill} :
    FillsFit position cashTicks (fills ++ fills') ↔ FillsFit position cashTicks fills ∧
      FillsFit (position + netUnits fills) (cashTicks - netCost fills) fills' := by
  induction fills generalizing position cashTicks with
  | nil => simp [FillsFit]
  | cons fill fills ih =>
    simp only [List.cons_append, FillsFit, ih, netUnits_cons, netCost_cons, add_assoc, sub_sub,
      and_assoc]

namespace Backtester

variable {s s' : Backtester F c} {order : Pending} {orders rest : List Pending} {nowNs : UInt64}
  {event : MarketDataEvent}

/-! ## The source with checked arithmetic -/

/-- A quantity that is positive as an `int64_t`. -/
def Small (orders : List Pending) : Prop := ∀ order ∈ orders, order.quantity.toNat < 2 ^ 63

/-- The fills of some orders that meet a book. -/
def fillsAt (b : OrderBook c) (orders : List Pending) : List Fill := orders.filterMap (outcome b)

theorem fillsAt_cons (b : OrderBook c) (order : Pending) (orders : List Pending) :
    fillsAt b (order :: orders) = fillsAt b [order] ++ fillsAt b orders := by
  simp only [fillsAt, ← List.filterMap_append, List.singleton_append]

/-- The exact position and cash have room for some fills. -/
def Affords (s : Backtester F c) (fills : List Fill) : Prop :=
  FillsFit s.position.toInt s.cashTicks.toInt fills

instance (s : Backtester F c) (fills : List Fill) : Decidable (s.Affords fills) :=
  inferInstanceAs (Decidable (FillsFit _ _ _))

theorem fillsAt_of_none (htouch : s.book.touch order.side = none) :
    fillsAt s.book [order] = [] := by
  simp [fillsAt, outcome, htouch]

theorem fillsAt_of_some {level : LevelView} (htouch : s.book.touch order.side = some level) :
    fillsAt s.book [order] = [⟨order.arrivalNs, order.side, level.priceTicks, order.quantity⟩] := by
  simp [fillsAt, outcome, htouch]

/-- What an execution books, as exact integers. -/
theorem executeCrossing_toInt {side : Side} {quantity : Quantity}
    (hfits : s.Affords (fillsAt s.book [⟨nowNs, side, quantity⟩])) :
    (s.executeCrossing side quantity nowNs).position.toInt =
        s.position.toInt + netUnits (fillsAt s.book [⟨nowNs, side, quantity⟩]) ∧
      (s.executeCrossing side quantity nowNs).cashTicks.toInt =
        s.cashTicks.toInt - netCost (fillsAt s.book [⟨nowNs, side, quantity⟩]) := by
  rcases s.execute_cases ⟨nowNs, side, quantity⟩ with ⟨htouch, heq⟩ | ⟨level, htouch, heq⟩
  · rw [execute] at heq
    rw [fillsAt_of_none htouch, heq]
    simp
  · rw [execute] at heq
    rw [fillsAt_of_some htouch] at hfits ⊢
    obtain ⟨⟨hposition, -, hcash⟩, -⟩ := hfits
    have hexact : s.cashTicks - level.priceTicks * Int64.ofInt (signedUnits quantity side) =
        Int64.ofInt (s.cashTicks.toInt - signedUnits quantity side * level.priceTicks.toInt) := by
      rw [Int64.ofInt_sub, Int64.ofInt_mul, Int64.ofInt_toInt, Int64.ofInt_toInt, Int64.mul_comm]
    rw [heq, netUnits_cons, netCost_cons, netUnits_nil, netCost_nil, add_zero, add_zero]
    exact ⟨toInt_add_ofInt hposition.1 hposition.2, by rw [hexact]; exact toInt_ofInt hcash⟩

/-- The strategy is given this top of the book. -/
def Samples (s : Backtester F c) (l1 : L1Row) : Prop :=
  l1.twoSided = true ∧ (s.haveL1 = true → l1Changed s.prevL1 l1 = true)

/-- The signal that the strategy answers with. -/
def answer (s : Backtester F c) (l1 : L1Row) : Signal := s.strategy.target l1 s.currentSignal

/-- The exact units that the strategy wants. -/
def aim (s : Backtester F c) (l1 : L1Row) : ℤ :=
  (s.answer l1).toInt64.toInt * s.config.orderSize.toInt64.toInt

/-- The exact units that are missing. -/
def change (s : Backtester F c) (l1 : L1Row) : ℤ := s.aim l1 - s.committedUnits.toInt

/-- An order is decided on. -/
def Orders (s : Backtester F c) (l1 : L1Row) : Prop :=
  s.Samples l1 ∧ (s.haveL1 = true ∨ s.answer l1 ≠ .flat) ∧ s.change l1 ≠ 0

/-- What the strategy wants, and what is missing of it, is in range. -/
def DecisionFits (s : Backtester F c) (l1 : L1Row) : Prop :=
  (s.Samples l1 → Fits (s.aim l1)) ∧ (s.Orders l1 → (s.change l1).natAbs < 2 ^ 63)

instance (s : Backtester F c) (l1 : L1Row) : Decidable (s.Samples l1) :=
  inferInstanceAs (Decidable (_ ∧ _))

instance (s : Backtester F c) (l1 : L1Row) : Decidable (s.Orders l1) :=
  inferInstanceAs (Decidable (_ ∧ _))

instance (s : Backtester F c) (l1 : L1Row) : Decidable (s.DecisionFits l1) :=
  inferInstanceAs (Decidable (_ ∧ _))

variable {l1 : L1Row}

theorem decisionFits_iff (h : s.Samples l1) : s.DecisionFits l1 ↔
    Fits (s.aim l1) ∧ (s.Orders l1 → (s.change l1).natAbs < 2 ^ 63) :=
  ⟨fun hfits => ⟨hfits.1 h, hfits.2⟩, fun hfits => ⟨fun _ => hfits.1, hfits.2⟩⟩

/-- The units wanted as an `int64_t`. -/
def targetUnits (s : Backtester F c) (l1 : L1Row) : Int64 :=
  (s.answer l1).toInt64 * s.config.orderSize.toInt64

theorem toInt_targetUnits (h : Fits (s.aim l1)) : (s.targetUnits l1).toInt = s.aim l1 :=
  toInt_mul h

theorem change_eq_zero_iff (h : Fits (s.aim l1)) :
    s.change l1 = 0 ↔ s.targetUnits l1 = s.committedUnits := by
  rw [change, ← toInt_targetUnits h, sub_eq_zero, Int64.toInt_inj]

/-- The difference is in range, and so is its absolute value. -/
theorem natAbs_change_lt (h : Fits (s.aim l1)) : (s.change l1).natAbs < 2 ^ 63 ↔
    Fits ((s.targetUnits l1).toInt - s.committedUnits.toInt) ∧
      -2 ^ 63 < (s.targetUnits l1 - s.committedUnits).toInt := by
  rw [toInt_targetUnits h]
  constructor
  · intro hlt
    have hfits : Fits (s.aim l1 - s.committedUnits.toInt) := by
      unfold change at hlt
      unfold Fits
      omega
    refine ⟨hfits, ?_⟩
    rw [← toInt_targetUnits h] at hfits
    rw [toInt_sub hfits.1 hfits.2, toInt_targetUnits h]
    unfold change at hlt
    omega
  · rintro ⟨hfits, hmin⟩
    have hsub := hfits
    rw [← toInt_targetUnits h] at hsub
    rw [toInt_sub hsub.1 hsub.2, toInt_targetUnits h] at hmin
    unfold Fits at hfits
    unfold change
    omega

/-- The sample does not change the signal in force. -/
theorem target_sampled (s : Backtester F c) (l1 : L1Row) (l1Updates : ℕ) :
    s.strategy.target l1 { s with prevL1 := l1, haveL1 := true, l1Updates }.currentSignal =
      s.answer l1 :=
  rfl

/-- Past its first two tests, a call gives the top to the strategy. -/
theorem samples_of_tests (hone : ¬ (!l1.twoSided) = true)
    (hsame : ¬ (s.haveL1 && !l1Changed s.prevL1 l1) = true) : s.Samples l1 := by
  simp_all [Samples]

/-- Past the other two, it decides on an order. -/
theorem orders_of_tests (hsamples : s.Samples l1) (hfits : Fits (s.aim l1))
    (hflat : ¬ (!s.haveL1 && decide (s.answer l1 = .flat)) = true)
    (hkept : s.targetUnits l1 ≠ s.committedUnits) : s.Orders l1 := by
  refine ⟨hsamples, ?_, mt (change_eq_zero_iff hfits).mp hkept⟩
  simp_all [or_iff_not_imp_left]

end Backtester

end MarketEngine.Research
