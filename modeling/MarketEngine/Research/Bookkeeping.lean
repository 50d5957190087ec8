import Mathlib.Algebra.Order.Group.Abs
import Mathlib.Algebra.Order.Group.Int
import Mathlib.Data.List.Infix
import MarketEngine.Research.Execution

/-! # Committed, filled and in flight

A decision commits its units when it is made. An order that finds no liquidity a
latency later is dropped without giving them back, and from then on the
commitment is off by what it was for. Where that does not happen the position
swings between the decisions and never exceeds one order.
-/

namespace MarketEngine.Research

open SignedWord

variable {F : Type} [Double F] {c : Capacity}

/-! ## Arithmetic of the ledger -/

/-- The side and quantity of a decision stand for the difference it is made for. -/
theorem signedUnits_eq_toInt {delta : Int64} (hmin : -2 ^ 63 < delta.toInt) :
    signedUnits delta.abs.toUInt64 (Backtester.sideOf delta) = delta.toInt := by
  have habs := toNat_abs hmin
  unfold Backtester.sideOf
  simp only [Int64.lt_iff_toInt_lt, Int64.toInt_zero]
  split_ifs with hpos <;> rw [signedUnits, habs] <;> omega

/-- In `int64_t` they do so even for the one difference without an absolute value. -/
theorem ofInt_signedUnits (delta : Int64) :
    Int64.ofInt (signedUnits delta.abs.toUInt64 (Backtester.sideOf delta)) = delta := by
  by_cases hmin : -2 ^ 63 < delta.toInt
  · rw [signedUnits_eq_toInt hmin, Int64.ofInt_toInt]
  · have heq : delta = Int64.minValue := by
      have hle := delta.le_toInt
      apply Int64.toInt_inj.mp
      rw [Int64.toInt_minValue]
      omega
    rw [heq]
    decide

/-- Between one order short and one order long. -/
def Within (size : Quantity) (position : ℤ) : Prop :=
  -size.toNat ≤ position ∧ position ≤ size.toNat

theorem within_target (signal : Signal) {size : Quantity} (h : size.toNat < 2 ^ 31) :
    Within size (signal.toInt64 * size.toInt64).toInt := by
  have hsize : size.toInt64.toInt = size.toNat := by
    rw [toInt64_eq_ofInt, Int64.toInt_ofInt_of_le] <;> omega
  unfold Within
  cases signal with
  | short =>
    have hneg : Signal.short.toInt64 * size.toInt64 = -size.toInt64 := by
      rw [Signal.toInt64]
      grind
    rw [hneg, toInt_neg] <;> omega
  | flat => simp [Signal.toInt64]
  | long =>
    have hone : Signal.long.toInt64 * size.toInt64 = size.toInt64 := by
      rw [Signal.toInt64]
      grind
    rw [hone, hsize]
    omega

namespace Backtester

variable {s : Backtester F c} {event : MarketDataEvent}

/-- The commitment is what is filled and what is in flight, and with nothing in flight the
position is at most one order. -/
structure Bookkept (s : Backtester F c) : Prop where
  committed : s.committedUnits.toInt = s.position.toInt + units s.pending
  bounded : s.pending = [] → |s.position.toInt| ≤ s.config.orderSize.toNat

/-- The units of the orders that arrive by an event and find the opposite side empty. -/
def missedUnits (s : Backtester F c) (event : MarketDataEvent) : Int64 :=
  if event.symbol = s.config.locate then
    Int64.ofInt (units (missed s.book (arrivedBy event.exchangeTimestampNs s.pending)))
  else 0

theorem execute_position (s : Backtester F c) (order : Pending)
    (h : ∃ level, s.book.touch order.side = some level) :
    (s.execute order).position =
      s.position + Int64.ofInt (signedUnits order.quantity order.side) := by
  obtain ⟨level, hlevel⟩ := h
  rcases s.execute_cases order with ⟨hnone, -⟩ | ⟨_, -, heq⟩
  · rw [hnone] at hlevel
    cases hlevel
  · rw [heq]

theorem advance_position (s : Backtester F c) (hsymbol : event.symbol = s.config.locate) :
    (s.advance event).position + s.missedUnits event = s.position +
      Int64.ofInt (units (arrivedBy event.exchangeTimestampNs s.pending)) := by
  rw [advance_eq, missedUnits, if_pos hsymbol]
  exact s.executeAll_position _

/-! ## One call loses what it misses -/

/-- How far the commitment is from what is filled and in flight. -/
def gap (s : Backtester F c) : Int64 :=
  s.committedUnits - s.position - Int64.ofInt (units s.pending)

theorem Decides.ofInt_signedUnits {target : Int64} {side : Side} {quantity : Quantity}
    (h : s.Decides target side quantity) :
    Int64.ofInt (signedUnits quantity side) = target - s.committedUnits := by
  rw [h.side_eq, h.quantity_eq, Research.ofInt_signedUnits]

theorem advance_gap (s : Backtester F c) (hsymbol : event.symbol = s.config.locate) :
    (s.advance event).gap = s.gap + s.missedUnits event := by
  have hposition := s.advance_position hsymbol
  have hunits : Int64.ofInt (units s.pending) =
      Int64.ofInt (units (arrivedBy event.exchangeTimestampNs s.pending)) +
        Int64.ofInt (units (notArrivedBy event.exchangeTimestampNs s.pending)) := by
    rw [← Int64.ofInt_add, ← units_append, arrivedBy_append_notArrivedBy]
  rw [gap, gap, advance_committedUnits, advance_pending, hunits]
  grind

theorem onEvent_gap (s : Backtester F c) (event : MarketDataEvent) :
    (s.onEvent event).gap = s.gap + s.missedUnits event := by
  rcases s.event_cases event with
    ⟨hsymbol, -, heq⟩ | ⟨l1, haveL1, l1Updates, hsymbol, -, heq⟩ |
      ⟨target, side, quantity, l1, l1Updates, hsymbol, hdecides, -, heq⟩ |
        ⟨target, side, quantity, l1, l1Updates, hsymbol, hdecides, -, -, heq⟩
  · rw [heq, missedUnits, if_neg hsymbol, Int64.add_zero]
  · rw [heq, ← s.advance_gap hsymbol, gap, gap, advance_committedUnits]
    rfl
  · have hunits := hdecides.ofInt_signedUnits
    have hframe := execute_tradesOnly ((s.advance event).sampled l1 true l1Updates target)
      ⟨event.exchangeTimestampNs, side, quantity⟩
    have hposition := execute_position ((s.advance event).sampled l1 true l1Updates target)
      ⟨event.exchangeTimestampNs, side, quantity⟩ hdecides.touch
    rw [heq, ← s.advance_gap hsymbol, gap, gap, hframe.committedUnits, hframe.pending, hposition]
    dsimp only [sampled]
    grind
  · have hunits := hdecides.ofInt_signedUnits
    rw [heq, ← s.advance_gap hsymbol, gap, gap]
    dsimp only [sampled, setPending]
    rw [units_append, Int64.ofInt_add, units_cons, units_nil, add_zero, hunits]
    grind

theorem Bookkept.gap_eq (h : s.Bookkept) : s.gap = 0 := by
  have hcommitted : s.committedUnits = s.position + Int64.ofInt (units s.pending) := by
    rw [← s.committedUnits.ofInt_toInt, h.committed, Int64.ofInt_add, Int64.ofInt_toInt]
  rw [gap, hcommitted]
  grind

/-! ## A call that misses nothing -/

/-- Whatever of the queue gets filled next, the position stays within one order. -/
structure Balanced (s : Backtester F c) : Prop where
  committed : s.committedUnits.toInt = s.position.toInt + units s.pending
  within : ∀ taken, taken <+: s.pending →
    Within s.config.orderSize (s.position.toInt + units taken)
  immediate : s.config.latencyNs = 0 → s.pending = []

theorem Balanced.committed_within (h : s.Balanced) :
    Within s.config.orderSize s.committedUnits.toInt := by
  rw [h.committed]
  exact h.within _ (List.prefix_refl _)

theorem Balanced.bookkept (h : s.Balanced) : s.Bookkept where
  committed := h.committed
  bounded _ := by
    have hwithin := h.within [] List.nil_prefix
    rw [units_nil, add_zero] at hwithin
    exact abs_le.mpr hwithin

theorem start_balanced (config : BacktestConfig F) : (start config c).Balanced where
  committed := rfl
  within taken htaken := by
    rw [List.prefix_nil.mp htaken, Within]
    dsimp only [start, units_nil]
    rw [Int64.toInt_zero]
    omega
  immediate _ := rfl

theorem Balanced.advance (h : s.Balanced) (hsize : s.config.orderSize.toNat < 2 ^ 31)
    (hsymbol : event.symbol = s.config.locate) (hmissed : s.missedUnits event = 0) :
    (s.advance event).Balanced := by
  have hsplit := arrivedBy_append_notArrivedBy event.exchangeTimestampNs s.pending
  have hwithin := h.within _ ⟨_, hsplit⟩
  have hposition := s.advance_position hsymbol
  rw [hmissed, Int64.add_zero] at hposition
  have htoInt : (s.advance event).position.toInt =
      s.position.toInt + units (arrivedBy event.exchangeTimestampNs s.pending) := by
    unfold Within at hwithin
    rw [hposition, toInt_add_ofInt] <;> omega
  refine ⟨?_, ?_, ?_⟩
  · have hcommitted := h.committed
    rw [← hsplit, units_append] at hcommitted
    rw [advance_committedUnits, htoInt, advance_pending, hcommitted, add_assoc]
  · intro taken htaken
    rw [advance_pending] at htaken
    rw [advance_config, htoInt, add_assoc, ← units_append]
    apply h.within
    have hprefix := (List.prefix_append_right_inj
      (arrivedBy event.exchangeTimestampNs s.pending)).mpr htaken
    rwa [hsplit] at hprefix
  · intro hlatency
    rw [advance_config] at hlatency
    rw [advance_pending, h.immediate hlatency]
    rfl

/-- The exact units of a decision. -/
theorem Balanced.signedUnits_eq (h : s.Balanced) (hsize : s.config.orderSize.toNat < 2 ^ 31)
    {target : Int64} {side : Side} {quantity : Quantity}
    (hdecides : s.Decides target side quantity) :
    Within s.config.orderSize target.toInt ∧
      target.toInt = s.committedUnits.toInt + signedUnits quantity side := by
  have hcommitted := h.committed_within
  have htarget : Within s.config.orderSize target.toInt := by
    obtain ⟨signal, rfl⟩ := hdecides.signal
    exact within_target signal hsize
  refine ⟨htarget, ?_⟩
  have hdelta : (target - s.committedUnits).toInt = target.toInt - s.committedUnits.toInt := by
    unfold Within at hcommitted htarget
    rw [toInt_sub] <;> omega
  have hunits : signedUnits quantity side = (target - s.committedUnits).toInt := by
    rw [hdecides.side_eq, hdecides.quantity_eq]
    apply signedUnits_eq_toInt
    unfold Within at hcommitted htarget
    omega
  omega

theorem Balanced.execute (h : s.Balanced) (hsize : s.config.orderSize.toNat < 2 ^ 31)
    {target : Int64} {side : Side} {quantity : Quantity} (hdecides : s.Decides target side quantity)
    (hlatency : s.config.latencyNs = 0) (l1 : L1Row) (l1Updates : ℕ) (nowNs : UInt64) :
    ((s.sampled l1 true l1Updates target).execute ⟨nowNs, side, quantity⟩).Balanced := by
  obtain ⟨hwithin, htarget⟩ := h.signedUnits_eq hsize hdecides
  have hnil := h.immediate hlatency
  have hcommitted := h.committed
  rw [hnil, units_nil, add_zero] at hcommitted
  have hframe := execute_tradesOnly (s.sampled l1 true l1Updates target) ⟨nowNs, side, quantity⟩
  have hposition := execute_position (s.sampled l1 true l1Updates target)
    ⟨nowNs, side, quantity⟩ hdecides.touch
  have htoInt : ((s.sampled l1 true l1Updates target).execute
      ⟨nowNs, side, quantity⟩).position.toInt = target.toInt := by
    unfold Within at hwithin
    rw [hposition]
    dsimp only [Backtester.sampled]
    rw [toInt_add_ofInt] <;> omega
  have hpending : ((s.sampled l1 true l1Updates target).execute
      ⟨nowNs, side, quantity⟩).pending = [] := hframe.pending.trans hnil
  refine ⟨?_, ?_, fun _ => hpending⟩
  · rw [hframe.committedUnits, htoInt, hpending, units_nil, add_zero]
    rfl
  · intro taken htaken
    rw [hpending] at htaken
    rw [List.prefix_nil.mp htaken, hframe.config, htoInt, units_nil, add_zero]
    exact hwithin

theorem Balanced.send (h : s.Balanced) (hsize : s.config.orderSize.toNat < 2 ^ 31)
    {target : Int64} {side : Side} {quantity : Quantity} (hdecides : s.Decides target side quantity)
    (hlatency : s.config.latencyNs ≠ 0) (l1 : L1Row) (l1Updates : ℕ) (arrivalNs : UInt64) :
    ((s.sampled l1 true l1Updates target).setPending
      (s.pending ++ [⟨arrivalNs, side, quantity⟩])).Balanced := by
  obtain ⟨hwithin, htarget⟩ := h.signedUnits_eq hsize hdecides
  have hall : target.toInt =
      s.position.toInt + units (s.pending ++ [⟨arrivalNs, side, quantity⟩]) := by
    rw [units_append, units_cons, units_nil, htarget, h.committed, add_zero, add_assoc]
  refine ⟨hall, ?_, fun hzero => absurd hzero hlatency⟩
  intro taken htaken
  rcases List.prefix_concat_iff.mp htaken with rfl | htaken
  · dsimp only [setPending, Backtester.sampled]
    rw [← hall]
    exact hwithin
  · exact h.within taken htaken

/-- A call that misses nothing keeps the books. -/
theorem Balanced.onEvent (h : s.Balanced) (hsize : s.config.orderSize.toNat < 2 ^ 31)
    (hmissed : s.missedUnits event = 0) : (s.onEvent event).Balanced := by
  have hsize' : (s.advance event).config.orderSize.toNat < 2 ^ 31 := by rwa [advance_config]
  have hconfig := s.advance_config event
  rcases s.event_cases event with
    ⟨hsymbol, -, heq⟩ | ⟨l1, haveL1, l1Updates, hsymbol, -, heq⟩ |
      ⟨target, side, quantity, l1, l1Updates, hsymbol, hdecides, hlatency, heq⟩ |
        ⟨target, side, quantity, l1, l1Updates, hsymbol, hdecides, hlatency, -, heq⟩ <;> rw [heq]
  · exact h
  · have hadvance := h.advance hsize hsymbol hmissed
    rw [← s.advance_committedUnits event]
    exact ⟨hadvance.committed, hadvance.within, hadvance.immediate⟩
  · exact (h.advance hsize hsymbol hmissed).execute hsize' hdecides (by rwa [hconfig]) _ _ _
  · exact (h.advance hsize hsymbol hmissed).send hsize' hdecides (by rwa [hconfig]) _ _ _

/-! ## Runs -/

theorem onEvents_take_succ (s : Backtester F c) (events : List MarketDataEvent) {n : ℕ}
    (h : n < events.length) :
    s.onEvents (events.take (n + 1)) = (s.onEvents (events.take n)).onEvent events[n] := by
  rw [← List.take_concat_get' events n h, onEvents_append]

/-- The books are kept after every call exactly if no call misses anything. -/
theorem bookkept_iff (config : BacktestConfig F)
    (hsize : config.orderSize.toNat < 2 ^ 31) (events : List MarketDataEvent) :
    (∀ n ≤ events.length, ((start config c).onEvents (events.take n)).Bookkept) ↔
      ∀ n, ∀ h : n < events.length,
        ((start config c).onEvents (events.take n)).missedUnits events[n] = 0 := by
  constructor
  · intro hkept n hn
    have hgap := ((start config c).onEvents (events.take n)).onEvent_gap events[n]
    rw [← onEvents_take_succ _ _ hn, (hkept (n + 1) hn).gap_eq, (hkept n hn.le).gap_eq] at hgap
    rw [← Int64.zero_add (Backtester.missedUnits _ _), ← hgap]
  · intro hmissed n hn
    have hbalanced : ((start config c).onEvents (events.take n)).Balanced := by
      induction n with
      | zero => exact start_balanced config
      | succ n ih =>
        rw [onEvents_take_succ _ _ hn]
        refine (ih (Nat.le_of_succ_le hn)).onEvent ?_ (hmissed n hn)
        rw [onEvents_config]
        exact hsize
    exact hbalanced.bookkept

/-- A latency of 100 and otherwise the defaults, in exact arithmetic. -/
def delayed : BacktestConfig ℚ := { latencyNs := 100 }

/-- A buy that is decided at 1000 arrives at 1100. -/
def delayedFill : List MarketDataEvent :=
  [{ orderId := 1, priceTicks := 100, quantity := 10, exchangeTimestampNs := 1000 },
    { orderId := 2, side := .sell, priceTicks := 101, quantity := 5, exchangeTimestampNs := 1000 },
    { orderId := 3, priceTicks := 100, quantity := 1, exchangeTimestampNs := 1050 },
    { type := .cancel, orderId := 4, exchangeTimestampNs := 1200 }]

theorem delayed_fill_bookkept : ((start delayed .three).onEvents (delayedFill.take 4)).Bookkept :=
  (bookkept_iff delayed (by decide) delayedFill).mpr (by decide +kernel) 4 (by decide)

/-- The only offer is gone before the buy arrives, and the next decision is to go short. -/
def vanishingAsk : List MarketDataEvent :=
  [{ orderId := 1, priceTicks := 100, quantity := 10, exchangeTimestampNs := 1000 },
    { orderId := 2, side := .sell, priceTicks := 101, quantity := 5, exchangeTimestampNs := 1000 },
    { type := .cancel, orderId := 2, exchangeTimestampNs := 1050 },
    { orderId := 3, side := .sell, priceTicks := 101, quantity := 95, exchangeTimestampNs := 1200 },
    { type := .cancel, orderId := 4, exchangeTimestampNs := 1400 }]

/-- With nothing in flight the position is two orders short and the commitment one. -/
theorem vanishing_ask_unbalanced :
    let s := (start delayed .two).onEvents vanishingAsk
    s.pending = [] ∧ s.committedUnits = -1 ∧ s.position = -2 ∧ ¬ s.Bookkept := by
  intro s
  have hpending : s.pending = [] := by decide +kernel
  have hposition : s.position = -2 := by decide +kernel
  refine ⟨hpending, by decide +kernel, hposition, fun hkept => ?_⟩
  have hbounded := hkept.bounded hpending
  rw [hposition] at hbounded
  exact absurd hbounded (by decide +kernel)

end Backtester

end MarketEngine.Research
