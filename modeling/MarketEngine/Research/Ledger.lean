import MarketEngine.Research.Bookkeeping
import MarketEngine.Research.CheckedBacktest

/-! # The fixed-point ledger

The position and the cash are what the fills add up to as long as nothing overflows,
and nothing guards against that. A call stays in range exactly if the change of the
commitment that it decides and the fills that it makes do.
-/

namespace MarketEngine.Research

open SignedWord

variable {F : Type} [Double F] {c : Capacity}

namespace Backtester

variable {s s' : Backtester F c} {orders : List Pending} {event : MarketDataEvent} {l1 : L1Row}
  {nowNs : UInt64}

/-! ## What a call does to the ledger -/

/-- The ledger is what the fills add up to. -/
structure Ledger (s : Backtester F c) : Prop where
  position : s.position.toInt = netUnits s.fills
  cashTicks : s.cashTicks.toInt = -netCost s.fills
  trades : s.trades = s.fills.length

/-- The order that a decision stands for. -/
def ordered (s : Backtester F c) (l1 : L1Row) (arrivalNs : UInt64) : Pending :=
  ⟨arrivalNs, if 0 < s.change l1 then .buy else .sell, .ofNat (s.change l1).natAbs⟩

/-- Without latency a decision is filled at once. -/
def immediateFills (s : Backtester F c) (b : OrderBook c) (l1 : L1Row) (nowNs : UInt64) :
    List Fill :=
  if s.Orders l1 ∧ s.config.latencyNs = 0 then fillsAt b [s.ordered l1 nowNs] else []

/-- The top of the book after an event. -/
def topAfter (s : Backtester F c) (event : MarketDataEvent) : L1Row :=
  l1Row event.sequence event.exchangeTimestampNs (s.book.processEvent event).2

/-- The fills of a call: of what has arrived at the book before the event, and of what is decided
on the book after it. -/
def callFills (s : Backtester F c) (event : MarketDataEvent) : List Fill :=
  fillsAt s.book (arrivedBy event.exchangeTimestampNs s.pending) ++
    s.immediateFills (s.book.processEvent event).2 (s.topAfter event) event.exchangeTimestampNs

/-- The decision and the fills of a call stay in range. -/
def CallFits (s : Backtester F c) (event : MarketDataEvent) : Prop :=
  event.symbol = s.config.locate →
    s.DecisionFits (s.topAfter event) ∧ s.Affords (s.callFills event)

instance (s : Backtester F c) (event : MarketDataEvent) : Decidable (s.CallFits event) :=
  inferInstanceAs (Decidable (_ → _))

/-! ## Executions -/

theorem executeAll_toInt (hfits : s.Affords (fillsAt s.book orders)) :
    (s.executeAll orders).position.toInt = s.position.toInt + netUnits (fillsAt s.book orders) ∧
      (s.executeAll orders).cashTicks.toInt =
        s.cashTicks.toInt - netCost (fillsAt s.book orders) := by
  induction orders generalizing s with
  | nil => simp [executeAll, fillsAt]
  | cons order orders ih =>
    rw [fillsAt_cons, Affords, fillsFit_append] at hfits
    obtain ⟨hposition, hcash⟩ := executeCrossing_toInt (s := s) hfits.1
    have hbook := (s.execute_tradesOnly order).book
    have hrest : (s.execute order).Affords (fillsAt (s.execute order).book orders) := by
      rw [hbook, Affords, execute, hposition, hcash]
      exact hfits.2
    obtain ⟨hposition', hcash'⟩ := ih hrest
    rw [hbook] at hposition' hcash'
    rw [fillsAt_cons, netUnits_append, netCost_append, executeAll, List.foldl_cons, ← executeAll,
      hposition', hcash', execute, hposition, hcash]
    exact ⟨add_assoc _ _ _, sub_sub _ _ _⟩

theorem executeAll_trades (s : Backtester F c) (orders : List Pending) :
    (s.executeAll orders).trades = s.trades + (fillsAt s.book orders).length := by
  induction orders generalizing s with
  | nil => simp [executeAll, fillsAt]
  | cons order orders ih =>
    have hrest := ih (s.execute order)
    rw [(s.execute_tradesOnly order).book] at hrest
    rw [executeAll, List.foldl_cons, ← executeAll, hrest, fillsAt_cons, List.length_append,
      ← Nat.add_assoc]
    congr 1
    rcases s.execute_cases order with ⟨htouch, heq⟩ | ⟨level, htouch, heq⟩
    · rw [fillsAt_of_none htouch, heq]
      rfl
    · rw [fillsAt_of_some htouch, heq]
      rfl

/-- The ledger adds up over executions that stay in range. -/
theorem Ledger.executeAll (h : s.Ledger) (hfits : s.Affords (fillsAt s.book orders)) :
    (s.executeAll orders).Ledger := by
  obtain ⟨hposition, hcash⟩ := executeAll_toInt hfits
  have hfills : (s.executeAll orders).fills = s.fills ++ fillsAt s.book orders :=
    (s.executeAll_outcomes orders).1
  constructor
  · rw [hposition, hfills, netUnits_append, h.position]
  · rw [hcash, hfills, netCost_append, h.cashTicks]
    omega
  · rw [executeAll_trades, hfills, List.length_append, h.trades]

/-! ## Decisions -/

/-- What a decision depends on besides the book is the same. -/
structure DecidesAlike (s s' : Backtester F c) : Prop where
  config : s'.config = s.config
  strategy : s'.strategy = s.strategy
  prevL1 : s'.prevL1 = s.prevL1
  haveL1 : s'.haveL1 = s.haveL1
  committedUnits : s'.committedUnits = s.committedUnits

theorem DecidesAlike.change_eq (h : DecidesAlike s s') (l1 : L1Row) :
    s'.change l1 = s.change l1 := by
  simp only [change, aim, answer, currentSignal, h.strategy, h.config, h.committedUnits]

theorem DecidesAlike.samples_iff (h : DecidesAlike s s') : s'.Samples l1 ↔ s.Samples l1 := by
  rw [Samples, Samples, h.haveL1, h.prevL1]

theorem DecidesAlike.orders_iff (h : DecidesAlike s s') : s'.Orders l1 ↔ s.Orders l1 := by
  rw [Orders, Orders, h.samples_iff, h.change_eq, h.haveL1]
  simp only [answer, currentSignal, h.strategy, h.committedUnits]

theorem DecidesAlike.decisionFits_iff (h : DecidesAlike s s') :
    s'.DecisionFits l1 ↔ s.DecisionFits l1 := by
  rw [DecisionFits, DecisionFits, h.samples_iff, h.orders_iff, h.change_eq]
  simp only [aim, answer, currentSignal, h.strategy, h.config, h.committedUnits]

theorem DecidesAlike.immediateFills_eq (h : DecidesAlike s s') (b : OrderBook c) (l1 : L1Row)
    (nowNs : UInt64) : s'.immediateFills b l1 nowNs = s.immediateFills b l1 nowNs := by
  simp only [immediateFills, ordered, h.orders_iff, h.config, h.change_eq]

theorem execute_decidesAlike (s : Backtester F c) (order : Pending) :
    DecidesAlike s (s.execute order) := by
  rcases s.execute_cases order with ⟨-, heq⟩ | ⟨level, -, heq⟩ <;> rw [heq] <;>
    exact ⟨rfl, rfl, rfl, rfl, rfl⟩

theorem executeAll_decidesAlike (s : Backtester F c) (orders : List Pending) :
    DecidesAlike s (s.executeAll orders) := by
  induction orders generalizing s with
  | nil => exact ⟨rfl, rfl, rfl, rfl, rfl⟩
  | cons order orders ih =>
    have hfirst := s.execute_decidesAlike order
    have hrest := ih (s.execute order)
    exact ⟨hrest.config.trans hfirst.config, hrest.strategy.trans hfirst.strategy,
      hrest.prevL1.trans hfirst.prevL1, hrest.haveL1.trans hfirst.haveL1,
      hrest.committedUnits.trans hfirst.committedUnits⟩

theorem advance_decidesAlike (s : Backtester F c) (event : MarketDataEvent) :
    DecidesAlike s (s.advance event) := by
  have h := s.executeAll_decidesAlike (arrivedBy event.exchangeTimestampNs s.pending)
  rw [advance_eq]
  exact ⟨h.config, h.strategy, h.prevL1, h.haveL1, h.committedUnits⟩

theorem ordered_small (hchange : (s.change l1).natAbs < 2 ^ 63) (nowNs : UInt64) :
    (s.ordered l1 nowNs).quantity.toNat = (s.change l1).natAbs := by
  rw [ordered, UInt64.toNat_ofNat']
  omega

/-- With a decision in range, an order is decided on exactly if something is missing. -/
theorem decideOrder_exact (hl1 : l1Row event.sequence event.exchangeTimestampNs s.book = l1)
    (hfits : s.DecisionFits l1) :
    (¬ s.Orders l1 ∧ ∃ l1' haveL1 l1Updates,
      s.decideOrder event = (none, s.sampled l1' haveL1 l1Updates s.committedUnits)) ∨
    (s.Orders l1 ∧ ∀ nowNs, s.decideOrder event =
      (some ((s.ordered l1 nowNs).side, (s.ordered l1 nowNs).quantity),
        s.sampled l1 true (s.l1Updates + 1) (s.targetUnits l1))) := by
  unfold decideOrder
  rw [hl1]
  dsimp only
  rw [target_sampled]
  split_ifs with hone hsame hflat hkept
  · exact .inl ⟨by simp_all [Orders, Samples], _, _, _, rfl⟩
  · exact .inl ⟨by simp_all [Orders, Samples], _, _, _, rfl⟩
  · exact .inl ⟨by simp_all [Orders], _, _, _, rfl⟩
  all_goals
    have hsamples := samples_of_tests hone hsame
    have haim := hfits.1 hsamples
  · exact .inl ⟨fun horders => horders.2.2 ((change_eq_zero_iff haim).mpr hkept), _, _, _, rfl⟩
  · have horders := orders_of_tests hsamples haim hflat hkept
    obtain ⟨hsub, hmin⟩ := (natAbs_change_lt haim).mp (hfits.2 horders)
    have hchange : (s.targetUnits l1 - s.committedUnits).toInt = s.change l1 := by
      rw [toInt_sub hsub.1 hsub.2, toInt_targetUnits haim, change]
    refine .inr ⟨horders, fun nowNs => ?_⟩
    have hside : sideOf (s.targetUnits l1 - s.committedUnits) = (s.ordered l1 nowNs).side := by
      simp only [sideOf, ordered, Int64.lt_iff_toInt_lt, Int64.toInt_zero, hchange]
    have hquantity : (s.targetUnits l1 - s.committedUnits).abs.toUInt64 =
        (s.ordered l1 nowNs).quantity := by
      rw [← UInt64.toNat_inj, ordered_small (hfits.2 horders), toNat_abs hmin, hchange]
    rw [← hside, ← hquantity]
    rfl

/-! ## Calls -/

/-- What becomes of a decision in range. -/
inductive SendCase (s : Backtester F c) (event : MarketDataEvent) (l1 : L1Row) : Prop
  | quiet (l1' : L1Row) (haveL1 : Bool) (l1Updates : ℕ) (horders : ¬ s.Orders l1)
      (hdecide : s.decideOrder event = (none, s.sampled l1' haveL1 l1Updates s.committedUnits))
  | immediate (horders : s.Orders l1) (hlatency : s.config.latencyNs = 0)
      (hdecide : s.decideOrder event =
        (some ((s.ordered l1 event.exchangeTimestampNs).side,
            (s.ordered l1 event.exchangeTimestampNs).quantity),
          s.sampled l1 true (s.l1Updates + 1) (s.targetUnits l1)))
  | sent (horders : s.Orders l1) (hlatency : s.config.latencyNs ≠ 0)
      (hdecide : s.decideOrder event =
        (some ((s.ordered l1 event.exchangeTimestampNs).side,
            (s.ordered l1 event.exchangeTimestampNs).quantity),
          s.sampled l1 true (s.l1Updates + 1) (s.targetUnits l1)))

theorem send_cases (hl1 : l1Row event.sequence event.exchangeTimestampNs s.book = l1)
    (hfits : s.DecisionFits l1) : s.SendCase event l1 := by
  rcases decideOrder_exact hl1 hfits with
    ⟨horders, l1', haveL1, l1Updates, hdecide⟩ | ⟨horders, hdecide⟩
  · exact .quiet l1' haveL1 l1Updates horders hdecide
  · by_cases hlatency : s.config.latencyNs = 0
    · exact .immediate horders hlatency (hdecide _)
    · exact .sent horders hlatency (hdecide _)

theorem ordered_lt (hfits : s.DecisionFits l1) (horders : s.Orders l1) (nowNs : UInt64) :
    (s.ordered l1 nowNs).quantity.toNat < 2 ^ 63 := by
  have hchange := hfits.2 horders
  rw [ordered_small hchange]
  exact hchange

theorem advance_book (s : Backtester F c) (event : MarketDataEvent) :
    (s.advance event).book = (s.book.processEvent event).2 := by
  rw [advance_eq]

/-- What has arrived is booked before the decision. -/
theorem advance_toInt
    (hfits : s.Affords (fillsAt s.book (arrivedBy event.exchangeTimestampNs s.pending))) :
    (s.advance event).position.toInt = s.position.toInt +
        netUnits (fillsAt s.book (arrivedBy event.exchangeTimestampNs s.pending)) ∧
      (s.advance event).cashTicks.toInt = s.cashTicks.toInt -
        netCost (fillsAt s.book (arrivedBy event.exchangeTimestampNs s.pending)) := by
  rw [advance_eq]
  exact executeAll_toInt hfits

/-- The fills of a call stay in range if those of its two parts do. -/
theorem affords_callFills : s.Affords (s.callFills event) ↔
    s.Affords (fillsAt s.book (arrivedBy event.exchangeTimestampNs s.pending)) ∧
      (s.advance event).Affords ((s.advance event).immediateFills (s.advance event).book
        (s.topAfter event) event.exchangeTimestampNs) := by
  rw [callFills, Affords, fillsFit_append, Affords, Affords, advance_book,
    (s.advance_decidesAlike event).immediateFills_eq]
  apply and_congr_right
  intro hfits
  obtain ⟨hposition, hcash⟩ := advance_toInt hfits
  rw [hposition, hcash]

/-- What a run keeps while its calls stay in range. -/
structure Sound (s : Backtester F c) : Prop where
  ledger : s.Ledger
  small : Small s.pending

theorem Sound.advance (h : s.Sound)
    (hfits : s.Affords (fillsAt s.book (arrivedBy event.exchangeTimestampNs s.pending))) :
    (s.advance event).Sound where
  ledger := by
    have hledger := h.ledger.executeAll hfits
    rw [advance_eq]
    exact ⟨hledger.position, hledger.cashTicks, hledger.trades⟩
  small order hmem := by
    rw [advance_pending] at hmem
    exact h.small order ((List.dropWhile_sublist _).subset hmem)

theorem Sound.sampled (h : s.Sound) (l1 : L1Row) (haveL1 : Bool) (l1Updates : ℕ)
    (committedUnits : Int64) : (s.sampled l1 haveL1 l1Updates committedUnits).Sound :=
  ⟨⟨h.ledger.position, h.ledger.cashTicks, h.ledger.trades⟩, h.small⟩

theorem Sound.execute (h : s.Sound) {order : Pending}
    (hfits : s.Affords (fillsAt s.book [order])) : (s.execute order).Sound where
  ledger := h.ledger.executeAll hfits
  small := by
    rw [(s.execute_tradesOnly order).pending]
    exact h.small

theorem Sound.setPending (h : s.Sound) (hsmall : Small orders) : (s.setPending orders).Sound :=
  ⟨⟨h.ledger.position, h.ledger.cashTicks, h.ledger.trades⟩, hsmall⟩

theorem Sound.send (h : s.Sound)
    (hl1 : l1Row event.sequence event.exchangeTimestampNs s.book = l1)
    (hdecision : s.DecisionFits l1)
    (hfits : s.Affords (s.immediateFills s.book l1 event.exchangeTimestampNs)) :
    (send event (s.decideOrder event)).Sound := by
  have hsampled := h.sampled l1 true (s.l1Updates + 1) (s.targetUnits l1)
  rcases send_cases hl1 hdecision with
    ⟨l1', haveL1, l1Updates, -, hdecide⟩ | ⟨horders, hlatency, hdecide⟩ |
      ⟨horders, hlatency, hdecide⟩ <;> rw [hdecide]
  · exact h.sampled l1' haveL1 l1Updates s.committedUnits
  · rw [immediateFills, if_pos ⟨horders, hlatency⟩] at hfits
    have hexecute := hsampled.execute hfits
    have hlocal : (s.sampled l1 true (s.l1Updates + 1) (s.targetUnits l1)).config.latencyNs = 0 :=
      hlatency
    rw [Backtester.send, if_pos hlocal]
    exact hexecute
  · have hlocal : (s.sampled l1 true (s.l1Updates + 1) (s.targetUnits l1)).config.latencyNs ≠ 0 :=
      hlatency
    rw [Backtester.send, if_neg hlocal]
    apply hsampled.setPending
    intro order hmem
    rcases List.mem_append.mp hmem with hmem | hmem
    · exact h.small order hmem
    · rw [List.mem_singleton.mp hmem]
      exact ordered_lt hdecision horders event.exchangeTimestampNs

/-- A call that stays in range keeps the ledger exact. -/
theorem Sound.onEvent (h : s.Sound) (hfits : s.CallFits event) : (s.onEvent event).Sound := by
  by_cases hsymbol : event.symbol = s.config.locate
  · obtain ⟨hdecision, hcall⟩ := hfits hsymbol
    obtain ⟨harrived, himmediate⟩ := affords_callFills.mp hcall
    rw [Backtester.onEvent, if_neg (not_not.mpr hsymbol)]
    refine (h.advance harrived).send ?_ ?_ himmediate
    · rw [advance_book, topAfter]
    · exact (s.advance_decidesAlike event).decisionFits_iff.mpr hdecision
  · rw [Backtester.onEvent, if_pos hsymbol]
    exact h

/-! ## The end of a run -/

/-- The order that closes an exact position. -/
def closingOrders (position : ℤ) (nowNs : UInt64) : List Pending :=
  if position ≠ 0 then
    [⟨nowNs, if 0 < position then .sell else .buy, .ofNat position.natAbs⟩]
  else []

/-- The position that `finish` closes. -/
def endPosition (s : Backtester F c) : ℤ :=
  s.position.toInt + netUnits (fillsAt s.book s.pending)

def finishFills (s : Backtester F c) : List Fill :=
  fillsAt s.book (s.pending ++ closingOrders s.endPosition s.lastTs)

/-- The final mark of an exact position and cash stays in range. -/
def MarkFits (s : Backtester F c) (position cashTicks : ℤ) : Prop :=
  s.haveL1 = true →
    Fits (2 * cashTicks) ∧ Fits (s.prevL1.bidPx.toInt + s.prevL1.askPx.toInt) ∧
    Fits (position * (s.prevL1.bidPx.toInt + s.prevL1.askPx.toInt)) ∧
    Fits (2 * cashTicks + position * (s.prevL1.bidPx.toInt + s.prevL1.askPx.toInt))

/-- The last fills, the position that is closed and the mark stay in range. -/
def FinishFits (s : Backtester F c) : Prop :=
  s.Affords s.finishFills ∧ s.endPosition.natAbs < 2 ^ 63 ∧
    s.MarkFits (s.position.toInt + netUnits s.finishFills)
      (s.cashTicks.toInt - netCost s.finishFills)

instance (s : Backtester F c) (position cashTicks : ℤ) :
    Decidable (s.MarkFits position cashTicks) :=
  inferInstanceAs (Decidable (_ → _))

instance (s : Backtester F c) : Decidable s.FinishFits := inferInstanceAs (Decidable (_ ∧ _))

/-- Closing a position in range is one more execution. -/
theorem flatten_eq (hposition : s.position.toInt.natAbs < 2 ^ 63) :
    s.flatten = s.executeAll (closingOrders s.position.toInt s.lastTs) := by
  unfold flatten closingOrders
  by_cases hflat : s.position.toInt = 0
  · rw [if_neg (not_not.mpr (eq_zero_iff.mpr hflat)), if_neg (not_not.mpr hflat)]
    rfl
  · rw [if_pos (mt eq_zero_iff.mp hflat), if_pos hflat, abs_toUInt64 (by omega)]
    simp only [pos_iff]
    rfl

theorem fillsAt_append (b : OrderBook c) (orders orders' : List Pending) :
    fillsAt b (orders ++ orders') = fillsAt b orders ++ fillsAt b orders' :=
  List.filterMap_append

theorem executeAll_lastTs (s : Backtester F c) (orders : List Pending) :
    (s.executeAll orders).lastTs = s.lastTs := by
  induction orders generalizing s with
  | nil => rfl
  | cons order orders ih =>
    rw [executeAll, List.foldl_cons, ← executeAll, ih]
    rcases s.execute_cases order with ⟨-, heq⟩ | ⟨level, -, heq⟩ <;> rw [heq]

theorem drain_toInt (hfits : s.Affords (fillsAt s.book s.pending)) :
    s.drain.position.toInt = s.endPosition ∧
      s.drain.cashTicks.toInt = s.cashTicks.toInt - netCost (fillsAt s.book s.pending) := by
  rw [drain_eq]
  exact executeAll_toInt hfits

theorem drain_book (s : Backtester F c) : s.drain.book = s.book := by
  rw [drain_eq]
  exact (s.executeAll_tradesOnly s.pending).book

theorem drain_lastTs (s : Backtester F c) : s.drain.lastTs = s.lastTs := by
  rw [drain_eq]
  exact s.executeAll_lastTs s.pending

theorem drain_decidesAlike (s : Backtester F c) : DecidesAlike s s.drain := by
  have h := s.executeAll_decidesAlike s.pending
  rw [drain_eq]
  exact ⟨h.config, h.strategy, h.prevL1, h.haveL1, h.committedUnits⟩

theorem DecidesAlike.markFits_iff (h : DecidesAlike s s') {position cashTicks : ℤ} :
    s'.MarkFits position cashTicks ↔ s.MarkFits position cashTicks := by
  rw [MarkFits, MarkFits, h.haveL1, h.prevL1]

/-- The end of a run, step by step. -/
theorem finishFits_iff : s.FinishFits ↔
    s.Affords (fillsAt s.book s.pending) ∧ (s.drain.position.toInt.natAbs < 2 ^ 63 ∧
      s.drain.Affords
        (fillsAt s.drain.book (closingOrders s.drain.position.toInt s.drain.lastTs))) ∧
      s.drain.flatten.MarkFits s.drain.flatten.position.toInt s.drain.flatten.cashTicks.toInt := by
  rw [FinishFits, finishFills, fillsAt_append, Affords, fillsFit_append, and_assoc]
  apply and_congr_right
  intro hleft
  obtain ⟨hposition, hcash⟩ := drain_toInt hleft
  have haffords : s.drain.Affords
      (fillsAt s.drain.book (closingOrders s.drain.position.toInt s.drain.lastTs)) ↔
      FillsFit (s.position.toInt + netUnits (fillsAt s.book s.pending))
        (s.cashTicks.toInt - netCost (fillsAt s.book s.pending))
        (fillsAt s.book (closingOrders s.endPosition s.lastTs)) := by
    rw [Affords, drain_book, drain_lastTs, hposition, hcash, endPosition]
  rw [haffords, hposition, ← and_assoc, and_comm (a := FillsFit _ _ _)]
  apply and_congr_right
  rintro ⟨hrange, hclosing⟩
  rw [← hposition] at hrange
  obtain ⟨hposition', hcash'⟩ := executeAll_toInt (haffords.mpr hclosing)
  rw [flatten_eq hrange, (s.drain.executeAll_decidesAlike _).markFits_iff,
    s.drain_decidesAlike.markFits_iff, hposition', hcash', hposition, hcash, drain_book,
    drain_lastTs, netUnits_append, netCost_append, endPosition, add_assoc, sub_sub]

theorem Sound.finish (h : s.Sound) (hfits : s.FinishFits) : s.finish.2.Ledger := by
  obtain ⟨hleft, ⟨hrange, hclosing⟩, -⟩ := finishFits_iff.mp hfits
  have hdrain : s.drain.Ledger := by
    have hledger := h.ledger.executeAll hleft
    rw [drain_eq]
    exact ⟨hledger.position, hledger.cashTicks, hledger.trades⟩
  have hflatten := hdrain.executeAll hclosing
  rwa [← flatten_eq hrange] at hflatten

/-! ## Runs -/

end Backtester

end MarketEngine.Research
