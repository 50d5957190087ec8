import MarketEngine.Research.Ledger
import MarketEngine.Research.TimeModel

/-! # The times of the fills

While events come up, fills are recorded in the order of their times: an order
in flight arrives after the last event, and the next release takes it first. At
the end the orders in flight are filled at their arrivals, but the position is
closed at the time of the last event, which is earlier.
-/

namespace MarketEngine.Research

open MultiSymbolBook (onSymbol)

variable {F : Type} [Double F] {c : Capacity}

/-- The fills are recorded in the order of their times. -/
def InTime (fills : List Fill) : Prop :=
  fills.Pairwise fun fill later => fill.timestampNs ≤ later.timestampNs

instance (fills : List Fill) : Decidable (InTime fills) :=
  inferInstanceAs (Decidable (fills.Pairwise _))

/-- A fill of an order has the time of its arrival. -/
theorem arrival_of_mem {b : OrderBook c} {orders : List Pending} {fill : Fill}
    (h : fill ∈ orders.filterMap (outcome b)) :
    ∃ order ∈ orders, fill.timestampNs = order.arrivalNs := by
  obtain ⟨order, horder, houtcome⟩ := List.mem_filterMap.mp h
  obtain ⟨level, -, rfl⟩ := Option.map_eq_some_iff.mp houtcome
  exact ⟨order, horder, rfl⟩

/-- Orders that arrive one after the other, after all the fills so far, are filled in time. -/
theorem InTime.append {fills : List Fill} (h : InTime fills) (b : OrderBook c)
    {orders : List Pending}
    (hqueue : orders.Pairwise fun order later => order.arrivalNs ≤ later.arrivalNs)
    (hafter : ∀ fill ∈ fills, ∀ order ∈ orders, fill.timestampNs ≤ order.arrivalNs) :
    InTime (fills ++ orders.filterMap (outcome b)) := by
  refine List.pairwise_append.mpr ⟨h, ?_, ?_⟩
  · rw [List.pairwise_filterMap]
    apply hqueue.imp
    intro order later hle fill hfill fill' hfill'
    obtain ⟨level, -, rfl⟩ := Option.map_eq_some_iff.mp hfill
    obtain ⟨level', -, rfl⟩ := Option.map_eq_some_iff.mp hfill'
    exact hle
  · intro fill hfill fill' hfill'
    obtain ⟨order, horder, htime⟩ := arrival_of_mem hfill'
    rw [htime]
    exact hafter fill hfill order horder

namespace Backtester

variable {s : Backtester F c} {event : MarketDataEvent}

/-- The fills are behind the last event and the orders in flight ahead of it, by a latency at
most. -/
structure OnTime (s : Backtester F c) : Prop where
  fills : InTime s.fills
  past : ∀ fill ∈ s.fills, fill.timestampNs ≤ s.lastTs
  queue : s.pending.Pairwise fun order later => order.arrivalNs ≤ later.arrivalNs
  future : ∀ order ∈ s.pending, s.lastTs < order.arrivalNs
  soon : ∀ order ∈ s.pending,
    order.arrivalNs.toNat ≤ s.lastTs.toNat + s.config.latencyNs.toNat

theorem start_onTime (config : BacktestConfig F) : (start config c).OnTime :=
  ⟨List.Pairwise.nil, by simp [start], List.Pairwise.nil, by simp [start], by simp [start]⟩

/-- A fill that has been recorded is before every order in flight. -/
theorem OnTime.le_arrival (h : s.OnTime) {fill : Fill} (hfill : fill ∈ s.fills) {order : Pending}
    (horder : order ∈ s.pending) : fill.timestampNs ≤ order.arrivalNs :=
  UInt64.le_of_lt (UInt64.lt_of_le_of_lt (h.past fill hfill) (h.future order horder))

/-- Taking out what has arrived moves the clock to the event. -/
theorem OnTime.advance (h : s.OnTime) (hle : s.lastTs ≤ event.exchangeTimestampNs) :
    (s.advance event).OnTime := by
  have harrived : arrivedBy event.exchangeTimestampNs s.pending <+: s.pending :=
    List.takeWhile_prefix _
  have hwaiting : notArrivedBy event.exchangeTimestampNs s.pending <:+ s.pending :=
    List.dropWhile_suffix _
  obtain ⟨hfills, -⟩ :=
    s.executeAll_outcomes (arrivedBy event.exchangeTimestampNs s.pending)
  have hconfig := (s.executeAll_tradesOnly (arrivedBy event.exchangeTimestampNs s.pending)).config
  rw [advance_eq]
  constructor
  · dsimp only
    rw [hfills]
    apply h.fills.append s.book (h.queue.sublist harrived.sublist)
    intro fill hfill order horder
    exact h.le_arrival hfill (harrived.subset horder)
  · dsimp only
    rw [hfills]
    intro fill hfill
    rcases List.mem_append.mp hfill with hfill | hfill
    · exact UInt64.le_trans (h.past fill hfill) hle
    · obtain ⟨order, horder, htime⟩ := arrival_of_mem hfill
      rw [htime]
      simpa using List.mem_takeWhile_imp horder
  · exact h.queue.sublist hwaiting.sublist
  · intro order horder
    have hqueue := h.queue.imp UInt64.le_iff_toNat_le.mp
    rw [← line_waiting (c := c) s.config] at horder
    exact UInt64.lt_iff_toNat_lt.mpr (DelayLine.lt_due_of_mem_waiting hqueue horder)
  · intro order horder
    dsimp only
    rw [hconfig]
    have hsoon := h.soon order (hwaiting.subset horder)
    have hle := UInt64.le_iff_toNat_le.mp hle
    omega

theorem advance_lastTs (s : Backtester F c) (event : MarketDataEvent) :
    (s.advance event).lastTs = event.exchangeTimestampNs := by
  rw [advance_eq]

/-- What a decision records does not matter to the times. -/
theorem OnTime.sampled (h : s.OnTime) (l1 : L1Row) (haveL1 : Bool) (l1Updates : ℕ)
    (committedUnits : Int64) : (s.sampled l1 haveL1 l1Updates committedUnits).OnTime :=
  ⟨h.fills, h.past, h.queue, h.future, h.soon⟩

/-- An execution at the time of the last event. -/
theorem OnTime.executeNow (h : s.OnTime) (side : Side) (quantity : Quantity) :
    (s.execute ⟨s.lastTs, side, quantity⟩).OnTime := by
  have hfills := s.execute_fills ⟨s.lastTs, side, quantity⟩
  have hlast : (s.execute ⟨s.lastTs, side, quantity⟩).lastTs = s.lastTs :=
    s.executeAll_lastTs [_]
  have hsame := s.execute_tradesOnly ⟨s.lastTs, side, quantity⟩
  constructor
  · rw [hfills]
    apply h.fills.append s.book (List.pairwise_singleton _ _)
    intro fill hfill order horder
    rw [List.mem_singleton.mp horder]
    exact h.past fill hfill
  · rw [hfills, hlast]
    intro fill hfill
    rcases List.mem_append.mp hfill with hfill | hfill
    · exact h.past fill hfill
    · obtain ⟨order, horder, htime⟩ := arrival_of_mem hfill
      rw [htime, List.mem_singleton.mp horder]
      exact UInt64.le_refl _
  · rw [hsame.pending]
    exact h.queue
  · rw [hsame.pending, hlast]
    exact h.future
  · rw [hsame.pending, hlast, hsame.config]
    exact h.soon

/-- An order that arrives one latency after the last event. -/
theorem OnTime.send (h : s.OnTime) (hlatency : s.config.latencyNs ≠ 0)
    (hfits : s.lastTs.toNat + s.config.latencyNs.toNat < 2 ^ 64) (side : Side)
    (quantity : Quantity) :
    (s.setPending (s.pending ++ [⟨s.lastTs + s.config.latencyNs, side, quantity⟩])).OnTime := by
  have harrival : (s.lastTs + s.config.latencyNs).toNat =
      s.lastTs.toNat + s.config.latencyNs.toNat := by
    rw [UInt64.toNat_add, Nat.mod_eq_of_lt hfits]
  have hpos : 0 < s.config.latencyNs.toNat := by
    rw [Nat.pos_iff_ne_zero]
    exact fun hzero => hlatency (UInt64.toNat_inj.mp hzero)
  refine ⟨h.fills, h.past, ?_, ?_, ?_⟩
  · refine List.pairwise_append.mpr ⟨h.queue, List.pairwise_singleton _ _, ?_⟩
    intro order horder new hnew
    rw [List.mem_singleton.mp hnew, UInt64.le_iff_toNat_le, harrival]
    exact h.soon order horder
  · intro order horder
    rcases List.mem_append.mp horder with horder | horder
    · exact h.future order horder
    · rw [List.mem_singleton.mp horder, UInt64.lt_iff_toNat_lt, harrival]
      change s.lastTs.toNat < _
      omega
  · intro order horder
    rcases List.mem_append.mp horder with horder | horder
    · exact h.soon order horder
    · rw [List.mem_singleton.mp horder, harrival]
      exact Nat.le_refl _

theorem OnTime.onEvent (h : s.OnTime)
    (hle : event.symbol = s.config.locate → s.lastTs ≤ event.exchangeTimestampNs)
    (hfits : event.symbol = s.config.locate →
      event.exchangeTimestampNs.toNat + s.config.latencyNs.toNat < 2 ^ 64) :
    (s.onEvent event).OnTime := by
  rcases s.event_cases event with
    ⟨-, -, heq⟩ | ⟨l1, haveL1, l1Updates, hsymbol, -, heq⟩ |
      ⟨target, side, quantity, l1, l1Updates, hsymbol, -, -, heq⟩ |
        ⟨target, side, quantity, l1, l1Updates, hsymbol, -, hlatency, -, heq⟩ <;> rw [heq]
  · exact h
  · exact (h.advance (hle hsymbol)).sampled l1 haveL1 l1Updates s.committedUnits
  · have hnow := ((h.advance (hle hsymbol)).sampled l1 true l1Updates target).executeNow
      side quantity
    rw [show ((s.advance event).sampled l1 true l1Updates target).lastTs = _ from
      s.advance_lastTs event] at hnow
    exact hnow
  · have hsampled := (h.advance (hle hsymbol)).sampled l1 true l1Updates target
    have hlast : ((s.advance event).sampled l1 true l1Updates target).lastTs = _ :=
      s.advance_lastTs event
    have hconfig : ((s.advance event).sampled l1 true l1Updates target).config = _ :=
      s.advance_config event
    have hsent := hsampled.send (by rwa [hconfig]) (by rw [hlast, hconfig]; exact hfits hsymbol)
      side quantity
    rw [hlast, hconfig] at hsent
    exact hsent

theorem onEvent_lastTs (s : Backtester F c) (event : MarketDataEvent) :
    (s.onEvent event).lastTs =
      if event.symbol = s.config.locate then event.exchangeTimestampNs else s.lastTs := by
  rcases s.event_cases event with
    ⟨hsymbol, -, heq⟩ | ⟨l1, haveL1, l1Updates, hsymbol, -, heq⟩ |
      ⟨target, side, quantity, l1, l1Updates, hsymbol, -, -, heq⟩ |
        ⟨target, side, quantity, l1, l1Updates, hsymbol, -, -, -, heq⟩ <;> rw [heq]
  · rw [if_neg hsymbol]
  · rw [if_pos hsymbol]
    exact s.advance_lastTs event
  · rw [if_pos hsymbol]
    exact (executeAll_lastTs _ [_]).trans (s.advance_lastTs event)
  · rw [if_pos hsymbol]
    exact s.advance_lastTs event

/-! ## Runs -/

/-- The clock of a run is not past the last event. -/
theorem onEvents_lastTs_le (config : BacktestConfig F) (events : List MarketDataEvent) {t : UInt64}
    (h : ∀ e ∈ onSymbol config.locate events, e.exchangeTimestampNs ≤ t) :
    ((start config c).onEvents events).lastTs ≤ t := by
  induction events using List.reverseRecOn with
  | nil => exact UInt64.zero_le
  | append_singleton events event ih =>
    have hconfig : ((start config c).onEvents events).config = config := onEvents_config _ _
    rw [onEvents_append, onEvent_lastTs, hconfig]
    rw [onSymbol_append] at h
    split_ifs at h ⊢ with hsymbol
    · exact h event (List.mem_append_right _ List.mem_cons_self)
    · exact ih h

theorem onEvents_onTime (config : BacktestConfig F) (events : List MarketDataEvent)
    (hmono : (onSymbol config.locate events).Pairwise fun e e' =>
      e.exchangeTimestampNs ≤ e'.exchangeTimestampNs)
    (hfits : ∀ e ∈ onSymbol config.locate events,
      e.exchangeTimestampNs.toNat + config.latencyNs.toNat < 2 ^ 64) :
    ((start config c).onEvents events).OnTime := by
  induction events using List.reverseRecOn with
  | nil => exact start_onTime config
  | append_singleton events event ih =>
    have hconfig : ((start config c).onEvents events).config = config := onEvents_config _ _
    rw [onSymbol_append] at hmono hfits
    rw [onEvents_append]
    split_ifs at hmono hfits with hsymbol
    · obtain ⟨hbefore, -, hlast⟩ := List.pairwise_append.mp hmono
      have honTime := ih hbefore fun e he => hfits e (List.mem_append_left _ he)
      apply honTime.onEvent
      · intro _
        apply onEvents_lastTs_le
        intro e he
        exact hlast e he event List.mem_cons_self
      · intro _
        rw [hconfig]
        exact hfits event (List.mem_append_right _ List.mem_cons_self)
    · apply (ih hmono hfits).onEvent <;>
        exact fun h => absurd (h.trans (congrArg _ hconfig)) hsymbol

/-! ## The end of a run -/

/-- The orders in flight that find something to trade against. -/
def fillable (s : Backtester F c) : List Pending :=
  s.pending.filter fun order => (s.book.touch order.side).isSome

/-- The position that their fills leave. -/
def leftOpen (s : Backtester F c) : Int64 := s.position + Int64.ofInt (units s.fillable)

/-- The side that closes a position. -/
def closingSide (position : Int64) : Side := if 0 < position then .sell else .buy

/-- No order in flight is filled at the end, or nothing is traded to close the position. -/
def ClosesInTime (s : Backtester F c) : Prop :=
  s.fillable = [] ∨ s.leftOpen = 0 ∨ s.book.touch (closingSide s.leftOpen) = none

instance (s : Backtester F c) : Decidable s.ClosesInTime := inferInstanceAs (Decidable (_ ∨ _))

theorem units_split (b : OrderBook c) (orders : List Pending) :
    units orders = units (orders.filter fun order => (b.touch order.side).isSome) +
      units (missed b orders) := by
  induction orders with
  | nil => rfl
  | cons order orders ih =>
    cases htouch : b.touch order.side with
    | none =>
      simp only [missed, List.filter_cons, htouch, Option.isSome_none, Option.isNone_none,
        Bool.false_eq_true, if_false, if_true, units_cons] at ih ⊢
      omega
    | some level =>
      simp only [missed, List.filter_cons, htouch, Option.isSome_some, Option.isNone_some,
        Bool.false_eq_true, if_false, if_true, units_cons] at ih ⊢
      omega

theorem drain_position (s : Backtester F c) : s.drain.position = s.leftOpen := by
  have hposition := s.executeAll_position s.pending
  rw [units_split s.book s.pending, ← fillable, Int64.ofInt_add] at hposition
  rw [drain_eq, leftOpen]
  change (s.executeAll s.pending).position = _
  grind

/-- What closing the position records. -/
def closingFills (s : Backtester F c) : List Fill :=
  if s.leftOpen = 0 then []
  else
    [(⟨s.lastTs, closingSide s.leftOpen, s.leftOpen.abs.toUInt64⟩ : Pending)].filterMap
      (outcome s.book)

theorem finish_fills_eq (s : Backtester F c) :
    s.finish.2.fills = s.drain.fills ++ s.closingFills := by
  have hfinish : s.finish.2 = s.drain.flatten := rfl
  rw [hfinish, flatten, closingFills, ← s.drain_position]
  by_cases hposition : s.drain.position = 0
  · rw [if_neg (not_not.mpr hposition), if_pos hposition, List.append_nil]
  · rw [if_pos hposition, if_neg hposition]
    have hfills := s.drain.execute_fills
      ⟨s.drain.lastTs, closingSide s.drain.position, s.drain.position.abs.toUInt64⟩
    rw [drain_lastTs, drain_book] at hfills
    rw [drain_lastTs]
    exact hfills

theorem lateFills_eq_nil (s : Backtester F c) :
    s.pending.filterMap (outcome s.book) = [] ↔ s.fillable = [] := by
  simp [fillable, outcome, List.filterMap_eq_nil_iff, Option.isSome_iff_ne_none]

theorem closingFills_eq_nil (s : Backtester F c) :
    s.closingFills = [] ↔ s.leftOpen = 0 ∨ s.book.touch (closingSide s.leftOpen) = none := by
  by_cases hflat : s.leftOpen = 0
  · simp [closingFills, hflat]
  · simp [closingFills, hflat, outcome, List.filterMap_eq_nil_iff]

/-- The position is closed at the time of the last event. -/
theorem time_of_mem_closingFills {fill : Fill} (h : fill ∈ s.closingFills) :
    fill.timestampNs = s.lastTs := by
  rw [closingFills] at h
  split_ifs at h with hflat
  · exact absurd h List.not_mem_nil
  · obtain ⟨order, horder, htime⟩ := arrival_of_mem h
    rw [htime, List.mem_singleton.mp horder]

theorem closingFills_inTime (s : Backtester F c) : InTime s.closingFills := by
  apply List.pairwise_of_forall_mem_list
  intro fill hfill later hlater
  rw [time_of_mem_closingFills hfill, time_of_mem_closingFills hlater]
  exact UInt64.le_refl _

/-- The trade that closes the position comes after the fills of the orders in flight, but it has
the time of the last event. -/
theorem OnTime.finish_iff (h : s.OnTime) : InTime s.finish.2.fills ↔ s.ClosesInTime := by
  obtain ⟨hdrain, -⟩ := s.drain_outcomes
  have hclosed : s.ClosesInTime ↔ s.fillable = [] ∨ s.closingFills = [] := by
    rw [closingFills_eq_nil, ClosesInTime]
  have htimely : InTime s.drain.fills := by
    rw [hdrain]
    apply h.fills.append s.book h.queue
    intro fill hfill order horder
    exact h.le_arrival hfill horder
  rw [finish_fills_eq, hclosed]
  constructor
  · intro hinTime
    obtain ⟨-, -, hbefore⟩ := List.pairwise_append.mp hinTime
    by_contra! hboth
    obtain ⟨hlate, hclosing⟩ := hboth
    rw [ne_eq, ← lateFills_eq_nil] at hlate
    obtain ⟨late, hlate⟩ := List.exists_mem_of_ne_nil _ hlate
    obtain ⟨closing, hclosing⟩ := List.exists_mem_of_ne_nil _ hclosing
    obtain ⟨order, horder, harrival⟩ := arrival_of_mem hlate
    have hle := hbefore late (hdrain ▸ List.mem_append_right _ hlate) closing hclosing
    rw [harrival, time_of_mem_closingFills hclosing] at hle
    exact UInt64.not_lt.mpr hle (h.future order horder)
  · rintro (hnone | hnone)
    · refine List.pairwise_append.mpr ⟨htimely, s.closingFills_inTime, ?_⟩
      rw [hdrain, s.lateFills_eq_nil.mpr hnone, List.append_nil]
      intro fill hfill closing hclosing
      rw [time_of_mem_closingFills hclosing]
      exact h.past fill hfill
    · rw [hnone, List.append_nil]
      exact htimely

/-- The fills of a run are recorded in the order of their times exactly when at its end no order
in flight is filled or no trade closes the position. -/
theorem fills_inTime_iff (c : Capacity) (config : BacktestConfig F) (events : List MarketDataEvent)
    (hmono : (onSymbol config.locate events).Pairwise fun e e' =>
      e.exchangeTimestampNs ≤ e'.exchangeTimestampNs)
    (hfits : ∀ e ∈ onSymbol config.locate events,
      e.exchangeTimestampNs.toNat + config.latencyNs.toNat < 2 ^ 64) :
    InTime ((start config c).onEvents events).finish.2.fills ↔
      ((start config c).onEvents events).ClosesInTime :=
  (onEvents_onTime config events hmono hfits).finish_iff

theorem delayed_fill_inTime :
    InTime ((start delayed .three).onEvents delayedFill).finish.2.fills :=
  (fills_inTime_iff .three delayed delayedFill (by decide +kernel) (by decide +kernel)).mpr
    (by decide +kernel)

/-- An order is filled at its arrival, and its position is closed at a time before. -/
theorem not_fills_inTime :
    ¬ ∀ (config : BacktestConfig ℚ) (events : List MarketDataEvent),
      (onSymbol config.locate events).Pairwise
        (fun e e' => e.exchangeTimestampNs ≤ e'.exchangeTimestampNs) →
      (∀ e ∈ onSymbol config.locate events,
        e.exchangeTimestampNs.toNat + config.latencyNs.toNat < 2 ^ 64) →
      InTime ((start config .three).onEvents events).finish.2.fills := by
  intro h
  have hearly := h delayed (delayedFill.take 2) (by decide +kernel) (by decide +kernel)
  revert hearly
  decide +kernel

end Backtester

end MarketEngine.Research
