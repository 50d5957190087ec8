import Mathlib.Data.List.ReduceOption
import Mathlib.Order.Nat
import MarketEngine.Book.MultiSymbol
import MarketEngine.Kit.DelayLine
import MarketEngine.Research.Bookkeeping

/-! # The time model

Orders in flight form a delay line over the events of the target symbol. So an
order meets the book as it was just before its arrival, however late it is
released, and never one that holds anything later.
-/

namespace MarketEngine.Research

open MultiSymbolBook (onSymbol)

variable {F : Type} [Double F] {c : Capacity}

/-- An order, and the time of the event it was decided at. -/
structure Decision where
  timestampNs : UInt64
  side : Side
  quantity : Quantity
  deriving DecidableEq, Repr

/-- The order arrives one latency after its decision. -/
def Decision.order (decision : Decision) (latencyNs : UInt64) : Pending :=
  ⟨decision.timestampNs + latencyNs, decision.side, decision.quantity⟩

/-- The book made of the events of the target symbol before a time. -/
def bookBefore (c : Capacity) (locate : SymbolId) (events : List MarketDataEvent) (t : UInt64) :
    OrderBook c :=
  (OrderBook.fresh c).processAll
    ((onSymbol locate events).filter fun event => event.exchangeTimestampNs < t)

/-- The delay line of a configuration. -/
def line (config : BacktestConfig F) (c : Capacity) :
    DelayLine MarketDataEvent (OrderBook c) Pending (Option Fill) ℕ where
  init := OrderBook.fresh c
  step b event := (b.processEvent event).2
  time event := event.exchangeTimestampNs.toNat
  lag t := t + config.latencyNs.toNat
  due order := order.arrivalNs.toNat
  look := outcome

/-- What the line shows an order is the book before its arrival. -/
theorem line_seen (config : BacktestConfig F) (events : List MarketDataEvent) (order : Pending) :
    (line config c).seen (onSymbol config.locate events) order =
      outcome (bookBefore c config.locate events order.arrivalNs) order := rfl

theorem line_arrived (config : BacktestConfig F) (nowNs : UInt64) (orders : List Pending) :
    (line config c).arrived nowNs.toNat orders = Backtester.arrivedBy nowNs orders := rfl

theorem line_waiting (config : BacktestConfig F) (nowNs : UInt64) (orders : List Pending) :
    (line config c).waiting nowNs.toNat orders = Backtester.notArrivedBy nowNs orders := rfl

theorem onSymbol_append (locate : SymbolId) (events : List MarketDataEvent)
    (event : MarketDataEvent) :
    onSymbol locate (events ++ [event]) =
      if event.symbol = locate then onSymbol locate events ++ [event]
      else onSymbol locate events := by
  split_ifs with hsymbol <;> simp [onSymbol, hsymbol]

namespace Backtester

/-- The decision of one call. -/
def decisionAt (s : Backtester F c) (event : MarketDataEvent) : List Decision :=
  ((s.decision event).map fun order => ⟨event.exchangeTimestampNs, order.1, order.2⟩).toList

/-- The decisions along a stream. -/
def decisions (s : Backtester F c) : List MarketDataEvent → List Decision
  | [] => []
  | event :: events => s.decisionAt event ++ (s.onEvent event).decisions events

/-- The orders that one call releases. -/
def releasedAt (s : Backtester F c) (event : MarketDataEvent) : List Pending :=
  if event.symbol = s.config.locate then arrivedBy event.exchangeTimestampNs s.pending else []

/-- The orders released along a stream. -/
def released (s : Backtester F c) : List MarketDataEvent → List Pending
  | [] => []
  | event :: events => s.releasedAt event ++ (s.onEvent event).released events

theorem decisions_append (s : Backtester F c) (events : List MarketDataEvent)
    (event : MarketDataEvent) :
    s.decisions (events ++ [event]) =
      s.decisions events ++ (s.onEvents events).decisionAt event := by
  induction events generalizing s with
  | nil => exact List.append_nil _
  | cons first events ih =>
    rw [List.cons_append, decisions, ih, decisions, List.append_assoc]
    rfl

theorem released_append (s : Backtester F c) (events : List MarketDataEvent)
    (event : MarketDataEvent) :
    s.released (events ++ [event]) =
      s.released events ++ (s.onEvents events).releasedAt event := by
  induction events generalizing s with
  | nil => exact List.append_nil _
  | cons first events ih =>
    rw [List.cons_append, released, ih, released, List.append_assoc]
    rfl

/-! ## One call -/

/-- The state after some events, as a delay line with what it has taken out. -/
structure OnSchedule (config : BacktestConfig F) (events : List MarketDataEvent)
    (done : List Pending) (log : List (Option Fill)) (s : Backtester F c) : Prop where
  config_eq : s.config = config
  timely : (line config c).Timely (onSymbol config.locate events) done s.pending log
  book : s.book = (OrderBook.fresh c).processAll (onSymbol config.locate events)
  fills : s.fills = log.reduceOption
  unfilled : s.unfilled = log.countP Option.isNone

theorem length_missed (b : OrderBook c) (orders : List Pending) :
    (missed b orders).length = (orders.map (outcome b)).countP Option.isNone := by
  rw [missed, ← List.countP_eq_length_filter, List.countP_map]
  simp [Function.comp_def, outcome]

theorem reduceOption_outcomes (b : OrderBook c) (orders : List Pending) :
    (orders.map (outcome b)).reduceOption = orders.filterMap (outcome b) := by
  rw [List.reduceOption, List.filterMap_map]
  rfl

variable {config : BacktestConfig F} {events : List MarketDataEvent} {event : MarketDataEvent}
  {done : List Pending} {log : List (Option Fill)} {s s' : Backtester F c}

theorem start_onSchedule (config : BacktestConfig F) :
    OnSchedule config [] [] [] (start config c) :=
  ⟨rfl, .start, rfl, rfl, rfl⟩

/-- The release and the application of an event of the target symbol, with what is sent then. -/
theorem OnSchedule.advance (h : OnSchedule config events done log s)
    (hmono : ∀ e ∈ onSymbol config.locate events,
      e.exchangeTimestampNs ≤ event.exchangeTimestampNs)
    (hfits : event.exchangeTimestampNs.toNat + config.latencyNs.toNat < 2 ^ 64)
    (hlatency : config.latencyNs ≠ 0) (hsymbol : event.symbol = config.locate) {new : List Pending}
    (hnew : ∀ order ∈ new, order.arrivalNs = event.exchangeTimestampNs + config.latencyNs)
    (hconfig : s'.config = config) (hpending : s'.pending = (s.advance event).pending ++ new)
    (hbook : s'.book = (s.advance event).book) (hfills : s'.fills = (s.advance event).fills)
    (hunfilled : s'.unfilled = (s.advance event).unfilled) :
    OnSchedule config (events ++ [event])
      (done ++ arrivedBy event.exchangeTimestampNs s.pending)
      (log ++ (arrivedBy event.exchangeTimestampNs s.pending).map (outcome s.book)) s' := by
  have htargets := onSymbol_append config.locate events event
  rw [if_pos hsymbol] at htargets
  have hadvance := s.advance_eq event
  obtain ⟨hallFills, hallUnfilled⟩ :=
    s.executeAll_outcomes (arrivedBy event.exchangeTimestampNs s.pending)
  have hpos : config.latencyNs.toNat ≠ 0 := fun hzero =>
    hlatency (UInt64.toNat_inj.mp (hzero.trans UInt64.toNat_zero.symm))
  have hle : ∀ e ∈ onSymbol config.locate events,
      e.exchangeTimestampNs.toNat ≤ event.exchangeTimestampNs.toNat := fun e he =>
    UInt64.le_iff_toNat_le.mp (hmono e he)
  refine ⟨hconfig, ?_, ?_, ?_, ?_⟩
  · have hdue : ∀ order ∈ new, (line config c).due order =
        (line config c).lag ((line config c).time event) := by
      intro order horder
      dsimp only [line]
      rw [hnew order horder, UInt64.toNat_add, Nat.mod_eq_of_lt hfits]
    have hnext := h.timely.next hle
      (fun e he => Nat.add_le_add_right (hle e he) _)
      (Nat.lt_add_of_pos_right (Nat.pos_of_ne_zero hpos)) hdue
    have hbefore : (line config c).state (onSymbol config.locate events) = s.book := h.book.symm
    rw [hbefore, show (line config c).time event = event.exchangeTimestampNs.toNat from rfl,
      line_arrived, line_waiting] at hnext
    rw [htargets, hpending, hadvance]
    exact hnext
  · rw [htargets, OrderBook.processAll_append, hbook, hadvance, h.book]
    rfl
  · rw [List.reduceOption_append, reduceOption_outcomes, ← h.fills, hfills, hadvance]
    exact hallFills
  · rw [List.countP_append, ← length_missed, ← h.unfilled, hunfilled, hadvance]
    exact hallUnfilled

theorem OnSchedule.onEvent (h : OnSchedule config events done log s)
    (hmono : event.symbol = config.locate → ∀ e ∈ onSymbol config.locate events,
      e.exchangeTimestampNs ≤ event.exchangeTimestampNs)
    (hfits : event.symbol = config.locate →
      event.exchangeTimestampNs.toNat + config.latencyNs.toNat < 2 ^ 64)
    (hlatency : config.latencyNs ≠ 0) :
    ∃ log, OnSchedule config (events ++ [event]) (done ++ s.releasedAt event) log
      (s.onEvent event) := by
  have hconfig := h.config_eq
  subst hconfig
  rcases s.event_cases event with
    ⟨hsymbol, -, heq⟩ | ⟨l1, haveL1, l1Updates, hsymbol, -, heq⟩ |
      ⟨_, _, _, _, _, -, -, hzero, -⟩ |
        ⟨target, side, quantity, l1, l1Updates, hsymbol, -, -, -, heq⟩
  · have htargets := onSymbol_append s.config.locate events event
    rw [if_neg hsymbol] at htargets
    rw [heq, releasedAt, if_neg hsymbol, List.append_nil]
    exact ⟨log, rfl, htargets ▸ h.timely, htargets ▸ h.book, h.fills, h.unfilled⟩
  · rw [heq, releasedAt, if_pos hsymbol]
    have hnone : ∀ order ∈ ([] : List Pending),
        order.arrivalNs = event.exchangeTimestampNs + s.config.latencyNs := by simp
    exact ⟨_, h.advance (hmono hsymbol) (hfits hsymbol) hlatency hsymbol hnone
      (s.advance_config event) (List.append_nil _).symm rfl rfl rfl⟩
  · exact absurd hzero hlatency
  · rw [heq, releasedAt, if_pos hsymbol]
    exact ⟨_, h.advance (hmono hsymbol) (hfits hsymbol) hlatency hsymbol (by simp)
      (s.advance_config event) rfl rfl rfl rfl⟩

/-- The queue holds what has been decided and not yet released. -/
theorem onEvent_pending (s : Backtester F c) (event : MarketDataEvent)
    (hlatency : s.config.latencyNs ≠ 0) :
    s.releasedAt event ++ (s.onEvent event).pending =
      s.pending ++ (s.decisionAt event).map fun d => d.order s.config.latencyNs := by
  have hsplit := arrivedBy_append_notArrivedBy event.exchangeTimestampNs s.pending
  have hadvance := s.advance_pending event
  rcases s.event_cases event with
    ⟨hsymbol, hdecision, heq⟩ | ⟨l1, haveL1, l1Updates, hsymbol, hdecision, heq⟩ |
      ⟨_, _, _, _, _, -, -, hzero, -⟩ |
        ⟨target, side, quantity, l1, l1Updates, hsymbol, -, -, hdecision, heq⟩
  · rw [heq, releasedAt, if_neg hsymbol, decisionAt, hdecision]
    exact (List.append_nil _).symm
  · rw [heq, releasedAt, if_pos hsymbol, decisionAt, hdecision]
    dsimp only [sampled]
    rw [hadvance]
    exact hsplit.trans (List.append_nil _).symm
  · exact absurd hzero hlatency
  · rw [heq, releasedAt, if_pos hsymbol, decisionAt, hdecision, hadvance]
    dsimp only [setPending]
    rw [← List.append_assoc]
    exact congrArg (· ++ _) hsplit

/-! ## Runs -/

theorem released_append_pending (config : BacktestConfig F) (hlatency : config.latencyNs ≠ 0)
    (events : List MarketDataEvent) :
    (start config c).released events ++ ((start config c).onEvents events).pending =
      ((start config c).decisions events).map fun d => d.order config.latencyNs := by
  induction events using List.reverseRecOn with
  | nil => rfl
  | append_singleton events event ih =>
    have hconfig : ((start config c).onEvents events).config = config := onEvents_config _ _
    have hstep := ((start config c).onEvents events).onEvent_pending event (by rwa [hconfig])
    rw [released_append, decisions_append, onEvents_append, List.map_append, ← ih,
      List.append_assoc, List.append_assoc, hstep, hconfig]

theorem onEvents_onSchedule (config : BacktestConfig F) (hlatency : config.latencyNs ≠ 0)
    (events : List MarketDataEvent)
    (hmono : (onSymbol config.locate events).Pairwise fun e e' =>
      e.exchangeTimestampNs ≤ e'.exchangeTimestampNs)
    (hfits : ∀ e ∈ onSymbol config.locate events,
      e.exchangeTimestampNs.toNat + config.latencyNs.toNat < 2 ^ 64) :
    ∃ log, OnSchedule config events ((start config c).released events) log
      ((start config c).onEvents events) := by
  induction events using List.reverseRecOn with
  | nil => exact ⟨[], start_onSchedule config⟩
  | append_singleton events event ih =>
    have htargets := onSymbol_append config.locate events event
    rw [released_append, onEvents_append]
    by_cases hsymbol : event.symbol = config.locate
    · rw [if_pos hsymbol] at htargets
      rw [htargets] at hmono hfits
      obtain ⟨hbefore, -, hlast⟩ := List.pairwise_append.mp hmono
      obtain ⟨log, hlog⟩ := ih hbefore fun e he => hfits e (List.mem_append_left _ he)
      exact hlog.onEvent (fun _ e he => hlast e he event List.mem_cons_self)
        (fun _ => hfits event (List.mem_append_right _ List.mem_cons_self)) hlatency
    · rw [if_neg hsymbol] at htargets
      rw [htargets] at hmono hfits
      obtain ⟨log, hlog⟩ := ih hmono hfits
      exact hlog.onEvent (absurd · hsymbol) (absurd · hsymbol) hlatency

theorem drain_outcomes (s : Backtester F c) :
    s.drain.fills = s.fills ++ s.pending.filterMap (outcome s.book) ∧
    s.drain.unfilled = s.unfilled + (missed s.book s.pending).length := by
  rw [drain_eq]
  exact s.executeAll_outcomes s.pending

theorem executeCrossing_fills (s : Backtester F c) (side : Side) (quantity : Quantity)
    (nowNs : UInt64) : s.fills <+: (s.executeCrossing side quantity nowNs).fills :=
  ⟨_, (s.execute_fills ⟨nowNs, side, quantity⟩).symm⟩

/-- Closing the position adds to the fills at most. -/
theorem finish_fills (s : Backtester F c) : s.drain.fills <+: s.finish.2.fills := by
  have hfinish : s.finish.2 = s.drain.flatten := rfl
  rw [hfinish, flatten]
  by_cases hposition : s.drain.position ≠ 0
  · rw [if_pos hposition]
    exact s.drain.executeCrossing_fills _ _ _
  · rw [if_neg hposition]

/-- Every order that is decided is executed once, in the order of the decisions, one latency
after its decision, and meets the book of the events before that time. -/
theorem no_lookahead (c : Capacity) (config : BacktestConfig F) (hlatency : 0 < config.latencyNs)
    (events : List MarketDataEvent)
    (hmono : (onSymbol config.locate events).Pairwise fun e e' =>
      e.exchangeTimestampNs ≤ e'.exchangeTimestampNs)
    (hfits : ∀ e ∈ onSymbol config.locate events,
      e.exchangeTimestampNs.toNat + config.latencyNs.toNat < 2 ^ 64) :
    let s := (start config c).onEvents events
    let orders := ((start config c).decisions events).map fun d => d.order config.latencyNs
    let book (order : Pending) := bookBefore c config.locate events order.arrivalNs
    (start config c).released events ++ s.pending = orders ∧
    s.drain.fills = orders.filterMap (fun order => outcome (book order) order) ∧
    s.drain.unfilled = orders.countP (fun order => ((book order).touch order.side).isNone) ∧
    s.drain.fills <+: s.finish.2.fills := by
  intro s orders book
  have hne : config.latencyNs ≠ 0 := (UInt64.ne_of_lt hlatency).symm
  have hall := released_append_pending (c := c) config hne events
  obtain ⟨log, hlog⟩ := onEvents_onSchedule (c := c) config hne events hmono hfits
  have hbefore : (line config c).state (onSymbol config.locate events) = s.book := hlog.book.symm
  have hfinish : log ++ s.pending.map (outcome s.book) =
      orders.map fun order => outcome (book order) order := by
    have hfinish := hlog.timely.finish
    rw [hbefore, hall] at hfinish
    exact hfinish.trans (List.map_congr_left fun order _ => line_seen config events order)
  obtain ⟨hfills, hunfilled⟩ := s.drain_outcomes
  refine ⟨hall, ?_, ?_, s.finish_fills⟩
  · rw [hfills, hlog.fills, ← reduceOption_outcomes, ← List.reduceOption_append, hfinish,
      List.reduceOption, List.filterMap_map]
    rfl
  · rw [hunfilled, hlog.unfilled, length_missed, ← List.countP_append, hfinish, List.countP_map]
    simp [Function.comp_def, outcome]

theorem delayed_fill_no_lookahead :
    ((start delayed .three).onEvents delayedFill).drain.fills = [⟨1100, .buy, 101, 1⟩] :=
  (no_lookahead .three delayed (by decide) delayedFill (by decide +kernel)
    (by decide +kernel)).2.1.trans (by decide +kernel)

end Backtester

end MarketEngine.Research
