import MarketEngine.Kit.SignedWord
import MarketEngine.Research.Backtest

/-! # What one call of the backtester does

An execution changes the ledger only. A release executes the orders at the front
of the queue that have arrived, all against one book. What is left of an event is
at most one decision.
-/

namespace MarketEngine.Research

/-- A quantity, counted up for a buy and down for a sell. -/
def signedUnits (quantity : Quantity) : Side → ℤ
  | .buy => quantity.toNat
  | .sell => -quantity.toNat

/-- The exact signed sum of the quantities of some orders. -/
def units (orders : List Pending) : ℤ :=
  (orders.map fun order => signedUnits order.quantity order.side).sum

@[simp] theorem units_nil : units [] = 0 := rfl

@[simp] theorem units_cons (order : Pending) (orders : List Pending) :
    units (order :: orders) = signedUnits order.quantity order.side + units orders :=
  List.sum_cons

theorem units_append (orders orders' : List Pending) :
    units (orders ++ orders') = units orders + units orders' := by
  simp [units]

variable {F : Type} [Double F] {c : Capacity}

/-- What becomes of an order that meets a book. -/
def outcome (b : OrderBook c) (order : Pending) : Option Fill :=
  (b.touch order.side).map fun level =>
    ⟨order.arrivalNs, order.side, level.priceTicks, order.quantity⟩

/-- The orders that find nothing to trade against. -/
def missed (b : OrderBook c) (orders : List Pending) : List Pending :=
  orders.filter fun order => (b.touch order.side).isNone

namespace Backtester

variable {s s' s'' : Backtester F c} {order : Pending} {orders : List Pending} {nowNs : UInt64}
  {event : MarketDataEvent}

/-! ## Executions -/

def execute (s : Backtester F c) (order : Pending) : Backtester F c :=
  s.executeCrossing order.side order.quantity order.arrivalNs

def executeAll (s : Backtester F c) (orders : List Pending) : Backtester F c :=
  orders.foldl execute s

/-- The two outcomes of an execution. -/
theorem execute_cases (s : Backtester F c) (order : Pending) :
    (s.book.touch order.side = none ∧ s.execute order = { s with unfilled := s.unfilled + 1 }) ∨
    ∃ level, s.book.touch order.side = some level ∧ s.execute order =
      { s with
        position := s.position + Int64.ofInt (signedUnits order.quantity order.side)
        cashTicks :=
          s.cashTicks - level.priceTicks * Int64.ofInt (signedUnits order.quantity order.side)
        fills := s.fills ++ [⟨order.arrivalNs, order.side, level.priceTicks, order.quantity⟩]
        trades := s.trades + 1
        checksum := checksumMix (s.checksum ^^^
          fillMix ⟨order.arrivalNs, order.side, level.priceTicks, order.quantity⟩) } := by
  cases htouch : s.book.touch order.side with
  | none => exact .inl ⟨rfl, by rw [execute, executeCrossing, htouch]⟩
  | some level =>
    refine .inr ⟨level, rfl, ?_⟩
    have hunits := SignedWord.toInt64_eq_ofInt order.quantity
    rw [execute, executeCrossing, htouch]
    cases order.side with
    | buy => simp only [hunits, signedUnits]
    | sell =>
      simp only [hunits, signedUnits, Int64.ofInt_neg, Int64.sub_eq_add_neg, Int64.mul_neg,
        Int64.neg_neg]

/-- Everything but the ledger is as before. -/
structure TradesOnly (s s' : Backtester F c) : Prop where
  config : s'.config = s.config
  book : s'.book = s.book
  pending : s'.pending = s.pending
  committedUnits : s'.committedUnits = s.committedUnits

theorem TradesOnly.refl (s : Backtester F c) : TradesOnly s s := ⟨rfl, rfl, rfl, rfl⟩

theorem TradesOnly.trans (h : TradesOnly s s') (h' : TradesOnly s' s'') : TradesOnly s s'' :=
  ⟨h'.config.trans h.config, h'.book.trans h.book, h'.pending.trans h.pending,
    h'.committedUnits.trans h.committedUnits⟩

theorem execute_tradesOnly (s : Backtester F c) (order : Pending) :
    TradesOnly s (s.execute order) := by
  rcases s.execute_cases order with ⟨-, heq⟩ | ⟨level, -, heq⟩ <;> rw [heq] <;>
    exact ⟨rfl, rfl, rfl, rfl⟩

theorem executeAll_tradesOnly (s : Backtester F c) (orders : List Pending) :
    TradesOnly s (s.executeAll orders) := by
  induction orders generalizing s with
  | nil => exact .refl s
  | cons order orders ih => exact (s.execute_tradesOnly order).trans (ih _)

/-- Each execution is filled at the touch or counted. -/
theorem executeAll_outcomes (s : Backtester F c) (orders : List Pending) :
    (s.executeAll orders).fills = s.fills ++ orders.filterMap (outcome s.book) ∧
    (s.executeAll orders).unfilled = s.unfilled + (missed s.book orders).length := by
  induction orders generalizing s with
  | nil => simp [executeAll, missed]
  | cons order orders ih =>
    obtain ⟨hfills, hunfilled⟩ := ih (s.execute order)
    rw [(s.execute_tradesOnly order).book] at hfills hunfilled
    rw [executeAll, List.foldl_cons, ← executeAll, hfills, hunfilled]
    rcases s.execute_cases order with ⟨hnone, heq⟩ | ⟨level, hsome, heq⟩
    · simp only [heq, hnone, outcome, missed, Option.map_none, Option.isNone_none,
        List.filterMap_cons, List.filter_cons, if_true, List.length_cons]
      exact ⟨trivial, by omega⟩
    · simp [heq, hsome, outcome, missed]

theorem execute_fills (s : Backtester F c) (order : Pending) :
    (s.execute order).fills = s.fills ++ [order].filterMap (outcome s.book) :=
  (s.executeAll_outcomes [order]).1

/-- What is missed never enters the position. -/
theorem executeAll_position (s : Backtester F c) (orders : List Pending) :
    (s.executeAll orders).position + Int64.ofInt (units (missed s.book orders)) =
      s.position + Int64.ofInt (units orders) := by
  induction orders generalizing s with
  | nil => rfl
  | cons order orders ih =>
    have hrest := ih (s.execute order)
    rw [(s.execute_tradesOnly order).book] at hrest
    rw [executeAll, List.foldl_cons, ← executeAll, units_cons, Int64.ofInt_add]
    rcases s.execute_cases order with ⟨hnone, heq⟩ | ⟨level, hsome, heq⟩
    · have hmissed : missed s.book (order :: orders) = order :: missed s.book orders := by
        simp [missed, hnone]
      have hposition : (s.execute order).position = s.position := by rw [heq]
      rw [hposition] at hrest
      rw [hmissed, units_cons, Int64.ofInt_add]
      grind
    · have hmissed : missed s.book (order :: orders) = missed s.book orders := by
        simp [missed, hsome]
      have hposition : (s.execute order).position =
          s.position + Int64.ofInt (signedUnits order.quantity order.side) := by rw [heq]
      rw [hposition] at hrest
      rw [hmissed, hrest]
      grind

/-! ## Releases -/

/-- The orders at the front that have arrived. -/
def arrivedBy (nowNs : UInt64) (orders : List Pending) : List Pending :=
  orders.takeWhile fun order => order.arrivalNs ≤ nowNs

def notArrivedBy (nowNs : UInt64) (orders : List Pending) : List Pending :=
  orders.dropWhile fun order => order.arrivalNs ≤ nowNs

def setPending (s : Backtester F c) (orders : List Pending) : Backtester F c :=
  { s with pending := orders }

theorem setPending_self (h : s.pending = orders) : s.setPending orders = s := by
  rw [setPending, ← h]

theorem executeFront_eq (s : Backtester F c) (order : Pending) (rest : List Pending) :
    s.executeFront order rest = (s.execute order).setPending rest := by
  unfold executeFront execute executeCrossing
  cases s.book.touch order.side with
  | none => rfl
  | some level => cases order.side <;> rfl

/-- Executing does not look at the queue. -/
theorem executeAll_setPending (s : Backtester F c) (orders rest : List Pending) :
    (s.setPending rest).executeAll orders = (s.executeAll orders).setPending rest := by
  induction orders generalizing s with
  | nil => rfl
  | cons order orders ih =>
    have hfront : (s.setPending rest).execute order = (s.execute order).setPending rest :=
      s.executeFront_eq order rest
    rw [executeAll, List.foldl_cons, hfront]
    exact ih (s.execute order)

theorem releaseFrom_eq (h : s.pending = orders) : releaseFrom nowNs orders s =
    (s.executeAll (arrivedBy nowNs orders)).setPending (notArrivedBy nowNs orders) := by
  induction orders generalizing s with
  | nil => exact (setPending_self h).symm
  | cons order rest ih =>
    unfold releaseFrom
    split_ifs with hle
    · have harrived : arrivedBy nowNs (order :: rest) = order :: arrivedBy nowNs rest :=
        List.takeWhile_cons_of_pos (by simpa using hle)
      have hwaiting : notArrivedBy nowNs (order :: rest) = notArrivedBy nowNs rest :=
        List.dropWhile_cons_of_pos (by simpa using hle)
      rw [harrived, hwaiting, executeFront_eq, ih rfl, executeAll_setPending]
      rfl
    · have harrived : arrivedBy nowNs (order :: rest) = [] :=
        List.takeWhile_cons_of_neg (by simpa using hle)
      have hwaiting : notArrivedBy nowNs (order :: rest) = order :: rest :=
        List.dropWhile_cons_of_neg (by simpa using hle)
      rw [harrived, hwaiting]
      exact (setPending_self h).symm

theorem drainFrom_eq (h : s.pending = orders) :
    drainFrom orders s = (s.executeAll orders).setPending [] := by
  induction orders generalizing s with
  | nil => exact (setPending_self h).symm
  | cons order rest ih =>
    rw [drainFrom, executeFront_eq, ih rfl, executeAll_setPending]
    rfl

theorem drain_eq (s : Backtester F c) : s.drain = (s.executeAll s.pending).setPending [] :=
  drainFrom_eq rfl

/-! ## Events -/

/-- The state in which an event is sampled. -/
theorem advance_eq (s : Backtester F c) (event : MarketDataEvent) :
    s.advance event =
      { s.executeAll (arrivedBy event.exchangeTimestampNs s.pending) with
        pending := notArrivedBy event.exchangeTimestampNs s.pending
        book := (s.book.processEvent event).2
        lastTs := event.exchangeTimestampNs } := by
  have hbook := (s.executeAll_tradesOnly (arrivedBy event.exchangeTimestampNs s.pending)).book
  rw [advance, releaseArrived, releaseFrom_eq rfl, setPending, hbook]

theorem arrivedBy_append_notArrivedBy (nowNs : UInt64) (orders : List Pending) :
    arrivedBy nowNs orders ++ notArrivedBy nowNs orders = orders :=
  List.takeWhile_append_dropWhile

theorem advance_pending (s : Backtester F c) (event : MarketDataEvent) :
    (s.advance event).pending = notArrivedBy event.exchangeTimestampNs s.pending := by
  rw [advance_eq]

theorem advance_config (s : Backtester F c) (event : MarketDataEvent) :
    (s.advance event).config = s.config := by
  rw [advance_eq]
  exact (s.executeAll_tradesOnly _).config

theorem advance_committedUnits (s : Backtester F c) (event : MarketDataEvent) :
    (s.advance event).committedUnits = s.committedUnits := by
  rw [advance_eq]
  exact (s.executeAll_tradesOnly _).committedUnits

/-- The sample of the book and the commitment that it led to. -/
def sampled (s : Backtester F c) (l1 : L1Row) (haveL1 : Bool) (l1Updates : ℕ)
    (committedUnits : Int64) : Backtester F c :=
  { s with prevL1 := l1, haveL1, l1Updates, committedUnits }

/-- A decision is made on a two-sided book and moves the commitment to its target. -/
structure Decides (s : Backtester F c) (target : Int64) (side : Side) (quantity : Quantity) :
    Prop where
  bid : s.book.bestBid.isSome = true
  ask : s.book.bestAsk.isSome = true
  signal : ∃ signal : Signal, target = signal.toInt64 * s.config.orderSize.toInt64
  side_eq : side = sideOf (target - s.committedUnits)
  quantity_eq : quantity = (target - s.committedUnits).abs.toUInt64

theorem Decides.touch {target : Int64} {side : Side} {quantity : Quantity}
    (h : s.Decides target side quantity) : ∃ level, s.book.touch side = some level := by
  cases side with
  | buy => exact Option.isSome_iff_exists.mp h.ask
  | sell => exact Option.isSome_iff_exists.mp h.bid

theorem decideOrder_cases (s : Backtester F c) (event : MarketDataEvent) :
    (∃ l1 haveL1 l1Updates,
      s.decideOrder event = (none, s.sampled l1 haveL1 l1Updates s.committedUnits)) ∨
    ∃ target side quantity l1 l1Updates, s.Decides target side quantity ∧
      s.decideOrder event = (some (side, quantity), s.sampled l1 true l1Updates target) := by
  have htwo : (l1Row event.sequence event.exchangeTimestampNs s.book).twoSided =
      (s.book.bestBid.isSome && s.book.bestAsk.isSome) := by
    unfold l1Row
    cases s.book.bestBid <;> cases s.book.bestAsk <;> rfl
  unfold decideOrder
  dsimp only
  split_ifs with hone hsame hflat hkept
  · exact .inl ⟨_, _, _, rfl⟩
  · exact .inl ⟨_, _, _, rfl⟩
  · exact .inl ⟨_, _, _, rfl⟩
  · exact .inl ⟨_, _, _, rfl⟩
  · rw [htwo, Bool.not_eq_true', Bool.not_eq_false, Bool.and_eq_true] at hone
    exact .inr ⟨_, _, _, _, _, ⟨hone.1, hone.2, ⟨_, rfl⟩, rfl, rfl⟩, rfl⟩

/-- The order that a call decides on. -/
def decision (s : Backtester F c) (event : MarketDataEvent) : Option (Side × Quantity) :=
  if event.symbol = s.config.locate then ((s.advance event).decideOrder event).1 else none

/-- What can become of an event. -/
inductive EventCase (s : Backtester F c) (event : MarketDataEvent) : Prop
  | ignored (hsymbol : event.symbol ≠ s.config.locate) (hdecision : s.decision event = none)
      (heq : s.onEvent event = s)
  | quiet (l1 : L1Row) (haveL1 : Bool) (l1Updates : ℕ) (hsymbol : event.symbol = s.config.locate)
      (hdecision : s.decision event = none)
      (heq : s.onEvent event = (s.advance event).sampled l1 haveL1 l1Updates s.committedUnits)
  | immediate (target : Int64) (side : Side) (quantity : Quantity) (l1 : L1Row) (l1Updates : ℕ)
      (hsymbol : event.symbol = s.config.locate)
      (hdecides : (s.advance event).Decides target side quantity)
      (hlatency : s.config.latencyNs = 0)
      (heq : s.onEvent event = ((s.advance event).sampled l1 true l1Updates target).execute
        ⟨event.exchangeTimestampNs, side, quantity⟩)
  | sent (target : Int64) (side : Side) (quantity : Quantity) (l1 : L1Row) (l1Updates : ℕ)
      (hsymbol : event.symbol = s.config.locate)
      (hdecides : (s.advance event).Decides target side quantity)
      (hlatency : s.config.latencyNs ≠ 0) (hdecision : s.decision event = some (side, quantity))
      (heq : s.onEvent event = ((s.advance event).sampled l1 true l1Updates target).setPending
        ((s.advance event).pending ++
          [⟨event.exchangeTimestampNs + s.config.latencyNs, side, quantity⟩]))

theorem event_cases (s : Backtester F c) (event : MarketDataEvent) : s.EventCase event := by
  by_cases hsymbol : event.symbol = s.config.locate
  · have hevent : s.onEvent event = send event ((s.advance event).decideOrder event) :=
      if_neg (not_not.mpr hsymbol)
    have hdecision : s.decision event = ((s.advance event).decideOrder event).1 := if_pos hsymbol
    rcases (s.advance event).decideOrder_cases event with
      ⟨l1, haveL1, l1Updates, hdecide⟩ | ⟨target, side, quantity, l1, l1Updates, hdecides, hdecide⟩
    · rw [hdecide, advance_committedUnits] at hevent
      rw [hdecide] at hdecision
      exact .quiet l1 haveL1 l1Updates hsymbol hdecision hevent
    · rw [hdecide, send] at hevent
      rw [hdecide] at hdecision
      have hlocal : ((s.advance event).sampled l1 true l1Updates target).config.latencyNs =
          s.config.latencyNs := congrArg BacktestConfig.latencyNs (s.advance_config event)
      rw [hlocal] at hevent
      by_cases hlatency : s.config.latencyNs = 0
      · rw [if_pos hlatency] at hevent
        exact .immediate target side quantity l1 l1Updates hsymbol hdecides hlatency hevent
      · rw [if_neg hlatency] at hevent
        exact .sent target side quantity l1 l1Updates hsymbol hdecides hlatency hdecision hevent
  · have hdecision : s.decision event = none := if_neg hsymbol
    exact .ignored hsymbol hdecision (if_pos hsymbol)

theorem onEvent_config (s : Backtester F c) (event : MarketDataEvent) :
    (s.onEvent event).config = s.config := by
  rcases s.event_cases event with
    ⟨-, -, heq⟩ | ⟨_, _, _, -, -, heq⟩ | ⟨_, _, _, _, _, -, -, -, heq⟩ |
      ⟨_, _, _, _, _, -, -, -, -, heq⟩ <;> rw [heq]
  · exact s.advance_config event
  · exact (execute_tradesOnly _ _).config.trans (s.advance_config event)
  · exact s.advance_config event

theorem onEvents_append (s : Backtester F c) (events : List MarketDataEvent)
    (event : MarketDataEvent) :
    s.onEvents (events ++ [event]) = (s.onEvents events).onEvent event :=
  List.foldl_concat _ _ _ _

theorem onEvents_config (s : Backtester F c) (events : List MarketDataEvent) :
    (s.onEvents events).config = s.config := by
  induction events using List.reverseRecOn with
  | nil => rfl
  | append_singleton events event ih => rw [onEvents_append, onEvent_config, ih]

end Backtester

end MarketEngine.Research
