import Mathlib.Algebra.Ring.Int.Defs
import Mathlib.Algebra.Ring.Rat
import MarketEngine.Book.Views

/-! # The backtest loop

The event-driven backtest of one symbol. A strategy looks at the top of the book
after each event, what it decides arrives one latency later, and an order that
arrives trades its whole size at the opposite touch.
-/

namespace MarketEngine

/-- The level that an order of a side trades against. -/
def OrderBook.touch {c : Capacity} (b : OrderBook c) : Side → Option LevelView
  | .buy => b.bestAsk
  | .sell => b.bestBid

namespace Research

variable {c : Capacity}

/-! ## Features -/

/-- The top of the book; a side that is missing has price and size 0. -/
structure L1Row where
  sequence : UInt64 := 0
  timestampNs : UInt64 := 0
  bidPx : Price := 0
  bidSz : Quantity := 0
  askPx : Price := 0
  askSz : Quantity := 0
  twoSided : Bool := false
  deriving DecidableEq, Repr

def l1Row (sequence timestampNs : UInt64) (book : OrderBook c) : L1Row :=
  let bid := book.bestBid
  let ask := book.bestAsk
  let row : L1Row := { sequence, timestampNs, twoSided := bid.isSome && ask.isSome }
  let row := match bid with
    | some bid => { row with bidPx := bid.priceTicks, bidSz := bid.totalQuantity }
    | none => row
  match ask with
  | some ask => { row with askPx := ask.priceTicks, askSz := ask.totalQuantity }
  | none => row

def l1Changed (a b : L1Row) : Bool :=
  a.bidPx != b.bidPx || a.bidSz != b.bidSz || a.askPx != b.askPx || a.askSz != b.askSz

/-! ## The strategy -/

/-- What the strategy uses of `double`. -/
class Double (F : Type) extends Zero F, OfScientific F, Add F, Sub F, Neg F, Div F, LE F where
  ofQuantity : Quantity → F
  decidableLE : DecidableLE F

instance instDecidableLEDouble (F : Type) [Double F] : DecidableLE F := Double.decidableLE

/-- The doubles of the program. -/
instance : Double Float where
  ofQuantity := UInt64.toFloat
  decidableLE := inferInstance

/-- Exact arithmetic, without rounding. -/
instance : Double ℚ where
  ofQuantity quantity := quantity.toNat
  decidableLE := inferInstance

inductive Signal | short | flat | long
  deriving DecidableEq, Repr

def Signal.toInt64 : Signal → Int64
  | .short => -1
  | .flat => 0
  | .long => 1

structure ImbalanceStrategy (F : Type) [Double F] where
  enterThreshold : F := 0.30
  exitThreshold : F := 0.10

/-- Enter above one threshold, flatten below the other, and hold in between. -/
def ImbalanceStrategy.target {F : Type} [Double F] (strategy : ImbalanceStrategy F) (l1 : L1Row)
    (current : Signal) : Signal :=
  let total : F := Double.ofQuantity l1.bidSz + Double.ofQuantity l1.askSz
  if total ≤ 0 then .flat
  else
    let imbalance := (Double.ofQuantity l1.bidSz - Double.ofQuantity l1.askSz) / total
    if strategy.enterThreshold ≤ imbalance then .long
    else if imbalance ≤ -strategy.enterThreshold then .short
    else if imbalance ≤ strategy.exitThreshold ∧ -strategy.exitThreshold ≤ imbalance then .flat
    else current

/-! ## The backtester -/

structure Fill where
  timestampNs : UInt64
  side : Side
  price : Price
  quantity : Quantity
  deriving DecidableEq, Repr

structure BacktestConfig (F : Type) [Double F] where
  locate : SymbolId := 0
  latencyNs : UInt64 := 0
  orderSize : Quantity := 1
  enterThreshold : F := 0.30
  exitThreshold : F := 0.10

structure BacktestResult where
  position : Int64 := 0
  cashTicks : Int64 := 0
  finalPnl2x : Int64 := 0
  trades : ℕ := 0
  unfilled : ℕ := 0
  l1Updates : ℕ := 0
  checksum : UInt64 := 0
  deriving DecidableEq, Repr

/-- An order in flight. -/
structure Pending where
  arrivalNs : UInt64
  side : Side
  quantity : Quantity
  deriving DecidableEq, Repr

/-- The ledger is kept in `int64_t`, which wraps here. -/
structure Backtester (F : Type) [Double F] (c : Capacity) where
  config : BacktestConfig F
  strategy : ImbalanceStrategy F
  book : OrderBook c
  pending : List Pending := []
  fills : List Fill := []
  prevL1 : L1Row := {}
  haveL1 : Bool := false
  committedUnits : Int64 := 0
  position : Int64 := 0
  cashTicks : Int64 := 0
  trades : ℕ := 0
  unfilled : ℕ := 0
  l1Updates : ℕ := 0
  checksum : UInt64 := 0
  lastTs : UInt64 := 0

namespace Backtester

variable {F : Type} [Double F]

/-- The constructor. -/
def start (config : BacktestConfig F) (c : Capacity) : Backtester F c where
  config := config
  strategy := ⟨config.enterThreshold, config.exitThreshold⟩
  book := OrderBook.fresh c

/-- What a fill adds to the checksum over the fill sequence. -/
def fillMix (fill : Fill) : UInt64 :=
  let h := checksumMix fill.timestampNs
  let h := h ^^^ rotl (checksumMix fill.price.toUInt64) 11
  let h := h ^^^ rotl (checksumMix fill.quantity) 23
  h ^^^ match fill.side with
    | .buy => 0x6a09e667f3bcc909
    | .sell => 0xbb67ae8584caa73b

/-- Trade the whole size at the opposite touch, if there is one. -/
def executeCrossing (s : Backtester F c) (side : Side) (quantity : Quantity) (nowNs : UInt64) :
    Backtester F c :=
  match s.book.touch side with
  | none => { s with unfilled := s.unfilled + 1 }
  | some opposite =>
    let price := opposite.priceTicks
    let signedQty := quantity.toInt64
    let fill : Fill := ⟨nowNs, side, price, quantity⟩
    let s := match side with
      | .buy =>
        { s with position := s.position + signedQty, cashTicks := s.cashTicks - price * signedQty }
      | .sell =>
        { s with position := s.position - signedQty, cashTicks := s.cashTicks + price * signedQty }
    { s with
      fills := s.fills ++ [fill]
      trades := s.trades + 1
      checksum := checksumMix (s.checksum ^^^ fillMix fill) }

/-- Take the front order off the queue and execute it. -/
def executeFront (s : Backtester F c) (order : Pending) (rest : List Pending) : Backtester F c :=
  { s with pending := rest }.executeCrossing order.side order.quantity order.arrivalNs

/-- The loop of `release_arrived`, on the orders in flight. -/
def releaseFrom (nowNs : UInt64) : List Pending → Backtester F c → Backtester F c
  | [], s => s
  | order :: rest, s =>
    if order.arrivalNs ≤ nowNs then releaseFrom nowNs rest (s.executeFront order rest) else s

def releaseArrived (s : Backtester F c) (nowNs : UInt64) : Backtester F c :=
  releaseFrom nowNs s.pending s

/-- The signal that the committed units stand for. -/
def currentSignal (s : Backtester F c) : Signal :=
  if 0 < s.committedUnits then .long else if s.committedUnits < 0 then .short else .flat

/-- The side that moves the position by `delta`. -/
def sideOf (delta : Int64) : Side := if 0 < delta then .buy else .sell

/-- Sample the book, and on a change of its top decide which order to send, if any. -/
def decideOrder (s : Backtester F c) (event : MarketDataEvent) :
    Option (Side × Quantity) × Backtester F c :=
  let l1 := l1Row event.sequence event.exchangeTimestampNs s.book
  if !l1.twoSided then (none, s)
  else if s.haveL1 && !l1Changed s.prevL1 l1 then (none, s)
  else
    let first := !s.haveL1
    let s := { s with prevL1 := l1, haveL1 := true, l1Updates := s.l1Updates + 1 }
    let target := s.strategy.target l1 s.currentSignal
    let targetUnits := target.toInt64 * s.config.orderSize.toInt64
    if first && target = .flat then (none, s)
    else if targetUnits = s.committedUnits then (none, s)
    else
      let delta := targetUnits - s.committedUnits
      let s := { s with committedUnits := targetUnits }
      (some (sideOf delta, delta.abs.toUInt64), s)

/-- The first two steps of `on_event`: release what has arrived against the book before the event,
then apply the event. -/
def advance (s : Backtester F c) (event : MarketDataEvent) : Backtester F c :=
  let s := s.releaseArrived event.exchangeTimestampNs
  { s with
    book := (s.book.processEvent event).2
    lastTs := event.exchangeTimestampNs }

/-- A decided order is executed at once, or sent on its way. -/
def send (event : MarketDataEvent) :
    Option (Side × Quantity) × Backtester F c → Backtester F c
  | (none, s) => s
  | (some (side, quantity), s) =>
    if s.config.latencyNs = 0 then s.executeCrossing side quantity event.exchangeTimestampNs
    else
      { s with pending := s.pending ++
          [⟨event.exchangeTimestampNs + s.config.latencyNs, side, quantity⟩] }

def onEvent (s : Backtester F c) (event : MarketDataEvent) : Backtester F c :=
  if event.symbol ≠ s.config.locate then s
  else send event ((s.advance event).decideOrder event)

def onEvents (s : Backtester F c) (events : List MarketDataEvent) : Backtester F c :=
  events.foldl onEvent s

/-- The loop of `finish`, on the orders in flight. -/
def drainFrom : List Pending → Backtester F c → Backtester F c
  | [], s => s
  | order :: rest, s => drainFrom rest (s.executeFront order rest)

/-- `finish` first releases everything that is still in flight. -/
def drain (s : Backtester F c) : Backtester F c := drainFrom s.pending s

/-- Then it closes the position. -/
def flatten (s : Backtester F c) : Backtester F c :=
  if s.position ≠ 0 then
    let side : Side := if 0 < s.position then .sell else .buy
    s.executeCrossing side s.position.abs.toUInt64 s.lastTs
  else s

def result (s : Backtester F c) : BacktestResult where
  position := s.position
  cashTicks := s.cashTicks
  trades := s.trades
  unfilled := s.unfilled
  l1Updates := s.l1Updates
  finalPnl2x :=
    if s.haveL1 then 2 * s.cashTicks + s.position * (s.prevL1.bidPx + s.prevL1.askPx) else 0
  checksum :=
    let h := checksumMix s.position.toUInt64
    let h := h ^^^ rotl (checksumMix s.cashTicks.toUInt64) 29
    checksumMix (s.checksum ^^^ h)

def finish (s : Backtester F c) : BacktestResult × Backtester F c :=
  let s := s.drain.flatten
  (s.result, s)

end Backtester

end Research

end MarketEngine
