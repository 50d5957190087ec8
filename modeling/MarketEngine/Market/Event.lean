import Mathlib.Data.Nat.Notation

/-! # Events, requests and views

The plain data of the engine: the events a feed delivers in apply mode, the
requests and fills of match mode, and the views a book exposes.
-/

namespace MarketEngine

abbrev OrderId := UInt64
abbrev Price := Int64
abbrev Quantity := UInt64
abbrev SymbolId := UInt32

inductive EventType | add | modify | cancel | trade | reduce | replace
  deriving DecidableEq, Repr

inductive Side | buy | sell
  deriving DecidableEq, Repr

/-- The side an incoming order trades against. -/
def Side.opposite : Side → Side
  | .buy => .sell
  | .sell => .buy

/-- A normalised feed event. For a replace, `orderId` is the original order. -/
structure MarketDataEvent where
  sequence : UInt64 := 0
  exchangeTimestampNs : UInt64 := 0
  symbol : SymbolId := 0
  type : EventType := .add
  orderId : OrderId := 0
  newOrderId : OrderId := 0
  side : Side := .buy
  priceTicks : Price := 0
  quantity : Quantity := 0
  deriving DecidableEq, Repr

inductive OrderType | limit | market
  deriving DecidableEq, Repr

inductive TimeInForce | gtc | ioc | fok
  deriving DecidableEq, Repr

inductive RequestType | new | cancel
  deriving DecidableEq, Repr

/-- An incoming client order; the price of a market order is ignored. -/
structure OrderRequest where
  type : RequestType := .new
  id : OrderId := 0
  side : Side := .buy
  priceTicks : Price := 0
  quantity : Quantity := 0
  orderType : OrderType := .limit
  tif : TimeInForce := .gtc
  deriving DecidableEq, Repr

/-- One match, at the price of the resting maker. -/
structure Fill where
  takerId : OrderId
  makerId : OrderId
  takerSide : Side
  priceTicks : Price
  quantity : Quantity
  sequence : UInt64
  deriving DecidableEq, Repr

inductive ProcessResult
  | applied | duplicateOrderId | orderNotFound | invalidQuantity | capacityExhausted
  deriving DecidableEq, Repr

inductive SubmitResult
  | filledComplete | restedNoFill | partialFillRested | partialFillKilled | noFillKilled
  | canceled | rejectedFOK | rejectedDuplicate | rejectedCapacity | rejectedInvalid
  deriving DecidableEq, Repr

structure OrderView where
  id : OrderId
  side : Side
  priceTicks : Price
  quantity : Quantity
  priority : UInt64
  deriving DecidableEq, Repr

structure LevelView where
  side : Side
  priceTicks : Price
  totalQuantity : Quantity
  orderCount : UInt64
  deriving DecidableEq, Repr

end MarketEngine
