import MarketEngine.Kit.OrderedMap
import MarketEngine.Market.Priority

/-! # The reference book

The oracle of the tests for apply mode: a `std::map` from order ids to resting
orders, sorted and aggregated on demand.
-/

namespace MarketEngine

open Std

/-- The order of `std::pair<Side, Price>`. -/
def LevelKey.compare : LevelKey → LevelKey → Ordering :=
  compareLex (compareOn fun key => if key.side = .buy then 0 else 1)
    (compareOn fun key => key.price.toInt)

instance : TransCmp LevelKey.compare :=
  inferInstanceAs (TransCmp (compareLex _ _))

@[ext] structure RefOrder where
  side : Side
  price : Price
  quantity : Quantity
  priority : UInt64
  deriving DecidableEq

def RefOrder.view (id : OrderId) (order : RefOrder) : OrderView :=
  ⟨id, order.side, order.price, order.quantity, order.priority⟩

abbrev RefOrders := TreeMap OrderId RefOrder

namespace RefOrders

/-- The orders in id order. -/
def views (orders : RefOrders) : List OrderView :=
  orders.toList.map fun entry => entry.2.view entry.1

/-- One order added to its aggregated level. -/
def addToLevel (level : LevelView) (order : OrderView) : LevelView :=
  ⟨order.side, order.priceTicks, level.totalQuantity + order.quantity, level.orderCount + 1⟩

/-- `levels()` of either oracle. -/
def levels (orders : RefOrders) : List LevelView :=
  let aggregated : TreeMap LevelKey LevelView LevelKey.compare :=
    orders.views.foldl
      (fun aggregated order =>
        aggregated.insert order.key
          (addToLevel (aggregated.getD order.key ⟨.buy, 0, 0, 0⟩) order))
      ∅
  sortBy LevelView.before (aggregated.toList.map Prod.snd)

end RefOrders

/-- The comparison of `ReferenceBook::orders`. -/
def OrderView.before (left right : OrderView) : Bool :=
  if left.side ≠ right.side then left.side = .buy
  else if left.priceTicks ≠ right.priceTicks then
    match left.side with
    | .buy => left.priceTicks > right.priceTicks
    | .sell => left.priceTicks < right.priceTicks
  else left.priority < right.priority

structure ReferenceBook where
  capacity : ℕ
  nextPriority : UInt64 := 0
  orders : RefOrders := ∅

namespace ReferenceBook

def process (ref : ReferenceBook) (input : MarketDataEvent) : ProcessResult × ReferenceBook :=
  let found := ref.orders[input.orderId]?
  match input.type with
  | .add =>
    if input.quantity = 0 then (.invalidQuantity, ref)
    else if found.isSome then (.duplicateOrderId, ref)
    else if ref.orders.size = ref.capacity then (.capacityExhausted, ref)
    else (.applied, { ref with
      orders := ref.orders.insertIfNew input.orderId
        ⟨input.side, input.priceTicks, input.quantity, ref.nextPriority⟩
      nextPriority := ref.nextPriority + 1 })
  | .modify =>
    if input.quantity = 0 then (.invalidQuantity, ref)
    else
      match found with
      | none => (.orderNotFound, ref)
      | some order =>
        if order.side ≠ input.side ∨ order.price ≠ input.priceTicks then
          (.applied, { ref with
            orders := ref.orders.insert input.orderId
              ⟨input.side, input.priceTicks, input.quantity, ref.nextPriority⟩
            nextPriority := ref.nextPriority + 1 })
        else
          (.applied, { ref with
            orders := ref.orders.insert input.orderId
              ⟨input.side, input.priceTicks, input.quantity, order.priority⟩ })
  | .cancel =>
    match found with
    | none => (.orderNotFound, ref)
    | some _ => (.applied, { ref with orders := ref.orders.erase input.orderId })
  | .reduce | .trade =>
    if input.quantity = 0 then (.invalidQuantity, ref)
    else
      match found with
      | none => (.orderNotFound, ref)
      | some order =>
        if input.quantity > order.quantity then (.invalidQuantity, ref)
        else if input.quantity = order.quantity then
          (.applied, { ref with orders := ref.orders.erase input.orderId })
        else
          (.applied, { ref with
            orders := ref.orders.insert input.orderId
              { order with quantity := order.quantity - input.quantity } })
  | .replace =>
    if input.quantity = 0 then (.invalidQuantity, ref)
    else
      match found with
      | none => (.orderNotFound, ref)
      | some order =>
        if input.newOrderId ≠ input.orderId ∧ ref.orders[input.newOrderId]?.isSome then
          (.duplicateOrderId, ref)
        else
          (.applied, { ref with
            orders := (ref.orders.erase input.orderId).insertIfNew input.newOrderId
              ⟨order.side, input.priceTicks, input.quantity, ref.nextPriority⟩
            nextPriority := ref.nextPriority + 1 })

/-- `orders()`. -/
def orderViews (ref : ReferenceBook) : List OrderView :=
  sortBy OrderView.before ref.orders.views

def levels (ref : ReferenceBook) : List LevelView := ref.orders.levels

end ReferenceBook

end MarketEngine
