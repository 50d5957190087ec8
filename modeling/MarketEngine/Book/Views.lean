import MarketEngine.Book.OrderBook

/-! # What a book exposes

The read-only queries of the order book. The two list walks follow `next` links
for at most as many steps as there are slots.
-/

namespace MarketEngine

abbrev Order.view {c : Capacity} (order : Order c) : OrderView :=
  ⟨order.id, order.side, order.price, order.quantity, order.priority⟩

abbrev Level.view {c : Capacity} (level : Level c) : LevelView :=
  ⟨level.side, level.price, level.totalQuantity, level.orderCount⟩

namespace OrderBook

variable {c : Capacity}

def findOrder (b : OrderBook c) (id : OrderId) : Option OrderView :=
  (b.findOrderIndex id).map fun index => (b.orders.get index).view

def bestBid (b : OrderBook c) : Option LevelView :=
  (b.ladderTop .buy).map fun top => (b.levels.get top).view

def bestAsk (b : OrderBook c) : Option LevelView :=
  (b.ladderTop .sell).map fun top => (b.levels.get top).view

/-- `levels()`. -/
def levelViews (b : OrderBook c) : List LevelView :=
  sortBy LevelView.before ((b.levels.toList.filter (·.active)).map Level.view)

/-- The slots reached from an order by its `next` links. -/
def walk (b : OrderBook c) : ℕ → Option (Index c) → List (Index c)
  | _, none => []
  | 0, some _ => []
  | fuel + 1, some index => index :: b.walk fuel (b.orders.get index).next

/-- The slots queued at a side and price, oldest first. -/
def queueAt (b : OrderBook c) (side : Side) (price : Price) : List (Index c) :=
  match b.findLevelIndex side price with
  | none => []
  | some level => b.walk c.val (b.levels.get level).head

def levelOrderIds (b : OrderBook c) (side : Side) (price : Price) : List OrderId :=
  (b.queueAt side price).map fun index => (b.orders.get index).id

def ordersInPriority (b : OrderBook c) : List OrderView :=
  b.levelViews.flatMap fun view =>
    (b.queueAt view.side view.priceTicks).map fun index => (b.orders.get index).view

def orderCount (b : OrderBook c) : ℕ := b.activeOrders

/-- A scan over the pool by the active flag. -/
def stateChecksum (b : OrderBook c) : UInt64 :=
  b.orders.toList.foldl
    (fun result order =>
      if order.active then result ^^^ orderChecksum order.view else result)
    (checksumMix (UInt64.ofNat b.activeOrders))

end OrderBook

end MarketEngine
