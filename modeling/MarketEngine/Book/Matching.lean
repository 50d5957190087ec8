import MarketEngine.Book.OrderBook

/-! # Match mode

An incoming order trades against the opposite side, best price first and oldest
order first within a price; then its remainder rests or is killed. The two
nested loops run on fuel, and `none` means that the fuel ran out.
-/

namespace MarketEngine

/-- The state of the matching loops: the book, the quantity still to trade and the fills
emitted so far. -/
structure Matching (c : Capacity) where
  book : OrderBook c
  remaining : Quantity
  fills : List Fill

namespace OrderBook

variable {c : Capacity}

/-- A scan over the heap prefix of the opposite side, in `uint64_t`. -/
def fillableQuantity (b : OrderBook c) (request : OrderRequest) : Quantity :=
  let L := b.ladder request.side.opposite
  (List.range L.size).foldl
    (fun available i =>
      let level := b.levels.get (L.heap.read i)
      if request.crosses level.price then available + level.totalQuantity else available)
    0

/-- Take a maker that is filled whole out of the book. -/
def removeMaker (b : OrderBook c) (index : Index c) : OrderBook c :=
  let b := b.eraseOrderLookup (b.orders.get index).id
  let b := (b.unlink index).freeOrderSlot index
  { b with activeOrders := b.activeOrders - 1 }

/-- Leave a maker with what the taker did not need. -/
def reduceMaker (b : OrderBook c) (levelIndex index : Index c) (traded : Quantity) :
    OrderBook c :=
  { b with
    orders := b.orders.modify index fun o => { o with quantity := o.quantity - traded }
    levels := b.levels.modify levelIndex fun l =>
      { l with totalQuantity := l.totalQuantity - traded } }

end OrderBook

namespace Matching

variable {c : Capacity}

/-- What the taker takes from a maker. -/
def traded (m : Matching c) (index : Index c) : Quantity :=
  min m.remaining (m.book.orders.get index).quantity

/-- One pass of the inner loop, over the maker at `index`. -/
def fillMaker (request : OrderRequest) (tradePrice : Price) (levelIndex index : Index c)
    (m : Matching c) : Matching c :=
  let maker := m.book.orders.get index
  let traded := m.traded index
  let fill : Fill :=
    { takerId := request.id, makerId := maker.id, takerSide := request.side,
      priceTicks := tradePrice, quantity := traded, sequence := m.book.fillSequence }
  let book := { m.book with fillSequence := m.book.fillSequence + 1 }
  { book :=
      if traded = maker.quantity then book.removeMaker index
      else book.reduceMaker levelIndex index traded
    remaining := m.remaining - traded
    fills := m.fills ++ [fill] }

/-- The inner loop, from the maker at `orderIndex` along one level. -/
def fillLevel (request : OrderRequest) (tradePrice : Price) (levelIndex : Index c) :
    ℕ → Option (Index c) → Matching c → Option (Matching c)
  | 0, _, _ => none
  | fuel + 1, orderIndex, m =>
    match orderIndex with
    | none => some m
    | some index =>
      if m.remaining = 0 then some m
      else
        let maker := m.book.orders.get index
        -- a maker left with a quantity is looked at again, with nothing remaining
        let orderIndex := if m.traded index = maker.quantity then maker.next else some index
        fillLevel request tradePrice levelIndex fuel orderIndex
          (m.fillMaker request tradePrice levelIndex index)

/-- The outer loop, over the best opposite level. -/
def matchLoop (request : OrderRequest) : ℕ → Matching c → Option (Matching c)
  | 0, _ => none
  | fuel + 1, m =>
    if m.remaining = 0 then some m
    else
      match m.book.ladderTop request.side.opposite with
      | none => some m
      | some levelIndex =>
        let level := m.book.levels.get levelIndex
        if request.crosses level.price then
          match fillLevel request level.price levelIndex fuel level.head m with
          | none => none
          | some m => matchLoop request fuel m
        else some m

end Matching

namespace OrderBook

variable {c : Capacity}

/-- What becomes of the remainder once the loops have ended. -/
def settle (request : OrderRequest) (m : Matching c) : SubmitResult × OrderBook c :=
  let filled := request.quantity - m.remaining
  if m.remaining = 0 then (.filledComplete, m.book)
  else if request.mayRest then
    match m.book.restOrder request.id request.side request.priceTicks m.remaining with
    | (.capacityExhausted, b) => (.rejectedCapacity, b)
    | (_, b) => (if filled = 0 then .restedNoFill else .partialFillRested, b)
  else (if filled = 0 then .noFillKilled else .partialFillKilled, m.book)

/-- Match an incoming order, with the fills in the order the sink sees them. -/
def submit (b : OrderBook c) (fuel : ℕ) (request : OrderRequest) :
    Option (SubmitResult × List Fill × OrderBook c) :=
  match request.type with
  | .cancel =>
    match b.cancel request.id with
    | (.applied, b) => some (.canceled, [], b)
    | (_, b) => some (.rejectedInvalid, [], b)
  | .new =>
    if request.quantity = 0 then some (.rejectedInvalid, [], b)
    else if request.mayRest ∧ (b.findOrderIndex request.id).isSome then
      some (.rejectedDuplicate, [], b)
    else if request.tif = .fok ∧ b.fillableQuantity request < request.quantity then
      some (.rejectedFOK, [], b)
    else
      match Matching.matchLoop request fuel ⟨b, request.quantity, []⟩ with
      | none => none
      | some m =>
        let (result, book) := settle request m
        some (result, m.fills, book)

end OrderBook

end MarketEngine
