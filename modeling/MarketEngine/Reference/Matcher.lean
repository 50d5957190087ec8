import MarketEngine.Reference.Mirror

/-! # The reference matcher

The oracle of the tests for match mode: a scan over all orders for each fill.
The loop runs on fuel, and `none` means that the fuel ran out.
-/

namespace MarketEngine

structure ReferenceMatcher where
  capacity : ℕ
  nextPriority : UInt64 := 0
  fillSequence : UInt64 := 0
  orders : RefOrders := ∅

/-- The state of the loop of `submit`. -/
structure ReferenceMatching where
  matcher : ReferenceMatcher
  remaining : Quantity
  fills : List Fill

namespace ReferenceMatcher

def crosses (request : OrderRequest) (price : Price) : Bool :=
  if request.orderType = .market then true
  else
    match request.side with
    | .buy => request.priceTicks ≥ price
    | .sell => request.priceTicks ≤ price

def fillable (ref : ReferenceMatcher) (request : OrderRequest) : Quantity :=
  ref.orders.toList.foldl
    (fun available entry =>
      if entry.2.side = request.side.opposite ∧ crosses request entry.2.price then
        available + entry.2.quantity
      else available)
    0

/-- One step of the scan of `best_maker`. -/
def better (request : OrderRequest) (best : Option (OrderId × RefOrder))
    (entry : OrderId × RefOrder) : Option (OrderId × RefOrder) :=
  if entry.2.side ≠ request.side.opposite ∨ crosses request entry.2.price = false then best
  else
    match best with
    | none => some entry
    | some maker =>
      let betterPrice : Bool := match request.side with
        | .buy => entry.2.price < maker.2.price
        | .sell => entry.2.price > maker.2.price
      let samePrice : Bool := entry.2.price = maker.2.price
      if betterPrice || (samePrice && entry.2.priority < maker.2.priority) then some entry
      else best

def bestMaker (ref : ReferenceMatcher) (request : OrderRequest) : Option (OrderId × RefOrder) :=
  ref.orders.toList.foldl (better request) none

/-- One pass of the loop, over the best maker. -/
def fill (request : OrderRequest) (maker : OrderId × RefOrder) (m : ReferenceMatching) :
    ReferenceMatching :=
  let traded := min m.remaining maker.2.quantity
  let fill : Fill :=
    { takerId := request.id, makerId := maker.1, takerSide := request.side,
      priceTicks := maker.2.price, quantity := traded, sequence := m.matcher.fillSequence }
  { matcher := { m.matcher with
      fillSequence := m.matcher.fillSequence + 1
      orders :=
        if traded = maker.2.quantity then m.matcher.orders.erase maker.1
        else m.matcher.orders.insert maker.1
          { maker.2 with quantity := maker.2.quantity - traded } }
    remaining := m.remaining - traded
    fills := m.fills ++ [fill] }

def matchLoop (request : OrderRequest) : ℕ → ReferenceMatching → Option ReferenceMatching
  | 0, _ => none
  | fuel + 1, m =>
    if m.remaining > 0 then
      match m.matcher.bestMaker request with
      | none => some m
      | some maker => matchLoop request fuel (fill request maker m)
    else some m

/-- What becomes of the remainder once the loop has ended. -/
def settle (request : OrderRequest) (mayRest : Bool) (m : ReferenceMatching) :
    SubmitResult × List Fill × ReferenceMatcher :=
  let filled := request.quantity - m.remaining
  if m.remaining = 0 then (.filledComplete, m.fills, m.matcher)
  else if mayRest then
    if m.matcher.orders.size = m.matcher.capacity then (.rejectedCapacity, m.fills, m.matcher)
    else
      (if filled = 0 then .restedNoFill else .partialFillRested, m.fills,
        { m.matcher with
          orders := m.matcher.orders.insertIfNew request.id
            ⟨request.side, request.priceTicks, m.remaining, m.matcher.nextPriority⟩
          nextPriority := m.matcher.nextPriority + 1 })
  else (if filled = 0 then .noFillKilled else .partialFillKilled, m.fills, m.matcher)

def submit (ref : ReferenceMatcher) (fuel : ℕ) (request : OrderRequest) :
    Option (SubmitResult × List Fill × ReferenceMatcher) :=
  if request.type = .cancel then
    match ref.orders[request.id]? with
    | none => some (.rejectedInvalid, [], ref)
    | some _ => some (.canceled, [], { ref with orders := ref.orders.erase request.id })
  else if request.quantity = 0 then some (.rejectedInvalid, [], ref)
  else
    let mayRest : Bool := request.orderType = .limit ∧ request.tif = .gtc
    if mayRest ∧ (ref.orders[request.id]?).isSome then some (.rejectedDuplicate, [], ref)
    else if request.tif = .fok ∧ ref.fillable request < request.quantity then
      some (.rejectedFOK, [], ref)
    else
      (matchLoop request fuel ⟨ref, request.quantity, []⟩).map (settle request mayRest)

def levels (ref : ReferenceMatcher) : List LevelView := ref.orders.levels

/-- A matcher with the resting orders, the capacity and the counters of a book. -/
def ofBook {c : Capacity} (b : OrderBook c) : ReferenceMatcher where
  capacity := c.val
  nextPriority := b.nextPriority
  fillSequence := b.fillSequence
  orders := b.ordersInPriority.foldl (fun orders o => orders.insertIfNew o.id o.entry) ∅

/-- The request ends with the given result, fills and matcher. -/
def SubmitsTo (ref : ReferenceMatcher) (request : OrderRequest) (result : SubmitResult)
    (fills : List Fill) (ref' : ReferenceMatcher) : Prop :=
  ∃ fuel, ref.submit fuel request = some (result, fills, ref')

end ReferenceMatcher

end MarketEngine
