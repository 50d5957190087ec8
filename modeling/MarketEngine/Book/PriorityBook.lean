import MarketEngine.Book.Dialogue

/-! # The book as one list

All that a book shows of its orders is the priority list. A book that is nothing
but this list takes an event by changing the list in place, and a request by one
pass over it. It has no arrival order, no levels and no numbers.
-/

namespace MarketEngine

/-- The order without its priority. -/
def OrderView.bare (o : OrderView) : OrderView := { o with priority := 0 }

/-- The fill without its number. -/
def Fill.bare (fill : Fill) : Fill := { fill with sequence := 0 }

def Response.bare : Response → Response
  | .processed result => .processed result
  | .submitted result fills => .submitted result (fills.map Fill.bare)

/-- The orders of a book, best first, and how many it holds at most. -/
structure PriorityBook where
  capacity : ℕ
  orders : List OrderView
  deriving DecidableEq

namespace PriorityBook

def find (p : PriorityBook) (id : OrderId) : Option OrderView := p.orders.find? fun o => o.id = id

def without (p : PriorityBook) (id : OrderId) : PriorityBook :=
  { p with orders := p.orders.filter fun o => o.id ≠ id }

def requantify (p : PriorityBook) (id : OrderId) (quantity : Quantity) : PriorityBook :=
  { p with orders := p.orders.map fun o => if o.id = id then { o with quantity } else o }

/-- An order takes its place behind all that are no worse. -/
def enter (p : PriorityBook) (id : OrderId) (side : Side) (price : Price) (quantity : Quantity) :
    PriorityBook :=
  { p with orders :=
      KeyOrder.enqueue OrderView.key LevelKey.rank ⟨id, side, price, quantity, 0⟩ p.orders }

/-! ## Events -/

def rest (p : PriorityBook) (id : OrderId) (side : Side) (price : Price) (quantity : Quantity) :
    ProcessResult × PriorityBook :=
  if quantity = 0 then (.invalidQuantity, p)
  else if (p.find id).isSome then (.duplicateOrderId, p)
  else if p.orders.length = p.capacity then (.capacityExhausted, p)
  else (.applied, p.enter id side price quantity)

def modify (p : PriorityBook) (event : MarketDataEvent) : ProcessResult × PriorityBook :=
  if event.quantity = 0 then (.invalidQuantity, p)
  else
    match p.find event.orderId with
    | none => (.orderNotFound, p)
    | some order =>
      if order.side = event.side ∧ order.priceTicks = event.priceTicks then
        (.applied, p.requantify event.orderId event.quantity)
      else
        (.applied, (p.without event.orderId).enter event.orderId event.side event.priceTicks
          event.quantity)

def cancel (p : PriorityBook) (id : OrderId) : ProcessResult × PriorityBook :=
  match p.find id with
  | none => (.orderNotFound, p)
  | some _ => (.applied, p.without id)

def replace (p : PriorityBook) (event : MarketDataEvent) : ProcessResult × PriorityBook :=
  if event.quantity = 0 then (.invalidQuantity, p)
  else
    match p.find event.orderId with
    | none => (.orderNotFound, p)
    | some order =>
      if event.newOrderId ≠ event.orderId ∧ (p.find event.newOrderId).isSome then
        (.duplicateOrderId, p)
      else
        (p.without event.orderId).rest event.newOrderId order.side event.priceTicks event.quantity

def trade (p : PriorityBook) (id : OrderId) (quantity : Quantity) :
    ProcessResult × PriorityBook :=
  if quantity = 0 then (.invalidQuantity, p)
  else
    match p.find id with
    | none => (.orderNotFound, p)
    | some order =>
      if quantity > order.quantity then (.invalidQuantity, p)
      else if quantity = order.quantity then (.applied, p.without id)
      else (.applied, p.requantify id (order.quantity - quantity))

def process (p : PriorityBook) (event : MarketDataEvent) : ProcessResult × PriorityBook :=
  match event.type with
  | .add => p.rest event.orderId event.side event.priceTicks event.quantity
  | .modify => p.modify event
  | .cancel => p.cancel event.orderId
  | .trade => p.trade event.orderId event.quantity
  | .reduce => p.trade event.orderId event.quantity
  | .replace => p.replace event

/-! ## Requests -/

/-- What one pass over the list has filled, what it still wants and what it left. -/
structure Served where
  fills : List Fill
  remaining : Quantity
  orders : List OrderView

/-- Take from every reached order in turn until nothing is wanted any more. -/
def serve (request : OrderRequest) : Quantity → List OrderView → Served
  | wanted, [] => ⟨[], wanted, []⟩
  | wanted, o :: orders =>
    if wanted = 0 ∨ request.reaches o = false then
      let served := serve request wanted orders
      { served with orders := o :: served.orders }
    else
      let traded := min wanted o.quantity
      let fill : Fill :=
        { takerId := request.id, makerId := o.id, takerSide := request.side,
          priceTicks := o.priceTicks, quantity := traded, sequence := 0 }
      let served := serve request (wanted - traded) orders
      { served with
        fills := fill :: served.fills
        orders :=
          if traded = o.quantity then served.orders
          else { o with quantity := o.quantity - traded } :: served.orders }

/-- What becomes of the remainder. -/
def settle (p : PriorityBook) (request : OrderRequest) (remaining : Quantity) :
    SubmitResult × PriorityBook :=
  let filled := request.quantity - remaining
  if remaining = 0 then (.filledComplete, p)
  else if request.mayRest then
    match p.rest request.id request.side request.priceTicks remaining with
    | (.capacityExhausted, p) => (.rejectedCapacity, p)
    | (_, p) => (if filled = 0 then .restedNoFill else .partialFillRested, p)
  else (if filled = 0 then .noFillKilled else .partialFillKilled, p)

def submit (p : PriorityBook) (request : OrderRequest) :
    SubmitResult × List Fill × PriorityBook :=
  match request.type with
  | .cancel =>
    match p.cancel request.id with
    | (.applied, p) => (.canceled, [], p)
    | (_, p) => (.rejectedInvalid, [], p)
  | .new =>
    if request.quantity = 0 then (.rejectedInvalid, [], p)
    else if request.mayRest ∧ (p.find request.id).isSome then (.rejectedDuplicate, [], p)
    else if request.tif = .fok ∧ request.fillable p.orders < request.quantity then
      (.rejectedFOK, [], p)
    else
      let served := serve request request.quantity p.orders
      let (result, p) := settle { p with orders := served.orders } request served.remaining
      (result, served.fills, p)

/-- The answer and the next list. -/
def respond (p : PriorityBook) : Call → Response × PriorityBook
  | .event event =>
    let (result, p) := p.process event
    (.processed result, p)
  | .submit request =>
    let (result, fills, p) := p.submit request
    (.submitted result fills, p)

end PriorityBook

end MarketEngine
