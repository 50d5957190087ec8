import MarketEngine.Book.Matching

/-! # Refused level keys

`insertLevelLookup` returns false when no slot of the level index is empty. The
predicates here follow the paths of the operations to that call and say whether
it is reached and refuses the key.
-/

namespace MarketEngine

open ProbeTable

namespace OrderBook

variable {c : Capacity}

/-- No slot of the level index is empty. -/
def LevelTableFull (b : OrderBook c) : Prop := ∀ slot, b.levelLookup.get slot ≠ .empty

instance (b : OrderBook c) : Decidable b.LevelTableFull :=
  inferInstanceAs (Decidable (∀ slot, b.levelLookup.get slot ≠ .empty))

/-- `acquireLevel` refuses the key. -/
def levelRefused (b : OrderBook c) (side : Side) (price : Price) : Bool :=
  match b.findLevelIndex side price, b.freeLevel with
  | none, some index => !(b.insertLevelLookup side price index).1
  | _, _ => false

/-- `restOrder` has its level key refused. -/
def restRefused (b : OrderBook c) (id : OrderId) (side : Side) (price : Price)
    (quantity : Quantity) : Bool :=
  quantity ≠ 0 && (b.findOrderIndex id).isNone && b.freeOrder.isSome && b.levelRefused side price

/-- `modify` moves the order away and then has its level key refused. -/
def modifyRefused (b : OrderBook c) (event : MarketDataEvent) : Bool :=
  event.quantity ≠ 0 &&
    match b.findOrderIndex event.orderId with
    | none => false
    | some index =>
      let order := b.orders.get index
      !(order.side = event.side ∧ order.price = event.priceTicks) &&
        !(b.findLevelIndex event.side event.priceTicks = none ∧ b.freeLevel = none ∧
          (order.level.any fun level => (b.levels.get level).orderCount > 1)) &&
        (b.unlink index).levelRefused event.side event.priceTicks

/-- `replace` cancels the original and then has its level key refused. -/
def replaceRefused (b : OrderBook c) (event : MarketDataEvent) : Bool :=
  event.quantity ≠ 0 &&
    match b.findOrderIndex event.orderId with
    | none => false
    | some index =>
      !(event.newOrderId ≠ event.orderId ∧ (b.findOrderIndex event.newOrderId).isSome) &&
        (b.cancel event.orderId).2.restRefused event.newOrderId (b.orders.get index).side
          event.priceTicks event.quantity

/-- Processing the event has a level key refused. -/
def eventRefused (b : OrderBook c) (event : MarketDataEvent) : Bool :=
  match event.type with
  | .add => b.restRefused event.orderId event.side event.priceTicks event.quantity
  | .modify => b.modifyRefused event
  | .replace => b.replaceRefused event
  | _ => false

/-- The remainder of the request has its level key refused. -/
def submitRefused (b : OrderBook c) (fuel : ℕ) (request : OrderRequest) : Bool :=
  request.type = .new && request.quantity ≠ 0 &&
    !(request.mayRest ∧ (b.findOrderIndex request.id).isSome) &&
    !(request.tif = .fok ∧ b.fillableQuantity request < request.quantity) &&
    match Matching.matchLoop request fuel ⟨b, request.quantity, []⟩ with
    | none => false
    | some m =>
      m.remaining ≠ 0 && request.mayRest &&
        m.book.restRefused request.id request.side request.priceTicks m.remaining

theorem insertLevelLookup_eq_false_iff (b : OrderBook c) (side : Side) (price : Price)
    (index : Index c) :
    (b.insertLevelLookup side price index).1 = false ↔ b.LevelTableFull := by
  unfold insertLevelLookup
  split
  · next slot hd =>
    obtain ⟨u, hu⟩ := destination_ok_empty hd
    simp only [Bool.true_eq_false, false_iff]
    exact fun hfull => hfull u hu
  · next o hd =>
    simp only [true_iff]
    exact destination_error_full hd

theorem levelRefused_iff (b : OrderBook c) (side : Side) (price : Price) :
    b.levelRefused side price = true ↔
      b.findLevelIndex side price = none ∧ b.freeLevel ≠ none ∧ b.LevelTableFull := by
  unfold levelRefused
  split
  · next index hfind hfree =>
    simp [insertLevelLookup_eq_false_iff, hfind, hfree]
  · next hne =>
    simp only [Bool.false_eq_true, false_iff, not_and]
    intro hfind hfree _
    obtain ⟨index, hindex⟩ := Option.ne_none_iff_exists'.mp hfree
    exact hne index hfind hindex

end OrderBook

end MarketEngine
