import MarketEngine.Research.QueueModel

/-! # Orders that join behind us

The orders ahead of us are those whose id was at the level when the model was made.
The set of these ids is never updated, so an id that leaves the level and comes back
counts as ahead again.
-/

namespace MarketEngine.Research

open Transition

variable {c : Capacity} {F : Type}

/-- The id under which an event puts an order at the end of a level. -/
def joins (book : OrderBook c) (side : Side) (price : Price) (event : MarketDataEvent) :
    Option OrderId :=
  if (book.processEvent event).1 ≠ .applied then none
  else
    match event.type with
    | .add => if event.side = side ∧ event.priceTicks = price then some event.orderId else none
    | .replace =>
      if (book.findOrder event.orderId).any (fun order => order.side = side) ∧
          event.priceTicks = price then
        some event.newOrderId
      else none
    | .modify =>
      if event.side = side ∧ event.priceTicks = price ∧
          ¬ (book.findOrder event.orderId).any fun order =>
            order.side = side ∧ order.priceTicks = price then
        some event.orderId
      else none
    | .cancel | .trade | .reduce => none

/-- A model and the book that it follows, with the ids that joined its level since it was made and
the quantity traded against these. -/
structure Following (F : Type) (c : Capacity) where
  model : QueueModel F
  book : OrderBook c
  joined : List OrderId := []
  traded : ℕ := 0

namespace Following

variable [QueueDouble F]

/-- The model first, the book second. -/
def next (s : Following F c) (event : MarketDataEvent) : Following F c where
  model := s.model.onEvent event s.book
  book := (s.book.processEvent event).2
  joined := s.joined ++ (joins s.book s.model.side s.model.price event).toList
  traded :=
    if event.type = .trade ∧ event.orderId ∈ s.joined ∧
        s.model.referencesOurLevel event.orderId s.book then
      s.traded + event.quantity.toNat
    else s.traded

def Step (s : Following F c) (event : MarketDataEvent) (s' : Following F c) : Prop :=
  s.next event = s'

/-- The event brings an id of the cohort back to the level. -/
def Rejoins (s : Following F c) (event : MarketDataEvent) : Prop :=
  ∃ id ∈ s.model.cohort, joins s.book s.model.side s.model.price event = some id

variable {s s' : Following F c} {events : List MarketDataEvent}

/-- Until an id of the cohort comes back, no order behind us has one. -/
theorem joined_not_mem_cohort {model : QueueModel F} {book : OrderBook c}
    (h : Run (Guarded (fun s event => ¬ s.Rejoins event) Step) ⟨model, book, [], 0⟩ events s) :
    ∀ id ∈ s.joined, id ∉ s.model.cohort := by
  refine h.invariant_length
    (I := fun _ (s : Following F c) => ∀ id ∈ s.joined, id ∉ s.model.cohort)
    (fun _ hid => absurd hid List.not_mem_nil) ?_
  rintro _ s event s' - hs ⟨hguard, rfl⟩ id hid
  have hcohort : (s.next event).model.cohort = s.model.cohort :=
    (QueueModel.onEvent_same s.model event s.book).2.2.2
  rw [hcohort]
  rcases List.mem_append.mp hid with hid | hid
  · exact hs id hid
  · exact fun hmem => hguard ⟨id, hmem, Option.mem_toList.mp hid⟩

/-- Until an id of the cohort comes back, the departures of orders behind us do not bring us
forward. -/
theorem departure_behind_ignored {model : QueueModel F} {book : OrderBook c}
    (h : Run (Guarded (fun s event => ¬ s.Rejoins event) Step) ⟨model, book, [], 0⟩ events s)
    {event : MarketDataEvent}
    (htype : event.type = .cancel ∨ event.type = .reduce ∨ event.type = .replace)
    (hjoined : event.orderId ∈ s.joined) :
    (s.model.onEvent event s.book).ahead = s.model.ahead ∧
      (s.model.onEvent event s.book).filled = s.model.filled := by
  have hmem := joined_not_mem_cohort h _ hjoined
  have htrade : event.type ≠ .trade := by
    rcases htype with htype | htype | htype <;> simp [htype]
  rw [QueueModel.onEvent_of_none (QueueModel.taken_of_not_mem hmem htrade)]
  exact ⟨rfl, rfl⟩

/-- Two orders on the bid. -/
def twoBids : List MarketDataEvent :=
  [{ type := .add, orderId := 1, priceTicks := 100, quantity := 10 },
    { type := .add, orderId := 2, priceTicks := 100, quantity := 5 }]

/-- Behind the two orders. -/
def behindTwo : Following ℚ .three :=
  let book := (OrderBook.fresh .three).processAll twoBids
  ⟨.post book ⟨.buy, 100, 15, 2⟩ 100 1 0, book, [], 0⟩

/-- An order that joins behind the two and is canceled. -/
theorem late_cancel_ignored :
    let s := behindTwo.next { type := .add, orderId := 3, priceTicks := 100, quantity := 7 }
    let cancel : MarketDataEvent := { type := .cancel, orderId := 3 }
    (s.model.onEvent cancel s.book).ahead = s.model.ahead ∧
      (s.model.onEvent cancel s.book).filled = s.model.filled := by
  intro s cancel
  have hrun : Run (Guarded (fun s event => ¬ s.Rejoins event) Step) behindTwo ([] ++ [_]) s :=
    .next .start ⟨by unfold Rejoins; decide +kernel, rfl⟩
  exact departure_behind_ignored hrun (.inl rfl) (by decide +kernel)

/-- The first order comes back behind us under its id, and its second cancel brings us forward. -/
theorem reused_id_advances :
    let s := (behindTwo.next { type := .cancel, orderId := 1 }).next
      { type := .add, orderId := 1, priceTicks := 100, quantity := 3 }
    Run Step behindTwo [{ type := .cancel, orderId := 1 },
        { type := .add, orderId := 1, priceTicks := 100, quantity := 3 }] s ∧
      1 ∈ s.joined ∧ s.model.ahead = 5 ∧
      (s.model.onEvent { type := .cancel, orderId := 1 } s.book).ahead = 2 := by
  intro s
  have hrun : Run Step behindTwo (([] ++ [_]) ++ [_]) s := .next (.next .start rfl) rfl
  exact ⟨hrun, by decide +kernel, by decide +kernel, by decide +kernel⟩

end Following

end MarketEngine.Research
