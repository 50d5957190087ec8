import MarketEngine.Book.Runs
import MarketEngine.Reference.Mirror

/-! # Apply mode against the reference book

As long as no level key is refused, an order book and the reference book answer
every event alike and show the same orders and levels.
-/

namespace MarketEngine

variable {c : Capacity} {orders : RefOrders} {a : PriceTimeBook} {ref : ReferenceBook} {n : ℕ}

theorem OrderView.before_iff (o o' : OrderView) : o.before o' = true ↔ o.rank < o'.rank := by
  rw [rank, rank, Prod.Lex.toLex_lt_toLex, LevelKey.rank_lt_iff, LevelKey.rank_injective.eq_iff]
  obtain ⟨_, s, p, _, q⟩ := o
  obtain ⟨_, s', p', _, q'⟩ := o'
  by_cases hp : p = p'
  · subst hp
    cases s <;> cases s' <;> simp [before, key, UInt64.lt_iff_toNat_lt]
  · cases s <;> cases s' <;> simp [before, key, Side.rank, Int64.lt_iff_toInt_lt, hp]

/-- Sorting the entries of the map gives the priority list. -/
theorem Mirrors.orderViews_eq (h : Mirrors orders a.resting) (hage : a.Aged n) :
    sortBy OrderView.before orders.views = a.ordersInPriority :=
  Sorting.sortBy_eq OrderView.before_iff
    (h.views_perm.trans (OrderBook.ordersInPriority_perm a).symm) hage.ordered_priority

namespace ReferenceBook

/-- The reference book is a price-time book that never has a level key refused. -/
structure Follows (ref : ReferenceBook) (a : PriceTimeBook) : Prop where
  orders : Mirrors ref.orders a.resting
  capacity : ref.capacity = a.capacity
  nextPriority : ref.nextPriority = a.nextPriority
  length_le : a.resting.length ≤ a.capacity

namespace Follows

theorem empty (c : Capacity) : Follows { capacity := c.val } (.empty c) :=
  ⟨.empty, rfl, rfl, Nat.zero_le _⟩

theorem without (h : Follows ref a) (id : OrderId) :
    Follows { ref with orders := ref.orders.erase id } (a.without id) :=
  ⟨h.orders.erase id, h.capacity, h.nextPriority, (List.length_filter_le _ _).trans h.length_le⟩

theorem enter (h : Follows ref a) {id : OrderId} (hid : ref.orders[id]? = none)
    (hlt : a.resting.length < a.capacity) (side : Side) (price : Price) (q : Quantity) :
    Follows { ref with
      orders := ref.orders.insertIfNew id ⟨side, price, q, ref.nextPriority⟩
      nextPriority := ref.nextPriority + 1 } (a.enter id side price q) where
  orders := by
    have := h.orders.insertIfNew hid ⟨side, price, q, ref.nextPriority⟩
    rw [h.nextPriority] at this ⊢
    exact this
  capacity := h.capacity
  nextPriority := congrArg (· + 1) h.nextPriority
  length_le := by
    rw [PriceTimeBook.enter, List.length_append]
    exact hlt

theorem requantify (h : Follows ref a) {id : OrderId} {order : RefOrder}
    (hid : ref.orders[id]? = some order) (q : Quantity) :
    Follows { ref with orders := ref.orders.insert id { order with quantity := q } }
      (a.requantify id q) :=
  ⟨h.orders.insert_quantity hid q, h.capacity, h.nextPriority,
    (List.length_map _).trans_le h.length_le⟩

/-- Taking an order away makes room for another one. -/
theorem length_without_lt (h : Follows ref a) {id : OrderId} {order : RefOrder}
    (hid : ref.orders[id]? = some order) : (a.without id).resting.length < a.capacity := by
  refine (List.length_filter_lt_length_iff_exists.mpr ?_).trans_le h.length_le
  exact ⟨_, (h.orders.lookup id order).mp hid, by simp [RefOrder.view]⟩

theorem add (h : Follows ref a) (event : MarketDataEvent) (htype : event.type = .add) :
    (ref.process event).1 = (a.process false event).1 ∧
      Follows (ref.process event).2 (a.process false event).2 := by
  unfold process PriceTimeBook.process PriceTimeBook.rest
  simp only [htype, h.orders.find_eq, Option.isSome_map, Bool.false_eq_true, or_false]
  by_cases hq : event.quantity = 0
  · simp only [hq, if_true]
    exact ⟨trivial, h⟩
  cases hid : ref.orders[event.orderId]? with
  | some order =>
    simp only [hq, if_false, Option.isSome_some, if_true]
    exact ⟨trivial, h⟩
  | none =>
    simp only [hq, if_false, Option.isSome_none, Bool.false_eq_true]
    have hsize : ref.orders.size = ref.capacity ↔ a.resting.length = a.capacity := by
      rw [h.orders.size_eq, h.capacity]
    by_cases hfull : a.resting.length = a.capacity
    · rw [if_pos (hsize.mpr hfull), if_pos hfull]
      exact ⟨rfl, h⟩
    · rw [if_neg (hsize.not.mpr hfull), if_neg hfull]
      exact ⟨rfl, h.enter hid (lt_of_le_of_ne h.length_le hfull) _ _ _⟩

/-- An event with a quantity of an order that rests: what is left to show is about that order. -/
theorem guarded (h : Follows ref a) (id : OrderId) (quantity : Quantity)
    {f : RefOrder → ProcessResult × ReferenceBook} {g : OrderView → ProcessResult × PriceTimeBook}
    (hfound : quantity ≠ 0 → ∀ order, ref.orders[id]? = some order →
      (f order).1 = (g (order.view id)).1 ∧ Follows (f order).2 (g (order.view id)).2) :
    let r := if quantity = 0 then (.invalidQuantity, ref)
      else match ref.orders[id]? with
        | none => (.orderNotFound, ref)
        | some order => f order
    let s := if quantity = 0 then (.invalidQuantity, a)
      else match a.find id with
        | none => (.orderNotFound, a)
        | some order => g order
    r.1 = s.1 ∧ Follows r.2 s.2 := by
  dsimp only
  rw [h.orders.find_eq]
  by_cases hq : quantity = 0
  · simp only [hq, if_true]
    exact ⟨trivial, h⟩
  · rw [if_neg hq, if_neg hq]
    cases hid : ref.orders[id]? with
    | none => exact ⟨rfl, h⟩
    | some order => exact hfound hq order hid

theorem modify (h : Follows ref a) (event : MarketDataEvent) (htype : event.type = .modify) :
    (ref.process event).1 = (a.process false event).1 ∧
      Follows (ref.process event).2 (a.process false event).2 := by
  unfold process PriceTimeBook.process PriceTimeBook.modify
  simp only [htype]
  apply h.guarded event.orderId event.quantity
  intro _ order hid
  dsimp only [RefOrder.view]
  by_cases hsame : order.side = event.side ∧ order.price = event.priceTicks
  · have hmoved : ¬ (order.side ≠ event.side ∨ order.price ≠ event.priceTicks) := by tauto
    rw [if_pos hsame, if_neg hmoved, ← hsame.1, ← hsame.2]
    exact ⟨rfl, h.requantify hid event.quantity⟩
  · have hmoved : order.side ≠ event.side ∨ order.price ≠ event.priceTicks := by tauto
    rw [if_neg hsame, if_pos hmoved]
    refine ⟨rfl, ?_, h.capacity, congrArg (· + 1) h.nextPriority, ?_⟩
    · have := h.orders.insert_move event.orderId
        ⟨event.side, event.priceTicks, event.quantity, ref.nextPriority⟩
      rw [h.nextPriority] at this ⊢
      exact this
    · rw [PriceTimeBook.enter, List.length_append]
      exact h.length_without_lt hid

theorem cancel (h : Follows ref a) (event : MarketDataEvent) (htype : event.type = .cancel) :
    (ref.process event).1 = (a.process false event).1 ∧
      Follows (ref.process event).2 (a.process false event).2 := by
  unfold process PriceTimeBook.process PriceTimeBook.cancel
  simp only [htype, h.orders.find_eq]
  cases hid : ref.orders[event.orderId]? with
  | none => exact ⟨rfl, h⟩
  | some order => exact ⟨rfl, h.without _⟩

theorem trade (h : Follows ref a) (event : MarketDataEvent)
    (htype : event.type = .trade ∨ event.type = .reduce) :
    (ref.process event).1 = (a.process false event).1 ∧
      Follows (ref.process event).2 (a.process false event).2 := by
  have hprocess : a.process false event = a.trade event.orderId event.quantity := by
    rcases htype with htype | htype <;> simp only [PriceTimeBook.process, htype]
  have hsame : ref.process { event with type := .trade } = ref.process event := by
    rcases htype with htype | htype <;> simp only [process, htype]
  rw [hprocess, ← hsame]
  apply h.guarded event.orderId event.quantity
  intro _ order hid
  dsimp only [RefOrder.view]
  split
  · exact ⟨rfl, h⟩
  · split
    · exact ⟨rfl, h.without _⟩
    · exact ⟨rfl, h.requantify hid _⟩

theorem replace (h : Follows ref a) (event : MarketDataEvent) (htype : event.type = .replace) :
    (ref.process event).1 = (a.process false event).1 ∧
      Follows (ref.process event).2 (a.process false event).2 := by
  unfold process PriceTimeBook.process PriceTimeBook.replace
  simp only [htype]
  apply h.guarded event.orderId event.quantity
  intro hq order hid
  rw [h.orders.find_eq, Option.isSome_map]
  by_cases hdup : event.newOrderId ≠ event.orderId ∧
      (ref.orders[event.newOrderId]?).isSome = true
  · rw [if_pos hdup, if_pos hdup]
    exact ⟨rfl, h⟩
  · rw [if_neg hdup, if_neg hdup]
    have herased := h.without event.orderId
    have hnew : (ref.orders.erase event.orderId)[event.newOrderId]? = none := by
      rw [OrderedMap.lookup_erase]
      split
      · rfl
      · next hne =>
        by_contra hsome
        exact hdup ⟨Ne.symm hne, Option.isSome_iff_ne_none.mpr hsome⟩
    have hlt := h.length_without_lt hid
    have hfind : (a.without event.orderId).find event.newOrderId = none := by
      rw [herased.orders.find_eq]
      exact congrArg _ hnew
    have hroom : ¬ ((a.without event.orderId).resting.length =
        (a.without event.orderId).capacity ∨ false = true) := by
      rw [Bool.false_eq_true, or_false]
      exact hlt.ne
    unfold PriceTimeBook.rest
    rw [if_neg hq, hfind, if_neg (by simp), if_neg hroom]
    exact ⟨rfl, herased.enter hnew hlt _ _ _⟩

/-- Every event keeps the reference book a price-time book. -/
theorem process (h : Follows ref a) (event : MarketDataEvent) :
    (ref.process event).1 = (a.process false event).1 ∧
      Follows (ref.process event).2 (a.process false event).2 := by
  cases htype : event.type with
  | add => exact h.add event htype
  | modify => exact h.modify event htype
  | cancel => exact h.cancel event htype
  | trade => exact h.trade event (.inl htype)
  | reduce => exact h.trade event (.inr htype)
  | replace => exact h.replace event htype

end Follows

/-- The book after a list of events. -/
def processAll (ref : ReferenceBook) (events : List MarketDataEvent) : ReferenceBook :=
  events.foldl (fun ref event => (ref.process event).2) ref

end ReferenceBook

namespace OrderBook

variable {b : OrderBook c} {events pre post : List MarketDataEvent}

/-- An event that is not refused keeps the two books in step. -/
theorem Represents.process_follows (h : Represents b a) (href : ref.Follows a)
    {event : MarketDataEvent} (hrefused : b.eventRefused event = false) :
    (b.processEvent event).1 = (ref.process event).1 ∧
      Represents (b.processEvent event).2 (a.process false event).2 ∧
      (ref.process event).2.Follows (a.process false event).2 := by
  have hbook := h.processEvent event (by simp [hrefused])
  rw [hrefused] at hbook
  have hfollows := href.process event
  exact ⟨hbook.1.trans hfollows.1.symm, hbook.2, hfollows.2⟩

/-- Both books stand for one price-time book after every list of events. -/
theorem processAll_follows (hlen : events.length < 2 ^ 64)
    (hrefused : (fresh c).NeverRefused events) :
    ∃ a : PriceTimeBook, Represents ((fresh c).processAll events) a ∧
      (ReferenceBook.processAll { capacity := c.val } events).Follows a ∧
      a.Aged events.length := by
  induction events using List.reverseRecOn with
  | nil => exact ⟨.empty c, fresh_represents c, .empty c, .empty c⟩
  | append_singleton events event ih =>
    rw [List.length_append, List.length_singleton] at hlen ⊢
    obtain ⟨a, hbook, href, hage⟩ := ih (by omega) hrefused.prefix
    have hstep := hbook.process_follows href (hrefused events event [] rfl)
    refine ⟨_, ?_, ?_, hage.process hlen false event⟩
    · rw [processAll, List.foldl_append]
      exact hstep.2.1
    · rw [ReferenceBook.processAll, List.foldl_append]
      exact hstep.2.2

/-- Apply mode agrees with the reference book on every event of every list. -/
theorem processAll_refines_reference (hlen : events.length < 2 ^ 64)
    (hrefused : (fresh c).NeverRefused events) (pre post : List MarketDataEvent)
    (event : MarketDataEvent) (hsplit : events = pre ++ event :: post) :
    let b := (fresh c).processAll pre
    let ref := ReferenceBook.processAll { capacity := c.val } pre
    (b.processEvent event).1 = (ref.process event).1 ∧
      (b.processEvent event).2.ordersInPriority = (ref.process event).2.orderViews ∧
      (b.processEvent event).2.levelViews = (ref.process event).2.levels := by
  subst hsplit
  rw [List.length_append, List.length_cons] at hlen
  obtain ⟨a, hbook, href, hage⟩ :=
    processAll_follows (c := c) (by omega : pre.length < 2 ^ 64) hrefused.prefix
  obtain ⟨hresult, hbook', href'⟩ :=
    hbook.process_follows href (hrefused pre event post rfl)
  have hage' := hage.process (by omega) false event
  dsimp only
  refine ⟨hresult, ?_, ?_⟩
  · rw [hbook'.ordersInPriority, ReferenceBook.orderViews, href'.orders.orderViews_eq hage']
  · rw [hbook'.levelViews, ReferenceBook.levels, href'.orders.levels_eq]

/-- An order that is added, moved to the other side and replaced. -/
theorem moved_order_refines_reference :
    let c : Capacity := ⟨2, by decide, by decide⟩
    let added : MarketDataEvent := { type := .add, orderId := 1, priceTicks := 10, quantity := 5 }
    let moved : MarketDataEvent :=
      { type := .modify, orderId := 1, side := .sell, priceTicks := 12, quantity := 6 }
    let replaced : MarketDataEvent :=
      { type := .replace, orderId := 1, newOrderId := 2, priceTicks := 13, quantity := 7 }
    let b := (fresh c).processAll [added, moved]
    let ref := ReferenceBook.processAll { capacity := c.val } [added, moved]
    (b.processEvent replaced).1 = (ref.process replaced).1 ∧
      (b.processEvent replaced).2.ordersInPriority = (ref.process replaced).2.orderViews ∧
      (b.processEvent replaced).2.levelViews = (ref.process replaced).2.levels := by
  intro c added moved replaced
  have hrefused : (fresh c).NeverRefused [added, moved, replaced] :=
    neverRefused_cons (by decide +kernel) (neverRefused_cons (by decide +kernel)
      (neverRefused_cons (by decide +kernel) neverRefused_nil))
  exact processAll_refines_reference (by decide) hrefused [added, moved] [] replaced rfl

end OrderBook

end MarketEngine
