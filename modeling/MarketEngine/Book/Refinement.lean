import MarketEngine.Book.Invariant
import MarketEngine.Book.PriceTime
import MarketEngine.Book.Views

/-! # The book refines price-time priority

A book that keeps its invariant represents the price-time book of its resting
orders. Each event takes it to a book that represents the result of the same
event there, unless a `modify` has its new level key refused.
-/

namespace MarketEngine

open Intrusive ProbeTable

variable {c : Capacity}

namespace OrderBook

variable {b b' : OrderBook c} {a a' : PriceTimeBook} {l l₁ l₂ fl fo : List (Index c)}
  {i ℓ : Index c}

/-- The orders in the slots of `l`. -/
def resting (b : OrderBook c) (l : List (Index c)) : List OrderView :=
  l.map fun i => (b.orders.get i).view

/-- The book keeps its invariant with the slots of `l` and shows the orders of `a`. -/
structure Shows (b : OrderBook c) (a : PriceTimeBook) (l fl fo : List (Index c)) : Prop where
  wf : Wf b l fl fo
  capacity : a.capacity = c.val
  resting : a.resting = b.resting l
  nextPriority : a.nextPriority = b.nextPriority
  fillSequence : a.fillSequence = b.fillSequence

/-- The book keeps its invariant and its resting orders are those of `a`. -/
def Represents (b : OrderBook c) (a : PriceTimeBook) : Prop :=
  ∃ l fl fo, Shows b a l fl fo

theorem SameCores.view (h : SameCores b b') (i : Index c) :
    (b'.orders.get i).view = (b.orders.get i).view :=
  (congrArg Order.view (h.core i) :)

theorem resting_congr (h : ∀ i ∈ l, (b'.orders.get i).view = (b.orders.get i).view) :
    b'.resting l = b.resting l :=
  List.map_congr_left h

theorem resting_append : b.resting (l₁ ++ l₂) = b.resting l₁ ++ b.resting l₂ :=
  List.map_append

/-- The other orders of a list have other ids. -/
theorem OrdersOk.split (h : OrdersOk b l fo) (hl : l.Nodup) (hi : i ∈ l) :
    ∃ l₁ l₂, l = l₁ ++ i :: l₂ ∧
      ∀ j ∈ l₁ ++ l₂, j ≠ i ∧ (b.orders.get j).id ≠ (b.orders.get i).id := by
  obtain ⟨l₁, l₂, rfl⟩ := List.append_of_mem hi
  refine ⟨l₁, l₂, rfl, fun j hj => ?_⟩
  have hne : j ≠ i := by grind
  exact ⟨hne, fun hid => hne (h.id_inj (by grind) hi hid)⟩

/-! ## Looking up an order -/

theorem Shows.find_none (h : Shows b a l fl fo) {id : OrderId}
    (hfind : b.findOrderIndex id = none) : a.find id = none := by
  rw [PriceTimeBook.find, h.resting, List.find?_eq_none]
  rw [h.wf.orders.find_eq_none_iff] at hfind
  intro o ho
  obtain ⟨i, hi, rfl⟩ := List.mem_map.mp ho
  rw [decide_eq_true_eq]
  exact hfind i hi

theorem Shows.find_some (h : Shows b a l fl fo) {id : OrderId}
    (hfind : b.findOrderIndex id = some i) : a.find id = some (b.orders.get i).view := by
  rw [h.wf.orders.find_eq_some_iff] at hfind
  obtain ⟨hi, rfl⟩ := hfind
  obtain ⟨l₁, l₂, rfl, hother⟩ := h.wf.orders.split h.wf.linked.queues.nodup hi
  rw [PriceTimeBook.find, h.resting, List.find?_eq_some_iff_append]
  refine ⟨by simp, b.resting l₁, b.resting l₂, by simp [OrderBook.resting], ?_⟩
  intro o ho
  obtain ⟨j, hj, rfl⟩ := List.mem_map.mp ho
  rw [Bool.not_eq_true', decide_eq_false_iff_not]
  exact (hother j (by simp [hj])).2

/-- Orders are found by id in the book as in the list. -/
theorem Shows.find_eq (h : Shows b a l fl fo) (id : OrderId) :
    a.find id = (b.findOrderIndex id).map fun i => (b.orders.get i).view := by
  cases hfind : b.findOrderIndex id with
  | none => exact h.find_none hfind
  | some i => exact h.find_some hfind

theorem Shows.length_eq (h : Shows b a l fl fo) : a.resting.length = l.length := by
  rw [h.resting, OrderBook.resting, List.length_map]

/-! ## Removing an order -/

/-- Take an order out of the book; `cancel` and a whole fill both end up with this. -/
def removed (b : OrderBook c) (i : Index c) (id : OrderId) : OrderBook c :=
  let b := ((b.unlink i).eraseOrderLookup id).freeOrderSlot i
  { b with activeOrders := b.activeOrders - 1 }

theorem cancel_eq {id : OrderId} (hfind : b.findOrderIndex id = some i) :
    b.cancel id = (.applied, b.removed i id) := by
  simp only [cancel, hfind, removed]

theorem removed_order_of_ne {id : OrderId} {j : Index c} (hj : j ≠ i) :
    ((b.removed i id).orders.get j).core = (b.orders.get j).core := by
  simp only [removed, freeOrderSlot, eraseOrderLookup, Pool.get_modify_of_ne _ _ hj]
  exact (unlink_sameCores b i).core j

theorem removed_sameIndex (b : OrderBook c) (i : Index c) (id : OrderId) :
    SameIndex (b.unlink i) (b.removed i id) :=
  ⟨fun _ => rfl, rfl, rfl, rfl, rfl, rfl, rfl⟩

theorem without_resting (hother : ∀ j ∈ l₁ ++ l₂, (b.orders.get j).id ≠ (b.orders.get i).id) :
    (b.resting (l₁ ++ i :: l₂)).filter (fun o => o.id ≠ (b.orders.get i).id) =
      b.resting (l₁ ++ l₂) := by
  have hkeep : ∀ l', (∀ j ∈ l', j ∈ l₁ ++ l₂) →
      (b.resting l').filter (fun o => o.id ≠ (b.orders.get i).id) = b.resting l' := by
    intro l' hl'
    rw [List.filter_eq_self]
    intro o ho
    obtain ⟨j, hj, rfl⟩ := List.mem_map.mp ho
    rw [decide_eq_true_eq]
    exact hother j (hl' j hj)
  rw [resting_append, List.filter_append, hkeep l₁ (by simp +contextual), resting_append]
  congr 1
  rw [OrderBook.resting, List.map_cons, List.filter_cons_of_neg (by simp)]
  exact hkeep l₂ (by simp +contextual)

theorem removed_shows (h : Shows b a (l₁ ++ i :: l₂) fl fo)
    (hother : ∀ j ∈ l₁ ++ l₂, j ≠ i ∧ (b.orders.get j).id ≠ (b.orders.get i).id) :
    ∃ fl', Shows (b.removed i (b.orders.get i).id) (a.without (b.orders.get i).id)
      (l₁ ++ l₂) fl' (i :: fo) := by
  have hnodup := h.wf.linked.queues.nodup
  have hsame := unlink_sameCores b i
  obtain ⟨fl', hlinked⟩ := unlink_linked h.wf.linked
  refine ⟨fl', ⟨⟨?_, ?_, ?_⟩, ?_⟩, h.capacity, ?_, ?_, ?_⟩
  · exact hlinked.levels.congr (removed_sameIndex b i _)
  · refine hlinked.queues.congr_orders (fun j hj => ?_) fun m => rfl
    simp only [removed, freeOrderSlot, eraseOrderLookup, Pool.get_modify_of_ne _ _ (hother j hj).1]
  · intro m hm
    have : (b.removed i (b.orders.get i).id).fifo (l₁ ++ l₂) m =
        (b.unlink i).fifo (l₁ ++ l₂) m := by
      apply fifo_congr
      intro j hj
      simp only [removed, freeOrderSlot, eraseOrderLookup,
        Pool.get_modify_of_ne _ _ (hother j hj).1]
    rw [this]
    exact hlinked.nonempty m hm
  · refine h.wf.orders.unregister hnodup ?_ ?_ (fun j hj => ?_) ?_ rfl ?_
    · simp only [removed, freeOrderSlot, Pool.get_modify_self]
    · simp only [removed, freeOrderSlot, Pool.get_modify_self]
      exact hsame.freeOrder
    · exact (congrArg Order.entry (removed_order_of_ne hj) :)
    · simp only [removed, freeOrderSlot, eraseOrderLookup, hsame.orderLookup]
    · simp only [removed, freeOrderSlot, eraseOrderLookup, hsame.activeOrders]
  · rw [PriceTimeBook.without, h.resting]
    refine (without_resting fun j hj => (hother j hj).2).trans (resting_congr fun j hj => ?_).symm
    exact (congrArg Order.view (removed_order_of_ne (hother j hj).1) :)
  · exact h.nextPriority.trans hsame.nextPriority.symm
  · exact h.fillSequence.trans hsame.fillSequence.symm

/-- `cancel` refines its abstract counterpart. -/
theorem Represents.cancel (h : Represents b a) (id : OrderId) :
    (b.cancel id).1 = (a.cancel id).1 ∧ Represents (b.cancel id).2 (a.cancel id).2 := by
  obtain ⟨l, fl, fo, h⟩ := h
  cases hfind : b.findOrderIndex id with
  | none =>
    simp only [OrderBook.cancel, PriceTimeBook.cancel, hfind, h.find_none hfind]
    exact ⟨trivial, l, fl, fo, h⟩
  | some i =>
    rw [cancel_eq hfind]
    simp only [PriceTimeBook.cancel, h.find_some hfind]
    obtain ⟨hi, rfl⟩ := h.wf.orders.find_eq_some_iff.mp hfind
    obtain ⟨l₁, l₂, rfl, hother⟩ := h.wf.orders.split h.wf.linked.queues.nodup hi
    obtain ⟨fl', hshows⟩ := removed_shows h hother
    exact ⟨trivial, _, _, _, hshows⟩

/-! ## Resting an order -/

theorem OrdersOk.free_none (h : OrdersOk b l fo) (hfree : b.freeOrder = none) : fo = [] := by
  have hchain := h.chain
  rw [hfree] at hchain
  exact hchain.eq_nil

theorem OrdersOk.free_some (h : OrdersOk b l fo) (hfree : b.freeOrder = some i) :
    ∃ rest, fo = i :: rest := by
  have hchain := h.chain
  rw [hfree] at hchain
  obtain ⟨rest, rfl, -⟩ := hchain.eq_cons
  exact ⟨rest, rfl⟩

/-- An acquired level was not refused. -/
theorem Acquired.not_refused {side : Side} {price : Price}
    (h : Acquired b fl side price (some ℓ) b') (hlevels : LevelsOk b fl) :
    b.levelRefused side price = false := by
  cases h with
  | found _ hactive hkey =>
    rw [← Bool.not_eq_true, levelRefused_iff, hlevels.find_eq_some_iff.mpr ⟨hactive, hkey⟩]
    simp
  | opened _ _ _ _ hrefused => exact hrefused

/-- With an order to spare, only a refused key keeps a level from being acquired. -/
theorem Acquired.levelRefused {side : Side} {price : Price}
    (h : Acquired b fl side price none b') (hlinked : Linked b l fl) (hi : i ∉ l) :
    b.levelRefused side price = true := by
  cases h with
  | exhausted _ hfree => exact absurd hfree (hlinked.free_ne_nil hi)
  | refused _ hrefused => exact hrefused

/-- A free slot becomes the latest arrival at an acquired level. -/
theorem Shows.enter {id : OrderId} {side : Side} {price : Price} {q : Quantity}
    {rest : List (Index c)} (h : Shows b a l fl (i :: rest)) (hfind : b.findOrderIndex id = none)
    (hacquired : Acquired b fl side price (some ℓ) b') :
    ∃ b'' : OrderBook c,
      ((b'.takeOrderSlot i id side price q ℓ).linkTail i ℓ).insertOrderLookup id i = (true, b'') ∧
      Represents { b'' with activeOrders := b''.activeOrders + 1 } (a.enter id side price q) := by
  have horders := hacquired.sameOrders
  obtain ⟨⟨fl', hlevels⟩, hqueues, hactive, hkey, hother⟩ := hacquired.linked_some h.wf.linked
  have hinactive : (b.orders.get i).active = false :=
    (h.wf.orders.free_iff i).mp List.mem_cons_self
  have hi : i ∉ l := by
    rw [h.wf.orders.mem_iff, hinactive]
    simp
  have hne : ∀ j ∈ l, j ≠ i := fun j hj he => hi (he ▸ hj)
  let b₂ := b'.takeOrderSlot i id side price q ℓ
  have hget : ∀ j, b₂.orders.get j = if j = i then
      { id := id, price := price, quantity := q, priority := b.nextPriority, level := some ℓ,
        side := side, active := true }
      else b.orders.get j := by
    intro j
    simp only [b₂, takeOrderSlot, Pool.get_set, horders.orders, horders.nextPriority]
  have hself := hget i
  rw [if_pos rfl] at hself
  have hlinked : Linked (b₂.linkTail i ℓ) (l ++ [i]) fl' := by
    apply linkTail_linked
    · exact hlevels.congr ⟨fun _ => rfl, rfl, rfl, rfl, rfl, rfl, rfl⟩
    · refine hqueues.congr_orders (fun j hj => ?_) fun m => rfl
      rw [hget, if_neg (hne j hj), horders.orders]
    · exact hi
    · rw [hself]
    · exact hactive
    · rw [hself]
      exact hkey
    · intro m hm hma
      have hfifo : b₂.fifo l m = b'.fifo l m := fifo_congr fun j hj => by
        rw [hget, if_neg (hne j hj), horders.orders]
      rw [hfifo]
      exact hother m hm hma
  have hsame := linkTail_sameCores b₂ i ℓ
  have hresting : (b₂.linkTail i ℓ).resting (l ++ [i]) =
      a.resting ++ [⟨id, side, price, q, a.nextPriority⟩] := by
    rw [resting_append, h.resting]
    congr 1
    · refine resting_congr fun j hj => (hsame.view j).trans ?_
      rw [hget, if_neg (hne j hj)]
    · rw [OrderBook.resting, List.map_singleton, hsame.view, hself, Order.view, h.nextPriority]
  obtain ⟨slot, hslot, hinsert⟩ := h.wf.orders.destination id
  refine ⟨_, hinsert _ (hsame.orderLookup.trans horders.orderLookup) i, l ++ [i], fl', rest,
    ⟨?_, ?_⟩, h.capacity, ?_, ?_, ?_⟩
  · exact hlinked.congr ⟨fun _ => rfl, rfl, rfl, rfl, rfl, rfl, rfl⟩ (fun _ => rfl) fun _ _ => rfl
  · refine h.wf.orders.register hfind hslot (fun j => ?_) rfl ?_ ?_
    · apply (congrArg Order.entry (hsame.core j) :).trans
      show (b₂.orders.get j).entry = _
      rw [hget]
      split <;> rfl
    · exact hsame.freeOrder.trans (by simp only [b₂, takeOrderSlot, horders.orders])
    · exact congrArg (· + 1) (hsame.activeOrders.trans horders.activeOrders)
  · exact hresting.symm
  · exact (congrArg (· + 1) (h.nextPriority.trans horders.nextPriority.symm)).trans
      hsame.nextPriority.symm
  · exact h.fillSequence.trans (hsame.fillSequence.trans horders.fillSequence).symm

/-- A refused level key leaves the book as it was. -/
theorem Shows.of_refused {side : Side} {price : Price} (h : Shows b a l fl fo)
    (hacquired : Acquired b fl side price none b') : Shows b' a l fl fo := by
  have horders := hacquired.sameOrders
  refine ⟨⟨hacquired.linked_none h.wf.linked, h.wf.orders.congr_cores horders.sameCores⟩,
    h.capacity, ?_, ?_, ?_⟩
  · exact h.resting.trans (resting_congr fun j _ => horders.sameCores.view j).symm
  · exact h.nextPriority.trans horders.nextPriority.symm
  · exact h.fillSequence.trans horders.fillSequence.symm

/-- `restOrder` refines its abstract counterpart. -/
theorem Represents.rest (h : Represents b a) (id : OrderId) (side : Side) (price : Price)
    (q : Quantity) :
    (b.restOrder id side price q).1 = (a.rest (b.restRefused id side price q) id side price q).1 ∧
      Represents (b.restOrder id side price q).2
        (a.rest (b.restRefused id side price q) id side price q).2 := by
  obtain ⟨l, fl, fo, h⟩ := h
  by_cases hq : q = 0
  · simp only [restOrder, PriceTimeBook.rest, hq, if_true]
    exact ⟨trivial, l, fl, fo, h⟩
  cases hfind : b.findOrderIndex id with
  | some i =>
    simp only [restOrder, PriceTimeBook.rest, hq, if_false, hfind, h.find_some hfind,
      Option.isSome_some, if_true]
    exact ⟨trivial, l, fl, fo, h⟩
  | none =>
    have hlen := h.wf.orders.length_add h.wf.linked.queues.nodup
    simp only [restOrder, PriceTimeBook.rest, hq, if_false, hfind, h.find_none hfind,
      Option.isSome_none, Bool.false_eq_true, h.length_eq, h.capacity]
    cases hfree : b.freeOrder with
    | none =>
      rw [h.wf.orders.free_none hfree, List.length_nil, Nat.add_zero] at hlen
      simp only [hlen, true_or, if_true]
      exact ⟨trivial, l, fl, fo, h⟩
    | some i =>
      obtain ⟨rest, rfl⟩ := h.wf.orders.free_some hfree
      have hi : i ∉ l := by
        rw [h.wf.orders.mem_iff, (h.wf.orders.free_iff i).mp List.mem_cons_self]
        simp
      have hroom : l.length ≠ c.val := by
        rw [List.length_cons] at hlen
        omega
      have hrefused : b.restRefused id side price q = b.levelRefused side price := by
        simp [restRefused, hq, hfind, hfree]
      have hacquired := acquireLevel_acquired h.wf.linked.levels side price
      rw [hrefused]
      simp only [hroom, false_or]
      rcases hal : b.acquireLevel side price with ⟨_ | ℓ, b'⟩ <;> rw [hal] at hacquired
      · rw [if_pos (hacquired.levelRefused h.wf.linked hi)]
        exact ⟨rfl, l, fl, _, h.of_refused hacquired⟩
      · rw [if_neg (by simp [hacquired.not_refused h.wf.linked.levels])]
        obtain ⟨b'', hinsert, hrep⟩ := h.enter (q := q) hfind hacquired
        simp only [hinsert]
        exact ⟨trivial, hrep⟩

/-! ## Changing a quantity -/

/-- What a change of quantity in place does to the lists. -/
theorem Shows.requantify (h : Shows b a l fl fo) (hi : i ∈ l)
    (hℓ : (b.orders.get i).level = some ℓ) {q : Quantity} (hindex : SameIndex b b')
    (horder : ∀ j, b'.orders.get j =
      if j = i then { b.orders.get j with quantity := q } else b.orders.get j)
    (hlevel : ∀ m, b'.levels.get m = if m = ℓ then { b.levels.get m with
        totalQuantity := (b.levels.get m).totalQuantity - (b.orders.get i).quantity + q }
      else b.levels.get m)
    (hlookup : b'.orderLookup = b.orderLookup) (hfree : b'.freeOrder = b.freeOrder)
    (hcount : b'.activeOrders = b.activeOrders) (hpriority : b'.nextPriority = b.nextPriority)
    (hfill : b'.fillSequence = b.fillSequence) :
    Shows b' (a.requantify (b.orders.get i).id q) l fl fo := by
  refine ⟨⟨requantify_linked h.wf.linked hi hℓ hindex horder hlevel,
    h.wf.orders.congr (fun j => ?_) hlookup hfree hcount (.refl l)⟩, h.capacity, ?_,
    h.nextPriority.trans hpriority.symm, h.fillSequence.trans hfill.symm⟩
  · rw [horder]
    split <;> rfl
  · rw [PriceTimeBook.requantify, h.resting, OrderBook.resting, OrderBook.resting, List.map_map]
    apply List.map_congr_left
    intro j hj
    rw [Function.comp_apply, horder]
    by_cases hji : j = i
    · subst hji
      rw [if_pos rfl, if_pos rfl]
    · have hid : (b.orders.get j).view.id ≠ (b.orders.get i).id :=
        fun hid => hji (h.wf.orders.id_inj hj hi hid)
      rw [if_neg hid, if_neg hji]

/-- `trade` refines its abstract counterpart. -/
theorem Represents.trade (h : Represents b a) (id : OrderId) (quantity : Quantity) :
    (b.trade id quantity).1 = (a.trade id quantity).1 ∧
      Represents (b.trade id quantity).2 (a.trade id quantity).2 := by
  have hcancel := h.cancel id
  obtain ⟨l, fl, fo, h⟩ := h
  by_cases hq : quantity = 0
  · simp only [OrderBook.trade, PriceTimeBook.trade, hq, if_true]
    exact ⟨trivial, l, fl, fo, h⟩
  cases hfind : b.findOrderIndex id with
  | none =>
    simp only [OrderBook.trade, PriceTimeBook.trade, hq, if_false, hfind, h.find_none hfind]
    exact ⟨trivial, l, fl, fo, h⟩
  | some i =>
    simp only [OrderBook.trade, PriceTimeBook.trade, hq, if_false, hfind, h.find_some hfind]
    by_cases hgt : quantity > (b.orders.get i).quantity
    · simp only [hgt, if_true]
      exact ⟨trivial, l, fl, fo, h⟩
    by_cases heq : quantity = (b.orders.get i).quantity
    · rw [if_neg hgt, if_pos heq, if_neg hgt, if_pos heq]
      simpa only [PriceTimeBook.cancel, h.find_some hfind] using hcancel
    simp only [hgt, heq, if_false]
    obtain ⟨hi, rfl⟩ := h.wf.orders.find_eq_some_iff.mp hfind
    obtain ⟨ℓ, hℓ, -, -⟩ := h.wf.linked.queues.linked i hi
    simp only [hℓ]
    refine ⟨trivial, l, fl, fo, ?_⟩
    refine h.requantify hi hℓ ⟨fun m => ?_, rfl, rfl, rfl, rfl, rfl, rfl⟩ (fun j => ?_)
      (fun m => ?_) rfl rfl rfl rfl rfl
    · simp only [Pool.get_modify]
      split <;> rfl
    · simp only [Pool.get_modify]
      split
      · next hj => rw [hj]
      · rfl
    · simp only [Pool.get_modify]
      split
      · congr 1
        grind
      · rfl

/-! ## Moving an order -/

theorem LevelsOk.free_none (h : LevelsOk b fl) (hfree : b.freeLevel = none) : fl = [] := by
  have hchain := h.chain
  rw [hfree] at hchain
  exact hchain.eq_nil

/-- The precheck of `modify` never fires: without a free level every order is alone. -/
theorem Shows.precheck (h : Shows b a l fl fo) (hi : i ∈ l) (hfree : b.freeLevel = none) :
    ((b.orders.get i).level.any fun level => (b.levels.get level).orderCount > 1) = false := by
  obtain ⟨ℓ, hℓ, hactive, -⟩ := h.wf.linked.queues.linked i hi
  have hone := h.wf.linked.count_le_one (h.wf.linked.levels.free_none hfree) ℓ
  have hcount := (h.wf.linked.queues.queued ℓ hactive).count
  simp only [hℓ, Option.any_some, gt_iff_lt, decide_eq_false_iff_not, hcount,
    UInt64.lt_iff_toNat_lt, UInt64.toNat_ofNat', UInt64.reduceToNat]
  omega

/-- An unlinked order goes to the end of the list with the event's side, price and quantity. -/
theorem Shows.move {event : MarketDataEvent} {b₁ b₂ : OrderBook c} {fl' : List (Index c)}
    (h : Shows b a (l₁ ++ i :: l₂) fl fo)
    (hother : ∀ j ∈ l₁ ++ l₂, j ≠ i ∧ (b.orders.get j).id ≠ (b.orders.get i).id)
    (hlinked : Linked b₁ (l₁ ++ l₂) fl') (hcores : SameCores b b₁)
    (hacquired : Acquired b₁ fl' event.side event.priceTicks (some ℓ) b₂) :
    Represents ((b₂.moveOrder i event ℓ).linkTail i ℓ)
      ((a.without (b.orders.get i).id).enter (b.orders.get i).id event.side event.priceTicks
        event.quantity) := by
  have hsame₂ := hcores.trans hacquired.sameOrders.sameCores
  obtain ⟨⟨fl₂, hlevels⟩, hqueues, hactive, hkey, hempty⟩ := hacquired.linked_some hlinked
  have hi : i ∉ l₁ ++ l₂ := fun hi => (hother i hi).1 rfl
  let b₃ := b₂.moveOrder i event ℓ
  have hget : ∀ j, j ≠ i → b₃.orders.get j = b₂.orders.get j := by
    intro j hj
    simp only [b₃, moveOrder, Pool.get_modify_of_ne _ _ hj]
  have hself : b₃.orders.get i = { b₂.orders.get i with
      side := event.side, price := event.priceTicks, quantity := event.quantity,
      priority := b₂.nextPriority, level := some ℓ } := by
    simp only [b₃, moveOrder, Pool.get_modify_self]
  have hsame := linkTail_sameCores b₃ i ℓ
  have hid : (b₂.orders.get i).id = (b.orders.get i).id := (congrArg Order.id (hsame₂.core i) :)
  have hresting : (b₃.linkTail i ℓ).resting (l₁ ++ l₂ ++ [i]) = b.resting (l₁ ++ l₂) ++
      [⟨(b.orders.get i).id, event.side, event.priceTicks, event.quantity, a.nextPriority⟩] := by
    rw [resting_append]
    congr 1
    · refine resting_congr fun j hj => (hsame.view j).trans ?_
      rw [hget j (hother j hj).1, hsame₂.view]
    · rw [OrderBook.resting, List.map_singleton, hsame.view, hself, Order.view, h.nextPriority]
      simp only [hid, hsame₂.nextPriority]
  refine ⟨l₁ ++ l₂ ++ [i], fl₂, fo, ⟨?_, ?_⟩, h.capacity, ?_, ?_, ?_⟩
  · apply linkTail_linked
    · exact hlevels.congr ⟨fun _ => rfl, rfl, rfl, rfl, rfl, rfl, rfl⟩
    · exact hqueues.congr_orders (fun j hj => hget j (hother j hj).1) fun m => rfl
    · exact hi
    · rw [hself]
    · exact hactive
    · rw [hself]
      exact hkey
    · intro m hm hma
      have hfifo : b₃.fifo (l₁ ++ l₂) m = b₂.fifo (l₁ ++ l₂) m :=
        fifo_congr fun j hj => by rw [hget j (hother j hj).1]
      rw [hfifo]
      exact hempty m hm hma
  · refine h.wf.orders.congr (fun j => ?_) (hsame.orderLookup.trans hsame₂.orderLookup)
      (hsame.freeOrder.trans hsame₂.freeOrder) (hsame.activeOrders.trans hsame₂.activeOrders) ?_
    · apply (congrArg Order.entry (hsame.core j) :).trans
      refine Eq.trans ?_ (congrArg Order.entry (hsame₂.core j) :)
      by_cases hj : j = i
      · subst hj
        rw [hself]
        rfl
      · rw [hget j hj]
    · rw [List.append_assoc]
      exact (List.perm_append_singleton i l₂).append_left l₁
  · rw [PriceTimeBook.enter, PriceTimeBook.without]
    dsimp only
    rw [h.resting, without_resting fun j hj => (hother j hj).2]
    exact hresting.symm
  · exact congrArg (· + 1) (h.nextPriority.trans hsame₂.nextPriority.symm)
  · exact h.fillSequence.trans hsame₂.fillSequence.symm

/-- `modify` refines its abstract counterpart if its new level key is not refused. -/
theorem Represents.modify (h : Represents b a) {event : MarketDataEvent}
    (hrefused : b.modifyRefused event = false) :
    (b.modify event).1 = (a.modify event).1 ∧
      Represents (b.modify event).2 (a.modify event).2 := by
  obtain ⟨l, fl, fo, h⟩ := h
  by_cases hq : event.quantity = 0
  · simp only [OrderBook.modify, PriceTimeBook.modify, hq, if_true]
    exact ⟨trivial, l, fl, fo, h⟩
  cases hfind : b.findOrderIndex event.orderId with
  | none =>
    simp only [OrderBook.modify, PriceTimeBook.modify, hq, if_false, hfind, h.find_none hfind]
    exact ⟨trivial, l, fl, fo, h⟩
  | some i =>
    simp only [OrderBook.modify, PriceTimeBook.modify, hq, if_false, hfind, h.find_some hfind]
    obtain ⟨hi, hid⟩ := h.wf.orders.find_eq_some_iff.mp hfind
    obtain ⟨ℓ, hℓ, -, -⟩ := h.wf.linked.queues.linked i hi
    by_cases hsame : (b.orders.get i).side = event.side ∧
        (b.orders.get i).price = event.priceTicks
    · rw [if_pos hsame, if_pos hsame]
      simp only [hℓ, ← hid]
      refine ⟨trivial, l, fl, fo, ?_⟩
      refine h.requantify hi hℓ ⟨fun m => ?_, rfl, rfl, rfl, rfl, rfl, rfl⟩ (fun j => ?_)
        (fun m => ?_) rfl rfl rfl rfl rfl
      · simp only [Pool.get_modify]
        split <;> rfl
      · dsimp only
        rw [Pool.get_modify]
      · dsimp only
        rw [Pool.get_modify]
    · have hpre : ¬ (b.findLevelIndex event.side event.priceTicks = none ∧ b.freeLevel = none ∧
          ((b.orders.get i).level.any fun level =>
            (b.levels.get level).orderCount > 1) = true) := by
        rintro ⟨-, hfree, hany⟩
        rw [h.precheck hi hfree] at hany
        cases hany
      rw [if_neg hsame, if_neg hpre, if_neg hsame]
      obtain ⟨l₁, l₂, rfl, hother⟩ := h.wf.orders.split h.wf.linked.queues.nodup hi
      obtain ⟨fl', hlinked⟩ := unlink_linked h.wf.linked
      have hacquired := acquireLevel_acquired hlinked.levels event.side event.priceTicks
      rcases hal : (b.unlink i).acquireLevel event.side event.priceTicks with ⟨_ | ℓ', b'⟩ <;>
        rw [hal] at hacquired
      · have := hacquired.levelRefused hlinked fun hi' => (hother i hi').1 rfl
        simp only [modifyRefused, hfind, hsame, hpre, this] at hrefused
        exact absurd (by simpa using hrefused) hq
      · rw [← hid]
        exact ⟨rfl, h.move hother hlinked (unlink_sameCores b i) hacquired⟩

/-! ## Events -/

/-- `replace` refines its abstract counterpart. -/
theorem Represents.replace (h : Represents b a) (event : MarketDataEvent) :
    (b.replace event).1 = (a.replace (b.replaceRefused event) event).1 ∧
      Represents (b.replace event).2 (a.replace (b.replaceRefused event) event).2 := by
  have hcancel := (h.cancel event.orderId).2
  have hrep := h
  obtain ⟨l, fl, fo, h⟩ := h
  by_cases hq : event.quantity = 0
  · simp only [OrderBook.replace, PriceTimeBook.replace, hq, if_true]
    exact ⟨trivial, hrep⟩
  cases hfind : b.findOrderIndex event.orderId with
  | none =>
    simp only [OrderBook.replace, PriceTimeBook.replace, hq, if_false, hfind, h.find_none hfind]
    exact ⟨trivial, hrep⟩
  | some i =>
    have hisSome : (a.find event.newOrderId).isSome =
        (b.findOrderIndex event.newOrderId).isSome := by
      rw [h.find_eq, Option.isSome_map]
    simp only [OrderBook.replace, PriceTimeBook.replace, hq, if_false, hfind, h.find_some hfind,
      hisSome]
    by_cases hdup : event.newOrderId ≠ event.orderId ∧
        (b.findOrderIndex event.newOrderId).isSome = true
    · rw [if_pos hdup, if_pos hdup]
      exact ⟨rfl, hrep⟩
    · rw [if_neg hdup, if_neg hdup]
      have hrefused : b.replaceRefused event =
          (b.cancel event.orderId).2.restRefused event.newOrderId (b.orders.get i).side
            event.priceTicks event.quantity := by
        simp [replaceRefused, hq, hfind, hdup]
      rw [hrefused]
      simp only [PriceTimeBook.cancel, h.find_some hfind] at hcancel
      exact hcancel.rest _ _ _ _

/-- Every event refines its abstract counterpart, but for a refused `modify`. -/
theorem Represents.processEvent (h : Represents b a) (event : MarketDataEvent)
    (hrefused : ¬ (event.type = .modify ∧ b.eventRefused event = true)) :
    (b.processEvent event).1 = (a.process (b.eventRefused event) event).1 ∧
      Represents (b.processEvent event).2 (a.process (b.eventRefused event) event).2 := by
  unfold OrderBook.processEvent PriceTimeBook.process
  cases htype : event.type <;> simp only [eventRefused, htype] at hrefused ⊢
  · exact h.rest _ _ _ _
  · exact h.modify (by simpa using hrefused)
  · exact h.cancel _
  · exact h.trade _ _
  · exact h.trade _ _
  · exact h.replace _

end OrderBook

end MarketEngine
