import MarketEngine.Book.Linked

/-! # The invariant of the book

Every order slot is either free or active, the active orders are indexed by id,
and they are exactly the linked ones. With the invariant of the levels this is
what every operation preserves, as long as no level key is refused in the middle
of a `modify`.
-/

namespace MarketEngine

open Intrusive ProbeTable

variable {c : Capacity}

/-- The fields of an order that the order pool and its index use. -/
def Order.entry (order : Order c) : OrderId × Bool × Option (Index c) :=
  (order.id, order.active, order.nextFree)

/-! ## The table sizes -/

theorem le_growPowerOfTwo (value fuel result : ℕ) (h : value ≤ result * 2 ^ fuel) :
    value ≤ growPowerOfTwo value fuel result := by
  induction fuel generalizing result with
  | zero => simpa [growPowerOfTwo] using h
  | succ fuel ih =>
    unfold growPowerOfTwo
    split
    · apply ih
      rw [Nat.shiftLeft_eq, Nat.mul_assoc, ← Nat.pow_add, Nat.add_comm 1]
      exact h
    · omega

/-- Either hash index has more slots than the book has orders. -/
theorem lt_tableSize (c : Capacity) : c.val < tableSize c := by
  have hle : c.val * 2 ≤ tableSize c :=
    le_growPowerOfTwo _ _ _ (by simpa using Nat.lt_two_pow_self.le)
  have := c.pos
  omega

namespace OrderBook

variable {b b' : OrderBook c} {l l' l₁ l₂ free rest : List (Index c)} {i : Index c}

/-- The order pool, its free list `free` and its index agree; the active orders are those
of `l`. -/
structure OrdersOk (b : OrderBook c) (l free : List (Index c)) : Prop where
  chain : Chain (fun i => (b.orders.get i).nextFree) b.freeOrder free
  nodup : free.Nodup
  free_iff : ∀ i, i ∈ free ↔ (b.orders.get i).active = false
  mem_iff : ∀ i, i ∈ l ↔ (b.orders.get i).active = true
  table : Valid (orderHome c) b.orderLookup
  maps_iff : ∀ id i, Maps b.orderLookup id i ↔
    (b.orders.get i).active = true ∧ (b.orders.get i).id = id
  count : b.activeOrders = l.length

/-- The invariant of the book: `l` lists the resting orders by arrival. -/
structure Wf (b : OrderBook c) (l freeLevels freeOrders : List (Index c)) : Prop where
  linked : Linked b l freeLevels
  orders : OrdersOk b l freeOrders

theorem OrdersOk.find_eq_some_iff (h : OrdersOk b l free) {id : OrderId} :
    b.findOrderIndex id = some i ↔ i ∈ l ∧ (b.orders.get i).id = id := by
  rw [findOrderIndex, h.table.lookup_eq_some_iff, h.maps_iff, h.mem_iff]

theorem OrdersOk.find_eq_none_iff (h : OrdersOk b l free) {id : OrderId} :
    b.findOrderIndex id = none ↔ ∀ i ∈ l, (b.orders.get i).id ≠ id := by
  simp only [findOrderIndex, h.table.lookup_eq_none_iff, h.maps_iff, not_and, ← h.mem_iff]

/-- Only one active order has a given id. -/
theorem OrdersOk.id_inj (h : OrdersOk b l free) {j : Index c} (hi : i ∈ l) (hj : j ∈ l)
    (hid : (b.orders.get i).id = (b.orders.get j).id) : i = j :=
  h.table.maps_unique ((h.maps_iff _ i).mpr ⟨(h.mem_iff i).mp hi, hid⟩)
    ((h.maps_iff _ j).mpr ⟨(h.mem_iff j).mp hj, rfl⟩)

/-- What the order pool knows of an order is its id, whether it is active and its free link. -/
theorem Order.of_entry_eq {order order' : Order c} (h : order.entry = order'.entry) :
    order.id = order'.id ∧ order.active = order'.active ∧ order.nextFree = order'.nextFree := by
  simpa only [Order.entry, Prod.mk.injEq] using h

/-- Prices, quantities and links are of no concern to the order pool. -/
theorem OrdersOk.congr (h : OrdersOk b l free)
    (hentry : ∀ i, (b'.orders.get i).entry = (b.orders.get i).entry)
    (hlookup : b'.orderLookup = b.orderLookup) (hfree : b'.freeOrder = b.freeOrder)
    (hcount : b'.activeOrders = b.activeOrders) (hl : l'.Perm l) : OrdersOk b' l' free := by
  have hid (i : Index c) := (Order.of_entry_eq (hentry i)).1
  have hactive (i : Index c) := (Order.of_entry_eq (hentry i)).2.1
  constructor
  · rw [hfree]
    exact h.chain.congr fun i _ => (Order.of_entry_eq (hentry i)).2.2
  · exact h.nodup
  · intro i
    rw [hactive, h.free_iff]
  · intro i
    rw [hactive, hl.mem_iff, h.mem_iff]
  · rw [hlookup]
    exact h.table
  · intro id i
    rw [hlookup, hactive, hid, h.maps_iff]
  · rw [hcount, h.count, hl.length_eq]

theorem OrdersOk.congr_cores (h : OrdersOk b l free) (hs : SameCores b b') :
    OrdersOk b' l free :=
  h.congr (fun i => (congrArg Order.entry (hs.core i) :)) hs.orderLookup hs.freeOrder
    hs.activeOrders (.refl l)

/-- Every slot is either free or taken by an order of the list. -/
theorem OrdersOk.length_add (h : OrdersOk b l free) (hl : l.Nodup) :
    l.length + free.length = c.val := by
  have hnodup : (l ++ free).Nodup := by
    refine List.nodup_append.mpr ⟨hl, h.nodup, ?_⟩
    rintro i hi j hj rfl
    rw [h.free_iff] at hj
    rw [h.mem_iff, hj] at hi
    cases hi
  have hmem : ∀ i, i ∈ l ++ free := by
    intro i
    rw [List.mem_append, h.mem_iff, h.free_iff]
    cases (b.orders.get i).active <;> simp
  have hcard := List.toFinset_card_of_nodup hnodup
  rw [Finset.eq_univ_iff_forall.mpr fun i => List.mem_toFinset.mpr (hmem i), Finset.card_univ,
    Fintype.card_fin, List.length_append] at hcard
  exact hcard.symm

/-! ## Adding and removing an order -/

/-- There is always room in the order index for another id. -/
theorem OrdersOk.destination (h : OrdersOk b l free) (id : OrderId) :
    ∃ slot, Reachable (orderHome c) b.orderLookup id slot ∧
      ∀ b' : OrderBook c, b'.orderLookup = b.orderLookup → ∀ i, b'.insertOrderLookup id i =
        (true, { b' with orderLookup := b.orderLookup.set slot (.occupied id i) }) := by
  cases hd : ProbeTable.destination b.orderLookup (tableSize c) (orderHome c id) none with
  | ok slot =>
    refine ⟨slot, reachable_of_ok hd, fun b' hb' i => ?_⟩
    simp only [insertOrderLookup, hb', hd]
  | error o =>
    cases o with
    | some slot =>
      refine ⟨slot, reachable_of_error hd, fun b' hb' i => ?_⟩
      simp only [insertOrderLookup, hb', hd]
    | none =>
      have hcard := h.table.card_le_of_occupied
        (fun k k' i hk hk' => ((h.maps_iff k i).mp hk).2.symm.trans ((h.maps_iff k' i).mp hk').2)
        (not_free_of_error_none hd)
      rw [Fintype.card_fin] at hcard
      exact absurd (lt_tableSize c) (not_lt.mpr hcard)

/-- The first free slot becomes an active order with a new id. -/
theorem OrdersOk.register (h : OrdersOk b l (i :: rest)) {id : OrderId}
    (hid : b.findOrderIndex id = none) {slot : Fin (tableSize c)}
    (hslot : Reachable (orderHome c) b.orderLookup id slot)
    (hentry : ∀ j, (b'.orders.get j).entry =
      if j = i then (id, true, none) else (b.orders.get j).entry)
    (hlookup : b'.orderLookup = b.orderLookup.set slot (.occupied id i))
    (hfree : b'.freeOrder = (b.orders.get i).nextFree)
    (hcount : b'.activeOrders = b.activeOrders + 1) : OrdersOk b' (l ++ [i]) rest := by
  obtain ⟨hi, hrest⟩ := List.nodup_cons.mp h.nodup
  have hinactive : (b.orders.get i).active = false := (h.free_iff i).mp List.mem_cons_self
  obtain ⟨hselfId, hselfActive, -⟩ :
      (b'.orders.get i).id = id ∧ (b'.orders.get i).active = true ∧ _ := by
    simpa only [Order.entry, if_true, Prod.mk.injEq] using hentry i
  have hother : ∀ j, j ≠ i → (b'.orders.get j).entry = (b.orders.get j).entry :=
    fun j hj => by rw [hentry, if_neg hj]
  have hactive : ∀ j, (b'.orders.get j).active = true ↔
      j = i ∨ (b.orders.get j).active = true := by
    intro j
    by_cases hj : j = i
    · subst hj
      simp [hselfActive]
    · simp [hj, (Order.of_entry_eq (hother j hj)).2.1]
  constructor
  · rw [hfree]
    apply h.chain.2.congr
    intro j hj
    exact (Order.of_entry_eq (hother j fun he => hi (he ▸ hj))).2.2
  · exact hrest
  · intro j
    rw [← Bool.not_eq_true, hactive, not_or, Bool.not_eq_true, ← h.free_iff, List.mem_cons]
    constructor
    · intro hj
      refine ⟨?_, .inr hj⟩
      rintro rfl
      exact hi hj
    · exact fun hj => hj.2.resolve_left hj.1
  · intro j
    rw [hactive, List.mem_append, List.mem_singleton, h.mem_iff]
    exact or_comm
  · rw [hlookup]
    exact h.table.set hslot fun w => h.table.lookup_eq_none_iff.mp hid w
  · intro k j
    rw [hlookup, maps_set hslot.free, h.maps_iff, hactive]
    by_cases hj : j = i
    · subst hj
      simp [hinactive, hselfId, eq_comm]
    · simp [hj, (Order.of_entry_eq (hother j hj)).1]
  · rw [hcount, h.count, List.length_append, List.length_singleton]

/-- An active order becomes the first free slot. -/
theorem OrdersOk.unregister (h : OrdersOk b (l₁ ++ i :: l₂) free) (hl : (l₁ ++ i :: l₂).Nodup)
    (hactive : (b'.orders.get i).active = false)
    (hnext : (b'.orders.get i).nextFree = b.freeOrder)
    (hother : ∀ j, j ≠ i → (b'.orders.get j).entry = (b.orders.get j).entry)
    (hlookup : b'.orderLookup = ProbeTable.erase b.orderLookup
      (orderHome c (b.orders.get i).id) (b.orders.get i).id)
    (hfree : b'.freeOrder = some i) (hcount : b'.activeOrders = b.activeOrders - 1) :
    OrdersOk b' (l₁ ++ l₂) (i :: free) := by
  have hmem : i ∈ l₁ ++ i :: l₂ := by simp
  have hi : (b.orders.get i).active = true := (h.mem_iff i).mp hmem
  have hnot : i ∉ free := by
    rw [h.free_iff, hi]
    simp
  have hactive' : ∀ j, (b'.orders.get j).active = true ↔
      j ≠ i ∧ (b.orders.get j).active = true := by
    intro j
    by_cases hj : j = i
    · subst hj
      simp [hactive]
    · simp [hj, (Order.of_entry_eq (hother j hj)).2.1]
  constructor
  · rw [hfree]
    apply h.chain.push hnext
    intro j hj
    exact (Order.of_entry_eq (hother j fun he => hnot (he ▸ hj))).2.2
  · exact List.nodup_cons.mpr ⟨hnot, h.nodup⟩
  · intro j
    rw [List.mem_cons, h.free_iff, ← Bool.not_eq_true, ← Bool.not_eq_true, hactive']
    tauto
  · intro j
    rw [hactive', ← h.mem_iff]
    grind
  · rw [hlookup]
    exact h.table.erase _
  · intro k j
    rw [hlookup, h.table.maps_erase, h.maps_iff, hactive']
    by_cases hj : j = i
    · subst hj
      simp only [ne_eq, not_true_eq_false, false_and, iff_false, not_and]
      exact fun hne _ he => hne he.symm
    · rw [(Order.of_entry_eq (hother j hj)).1]
      constructor
      · rintro ⟨_, ha, hk⟩
        exact ⟨⟨hj, ha⟩, hk⟩
      · rintro ⟨⟨_, ha⟩, rfl⟩
        refine ⟨fun he => hj ?_, ha, rfl⟩
        exact h.id_inj ((h.mem_iff j).mpr ha) hmem he
  · rw [hcount, h.count]
    simp

end OrderBook

end MarketEngine
