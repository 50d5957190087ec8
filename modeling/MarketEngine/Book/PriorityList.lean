import MarketEngine.Book.LevelQueue
import MarketEngine.Kit.KeyOrder

/-! # The priority list

`orders_in_priority()` is in key order and keeps the queue of every level, and
this settles it. So each operation of a price-time book is an operation on its
priority list, and the best maker of a request is the first order of the list
that the request reaches.
-/

namespace MarketEngine

variable {a : PriceTimeBook} {request : OrderRequest} {l : List OrderView} {o : OrderView}

/-- What a request reaches is decided by the level of the order. -/
theorem OrderRequest.reaches_congr {o' : OrderView} (h : o.key = o'.key) :
    request.reaches o = request.reaches o' := by
  obtain ⟨hside, hprice⟩ := LevelKey.mk.inj h
  simp only [reaches, hside, hprice]

namespace PriceTimeBook

theorem priority_eq_groups (a : PriceTimeBook) :
    a.ordersInPriority =
      KeyOrder.groups OrderView.key a.resting (a.levels.map LevelView.key) := by
  rw [KeyOrder.groups, List.flatMap_map]
  rfl

theorem levels_keys (a : PriceTimeBook) :
    (a.levels.map LevelView.key).Pairwise fun k k' => k.rank < k'.rank :=
  List.pairwise_map.mpr (OrderBook.levels_ordered a)

theorem priority_sorted (a : PriceTimeBook) :
    KeyOrder.Sorted OrderView.key LevelKey.rank a.ordersInPriority := by
  rw [priority_eq_groups]
  exact KeyOrder.groups_sorted a.levels_keys

/-- The priority list keeps the queue of every level. -/
theorem priority_queue (a : PriceTimeBook) (key : LevelKey) :
    KeyOrder.queue OrderView.key a.ordersInPriority key = a.queue key := by
  rw [priority_eq_groups]
  by_cases hkey : key ∈ a.levels.map LevelView.key
  · exact KeyOrder.queue_groups (a.levels_keys.imp fun hlt he => absurd (he ▸ hlt) (lt_irrefl _))
      hkey
  · rw [KeyOrder.queue_groups_of_not_mem hkey]
    refine (KeyOrder.queue_eq_nil fun o ho hok => hkey ?_).symm
    refine List.mem_map.mpr ⟨a.levelView key, (OrderBook.mem_levels a _).mpr ⟨?_, rfl⟩, rfl⟩
    exact List.mem_map.mpr ⟨o, ho, hok⟩

/-- The only list in key order with these queues. -/
theorem priority_eq (hsorted : KeyOrder.Sorted OrderView.key LevelKey.rank l)
    (hqueues : ∀ key, KeyOrder.queue OrderView.key l key = a.queue key) :
    a.ordersInPriority = l :=
  a.priority_sorted.eq_of_queues LevelKey.rank_injective hsorted
    fun key => (a.priority_queue key).trans (hqueues key).symm

theorem mem_priority : o ∈ a.ordersInPriority ↔ o ∈ a.resting :=
  (OrderBook.ordersInPriority_perm a).mem_iff

/-! ## Operations on the list -/

/-- A new order takes its place behind all that are no worse. -/
theorem priority_enter (a : PriceTimeBook) (id : OrderId) (side : Side) (price : Price)
    (quantity : Quantity) :
    (a.enter id side price quantity).ordersInPriority =
      KeyOrder.enqueue OrderView.key LevelKey.rank ⟨id, side, price, quantity, a.nextPriority⟩
        a.ordersInPriority := by
  refine priority_eq a.priority_sorted.enqueue fun key => ?_
  rw [a.priority_sorted.queue_enqueue, priority_queue]
  change _ = KeyOrder.queue OrderView.key (a.resting ++ [_]) key
  rw [KeyOrder.queue_append, KeyOrder.queue_cons]
  exact congrArg _ (List.append_nil _).symm

theorem priority_without (a : PriceTimeBook) (id : OrderId) :
    (a.without id).ordersInPriority = a.ordersInPriority.filter fun o => o.id ≠ id := by
  refine priority_eq (a.priority_sorted.filter _) fun key => ?_
  rw [KeyOrder.queue_filter, priority_queue]
  exact (KeyOrder.queue_filter _).symm

theorem priority_requantify (a : PriceTimeBook) (id : OrderId) (quantity : Quantity) :
    (a.requantify id quantity).ordersInPriority =
      a.ordersInPriority.map fun o => if o.id = id then { o with quantity } else o := by
  have hkey : ∀ o : OrderView,
      (if o.id = id then ({ o with quantity } : OrderView) else o).key = o.key := by
    intro o
    split <;> rfl
  refine priority_eq (a.priority_sorted.map hkey) fun key => ?_
  rw [KeyOrder.queue_map hkey, priority_queue]
  exact (KeyOrder.queue_map hkey).symm

/-- The orders that a request reaches, best first. -/
def reached (a : PriceTimeBook) (request : OrderRequest) : List OrderView :=
  a.ordersInPriority.filter request.reaches

/-- The best maker is the first order of the priority list that is reached. -/
theorem bestMaker_eq_head (a : PriceTimeBook) (request : OrderRequest) :
    request.bestMaker a.resting = (a.reached request).head? := by
  cases hreached : a.reached request with
  | nil =>
    refine OrderRequest.bestMaker_eq_none fun o ho => ?_
    rw [← Bool.not_eq_true]
    exact List.filter_eq_nil_iff.mp hreached o (mem_priority.mpr ho)
  | cons o rest =>
    obtain ⟨pre, post, hsplit, hpre, ho, -⟩ := List.filter_eq_cons_iff.mp hreached
    have hsorted := a.priority_sorted
    rw [hsplit] at hsorted
    have hpost := (List.pairwise_cons.mp (List.pairwise_append.mp hsorted).2.1).1
    have hafter : ∀ m ∈ a.resting, request.reaches m = true → o.key.rank ≤ m.key.rank := by
      intro m hm hr
      have hm' := mem_priority.mpr hm
      rw [hsplit] at hm'
      rcases List.mem_append.mp hm' with hm' | hm'
      · exact absurd hr (hpre m hm')
      · rcases List.mem_cons.mp hm' with rfl | hm'
        · exact le_rfl
        · exact hpost m hm'
    -- no order of the same level stands before it
    have hqueue := a.priority_queue o.key
    rw [hsplit, KeyOrder.queue_append, KeyOrder.queue_cons, if_pos rfl,
      KeyOrder.queue_eq_nil fun m hm hmk => hpre m hm (by rw [OrderRequest.reaches_congr hmk, ho]),
      List.nil_append] at hqueue
    obtain ⟨r₁, r₂, hresting, hr₁, -⟩ := List.filter_eq_cons_iff.mp hqueue.symm
    have hside : ∀ m : OrderView, request.reaches m = true → m.key.side = request.side.opposite :=
      fun m hm => (of_decide_eq_true hm).1
    have hrank : ∀ m : OrderView, request.reaches m = true →
        (o.key.rank < m.key.rank ↔ request.prefers o.priceTicks m.priceTicks = true) :=
      fun m hm => (LevelKey.rank_lt_of_side (hside o ho) (hside m hm)).trans
        OrderRequest.prefers_iff.symm
    rw [hresting]
    refine OrderRequest.bestMaker_eq_some ho (fun m hm hr => ?_) fun m hm hr => ?_
    · refine (hrank m hr).mp (lt_of_le_of_ne (hafter m (by simp [hresting, hm]) hr) ?_)
      intro he
      exact hr₁ m hm (by simpa using (LevelKey.rank_injective he).symm)
    · rw [OrderRequest.prefers_eq_false_iff]
      have hle := hafter m (by simp [hresting, hm]) hr
      by_contra hlt
      rw [not_le] at hlt
      exact absurd ((LevelKey.rank_lt_of_side (hside m hr) (hside o ho)).mpr hlt) (not_lt.mpr hle)

end PriceTimeBook

end MarketEngine
