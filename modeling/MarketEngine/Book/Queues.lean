import MarketEngine.Book.Levels

/-! # The queues of the levels

The linked orders of a book are listed by arrival. The queue of a level is the
part of that list whose orders point at the level, and each level in use keeps
its queue in a doubly linked list, with its length and total quantity.
-/

namespace MarketEngine

open Intrusive

variable {c : Capacity}

/-- The key of the level an order belongs to. -/
def Order.key (order : Order c) : LevelKey := ⟨order.side, order.price⟩

/-- An order without its links. -/
def Order.core (order : Order c) : Order c := { order with prev := none, next := none }

namespace OrderBook

variable {b b' b'' : OrderBook c} {free l l₁ l₂ : List (Index c)} {i ℓ : Index c}

/-- The orders of `l` that point at level `ℓ`. -/
def fifo (b : OrderBook c) (l : List (Index c)) (ℓ : Index c) : List (Index c) :=
  l.filter fun i => (b.orders.get i).level = some ℓ

/-- The total quantity of some orders, in `uint64_t`. -/
def totalOf (b : OrderBook c) (l : List (Index c)) : Quantity :=
  (l.map fun i => (b.orders.get i).quantity).sum

/-- Level `ℓ` keeps its queue. -/
structure Queued (b : OrderBook c) (l : List (Index c)) (ℓ : Index c) : Prop where
  links : DList (fun i => (b.orders.get i).next) (fun i => (b.orders.get i).prev)
    (b.levels.get ℓ).head (b.levels.get ℓ).tail (b.fifo l ℓ)
  total : (b.levels.get ℓ).totalQuantity = b.totalOf (b.fifo l ℓ)
  count : (b.levels.get ℓ).orderCount = UInt64.ofNat (b.fifo l ℓ).length

/-- The linked orders are those of `l`, each queued at the level of its side and price. -/
structure QueuesOk (b : OrderBook c) (l : List (Index c)) : Prop where
  nodup : l.Nodup
  linked : ∀ i ∈ l, ∃ ℓ, (b.orders.get i).level = some ℓ ∧ (b.levels.get ℓ).active = true ∧
    (b.levels.get ℓ).key = (b.orders.get i).key
  queued : ∀ ℓ, (b.levels.get ℓ).active = true → b.Queued l ℓ

/-- The orders are the same ones but for their links. -/
structure SameCores (b b' : OrderBook c) : Prop where
  core : ∀ i, (b'.orders.get i).core = (b.orders.get i).core
  orderLookup : b'.orderLookup = b.orderLookup
  freeOrder : b'.freeOrder = b.freeOrder
  activeOrders : b'.activeOrders = b.activeOrders
  nextPriority : b'.nextPriority = b.nextPriority
  fillSequence : b'.fillSequence = b.fillSequence

theorem SameOrders.sameCores (h : SameOrders b b') : SameCores b b' :=
  ⟨fun i => by rw [h.orders], h.orderLookup, h.freeOrder, h.activeOrders, h.nextPriority,
    h.fillSequence⟩

theorem SameCores.trans (h : SameCores b b') (h' : SameCores b' b'') : SameCores b b'' :=
  ⟨fun i => (h'.core i).trans (h.core i), h'.orderLookup.trans h.orderLookup,
    h'.freeOrder.trans h.freeOrder, h'.activeOrders.trans h.activeOrders,
    h'.nextPriority.trans h.nextPriority, h'.fillSequence.trans h.fillSequence⟩

theorem mem_fifo : i ∈ b.fifo l ℓ ↔ i ∈ l ∧ (b.orders.get i).level = some ℓ := by
  simp [fifo]

theorem fifo_append : b.fifo (l₁ ++ l₂) ℓ = b.fifo l₁ ℓ ++ b.fifo l₂ ℓ := List.filter_append ..

theorem fifo_cons_self (h : (b.orders.get i).level = some ℓ) :
    b.fifo (i :: l) ℓ = i :: b.fifo l ℓ := by
  simp [fifo, h]

theorem fifo_cons_of_ne (h : (b.orders.get i).level ≠ some ℓ) :
    b.fifo (i :: l) ℓ = b.fifo l ℓ := by
  simp [fifo, h]

theorem fifo_congr (h : ∀ i ∈ l, (b'.orders.get i).level = (b.orders.get i).level) :
    b'.fifo l ℓ = b.fifo l ℓ :=
  List.filter_congr fun i hi => by rw [h i hi]

theorem totalOf_congr (h : ∀ i ∈ l, (b'.orders.get i).quantity = (b.orders.get i).quantity) :
    b'.totalOf l = b.totalOf l := by
  rw [totalOf, totalOf, List.map_congr_left h]

theorem totalOf_append : b.totalOf (l₁ ++ l₂) = b.totalOf l₁ + b.totalOf l₂ := by
  rw [totalOf, List.map_append, List.sum_append]
  rfl

theorem totalOf_cons : b.totalOf (i :: l) = (b.orders.get i).quantity + b.totalOf l := by
  rw [totalOf, List.map_cons, List.sum_cons]
  rfl

theorem QueuesOk.nodup_fifo (h : QueuesOk b l) (ℓ : Index c) : (b.fifo l ℓ).Nodup :=
  h.nodup.filter _

/-- A linked order is queued at the level it points at. -/
theorem QueuesOk.level_active (h : QueuesOk b l) (hi : i ∈ l)
    (hℓ : (b.orders.get i).level = some ℓ) :
    (b.levels.get ℓ).active = true ∧ (b.levels.get ℓ).key = (b.orders.get i).key := by
  obtain ⟨m, hm, hactive, hkey⟩ := h.linked i hi
  rw [hℓ] at hm
  injection hm with hm
  subst hm
  exact ⟨hactive, hkey⟩

/-- There are at most as many linked orders as slots. -/
theorem QueuesOk.length_le (h : QueuesOk b l) : l.length ≤ c.val := by
  simpa using h.nodup.length_le_card

theorem QueuesOk.fifo_length_le (h : QueuesOk b l) (ℓ : Index c) :
    (b.fifo l ℓ).length ≤ c.val :=
  (List.length_filter_le ..).trans h.length_le

/-- A level whose order count is zero has no orders. -/
theorem QueuesOk.fifo_eq_nil (h : QueuesOk b l) (hactive : (b.levels.get ℓ).active = true)
    (hcount : (b.levels.get ℓ).orderCount = 0) : b.fifo l ℓ = [] := by
  have hlen := h.fifo_length_le ℓ
  have hle := c.le
  have hzero := congrArg UInt64.toNat ((h.queued ℓ hactive).count.symm.trans hcount)
  rw [npos] at hle
  rw [UInt64.toNat_ofNat', Nat.mod_eq_of_lt (by omega)] at hzero
  exact List.eq_nil_of_length_eq_zero hzero

/-- A queue depends on its orders and its level alone. -/
theorem Queued.congr (h : b.Queued l ℓ) (horders : b'.orders = b.orders)
    (hcore : (b'.levels.get ℓ).core = (b.levels.get ℓ).core) : b'.Queued l ℓ where
  links := by
    have hhead : (b'.levels.get ℓ).head = (b.levels.get ℓ).head := (congrArg Level.head hcore :)
    have htail : (b'.levels.get ℓ).tail = (b.levels.get ℓ).tail := (congrArg Level.tail hcore :)
    rw [hhead, htail, fifo, horders]
    exact h.links
  total := by
    rw [totalOf, fifo, horders]
    exact (congrArg Level.totalQuantity hcore :).trans h.total
  count := by
    rw [fifo, horders]
    exact (congrArg Level.orderCount hcore :).trans h.count

/-! ## Linking -/

theorem linkTail_level_of_ne {m : Index c} (hm : m ≠ ℓ) :
    (b.linkTail i ℓ).levels.get m = b.levels.get m :=
  Pool.get_set_of_ne _ _ hm

theorem linkTail_sameIndex (b : OrderBook c) (i ℓ : Index c) : SameIndex b (b.linkTail i ℓ) where
  shell m := by
    simp only [linkTail, Pool.get_set]
    split
    · next hm => rw [hm]; rfl
    · rfl
  levelLookup := rfl
  freeLevel := rfl
  bidHeap := rfl
  askHeap := rfl
  bidHeapSize := rfl
  askHeapSize := rfl

theorem linkTail_sameCores (b : OrderBook c) (i ℓ : Index c) : SameCores b (b.linkTail i ℓ) where
  core j := by
    simp only [linkTail]
    split
    · simp only [Pool.get_modify]
      split_ifs <;> rfl
    · simp only [Pool.get_modify]
      split_ifs <;> rfl
  orderLookup := rfl
  freeOrder := rfl
  activeOrders := rfl
  nextPriority := rfl
  fillSequence := rfl

theorem linkTail_next (hi : (b.levels.get ℓ).tail ≠ some i) (j : Index c) :
    ((b.linkTail i ℓ).orders.get j).next = if j = i then none
      else if (b.levels.get ℓ).tail = some j then some i else (b.orders.get j).next := by
  cases ht : (b.levels.get ℓ).tail with
  | none =>
    simp only [linkTail, ht, Pool.get_modify, reduceCtorEq, if_false]
    split <;> rfl
  | some t =>
    rw [ht] at hi
    have hti : t ≠ i := fun he => hi (by rw [he])
    simp only [linkTail, ht, Pool.get_modify, Option.some.injEq]
    by_cases hjt : j = t
    · subst hjt
      simp [hti]
    · by_cases hji : j = i
      · simp [hji, Ne.symm hti]
      · simp [hjt, hji, Ne.symm hjt]

theorem linkTail_prev (j : Index c) :
    ((b.linkTail i ℓ).orders.get j).prev =
      if j = i then (b.levels.get ℓ).tail else (b.orders.get j).prev := by
  simp only [linkTail]
  split
  · simp only [Pool.get_modify]
    split_ifs <;> rfl
  · simp only [Pool.get_modify]
    split_ifs <;> rfl

theorem SameCores.level (h : SameCores b b') (i : Index c) :
    (b'.orders.get i).level = (b.orders.get i).level :=
  (congrArg Order.level (h.core i) :)

theorem SameCores.key (h : SameCores b b') (i : Index c) :
    (b'.orders.get i).key = (b.orders.get i).key :=
  (congrArg Order.key (h.core i) :)

theorem SameCores.quantity (h : SameCores b b') (i : Index c) :
    (b'.orders.get i).quantity = (b.orders.get i).quantity :=
  (congrArg Order.quantity (h.core i) :)

theorem SameCores.fifo (h : SameCores b b') : b'.fifo l ℓ = b.fifo l ℓ :=
  fifo_congr fun i _ => h.level i

theorem SameCores.totalOf (h : SameCores b b') : b'.totalOf l = b.totalOf l :=
  totalOf_congr fun i _ => h.quantity i

/-- The tail of a queue is one of its orders. -/
theorem Queued.tail_mem (h : b.Queued l ℓ) (ht : (b.levels.get ℓ).tail = some i) :
    i ∈ b.fifo l ℓ := by
  rw [h.links.tail_eq] at ht
  exact List.mem_of_getLast? ht

/-- Two levels share no order. -/
theorem not_mem_fifo {m : Index c} (hm : m ≠ ℓ) (hi : i ∈ b.fifo l ℓ) : i ∉ b.fifo l m := by
  intro hi'
  have := (mem_fifo.mp hi).2.symm.trans (mem_fifo.mp hi').2
  exact hm (Option.some.inj this).symm

theorem linkTail_queued (h : b.Queued l ℓ) (hl : l.Nodup) (hi : i ∉ l)
    (hℓ : (b.orders.get i).level = some ℓ) : (b.linkTail i ℓ).Queued (l ++ [i]) ℓ := by
  have hsame := linkTail_sameCores b i ℓ
  have hne : (b.levels.get ℓ).tail ≠ some i := fun ht => hi (mem_fifo.mp (h.tail_mem ht)).1
  have hnot : i ∉ b.fifo l ℓ := fun he => hi (mem_fifo.mp he).1
  have hfifo : (b.linkTail i ℓ).fifo (l ++ [i]) ℓ = b.fifo l ℓ ++ [i] := by
    rw [hsame.fifo, fifo_append, fifo_cons_self hℓ]
    rfl
  have hlevel : (b.linkTail i ℓ).levels.get ℓ = { b.levels.get ℓ with
      head := if (b.levels.get ℓ).tail = none then some i else (b.levels.get ℓ).head
      tail := some i
      totalQuantity := (b.levels.get ℓ).totalQuantity + (b.orders.get i).quantity
      orderCount := (b.levels.get ℓ).orderCount + 1 } := Pool.get_set_self ..
  constructor
  · rw [hfifo, hlevel]
    apply h.links.append (hl.filter _) hnot
    · rw [linkTail_prev, if_pos rfl]
    · rw [linkTail_next hne, if_pos rfl]
    · intro j hj
      rw [linkTail_next hne, if_neg]
      exact fun he => hnot (he ▸ hj)
    · intro j hj
      rw [linkTail_prev, if_neg]
      exact fun he => hnot (he ▸ hj)
  · rw [hfifo, hlevel, hsame.totalOf, totalOf_append, totalOf_cons]
    simp only [totalOf, List.map_nil, List.sum_nil, UInt64.add_zero]
    rw [h.total]
    rfl
  · rw [hfifo, hlevel, List.length_append, UInt64.ofNat_add]
    simp only [h.count]
    rfl

theorem linkTail_ok (h : QueuesOk b l) (hi : i ∉ l) (hℓ : (b.orders.get i).level = some ℓ)
    (hactive : (b.levels.get ℓ).active = true)
    (hkey : (b.levels.get ℓ).key = (b.orders.get i).key) :
    QueuesOk (b.linkTail i ℓ) (l ++ [i]) := by
  have hsame := linkTail_sameCores b i ℓ
  have hindex := linkTail_sameIndex b i ℓ
  have htail : ∀ {j}, (b.levels.get ℓ).tail = some j → j ∈ b.fifo l ℓ :=
    (h.queued ℓ hactive).tail_mem
  have hne : (b.levels.get ℓ).tail ≠ some i := fun ht => hi (mem_fifo.mp (htail ht)).1
  constructor
  · exact List.nodup_append.mpr ⟨h.nodup, List.nodup_singleton i, by
      rintro j hj k hk rfl
      exact hi (List.mem_singleton.mp hk ▸ hj)⟩
  · intro j hj
    rw [hsame.level, hsame.key]
    simp only [hindex.active, hindex.key]
    rcases List.mem_append.mp hj with hj | hj
    · exact h.linked j hj
    · obtain rfl := List.mem_singleton.mp hj
      exact ⟨ℓ, hℓ, hactive, hkey⟩
  · intro m hm
    rw [hindex.active] at hm
    by_cases hmℓ : m = ℓ
    · subst hmℓ
      exact linkTail_queued (h.queued m hm) h.nodup hi hℓ
    · have hq := h.queued m hm
      have hfifo : (b.linkTail i ℓ).fifo (l ++ [i]) m = b.fifo l m := by
        rw [hsame.fifo, fifo_append, fifo_cons_of_ne (by simpa [hℓ] using Ne.symm hmℓ)]
        exact List.append_nil _
      constructor
      · rw [hfifo, linkTail_level_of_ne hmℓ]
        apply hq.links.congr
        · intro j hj
          rw [linkTail_next hne, if_neg, if_neg]
          · exact fun ht => not_mem_fifo hmℓ (htail ht) hj
          · exact fun he => hi (he ▸ (mem_fifo.mp hj).1)
        · intro j hj
          rw [linkTail_prev, if_neg]
          exact fun he => hi (he ▸ (mem_fifo.mp hj).1)
      · rw [hfifo, linkTail_level_of_ne hmℓ, hsame.totalOf]
        exact hq.total
      · rw [hfifo, linkTail_level_of_ne hmℓ]
        exact hq.count

/-! ## Unlinking -/

theorem detach_level_of_ne {m : Index c} (hm : m ≠ ℓ) :
    (b.detach i ℓ).levels.get m = b.levels.get m :=
  Pool.get_set_of_ne _ _ hm

theorem detach_sameIndex (b : OrderBook c) (i ℓ : Index c) : SameIndex b (b.detach i ℓ) where
  shell m := by
    simp only [detach, Pool.get_set]
    split
    · next hm => rw [hm]; rfl
    · rfl
  levelLookup := rfl
  freeLevel := rfl
  bidHeap := rfl
  askHeap := rfl
  bidHeapSize := rfl
  askHeapSize := rfl

theorem detach_sameCores (b : OrderBook c) (i ℓ : Index c) : SameCores b (b.detach i ℓ) where
  core j := by
    simp only [detach]
    split <;> split
    all_goals
      simp only [Pool.get_modify]
      split_ifs <;> rfl
  orderLookup := rfl
  freeOrder := rfl
  activeOrders := rfl
  nextPriority := rfl
  fillSequence := rfl

theorem detach_next {j : Index c} (hj : j ≠ i) :
    ((b.detach i ℓ).orders.get j).next =
      if (b.orders.get i).prev = some j then (b.orders.get i).next
      else (b.orders.get j).next := by
  simp only [detach, Pool.get_modify_of_ne _ _ hj]
  cases hp : (b.orders.get i).prev <;> cases hn : (b.orders.get i).next <;>
    simp only [Pool.get_modify, reduceCtorEq, if_false, Option.some.injEq, @eq_comm _ _ j] <;>
    split_ifs <;> rfl

theorem detach_prev {j : Index c} (hj : j ≠ i) :
    ((b.detach i ℓ).orders.get j).prev =
      if (b.orders.get i).next = some j then (b.orders.get i).prev
      else (b.orders.get j).prev := by
  simp only [detach, Pool.get_modify_of_ne _ _ hj]
  cases hp : (b.orders.get i).prev <;> cases hn : (b.orders.get i).next <;>
    simp only [Pool.get_modify, reduceCtorEq, if_false, Option.some.injEq, @eq_comm _ _ j] <;>
    split_ifs <;> rfl

theorem detach_queued (h : b.Queued (l₁ ++ i :: l₂) ℓ) (hl : (l₁ ++ i :: l₂).Nodup)
    (hℓ : (b.orders.get i).level = some ℓ) : (b.detach i ℓ).Queued (l₁ ++ l₂) ℓ := by
  have hsame := detach_sameCores b i ℓ
  have hsplit : b.fifo (l₁ ++ i :: l₂) ℓ = b.fifo l₁ ℓ ++ i :: b.fifo l₂ ℓ := by
    rw [fifo_append, fifo_cons_self hℓ]
  have hlevel : (b.detach i ℓ).levels.get ℓ = { b.levels.get ℓ with
      head := if (b.orders.get i).prev = none then (b.orders.get i).next
        else (b.levels.get ℓ).head
      tail := if (b.orders.get i).next = none then (b.orders.get i).prev
        else (b.levels.get ℓ).tail
      totalQuantity := (b.levels.get ℓ).totalQuantity - (b.orders.get i).quantity
      orderCount := (b.levels.get ℓ).orderCount - 1 } := Pool.get_set_self ..
  constructor
  · rw [hsame.fifo, fifo_append, hlevel]
    have hlinks := h.links
    rw [hsplit] at hlinks
    apply hlinks.unlink
    · rw [← hsplit]
      exact hl.filter _
    · exact fun j hj => detach_next hj
    · exact fun j hj => detach_prev hj
  · have htotal := h.total
    rw [hsplit, totalOf_append, totalOf_cons] at htotal
    rw [hsame.fifo, fifo_append, hsame.totalOf, totalOf_append, hlevel]
    simp only [htotal]
    grind
  · have hcount := h.count
    rw [hsplit, List.length_append, List.length_cons, ← Nat.add_assoc, UInt64.ofNat_add] at hcount
    rw [hsame.fifo, fifo_append, hlevel, List.length_append]
    simp only [hcount]
    grind

theorem detach_ok (h : QueuesOk b (l₁ ++ i :: l₂)) (hℓ : (b.orders.get i).level = some ℓ) :
    QueuesOk (b.detach i ℓ) (l₁ ++ l₂) := by
  have hsame := detach_sameCores b i ℓ
  have hindex := detach_sameIndex b i ℓ
  have hmem : ∀ {j}, j ∈ l₁ ++ l₂ → j ∈ l₁ ++ i :: l₂ := by
    intro j hj
    simp only [List.mem_append, List.mem_cons] at hj ⊢
    tauto
  have hnot : i ∉ l₁ ++ l₂ := by
    have := h.nodup
    grind
  have hactive := (h.level_active (i := i) (by simp) hℓ).1
  constructor
  · exact h.nodup.sublist (by simp)
  · intro j hj
    rw [hsame.level, hsame.key]
    simp only [hindex.active, hindex.key]
    exact h.linked j (hmem hj)
  · intro m hm
    rw [hindex.active] at hm
    by_cases hmℓ : m = ℓ
    · subst hmℓ
      exact detach_queued (h.queued m hm) h.nodup hℓ
    · have hq := h.queued m hm
      have hfifo : b.fifo (l₁ ++ i :: l₂) m = b.fifo (l₁ ++ l₂) m := by
        rw [fifo_append, fifo_append, fifo_cons_of_ne (by simpa [hℓ] using Ne.symm hmℓ)]
      -- the neighbours of the order are queued with it, so not at another level
      have hqℓ := (h.queued ℓ hactive).links
      rw [fifo_append, fifo_cons_self hℓ] at hqℓ
      obtain ⟨hp, hn⟩ := hqℓ.neighbours
      have hother : ∀ {j}, j ∈ b.fifo (l₁ ++ i :: l₂) m → (b.orders.get j).level ≠ some ℓ := by
        intro j hj he
        exact hmℓ (Option.some.inj ((mem_fifo.mp hj).2.symm.trans he))
      have hself : ∀ {j}, j ∈ b.fifo (l₁ ++ i :: l₂) m → j ≠ i := by
        rintro j hj rfl
        exact hother hj hℓ
      constructor
      · rw [hsame.fifo, detach_level_of_ne hmℓ, ← hfifo]
        apply hq.links.congr
        · intro j hj
          rw [detach_next (hself hj), if_neg]
          exact fun he => hother hj (mem_fifo.mp (List.mem_of_getLast? (hp.symm.trans he))).2
        · intro j hj
          rw [detach_prev (hself hj), if_neg]
          exact fun he => hother hj (mem_fifo.mp (List.mem_of_mem_head? (hn.symm.trans he))).2
      · rw [hsame.fifo, ← hfifo, detach_level_of_ne hmℓ, hsame.totalOf]
        exact hq.total
      · rw [hsame.fifo, ← hfifo, detach_level_of_ne hmℓ]
        exact hq.count

end OrderBook

end MarketEngine
