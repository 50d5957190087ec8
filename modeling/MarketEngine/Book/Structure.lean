import MarketEngine.Book.Exhaustion
import MarketEngine.Book.Wraparound

/-! # The data structures of a reachable book

What the pools, free lists, linked lists and hash indexes hold after a run in
which no `modify` was turned away, in terms of the fields of the source.
-/

namespace MarketEngine

open Intrusive ProbeTable Transition

variable {c : Capacity} {b b' : OrderBook c} {calls : List Call}

namespace OrderBook

/-- Level `ℓ` and the list of its order slots agree. -/
structure LevelSound (b : OrderBook c) (ℓ : Index c) (queue : List (Index c)) : Prop where
  links : DList (fun i => (b.orders.get i).next) (fun i => (b.orders.get i).prev)
    (b.levels.get ℓ).head (b.levels.get ℓ).tail queue
  nodup : queue.Nodup
  mem_iff : ∀ i, i ∈ queue ↔ (b.orders.get i).active = true ∧ (b.orders.get i).level = some ℓ
  side : ∀ i ∈ queue, (b.orders.get i).side = (b.levels.get ℓ).side
  price : ∀ i ∈ queue, (b.orders.get i).price = (b.levels.get ℓ).price
  nonempty : queue ≠ []
  count : (b.levels.get ℓ).orderCount.toNat = queue.length
  total : (b.levels.get ℓ).totalQuantity = (queue.map fun i => (b.orders.get i).quantity).sum

/-- Priorities grow from head to tail. -/
def Prioritized (b : OrderBook c) (queue : List (Index c)) : Prop :=
  queue.Pairwise fun i j => (b.orders.get i).priority < (b.orders.get j).priority

/-- The representation invariant of the book; priorities grow along the lists if `aged`. -/
structure Sound (b : OrderBook c) (aged : Prop) : Prop where
  freeOrders : ∃ free, Chain (fun i => (b.orders.get i).nextFree) b.freeOrder free ∧
    free.Nodup ∧ ∀ i, i ∈ free ↔ (b.orders.get i).active = false
  freeLevels : ∃ free, Chain (fun i => (b.levels.get i).nextFree) b.freeLevel free ∧
    free.Nodup ∧ ∀ i, i ∈ free ↔ (b.levels.get i).active = false
  levels : ∀ ℓ, (b.levels.get ℓ).active = true → ∃ queue, b.LevelSound ℓ queue ∧
    (aged → b.Prioritized queue)
  onLevel : ∀ i, (b.orders.get i).active = true →
    ∃ ℓ, (b.orders.get i).level = some ℓ ∧ (b.levels.get ℓ).active = true
  distinct : ∀ ℓ m, (b.levels.get ℓ).active = true → (b.levels.get m).active = true →
    (b.levels.get ℓ).side = (b.levels.get m).side →
    (b.levels.get ℓ).price = (b.levels.get m).price → ℓ = m
  orderEntries : ∀ id i, Maps b.orderLookup id i ↔
    (b.orders.get i).active = true ∧ (b.orders.get i).id = id
  orderLookup : ∀ id i, b.findOrderIndex id = some i ↔
    (b.orders.get i).active = true ∧ (b.orders.get i).id = id
  levelEntries : ∀ key ℓ, Maps b.levelLookup key ℓ ↔
    (b.levels.get ℓ).active = true ∧ (b.levels.get ℓ).key = key
  levelLookup : ∀ side price ℓ, b.findLevelIndex side price = some ℓ ↔
    (b.levels.get ℓ).active = true ∧ (b.levels.get ℓ).key = ⟨side, price⟩
  activeOrders : b.activeOrders =
    ((List.finRange c.val).filter fun i => (b.orders.get i).active).length
  freeSlots : b.freeOrder ≠ none → b.freeLevel ≠ none

variable {a : PriceTimeBook} {l fl fo : List (Index c)} {n : ℕ}

theorem Shows.levelSound (h : Shows b a l fl fo) {ℓ : Index c}
    (hℓ : (b.levels.get ℓ).active = true) : b.LevelSound ℓ (b.fifo l ℓ) := by
  have hqueues := h.wf.linked.queues
  have hqueued := hqueues.queued ℓ hℓ
  have hkey : ∀ i ∈ b.fifo l ℓ, (b.levels.get ℓ).key = (b.orders.get i).key := fun i hi =>
    (hqueues.level_active (mem_fifo.mp hi).1 (mem_fifo.mp hi).2).2
  have hlen : (b.fifo l ℓ).length < 2 ^ 64 := by
    have hle := (hqueues.fifo_length_le ℓ).trans c.le
    unfold npos at hle
    omega
  refine ⟨hqueued.links, hqueues.nodup_fifo ℓ, fun i => ?_, fun i hi => ?_, fun i hi => ?_,
    h.wf.linked.nonempty ℓ hℓ, ?_, hqueued.total⟩
  · rw [mem_fifo, h.wf.orders.mem_iff]
  · exact (congrArg LevelKey.side (hkey i hi) :).symm
  · exact (congrArg LevelKey.price (hkey i hi) :).symm
  · rw [hqueued.count, UInt64.toNat_ofNat_of_lt' hlen]

theorem Shows.prioritized (h : Shows b a l fl fo) (hage : a.Aged n) (ℓ : Index c) :
    b.Prioritized (b.fifo l ℓ) := by
  have hordered := hage.ordered
  rw [h.resting, OrderBook.resting, List.pairwise_map] at hordered
  exact (hordered.filter _).imp fun hlt => UInt64.lt_iff_toNat_lt.mpr hlt

theorem Represents.sound (h : Represents b a) {aged : Prop} (hage : aged → a.Aged n) :
    Sound b aged := by
  have ⟨l, fl, fo, hshows⟩ := h
  obtain ⟨⟨hlevels, hqueues, hnonempty⟩, horders⟩ := hshows.wf
  refine ⟨⟨fo, horders.chain, horders.nodup, horders.free_iff⟩,
    ⟨fl, hlevels.chain, hlevels.nodup, hlevels.free_iff⟩,
    fun ℓ hℓ => ⟨_, hshows.levelSound hℓ, fun h => hshows.prioritized (hage h) ℓ⟩,
    fun i hi => ?_, fun ℓ m hℓ hm hside hprice => ?_, horders.maps_iff, fun id i => ?_,
    hlevels.maps_iff, fun side price ℓ => ?_, ?_, fun hfree => ?_⟩
  · obtain ⟨ℓ, hℓ, hactive, -⟩ := hqueues.linked i ((horders.mem_iff i).mpr hi)
    exact ⟨ℓ, hℓ, hactive⟩
  · exact hlevels.key_inj hℓ hm ((LevelKey.mk.injEq _ _ _ _).mpr ⟨hside, hprice⟩)
  · rw [horders.find_eq_some_iff, horders.mem_iff]
  · exact hlevels.find_eq_some_iff
  · rw [hshows.perm_active.length_eq]
    exact horders.count
  · obtain ⟨i, hi⟩ := Option.ne_none_iff_exists'.mp hfree
    obtain ⟨rest, rfl⟩ := horders.free_some hi
    apply hshows.wf.linked.freeLevel_ne_none (i := i)
    rw [horders.mem_iff, (horders.free_iff i).mp List.mem_cons_self]
    simp

/-- The call is a `modify` that is turned away for want of capacity. -/
def ExhaustsModify (b : OrderBook c) : Call → Prop
  | .event event => event.type = .modify ∧ (b.processEvent event).1 = .capacityExhausted
  | .submit _ => False

theorem exhaustsModify_of_refuses {call : Call} (h : b.RefusesModify call) :
    b.ExhaustsModify call := by
  cases call with
  | event event =>
    obtain ⟨htype, hrefused⟩ := h
    simp only [eventRefused, htype] at hrefused
    obtain ⟨i, -, -, hresult⟩ := modify_refused hrefused
    refine ⟨htype, ?_⟩
    simp only [processEvent, htype, hresult]
  | submit request => exact h

theorem keepsOrders_of_run (hrun : Run (Guarded (fun b call => ¬ b.ExhaustsModify call) Step)
    (fresh c) calls b) : KeepsOrders c calls b :=
  hrun.mono fun _ _ _ hstep =>
    ⟨fun hrefuses => hstep.1 (exhaustsModify_of_refuses hrefuses), hstep.2⟩

/-- Calls none of which is a `modify` turned away leave a sound book, whose priorities grow along
the lists as long as the calls are fewer than `2 ^ 64`. -/
theorem run_sound (hrun : Run (Guarded (fun b call => ¬ b.ExhaustsModify call) Step) (fresh c)
    calls b) : Sound b (calls.length < 2 ^ 64) := by
  obtain ⟨a, hrep, hage⟩ := (keepsOrders_of_run hrun).represents
  exact hrep.sound hage

/-- A `modify` whose key is not refused never lacks capacity. -/
theorem KeepsKeys.guarded (h : KeepsKeys c calls b) :
    Run (Guarded (fun b call => ¬ b.ExhaustsModify call) Step) (fresh c) calls b := by
  induction h with
  | start => exact .start
  | @next calls b b' call hrun hstep ih =>
    obtain ⟨a, hrep, -⟩ := KeepsOrders.represents (KeepsKeys.keepsOrders hrun)
    refine .next ih ⟨fun hexhausts => ?_, hstep.2⟩
    cases call with
    | submit request => exact hexhausts
    | event event =>
      obtain ⟨htype, hresult⟩ := hexhausts
      have hrefused : b.eventRefused event = false := Bool.eq_false_iff.mpr hstep.1
      have hprocess := (hrep.processEvent event fun hm => hstep.1 hm.2).1
      rw [hrefused, hresult] at hprocess
      have hadd := PriceTimeBook.process_exhausted (hrep.capacity ▸ hrep.length_le) hprocess.symm
      rw [htype] at hadd
      cases hadd.1

/-- An order that is added and moved to the other side. -/
def movedOrder : List MarketDataEvent :=
  [{ type := .add, orderId := 1, priceTicks := 10, quantity := 5 },
    { type := .modify, orderId := 1, side := .sell, priceTicks := 12, quantity := 6 }]

theorem moved_order_sound : Sound ((fresh .two).processAll movedOrder) (2 < 2 ^ 64) :=
  have hrefused : (fresh .two).NeverRefused movedOrder :=
    neverRefused_cons (by decide +kernel) (neverRefused_cons (by decide +kernel) neverRefused_nil)
  run_sound hrefused.keepsKeys.guarded

/-- Once the counter has wrapped the priorities of a level need not grow. -/
theorem wrapped_not_prioritized :
    ∃ calls b, Run (Guarded (fun b call => ¬ b.ExhaustsModify call) Step) (fresh .two) calls b ∧
      ¬ Sound b True := by
  obtain ⟨calls, b, hrun, hrep⟩ := exists_wrapped
  refine ⟨calls, b, hrun.guarded, fun hsound => ?_⟩
  obtain ⟨l, fl, fo, hshows⟩ := hrep
  have hlists : Lists b wrapped l fl := ⟨hshows.wf.linked, hshows.resting⟩
  obtain ⟨ℓ, hℓ, hkey⟩ := (hlists.mem_keys ⟨.sell, 10⟩).mp (by decide)
  obtain ⟨queue, hqueue, hprioritized⟩ := hsound.levels ℓ hℓ
  have hfifo : queue = b.fifo l ℓ :=
    hqueue.links.chain.unique (hshows.levelSound hℓ).links.chain
  have hresting := hlists.filter_key hℓ
  rw [hkey] at hresting
  have hgrow : (b.resting (b.fifo l ℓ)).Pairwise fun o o' => o.priority < o'.priority := by
    rw [OrderBook.resting, List.pairwise_map, ← hfifo]
    exact hprioritized trivial
  rw [← hresting] at hgrow
  exact absurd hgrow (by decide)

/-! ## The digest -/

theorem Represents.stateChecksum_eq (h : Represents b a) :
    b.stateChecksum = MarketEngine.stateChecksum b.ordersInPriority := by
  rw [h.stateChecksum, h.ordersInPriority]
  exact stateChecksum_perm (ordersInPriority_perm a).symm

theorem Represents.nodup_orders (h : Represents b a) : b.ordersInPriority.Nodup := by
  rw [h.ordersInPriority, (ordersInPriority_perm a).nodup_iff]
  exact h.nodup_ids.of_map _

/-- The two ways to the digest agree, so it tells nothing of a book but which orders rest. -/
theorem checksum_of_orders (hrun : Run (Guarded (fun b call => ¬ b.ExhaustsModify call) Step)
      (fresh c) calls b) :
    b.stateChecksum = MarketEngine.stateChecksum b.ordersInPriority ∧
      ∀ (c' : Capacity) (calls' : List Call) (b' : OrderBook c'),
        Run (Guarded (fun b call => ¬ b.ExhaustsModify call) Step) (fresh c') calls' b' →
          (∀ order, order ∈ b.ordersInPriority ↔ order ∈ b'.ordersInPriority) →
            b.stateChecksum = b'.stateChecksum := by
  obtain ⟨a, hrep, -⟩ := (keepsOrders_of_run hrun).represents
  refine ⟨hrep.stateChecksum_eq, ?_⟩
  intro c' calls' b' hrun' horders
  obtain ⟨a', hrep', -⟩ := (keepsOrders_of_run hrun').represents
  rw [hrep.stateChecksum_eq, hrep'.stateChecksum_eq]
  apply stateChecksum_perm
  rw [List.perm_ext_iff_of_nodup hrep.nodup_orders hrep'.nodup_orders]
  exact horders

/-- An order that stays, and one that comes and goes. -/
def passedBy : List MarketDataEvent :=
  [{ type := .add, orderId := 1, priceTicks := 10, quantity := 5 },
    { type := .add, orderId := 2, priceTicks := 11, quantity := 6 },
    { type := .cancel, orderId := 2 }]

theorem passed_by_checksum :
    ((fresh .two).processAll (passedBy.take 1)).stateChecksum =
      ((fresh .three).processAll passedBy).stateChecksum := by
  have hone : (fresh .two).NeverRefused (passedBy.take 1) :=
    neverRefused_cons (by decide +kernel) neverRefused_nil
  have hthree : (fresh .three).NeverRefused passedBy :=
    neverRefused_cons (by decide +kernel) (neverRefused_cons (by decide +kernel)
      (neverRefused_cons (by decide +kernel) neverRefused_nil))
  have hsame : ((fresh .two).processAll (passedBy.take 1)).ordersInPriority =
      ((fresh .three).processAll passedBy).ordersInPriority := by
    decide +kernel
  refine (checksum_of_orders hone.keepsKeys.guarded).2 _ _ _ hthree.keepsKeys.guarded ?_
  intro order
  rw [hsame]

end OrderBook

end MarketEngine
