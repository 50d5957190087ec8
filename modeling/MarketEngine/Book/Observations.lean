import MarketEngine.Book.Refinement
import Mathlib.Data.UInt

/-! # What a represented book shows

Every query of a book is answered by the price-time book it represents. A fresh
book represents the empty one.
-/

namespace MarketEngine

open Intrusive ProbeTable

variable {c : Capacity}

/-- The price-time book of a fresh order book. -/
def PriceTimeBook.empty (c : Capacity) : PriceTimeBook where
  capacity := c.val

namespace OrderBook

variable {b : OrderBook c} {a : PriceTimeBook} {l fl fo : List (Index c)} {i ℓ : Index c}

/-! ## The fresh book -/

theorem initial_chain (k : ℕ) (hk : k ≤ c.val) :
    Chain initialNext (if h : k < c.val then some ⟨k, h⟩ else none)
      ((List.finRange c.val).drop k) := by
  induction hn : c.val - k generalizing k with
  | zero =>
    rw [dif_neg (by omega), List.drop_of_length_le (by simp; omega)]
    rfl
  | succ n ih =>
    have hlt : k < c.val := by omega
    rw [dif_pos hlt, List.drop_eq_getElem_cons (by simpa using hlt), List.getElem_finRange]
    exact ⟨rfl, ih (k + 1) (by omega) (by omega)⟩

/-- Every slot is on the initial free list, in index order. -/
theorem fresh_chain (c : Capacity) :
    Chain (initialNext (c := c)) (some 0) (List.finRange c.val) := by
  have h := initial_chain (c := c) 0 (Nat.zero_le _)
  rw [dif_pos c.pos] at h
  exact h

theorem not_maps_empty {κ ν : Type*} {m : ℕ} {key : κ} {value : ν} :
    ¬ Maps (⟨fun _ => .empty⟩ : Pool (ProbeSlot κ ν) m) key value := by
  rintro ⟨s, hs⟩
  cases hs

theorem fresh_wf (c : Capacity) :
    Wf (fresh c) [] (List.finRange c.val) (List.finRange c.val) where
  linked := by
    refine ⟨⟨fresh_chain c, List.nodup_finRange _, fun i => ?_, valid_empty fun _ => rfl,
      fun key i => ?_, fun side => ?_⟩, ⟨List.nodup_nil, by simp, fun ℓ hℓ => ?_⟩,
      fun ℓ hℓ => ?_⟩
    · exact ⟨fun _ => rfl, fun _ => List.mem_finRange i⟩
    · exact ⟨fun h => absurd h not_maps_empty, fun h => Bool.noConfusion h.1⟩
    · have hempty : ∀ i, ¬ (fresh c).ActiveOn side i := fun i h => Bool.noConfusion h.1
      cases side <;>
        exact ⟨Nat.zero_le _, ⟨fun i hi => absurd hi (Nat.not_lt_zero i),
          fun i hi => absurd hi (Nat.not_lt_zero i), fun x hx => absurd hx (hempty x),
          fun x hx => absurd hx (hempty x)⟩, fun i _ hi => absurd hi (Nat.not_lt_zero i)⟩
    · exact Bool.noConfusion hℓ
    · exact Bool.noConfusion hℓ
  orders := by
    refine ⟨fresh_chain c, List.nodup_finRange _, fun i => ?_, fun i => ?_,
      valid_empty fun _ => rfl, fun id i => ?_, rfl⟩
    · exact ⟨fun _ => rfl, fun _ => List.mem_finRange i⟩
    · exact ⟨fun h => absurd h List.not_mem_nil, fun h => Bool.noConfusion h⟩
    · exact ⟨fun h => absurd h not_maps_empty, fun h => Bool.noConfusion h.1⟩

theorem fresh_represents (c : Capacity) : Represents (fresh c) (.empty c) :=
  ⟨_, _, _, fresh_wf c, rfl, rfl, rfl, rfl⟩

/-! ## Orders -/

theorem Represents.findOrder (h : Represents b a) (id : OrderId) : b.findOrder id = a.find id := by
  obtain ⟨l, fl, fo, h⟩ := h
  exact (h.find_eq id).symm

/-- No two resting orders have the same id. -/
theorem Represents.nodup_ids (h : Represents b a) : (a.resting.map OrderView.id).Nodup := by
  obtain ⟨l, fl, fo, h⟩ := h
  rw [h.resting, OrderBook.resting, List.map_map]
  exact List.Nodup.map_on (fun i hi j hj hid => h.wf.orders.id_inj hi hj hid)
    h.wf.linked.queues.nodup

theorem Represents.orderCount (h : Represents b a) : b.orderCount = a.resting.length := by
  obtain ⟨l, fl, fo, h⟩ := h
  rw [h.length_eq]
  exact h.wf.orders.count

theorem Shows.perm_active (h : Shows b a l fl fo) :
    ((List.finRange c.val).filter fun i => (b.orders.get i).active).Perm l := by
  rw [List.perm_ext_iff_of_nodup ((List.nodup_finRange _).filter _) h.wf.linked.queues.nodup]
  intro i
  simp [h.wf.orders.mem_iff]

/-- The digest of the book is that of its resting orders, in any order. -/
theorem Represents.stateChecksum (h : Represents b a) :
    b.stateChecksum = MarketEngine.stateChecksum a.resting := by
  have hcount := h.orderCount
  obtain ⟨l, fl, fo, h⟩ := h
  have hscan : b.stateChecksum =
      (((List.finRange c.val).filter fun i => (b.orders.get i).active).map
        fun i => (b.orders.get i).view).foldl (fun result order => result ^^^ orderChecksum order)
        (checksumMix (UInt64.ofNat b.activeOrders)) := by
    rw [OrderBook.stateChecksum, Pool.toList, List.foldl_map, List.foldl_map, List.foldl_filter]
  have hperm := h.perm_active.map fun i => (b.orders.get i).view
  rw [h.resting, OrderBook.orderCount] at hcount
  rw [hscan, h.resting, OrderBook.resting, ← stateChecksum_perm hperm,
    MarketEngine.stateChecksum, hperm.length_eq, hcount]
  rfl

/-! ## Levels

What the levels and their lists show depends on the links alone. -/

/-- The slots of `l` are linked and hold the resting orders of `a`. -/
structure Lists (b : OrderBook c) (a : PriceTimeBook) (l fl : List (Index c)) : Prop where
  linked : Linked b l fl
  resting : a.resting = b.resting l

theorem Represents.lists (h : Represents b a) : ∃ l fl, Lists b a l fl := by
  obtain ⟨l, fl, fo, h⟩ := h
  exact ⟨l, fl, h.wf.linked, h.resting⟩

/-- The orders of a level by arrival. -/
theorem Lists.filter_key (h : Lists b a l fl) (hℓ : (b.levels.get ℓ).active = true) :
    (a.resting.filter fun o => o.key = (b.levels.get ℓ).key) = b.resting (b.fifo l ℓ) := by
  rw [h.resting, OrderBook.resting, OrderBook.resting, List.filter_map, OrderBook.fifo]
  refine congrArg _ (List.filter_congr fun i hi => ?_)
  obtain ⟨m, hm, hactive, hkey⟩ := h.linked.queues.linked i hi
  rw [Function.comp_apply, Bool.eq_iff_iff, decide_eq_true_iff, decide_eq_true_iff, hm,
    Option.some.injEq]
  constructor
  · exact fun he => h.linked.levels.key_inj hactive hℓ (hkey.trans he)
  · rintro rfl
    exact hkey.symm

theorem Lists.levelView (h : Lists b a l fl) (hℓ : (b.levels.get ℓ).active = true) :
    (b.levels.get ℓ).view = a.levelView (b.levels.get ℓ).key := by
  have hqueued := h.linked.queues.queued ℓ hℓ
  rw [PriceTimeBook.levelView, h.filter_key hℓ, OrderBook.resting, List.map_map,
    List.length_map, Level.view, hqueued.total, hqueued.count]
  rfl

/-- A level is in use exactly when some order has its key. -/
theorem Lists.mem_keys (h : Lists b a l fl) (key : LevelKey) :
    key ∈ a.resting.map OrderView.key ↔
      ∃ ℓ, (b.levels.get ℓ).active = true ∧ (b.levels.get ℓ).key = key := by
  rw [h.resting, OrderBook.resting, List.map_map, List.mem_map]
  constructor
  · rintro ⟨i, hi, rfl⟩
    obtain ⟨ℓ, -, hactive, hkey⟩ := h.linked.queues.linked i hi
    exact ⟨ℓ, hactive, hkey⟩
  · rintro ⟨ℓ, hactive, rfl⟩
    obtain ⟨i, hi⟩ := List.exists_mem_of_ne_nil _ (h.linked.nonempty ℓ hactive)
    obtain ⟨hil, hℓ⟩ := mem_fifo.mp hi
    exact ⟨i, hil, (h.linked.queues.level_active hil hℓ).2.symm⟩

/-- The level index finds the keys of the resting orders. -/
theorem Lists.findLevelIndex_none (h : Lists b a l fl) (side : Side) (price : Price) :
    b.findLevelIndex side price = none ↔ ⟨side, price⟩ ∉ a.resting.map OrderView.key := by
  rw [h.linked.levels.find_eq_none_iff, h.mem_keys]
  simp

theorem levels_nodup (a : PriceTimeBook) :
    (((a.resting.map OrderView.key).dedup.map a.levelView).map
      fun level => level.key.rank).Nodup := by
  rw [List.map_map]
  exact (List.nodup_dedup _).map LevelKey.rank_injective

/-- `levels()` is the list of levels of the represented book. -/
theorem Lists.levelViews (h : Lists b a l fl) : b.levelViews = a.levels := by
  let active := (List.finRange c.val).filter fun ℓ => (b.levels.get ℓ).active
  have hmem : ∀ ℓ, ℓ ∈ active ↔ (b.levels.get ℓ).active = true := by
    intro ℓ
    simp [active]
  have hpool : (b.levels.toList.filter (·.active)).map Level.view =
      (active.map fun ℓ => (b.levels.get ℓ).key).map a.levelView := by
    rw [Pool.toList, List.filter_map, List.map_map, List.map_map]
    exact List.map_congr_left fun ℓ hℓ => h.levelView ((hmem ℓ).mp hℓ)
  have hkeys : (active.map fun ℓ => (b.levels.get ℓ).key).Perm
      (a.resting.map OrderView.key).dedup := by
    have hnodup : (active.map fun ℓ => (b.levels.get ℓ).key).Nodup := by
      refine List.Nodup.map_on (fun ℓ hℓ m hm he => ?_) ((List.nodup_finRange _).filter _)
      exact h.linked.levels.key_inj ((hmem ℓ).mp hℓ) ((hmem m).mp hm) he
    rw [List.perm_ext_iff_of_nodup hnodup (List.nodup_dedup _)]
    intro key
    rw [List.mem_dedup, h.mem_keys, List.mem_map]
    simp only [hmem]
  rw [OrderBook.levelViews, hpool, PriceTimeBook.levels]
  exact Sorting.sortBy_congr LevelView.before_iff (hkeys.map _) (levels_nodup a)

theorem mem_levels (a : PriceTimeBook) (level : LevelView) :
    level ∈ a.levels ↔
      level.key ∈ a.resting.map OrderView.key ∧ a.levelView level.key = level := by
  rw [PriceTimeBook.levels, (Sorting.sortBy_perm _ _).mem_iff, List.mem_map]
  simp only [List.mem_dedup]
  constructor
  · rintro ⟨key, hkey, rfl⟩
    exact ⟨hkey, rfl⟩
  · exact fun h => ⟨level.key, h.1, h.2⟩

theorem levels_ordered (a : PriceTimeBook) :
    a.levels.Pairwise fun v w => v.key.rank < w.key.rank :=
  Sorting.sortBy_ordered LevelView.before_iff (levels_nodup a)

/-! ## Queues -/

theorem walk_eq {q : List (Index c)} {head : Option (Index c)} {fuel : ℕ}
    (h : Chain (fun i => (b.orders.get i).next) head q) (hfuel : q.length ≤ fuel) :
    b.walk fuel head = q := by
  induction fuel generalizing q head with
  | zero =>
    obtain rfl := List.eq_nil_of_length_eq_zero (Nat.le_zero.mp hfuel)
    rw [show head = none from h]
    rfl
  | succ fuel ih =>
    cases q with
    | nil =>
      rw [show head = none from h]
      rfl
    | cons i q =>
      obtain ⟨rfl, hq⟩ := h
      rw [walk, ih hq (by simpa using hfuel)]

/-- The slots queued at a key are those whose orders have it, by arrival. -/
theorem Lists.queueAt (h : Lists b a l fl) (side : Side) (price : Price) :
    b.resting (b.queueAt side price) = a.resting.filter fun o => o.key = ⟨side, price⟩ := by
  unfold OrderBook.queueAt
  cases hfind : b.findLevelIndex side price with
  | none =>
    rw [h.findLevelIndex_none] at hfind
    refine (List.filter_eq_nil_iff.mpr fun o ho hkey => hfind ?_).symm
    rw [decide_eq_true_iff] at hkey
    exact List.mem_map.mpr ⟨o, ho, hkey⟩
  | some ℓ =>
    obtain ⟨hactive, hkey⟩ := h.linked.levels.find_eq_some_iff.mp hfind
    have hqueued := h.linked.queues.queued ℓ hactive
    dsimp only
    rw [walk_eq hqueued.links.chain (h.linked.queues.fifo_length_le ℓ), ← h.filter_key hactive,
      hkey]

/-- `orders_in_priority()` is the priority list of the represented book. -/
theorem Lists.ordersInPriority (h : Lists b a l fl) :
    b.ordersInPriority = a.ordersInPriority := by
  rw [OrderBook.ordersInPriority, PriceTimeBook.ordersInPriority, h.levelViews]
  exact List.flatMap_congr fun level _ => h.queueAt level.side level.priceTicks

/-- The priority list rearranges the resting orders. -/
theorem ordersInPriority_perm (a : PriceTimeBook) : a.ordersInPriority.Perm a.resting := by
  have hkeys : (a.levels.map LevelView.key).Nodup := by
    rw [List.Nodup, List.pairwise_map]
    exact (levels_ordered a).imp fun hlt he => absurd (he ▸ hlt) (lt_irrefl _)
  have hperm := Sorting.flatMap_filter_perm hkeys OrderView.key a.resting
    (p := fun _ => true) fun o ho => by
      simp only [true_iff, List.mem_map]
      have hkey := List.mem_map_of_mem (f := OrderView.key) ho
      exact ⟨a.levelView o.key, (mem_levels a _).mpr ⟨hkey, rfl⟩, rfl⟩
  rwa [List.flatMap_map, List.filter_true] at hperm

/-! ## The top of the book -/

/-- The level on top of a ladder is the best one of its side. -/
theorem Lists.top (h : Lists b a l fl) (side : Side) :
    ((b.ladderTop side).map fun top => (b.levels.get top).view) = a.best side := by
  have hactive : ∀ level ∈ a.levels, ∃ ℓ, (b.levels.get ℓ).active = true ∧
      (b.levels.get ℓ).key = level.key := fun level hlevel =>
    (h.mem_keys _).mp ((mem_levels a level).mp hlevel).1
  symm
  cases htop : b.ladderTop side with
  | none =>
    have hnone := (h.linked.levels.ladder side).top_eq_none_iff.mp htop
    refine List.find?_eq_none.mpr fun level hlevel hside => ?_
    obtain ⟨ℓ, hℓ, hkey⟩ := hactive level hlevel
    rw [decide_eq_true_iff] at hside
    exact hnone ℓ ⟨hℓ, (congrArg LevelKey.side hkey).trans hside⟩
  | some ℓ =>
    obtain ⟨⟨hℓ, hside⟩, hbest⟩ := (h.linked.levels.ladder side).top_eq_some htop
    have hmem : (b.levels.get ℓ).view ∈ a.levels := by
      rw [mem_levels]
      exact ⟨(h.mem_keys _).mpr ⟨ℓ, hℓ, rfl⟩, (h.levelView hℓ).symm⟩
    obtain ⟨l₁, l₂, hsplit⟩ := List.append_of_mem hmem
    have hordered := levels_ordered a
    rw [hsplit] at hordered
    refine List.find?_eq_some_iff_append.mpr ⟨by simpa using hside, l₁, l₂, hsplit, ?_⟩
    intro level hlevel
    rw [Bool.not_eq_true', decide_eq_false_iff_not]
    intro hls
    obtain ⟨m, hm, hkey⟩ := hactive level (by simp [hsplit, hlevel])
    have hlt : level.key.rank < (b.levels.get ℓ).key.rank :=
      (List.pairwise_append.mp hordered).2.2 level hlevel _ List.mem_cons_self
    have hms : (b.levels.get m).side = side := (congrArg LevelKey.side hkey).trans hls
    have hle := hbest m ⟨hm, hms⟩
    rw [← hkey, LevelKey.rank_lt_of_side hms hside] at hlt
    simp only [Ladder.rank, ladder_levels] at hle
    exact absurd hle (not_le.mpr hlt)

/-! ## The represented book -/

namespace Represents

variable (h : Represents b a)

include h

theorem levelViews : b.levelViews = a.levels :=
  h.lists.elim fun _ ⟨_, hlists⟩ => hlists.levelViews

theorem ordersInPriority : b.ordersInPriority = a.ordersInPriority :=
  h.lists.elim fun _ ⟨_, hlists⟩ => hlists.ordersInPriority

theorem bestBid : b.bestBid = a.best .buy := h.lists.elim fun _ ⟨_, hlists⟩ => hlists.top .buy

theorem bestAsk : b.bestAsk = a.best .sell := h.lists.elim fun _ ⟨_, hlists⟩ => hlists.top .sell

end Represents

end OrderBook

end MarketEngine
