import MarketEngine.Book.Observations
import MarketEngine.Reference.Book

/-! # The reference book mirrors price-time priority

The entries of an oracle's map are the resting orders of a price-time book. As
long as the priorities grow along the list, sorting the entries gives its
priority list, and aggregating them gives its levels.
-/

namespace MarketEngine

open Std

theorem LevelKey.compare_eq_iff (k k' : LevelKey) : k.compare k' = .eq ↔ k = k' := by
  obtain ⟨s, p⟩ := k
  obtain ⟨t, q⟩ := k'
  simp only [compare, compareLex, compareOn, Ordering.then_eq_eq,
    LawfulEqCmp.compare_eq_iff_eq, Int64.toInt_inj, LevelKey.mk.injEq]
  refine and_congr ?_ Iff.rfl
  cases s <;> cases t <;> simp

instance : LawfulEqCmp LevelKey.compare where
  eq_of_compare {k k'} h := (k.compare_eq_iff k').mp h

/-- The entry of a resting order. -/
def OrderView.entry (o : OrderView) : RefOrder := ⟨o.side, o.priceTicks, o.quantity, o.priority⟩

/-- The map holds the resting orders under their ids. -/
structure Mirrors (orders : RefOrders) (resting : List OrderView) : Prop where
  nodup : (resting.map OrderView.id).Nodup
  lookup : ∀ (id : OrderId) (order : RefOrder), orders[id]? = some order ↔ order.view id ∈ resting

variable {orders : RefOrders} {resting : List OrderView} {a : PriceTimeBook} {id : OrderId}

namespace Mirrors

theorem empty : Mirrors ∅ [] := ⟨List.nodup_nil, by simp⟩

theorem perm (h : Mirrors orders resting) {resting' : List OrderView}
    (hperm : resting.Perm resting') : Mirrors orders resting' :=
  ⟨(hperm.map _).nodup_iff.mp h.nodup, fun id order => (h.lookup id order).trans hperm.mem_iff⟩

theorem id_inj (h : Mirrors orders resting) {o o' : OrderView} (ho : o ∈ resting)
    (ho' : o' ∈ resting) (hid : o.id = o'.id) : o = o' :=
  List.inj_on_of_nodup_map h.nodup ho ho' hid

theorem lookup_none (h : Mirrors orders resting) :
    orders[id]? = none ↔ ∀ o ∈ resting, o.id ≠ id := by
  rw [Option.eq_none_iff_forall_not_mem]
  constructor
  · rintro hnone o ho rfl
    exact hnone o.entry ((h.lookup _ _).mpr ho)
  · exact fun hne order horder => hne _ ((h.lookup _ _).mp horder) rfl

/-- Looking up an id in the map finds the order of the list. -/
theorem find_eq (h : Mirrors orders a.resting) (id : OrderId) :
    a.find id = orders[id]?.map (RefOrder.view id) := by
  cases hid : orders[id]? with
  | none =>
    rw [h.lookup_none] at hid
    exact List.find?_eq_none.mpr fun o ho => by simpa using hid o ho
  | some order =>
    have hmem := (h.lookup _ _).mp hid
    cases hfind : a.find id with
    | none => exact absurd (decide_eq_true rfl) (List.find?_eq_none.mp hfind _ hmem)
    | some o =>
      have hoid : o.id = id := by simpa using List.find?_some hfind
      exact congrArg some (h.id_inj (List.mem_of_find?_eq_some hfind) hmem hoid)

theorem views_perm (h : Mirrors orders resting) : orders.views.Perm resting := by
  have hnodup : (resting.map fun o => (o.id, o.entry)).Nodup :=
    (List.Nodup.of_map Prod.fst (by rw [List.map_map]; exact h.nodup))
  have hperm := OrderedMap.toList_perm (m := orders) hnodup fun id order => by
    rw [h.lookup, List.mem_map]
    constructor
    · exact fun hmem => ⟨_, hmem, rfl⟩
    · rintro ⟨o, ho, he⟩
      obtain ⟨rfl, rfl⟩ := Prod.mk.inj he
      exact ho
  refine (hperm.map _).trans (.of_eq ?_)
  rw [List.map_map]
  exact List.map_id _

theorem size_eq (h : Mirrors orders resting) : orders.size = resting.length := by
  rw [← h.views_perm.length_eq, RefOrders.views, List.length_map, TreeMap.length_toList]

/-! ## The operations on the map -/

theorem insertIfNew (h : Mirrors orders resting) (hid : orders[id]? = none) (order : RefOrder) :
    Mirrors (orders.insertIfNew id order) (resting ++ [order.view id]) where
  nodup := by
    rw [List.map_append, List.nodup_append]
    refine ⟨h.nodup, by simp, ?_⟩
    intro x hx y hy
    obtain ⟨o, ho, rfl⟩ := List.mem_map.mp hx
    obtain rfl : y = id := by simpa [RefOrder.view] using hy
    exact h.lookup_none.mp hid o ho
  lookup id' order' := by
    rw [OrderedMap.lookup_insertIfNew hid, List.mem_append, List.mem_singleton]
    by_cases he : id = id'
    · subst he
      rw [if_pos rfl, ← h.lookup, hid]
      simp [RefOrder.view, RefOrder.ext_iff, eq_comm]
    · rw [if_neg he, h.lookup]
      have hne : order'.view id' ≠ order.view id := fun hv => he (congrArg OrderView.id hv).symm
      simp [hne]

theorem erase (h : Mirrors orders resting) (id : OrderId) :
    Mirrors (orders.erase id) (resting.filter fun o => o.id ≠ id) where
  nodup := h.nodup.sublist ((List.filter_sublist).map _)
  lookup id' order := by
    rw [OrderedMap.lookup_erase, List.mem_filter, ← h.lookup]
    by_cases he : id = id'
    · simp [he, RefOrder.view]
    · simp [he, RefOrder.view, Ne.symm he]

/-- Inserting orders of distinct ids one by one. -/
theorem foldl_insertIfNew (h : Mirrors orders resting) {new : List OrderView}
    (hnodup : ((resting ++ new).map OrderView.id).Nodup) :
    Mirrors (new.foldl (fun orders o => orders.insertIfNew o.id o.entry) orders)
      (resting ++ new) := by
  induction new generalizing orders resting with
  | nil => simpa using h
  | cons o new ih =>
    have hid : orders[o.id]? = none := by
      rw [h.lookup_none]
      intro o' ho' he
      rw [List.map_append, List.nodup_append] at hnodup
      exact hnodup.2.2 _ (List.mem_map_of_mem ho') _ (List.mem_map_of_mem List.mem_cons_self) he
    have hcons : resting ++ o :: new = (resting ++ [o]) ++ new := by simp
    rw [hcons] at hnodup ⊢
    exact ih (h.insertIfNew hid o.entry) hnodup

/-- Overwriting an entry moves its order to the end of the list. -/
theorem insert_move (h : Mirrors orders resting) (id : OrderId) (order : RefOrder) :
    Mirrors (orders.insert id order) (resting.filter (fun o => o.id ≠ id) ++ [order.view id]) := by
  have herase := h.erase id
  have hgone : (orders.erase id)[id]? = none := by rw [OrderedMap.lookup_erase, if_pos rfl]
  have hnew := herase.insertIfNew hgone order
  refine ⟨hnew.nodup, fun id' order' => ?_⟩
  rw [← hnew.lookup, OrderedMap.lookup_insert, OrderedMap.lookup_insertIfNew hgone,
    OrderedMap.lookup_erase]
  by_cases he : id = id' <;> simp [he]

/-- Overwriting the quantity of an entry changes it in place. -/
theorem insert_quantity (h : Mirrors orders resting) {order : RefOrder}
    (hid : orders[id]? = some order) (q : Quantity) :
    Mirrors (orders.insert id { order with quantity := q })
      (resting.map fun o => if o.id = id then { o with quantity := q } else o) where
  nodup := by
    rw [List.map_map]
    refine (List.map_congr_left fun o _ => ?_ : _ = resting.map OrderView.id) ▸ h.nodup
    dsimp only [Function.comp_apply]
    split <;> rfl
  lookup id' order' := by
    have hmem := (h.lookup _ _).mp hid
    rw [OrderedMap.lookup_insert, List.mem_map]
    by_cases he : id = id'
    · subst he
      rw [if_pos rfl]
      constructor
      · rintro ho
        injection ho with ho
        exact ⟨_, hmem, by simp [RefOrder.view, ← ho]⟩
      · rintro ⟨o, ho, hview⟩
        have hoid : o.id = id := by
          by_contra hne
          rw [if_neg hne] at hview
          exact hne (congrArg OrderView.id hview :)
        obtain rfl := h.id_inj ho hmem hoid
        rw [if_pos hoid] at hview
        exact congrArg some (congrArg OrderView.entry hview :)
    · rw [if_neg he, h.lookup]
      constructor
      · exact fun ho => ⟨_, ho, if_neg (Ne.symm he)⟩
      · rintro ⟨o, ho, hview⟩
        by_cases hoid : o.id = id
        · rw [if_pos hoid] at hview
          exact absurd (hoid.symm.trans (congrArg OrderView.id hview :)) he
        · rw [if_neg hoid] at hview
          exact hview ▸ ho

/-! ## The views -/

/-- A level adds up the quantities and the number of its orders. -/
theorem foldl_addToLevel {key : LevelKey} (level : LevelView) (o : OrderView)
    (queue : List OrderView) (hkey : ∀ x ∈ o :: queue, x.key = key) :
    (o :: queue).foldl RefOrders.addToLevel level =
      ⟨key.side, key.price, level.totalQuantity + ((o :: queue).map (·.quantity)).sum,
        level.orderCount + UInt64.ofNat (o :: queue).length⟩ := by
  obtain ⟨hside, hprice⟩ := LevelKey.mk.inj (hkey o List.mem_cons_self)
  induction queue generalizing level o with
  | nil => simp [RefOrders.addToLevel, ← hside, ← hprice]
  | cons x queue ih =>
    have hx := hkey x (List.mem_cons_of_mem _ List.mem_cons_self)
    obtain ⟨hxside, hxprice⟩ := LevelKey.mk.inj hx
    rw [List.foldl_cons, ih _ x (fun y hy => hkey y (List.mem_cons_of_mem _ hy)) hxside hxprice]
    simp only [RefOrders.addToLevel, List.map_cons, List.sum_cons, List.length_cons,
      LevelView.mk.injEq, true_and, UInt64.ofNat_add]
    have hone : UInt64.ofNat 1 = 1 := rfl
    rw [hone]
    exact ⟨add_assoc _ _ _, by grind⟩

/-- Both oracles show the levels of the mirrored list. -/
theorem levels_eq (h : Mirrors orders a.resting) : orders.levels = a.levels := by
  unfold RefOrders.levels PriceTimeBook.levels
  dsimp only
  have hnodup : ((a.resting.map OrderView.key).dedup.map fun key => (key, a.levelView key)).Nodup :=
    .of_map Prod.fst (by simpa [Function.comp_def] using List.nodup_dedup _)
  have hperm := OrderedMap.toList_perm (m := orders.views.foldl
      (fun aggregated order => aggregated.insert order.key
        (RefOrders.addToLevel (aggregated.getD order.key ⟨.buy, 0, 0, 0⟩) order))
      (∅ : TreeMap LevelKey LevelView LevelKey.compare)) hnodup fun key level => by
    rw [OrderedMap.getElem?_collect OrderView.key ⟨.buy, 0, 0, 0⟩ RefOrders.addToLevel]
    have hqueue : (orders.views.filter fun o => o.key = key).Perm
        (a.resting.filter fun o => o.key = key) := h.views_perm.filter _
    have hmem : (key, level) ∈ (a.resting.map OrderView.key).dedup.map
          (fun key => (key, a.levelView key)) ↔
        (orders.views.filter fun o => o.key = key) ≠ [] ∧ a.levelView key = level := by
      rw [ne_eq, ← List.length_eq_zero_iff, hqueue.length_eq, List.length_eq_zero_iff]
      simp only [List.mem_map, List.mem_dedup, Prod.mk.injEq, List.filter_eq_nil_iff]
      grind
    rw [hmem]
    by_cases hq : (orders.views.filter fun o => o.key = key) = []
    · rw [if_pos hq]
      simp [hq]
    · rw [if_neg hq]
      obtain ⟨o, queue, hcons⟩ := List.exists_cons_of_ne_nil hq
      have hkey : ∀ x ∈ o :: queue, x.key = key := by
        intro x hx
        rw [← hcons] at hx
        simpa using (List.mem_filter.mp hx).2
      rw [hcons, foldl_addToLevel _ _ _ hkey, ← hcons, (hqueue.map _).sum_eq, hqueue.length_eq]
      simp [hq, PriceTimeBook.levelView]
  have hlevels := hperm.map Prod.snd
  rw [List.map_map] at hlevels
  exact Sorting.sortBy_congr LevelView.before_iff hlevels (OrderBook.levels_nodup a)

end Mirrors

end MarketEngine
