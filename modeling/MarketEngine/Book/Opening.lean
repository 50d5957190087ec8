import MarketEngine.Book.Runs
import MarketEngine.Book.Trading

/-! # Calls that open a level

Which calls need the key of a new level can be told from the resting orders
before the call. The level index refuses the key exactly when none of its slots
is empty.
-/

namespace MarketEngine

open Transition

/-- The call needs a level at a side and price where no order would rest. -/
def OpensLevel (capacity : ℕ) (resting : List OrderView) : Call → Prop
  | .event event =>
    event.quantity ≠ 0 ∧
      match event.type with
      | .add =>
        (∀ o ∈ resting, o.id ≠ event.orderId) ∧ resting.length < capacity ∧
          ∀ o ∈ resting, o.key ≠ ⟨event.side, event.priceTicks⟩
      | .modify =>
        (∃ o ∈ resting, o.id = event.orderId) ∧
          ∀ o ∈ resting, o.key ≠ ⟨event.side, event.priceTicks⟩
      | .replace =>
        ∃ o ∈ resting, o.id = event.orderId ∧
          (event.newOrderId ≠ event.orderId → ∀ o' ∈ resting, o'.id ≠ event.newOrderId) ∧
          ∀ o' ∈ resting, o'.id ≠ event.orderId → o'.key ≠ ⟨o.side, event.priceTicks⟩
      | _ => False
  | .submit request =>
    request.type = .new ∧ request.mayRest = true ∧ (∀ o ∈ resting, o.id ≠ request.id) ∧
      request.offered resting < request.quantity.toNat ∧
      (resting.length < capacity ∨ ∃ o ∈ resting, request.reaches o = true) ∧
      ∀ o ∈ resting, o.key ≠ ⟨request.side, request.priceTicks⟩

variable {c : Capacity} {b b' : OrderBook c} {a : PriceTimeBook} {request : OrderRequest}
  {event : MarketDataEvent}

theorem OrderRequest.offered_perm {r r' : List OrderView} (h : r.Perm r') :
    request.offered r = request.offered r' :=
  ((h.filter _).map _).sum_eq

/-- The order of the resting orders plays no part. -/
theorem opensLevel_perm {capacity : ℕ} {r r' : List OrderView} (h : r.Perm r') {call : Call} :
    OpensLevel capacity r call ↔ OpensLevel capacity r' call := by
  cases call with
  | event event => simp only [OpensLevel, h.mem_iff, h.length_eq]
  | submit request =>
    simp only [OpensLevel, h.mem_iff, h.length_eq, OrderRequest.offered_perm h]

namespace OrderBook

/-- The call opens a level while no slot of the level index is empty. -/
def Blocks (b : OrderBook c) (call : Call) : Prop :=
  b.LevelTableFull ∧ OpensLevel c.val b.ordersInPriority call

theorem Represents.find_none_iff (h : Represents b a) (id : OrderId) :
    b.findOrderIndex id = none ↔ ∀ o ∈ a.resting, o.id ≠ id := by
  obtain ⟨l, fl, fo, h⟩ := h
  rw [h.wf.orders.find_eq_none_iff, h.resting, OrderBook.resting, List.forall_mem_map]

theorem Lists.no_level_iff {l fl : List (Index c)} (h : Lists b a l fl) (side : Side)
    (price : Price) :
    b.findLevelIndex side price = none ↔ ∀ o ∈ a.resting, o.key ≠ ⟨side, price⟩ := by
  rw [h.findLevelIndex_none, List.mem_map]
  simp

/-- While an order slot is free so is a level slot. -/
theorem Linked.freeLevel_ne_none {l fl : List (Index c)} {i : Index c} (h : Linked b l fl)
    (hi : i ∉ l) : b.freeLevel ≠ none :=
  fun hfree => h.free_ne_nil hi (h.levels.free_none hfree)

theorem Represents.free_iff (h : Represents b a) :
    b.freeOrder.isSome = true ↔ a.resting.length < c.val := by
  obtain ⟨l, fl, fo, h⟩ := h
  have hlen := h.wf.orders.length_add h.wf.linked.queues.nodup
  rw [h.length_eq]
  cases hfree : b.freeOrder with
  | none =>
    rw [h.wf.orders.free_none hfree, List.length_nil, Nat.add_zero] at hlen
    simp [hlen]
  | some i =>
    obtain ⟨rest, rfl⟩ := h.wf.orders.free_some hfree
    rw [List.length_cons] at hlen
    simp only [Option.isSome_some, true_iff]
    omega

/-- When the key of a new order's level is refused. -/
theorem Represents.restRefused_iff (h : Represents b a) (id : OrderId) (side : Side)
    (price : Price) (q : Quantity) :
    b.restRefused id side price q = true ↔
      b.LevelTableFull ∧ q ≠ 0 ∧ (∀ o ∈ a.resting, o.id ≠ id) ∧ a.resting.length < c.val ∧
        ∀ o ∈ a.resting, o.key ≠ ⟨side, price⟩ := by
  rw [restRefused, Bool.and_eq_true, Bool.and_eq_true, Bool.and_eq_true, decide_eq_true_iff,
    Option.isNone_iff_eq_none, levelRefused_iff, h.free_iff, h.find_none_iff]
  have hshows := h
  obtain ⟨l, fl, fo, hshows⟩ := hshows
  rw [Lists.no_level_iff ⟨hshows.wf.linked, hshows.resting⟩]
  have hlevel : a.resting.length < c.val → b.freeLevel ≠ none := by
    intro hlt
    rw [← h.free_iff, Option.isSome_iff_exists] at hlt
    obtain ⟨i, hi⟩ := hlt
    obtain ⟨rest, rfl⟩ := hshows.wf.orders.free_some hi
    apply hshows.wf.linked.freeLevel_ne_none (i := i)
    rw [hshows.wf.orders.mem_iff, (hshows.wf.orders.free_iff i).mp List.mem_cons_self]
    simp
  tauto

/-- When the key of the target level of a `modify` is refused. -/
theorem Represents.modifyRefused_iff (h : Represents b a) (event : MarketDataEvent) :
    b.modifyRefused event = true ↔
      b.LevelTableFull ∧ event.quantity ≠ 0 ∧ (∃ o ∈ a.resting, o.id = event.orderId) ∧
        ∀ o ∈ a.resting, o.key ≠ ⟨event.side, event.priceTicks⟩ := by
  unfold modifyRefused
  cases hfind : b.findOrderIndex event.orderId with
  | none =>
    have hnone := (h.find_none_iff _).mp hfind
    simp only [Bool.and_false, Bool.false_eq_true, false_iff]
    rintro ⟨-, -, ⟨o, ho, hid⟩, -⟩
    exact hnone o ho hid
  | some i =>
    obtain ⟨l, fl, fo, h⟩ := h
    have hi := (h.wf.orders.find_eq_some_iff.mp hfind)
    have hview : (b.orders.get i).view ∈ a.resting := by
      rw [h.resting]
      exact List.mem_map_of_mem hi.1
    by_cases hsame : (b.orders.get i).side = event.side ∧
        (b.orders.get i).price = event.priceTicks
    · simp only [hsame, and_self, decide_true, Bool.not_true, Bool.false_and, Bool.and_false,
        Bool.false_eq_true, false_iff]
      rintro ⟨-, -, -, hkey⟩
      exact hkey _ hview ((LevelKey.mk.injEq _ _ _ _).mpr hsame)
    · have hpre : ¬ (b.findLevelIndex event.side event.priceTicks = none ∧ b.freeLevel = none ∧
          ((b.orders.get i).level.any fun level =>
            (b.levels.get level).orderCount > 1) = true) := by
        rintro ⟨-, hfree, hany⟩
        rw [h.precheck hi.1 hfree] at hany
        cases hany
      obtain ⟨l₁, l₂, rfl, hother⟩ := h.wf.orders.split h.wf.linked.queues.nodup hi.1
      obtain ⟨fl', hlinked⟩ := unlink_linked h.wf.linked
      have hsplit : a.resting = b.resting l₁ ++ (b.orders.get i).view :: b.resting l₂ := by
        rw [h.resting, resting_append]
        rfl
      have hlists : Lists (b.unlink i) { a with resting := b.resting (l₁ ++ l₂) } (l₁ ++ l₂) fl' :=
        ⟨hlinked, (resting_congr fun j _ => (unlink_sameCores b i).view j).symm⟩
      have hfree : (b.unlink i).freeLevel ≠ none :=
        hlinked.freeLevel_ne_none fun hi' => (hother i hi').1 rfl
      have hkey : (b.orders.get i).view.key ≠ ⟨event.side, event.priceTicks⟩ :=
        fun he => hsame ⟨congrArg LevelKey.side he, congrArg LevelKey.price he⟩
      have hkeys : (∀ o ∈ a.resting, o.key ≠ ⟨event.side, event.priceTicks⟩) ↔
          ∀ o ∈ b.resting (l₁ ++ l₂), o.key ≠ ⟨event.side, event.priceTicks⟩ := by
        rw [hsplit, resting_append]
        grind
      rw [hkeys, Bool.and_eq_true, Bool.and_eq_true, Bool.and_eq_true, levelRefused_iff,
        hlists.no_level_iff, unlink_tableFull]
      simp only [hsame, hpre, decide_false, Bool.not_false, true_and, decide_eq_true_eq]
      have hexists : ∃ o ∈ a.resting, o.id = event.orderId := ⟨_, hview, hi.2⟩
      tauto

theorem cancel_tableFull (b : OrderBook c) (id : OrderId) :
    (b.cancel id).2.LevelTableFull ↔ b.LevelTableFull := by
  cases hfind : b.findOrderIndex id with
  | none => simp only [cancel, hfind]
  | some i =>
    rw [cancel_eq hfind]
    exact removed_tableFull b i id

/-- When the key of the level of a replacing order is refused. -/
theorem Represents.replaceRefused_iff (h : Represents b a) (event : MarketDataEvent) :
    b.replaceRefused event = true ↔
      b.LevelTableFull ∧ event.quantity ≠ 0 ∧ ∃ o ∈ a.resting, o.id = event.orderId ∧
        (event.newOrderId ≠ event.orderId → ∀ o' ∈ a.resting, o'.id ≠ event.newOrderId) ∧
        ∀ o' ∈ a.resting, o'.id ≠ event.orderId → o'.key ≠ ⟨o.side, event.priceTicks⟩ := by
  unfold replaceRefused
  cases hfind : b.findOrderIndex event.orderId with
  | none =>
    have hnone := (h.find_none_iff _).mp hfind
    simp only [Bool.and_false, Bool.false_eq_true, false_iff]
    rintro ⟨-, -, o, ho, hid, -⟩
    exact hnone o ho hid
  | some i =>
    have hcancel := (h.cancel event.orderId).2
    have ⟨l, fl, fo, hshows⟩ := h
    have hi := hshows.wf.orders.find_eq_some_iff.mp hfind
    have hview : (b.orders.get i).view ∈ a.resting := by
      rw [hshows.resting]
      exact List.mem_map_of_mem hi.1
    rw [PriceTimeBook.cancel, hshows.find_some hfind] at hcancel
    have hlen : (a.without event.orderId).resting.length < c.val := by
      refine (List.length_filter_lt_length_iff_exists.mpr
        ⟨_, hview, by simpa using hi.2⟩).trans_le ?_
      have := hshows.wf.orders.length_add hshows.wf.linked.queues.nodup
      rw [hshows.length_eq]
      omega
    have honly : ∀ o ∈ a.resting, o.id = event.orderId → o = (b.orders.get i).view := by
      intro o ho hid
      exact List.inj_on_of_nodup_map h.nodup_ids ho hview (hid.trans hi.2.symm)
    have hdup : (b.findOrderIndex event.newOrderId).isSome = true ↔
        ¬ ∀ o' ∈ a.resting, o'.id ≠ event.newOrderId := by
      rw [← h.find_none_iff, Option.isSome_iff_ne_none]
    have hwithout : ∀ o, o ∈ (a.without event.orderId).resting ↔
        o ∈ a.resting ∧ o.id ≠ event.orderId := by
      intro o
      rw [PriceTimeBook.without, List.mem_filter, decide_eq_true_iff]
    dsimp only
    rw [Bool.and_eq_true, Bool.and_eq_true, hcancel.restRefused_iff, cancel_tableFull]
    simp only [hwithout, decide_eq_true_eq, Bool.not_eq_true', decide_eq_false_iff_not, hdup, hlen,
      true_and]
    constructor
    · rintro ⟨hq, hnew, hfull, -, -, hkeys⟩
      refine ⟨hfull, hq, _, hview, hi.2, by tauto, fun o' ho' hid => hkeys o' ⟨ho', hid⟩⟩
    · rintro ⟨hfull, hq, o, ho, hid, hnew, hkeys⟩
      obtain rfl := honly o ho hid
      refine ⟨hq, by tauto, hfull, hq, fun o ho => ?_, fun o ho => hkeys o ho.1 ho.2⟩
      by_cases hsame : event.newOrderId = event.orderId
      · rw [hsame]
        exact ho.2
      · exact hnew hsame o ho.1

theorem Represents.length_le (h : Represents b a) : a.resting.length ≤ c.val := by
  obtain ⟨l, fl, fo, h⟩ := h
  have := h.wf.orders.length_add h.wf.linked.queues.nodup
  rw [h.length_eq]
  omega

/-- When the key of the level of a remainder is refused. -/
theorem Represents.submitRefused_iff (h : Represents b a) (request : OrderRequest) :
    b.submitRefused b.submitFuel request = true ↔
      b.LevelTableFull ∧ OpensLevel c.val a.resting (.submit request) := by
  obtain ⟨m, hloop, hrep, hremaining, -, hfull⟩ := h.matchLoop request
  have hnodup := h.nodup_ids
  have hrest := hrep.restRefused_iff request.id request.side request.priceTicks m.remaining
  rw [hremaining, hfull] at hrest
  have hoffered := a.traded_remaining_iff request hnodup
  rw [submitRefused, hloop _ le_rfl]
  simp only [OpensLevel, Bool.and_eq_true, decide_eq_true_eq, Bool.not_eq_true',
    decide_eq_false_iff_not, hrest, hremaining, ← hoffered]
  by_cases hzero : (a.traded request).remaining = 0
  · simp [hzero]
  have hresting := a.traded_resting hnodup hzero
  have hq : request.quantity ≠ 0 := by
    intro hq
    rw [← ne_eq, hoffered, hq] at hzero
    exact absurd hzero (Nat.not_lt_zero _)
  by_cases hmay : request.mayRest = true
  · have hfok := OrderRequest.tif_ne_fok hmay
    have hid : ((b.findOrderIndex request.id).isSome = true) ↔
        ¬ ∀ o ∈ a.resting, o.id ≠ request.id := by
      rw [← h.find_none_iff, Option.isSome_iff_ne_none]
    have hkeys : (∀ o ∈ (a.traded request).book.resting,
        o.key ≠ ⟨request.side, request.priceTicks⟩) ↔
          ∀ o ∈ a.resting, o.key ≠ ⟨request.side, request.priceTicks⟩ := by
      rw [hresting]
      refine ⟨fun hk o ho he => hk o (List.mem_filter.mpr ⟨ho, ?_⟩) he,
        fun hk o ho => hk o (List.mem_filter.mp ho).1⟩
      have hside : o.side = request.side := congrArg LevelKey.side he
      cases hs : request.side <;> simp [OrderRequest.reaches, hside, hs, Side.opposite]
    have hids : (∀ o ∈ a.resting, o.id ≠ request.id) →
        ∀ o ∈ (a.traded request).book.resting, o.id ≠ request.id := by
      rw [hresting]
      exact fun hk o ho => hk o (List.mem_filter.mp ho).1
    have hroom := PriceTimeBook.traded_length_lt_iff hnodup h.length_le hzero
    constructor
    · rintro ⟨⟨⟨⟨htype, -⟩, hdup⟩, -⟩, -, hfull, -, -, hlen, hkey⟩
      refine ⟨hfull, htype, hmay, ?_, hzero, hroom.mp hlen, hkeys.mp hkey⟩
      by_contra hne
      exact hdup ⟨hmay, hid.mpr hne⟩
    · rintro ⟨hfull, htype, -, hne, -, hlen, hkey⟩
      exact ⟨⟨⟨⟨htype, hq⟩, fun hdup => hid.mp hdup.2 hne⟩, fun hf => hfok hf.1⟩, ⟨hzero, hmay⟩,
        hfull, hzero, hids hne, hroom.mpr hlen, hkeys.mpr hkey⟩
  · simp [hmay]

/-- A level key is refused exactly when a level is opened with no empty slot in its index. -/
theorem Represents.refuses_iff_blocks (h : Represents b a) (call : Call) :
    b.Refuses call ↔ b.Blocks call := by
  have hperm : b.ordersInPriority.Perm a.resting := by
    rw [h.ordersInPriority]
    exact ordersInPriority_perm a
  rw [Blocks, opensLevel_perm hperm]
  cases call with
  | submit request => rw [h.refuses_iff, h.submitRefused_iff]
  | event event =>
    rw [Refuses, eventRefused, OpensLevel]
    cases event.type with
    | add => exact h.restRefused_iff _ _ _ _
    | modify => exact h.modifyRefused_iff event
    | replace => exact h.replaceRefused_iff event
    | _ => simp

/-- While a slot of the level index is empty no key is refused. -/
theorem KeepsKeys.not_refuses {calls : List Call} (h : KeepsKeys c calls b)
    (hempty : ¬ b.LevelTableFull) (call : Call) : ¬ b.Refuses call := by
  obtain ⟨a, hrep, -⟩ := h.keepsOrders.represents
  rw [hrep.refuses_iff_blocks]
  exact fun hblocks => hempty hblocks.1

end OrderBook

end MarketEngine
