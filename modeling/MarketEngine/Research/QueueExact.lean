import Mathlib.Algebra.Order.BigOperators.Group.List
import MarketEngine.Book.LevelQueue
import MarketEngine.Research.QueueCohort

/-! # The displayed queue is followed exactly

On a feed whose ids are used once and whose trades hit the oldest order of a level,
the quantity ahead is that of the cohort orders still at the level, and the order is
filled by what is traded against the orders behind it.
-/

namespace MarketEngine

open OrderBook Transition

variable {c : Capacity}

/-- The ids of a level by arrival. -/
theorem OrderBook.Represents.levelOrderIds {b : OrderBook c} {a : PriceTimeBook}
    (h : Represents b a) (side : Side) (price : Price) :
    b.levelOrderIds side price = (a.queue ⟨side, price⟩).map OrderView.id := by
  obtain ⟨l, fl, hlists⟩ := h.lists
  rw [PriceTimeBook.queue, ← hlists.queueAt side price, OrderBook.resting, List.map_map]
  rfl

namespace Research

/-- What the events of an ITCH feed are like. -/
structure FromItch (event : MarketDataEvent) : Prop where
  type : event.type ≠ .modify
  quantity : event.quantity.toNat < 2 ^ 32

/-- The ids that events may have entered. -/
def usedIds (events : List MarketDataEvent) : List OrderId :=
  events.filterMap MarketDataEvent.newId?

/-! ## The line in front of us -/

/-- The ids of a level, those of the cohort before those that joined. -/
structure Lined (cohort : Finset OrderId) (joined ids : List OrderId) : Prop where
  known : ∀ id ∈ ids, id ∈ cohort ∨ id ∈ joined
  apart : ∀ id ∈ joined, id ∉ cohort
  inOrder : ids.Pairwise fun id id' => id' ∈ cohort → id ∈ cohort

namespace Lined

variable {cohort : Finset OrderId} {joined ids ids' : List OrderId} {id : OrderId}

theorem sublist (h : Lined cohort joined ids) (hsub : ids'.Sublist ids) :
    Lined cohort joined ids' :=
  ⟨fun id hid => h.known id (hsub.subset hid), h.apart, h.inOrder.sublist hsub⟩

/-- A new id takes its place at the end. -/
theorem join (h : Lined cohort joined ids) (hid : id ∉ cohort) :
    Lined cohort (joined ++ [id]) (ids ++ [id]) where
  known i hi := by
    rcases List.mem_append.mp hi with hi | hi
    · exact (h.known i hi).imp_right (List.mem_append_left _)
    · exact .inr (List.mem_append_right _ hi)
  apart i hi := by
    rcases List.mem_append.mp hi with hi | hi
    · exact h.apart i hi
    · exact List.mem_singleton.mp hi ▸ hid
  inOrder := by
    refine List.pairwise_append.mpr ⟨h.inOrder, List.pairwise_singleton _ _, ?_⟩
    intro i _ i' hi' hmem
    exact absurd (List.mem_singleton.mp hi' ▸ hmem) hid

/-- When the oldest id is not of the cohort, none is. -/
theorem of_head (h : Lined cohort joined ids) (hhead : ids.head? = some id) (hid : id ∉ cohort) :
    ∀ i ∈ ids, i ∉ cohort := by
  cases ids with
  | nil => cases hhead
  | cons first rest =>
    obtain rfl := Option.some.inj hhead
    intro i hi hmem
    rcases List.mem_cons.mp hi with rfl | hi
    · exact hid hmem
    · exact hid (List.rel_of_pairwise_cons h.inOrder hi hmem)

end Lined

/-! ## One event -/

/-- An event that the displayed model is made for. -/
structure Displayed (s : Following ℚ c) (event : MarketDataEvent) : Prop where
  itch : FromItch event
  applied : (s.book.processEvent event).1 = .applied
  head : event.type = .trade → s.model.referencesOurLevel event.orderId s.book = true →
    (s.book.levelOrderIds s.model.side s.model.price).head? = some event.orderId

namespace Following

/-- The quantity of the cohort orders that still rest at the level. -/
def cohortQuantity (s : Following ℚ c) : ℕ :=
  KeyedSum.total (·.quantity.toNat)
    (fun o => o.side = s.model.side ∧ o.priceTicks = s.model.price ∧ o.id ∈ s.model.cohort)
    s.book.ordersInPriority

def key (s : Following ℚ c) : LevelKey := ⟨s.model.side, s.model.price⟩

/-- The two numbers of the model are exact for a price-time book. -/
structure Counted (s : Following ℚ c) (a : PriceTimeBook) : Prop where
  filled : s.model.filled.toNat = min s.model.size.toNat s.traded
  ahead : s.model.filled < s.model.size →
    s.model.ahead = (a.quantityOf s.key (· ∈ s.model.cohort) : ℕ)

/-- The model is exact for the price-time book that the book stands for. -/
structure Exact (s : Following ℚ c) (a : PriceTimeBook) : Prop where
  represents : Represents s.book a
  lined : Lined s.model.cohort s.joined ((a.queue s.key).map OrderView.id)
  counted : Counted s a

variable {s : Following ℚ c} {a a' : PriceTimeBook} {event : MarketDataEvent} {o : OrderView}

theorem next_same (s : Following ℚ c) (event : MarketDataEvent) :
    (s.next event).key = s.key ∧ (s.next event).model.size = s.model.size ∧
      (s.next event).model.cohort = s.model.cohort := by
  obtain ⟨hside, hprice, hsize, hcohort⟩ := QueueModel.onEvent_same s.model event s.book
  exact ⟨congrArg₂ LevelKey.mk hside hprice, hsize, hcohort⟩

theorem orderAtOurLevel_eq (hfind : s.book.findOrder event.orderId = some o) :
    s.model.orderAtOurLevel event.orderId s.book = if o.key = s.key then some o else none := by
  have hkey : o.key = s.key ↔ o.side = s.model.side ∧ o.priceTicks = s.model.price :=
    LevelKey.mk.injEq .. |>.to_iff
  rw [QueueModel.orderAtOurLevel, hfind, Option.filter_some]
  simp only [hkey, decide_eq_true_eq]

theorem taken_of_mem (horder : s.model.orderAtOurLevel event.orderId s.book = some o)
    (hmem : event.orderId ∈ s.model.cohort) (hadd : event.type ≠ .add)
    (hmodify : event.type ≠ .modify) :
    s.model.taken event s.book = some (event.lost o) := by
  unfold QueueModel.taken MarketDataEvent.lost
  cases htype : event.type <;> simp_all

/-- An order of the cohort loses a quantity: so much less is ahead, and we are not filled. -/
theorem Counted.ahead_lost (h : Counted s a) (hloses : PriceTimeBook.Loses a o (event.lost o) a')
    (hactive : s.model.filled < s.model.size)
    (horder : s.model.orderAtOurLevel event.orderId s.book = some o)
    (hmem : event.orderId ∈ s.model.cohort) (hkey : o.key = s.key) (hid : o.id = event.orderId)
    (hadd : event.type ≠ .add) (hmodify : event.type ≠ .modify) :
    (s.model.onEvent event s.book).filled.toNat = s.model.filled.toNat ∧
      (s.model.onEvent event s.book).ahead =
        (a'.quantityOf s.key (· ∈ s.model.cohort) : ℕ) := by
  have hahead := h.ahead hactive
  have hquantity := hloses.quantityOf s.key (· ∈ s.model.cohort)
  rw [if_pos ⟨hkey, hid ▸ hmem⟩] at hquantity
  have hsub : max (s.model.ahead - (event.lost o).toNat) 0 =
      (a'.quantityOf s.key (· ∈ s.model.cohort) : ℕ) := by
    rw [hahead, ← hquantity]
    simp
  by_cases htype : event.type = .trade
  · have hlost : event.lost o = event.quantity := by rw [MarketDataEvent.lost, htype]
    have hnone : ⌊(event.quantity.toNat : ℚ) - s.model.ahead⌋₊ = 0 := by
      refine Nat.floor_of_nonpos (sub_nonpos.mpr ?_)
      rw [hahead, ← hquantity, hlost, Nat.cast_le]
      exact Nat.le_add_left _ _
    have hlt := UInt64.lt_iff_toNat_lt.mp hactive
    rw [QueueModel.onEvent_trade hactive htype horder, ← hlost]
    refine ⟨?_, hsub⟩
    dsimp only
    rw [hlost, QueueModel.toNat_filled hlt.le, hnone]
    omega
  · rw [QueueModel.onEvent_departure hactive htype (taken_of_mem horder hmem hadd hmodify)]
    exact ⟨rfl, hsub⟩

theorem Counted.next_of_full (h : Counted s a) (hfull : ¬ s.model.filled < s.model.size)
    (a' : PriceTimeBook) (event : MarketDataEvent) : Counted (s.next event) a' := by
  have hfilled := h.filled
  have hmodel : (s.next event).model = s.model := QueueModel.onEvent_of_full hfull
  have htraded : s.traded ≤ (s.next event).traded := by
    unfold next
    dsimp only
    split_ifs <;> omega
  rw [UInt64.lt_iff_toNat_lt] at hfull
  refine ⟨?_, fun hactive => ?_⟩ <;> rw [hmodel] at *
  · omega
  · exact absurd (UInt64.lt_iff_toNat_lt.mp hactive) hfull

/-- An event that takes nothing and trades nothing behind us. -/
theorem Counted.next_of_none (h : Counted s a) (htaken : s.model.taken event s.book = none)
    (htraded : (s.next event).traded = s.traded)
    (hquantity : a'.quantityOf s.key (· ∈ s.model.cohort) =
      a.quantityOf s.key (· ∈ s.model.cohort)) : Counted (s.next event) a' := by
  have hmodel : (s.next event).model = s.model := QueueModel.onEvent_of_none htaken
  have hkey := (next_same s event).1
  refine ⟨?_, fun hactive => ?_⟩
  · rw [hmodel, htraded]
    exact h.filled
  · rw [hmodel] at hactive ⊢
    rw [hkey, hquantity]
    exact h.ahead hactive

theorem traded_of_type (htype : event.type ≠ .trade) : (s.next event).traded = s.traded :=
  if_neg fun h => htype h.1

/-- A trade against an order behind us comes when nothing is ahead, and fills us. -/
theorem Exact.traded_behind (h : Exact s a) (hd : Displayed s event)
    (htype : event.type = .trade) (hactive : s.model.filled < s.model.size)
    (horder : s.model.orderAtOurLevel event.orderId s.book = some o)
    (hmem : event.orderId ∉ s.model.cohort)
    (hquantity : a'.quantityOf s.key (· ∈ s.model.cohort) =
      a.quantityOf s.key (· ∈ s.model.cohort)) : Counted (s.next event) a' := by
  have hours : s.model.referencesOurLevel event.orderId s.book = true := by
    simp [QueueModel.referencesOurLevel, horder]
  have hhead : ((a.queue s.key).map OrderView.id).head? = some event.orderId := by
    rw [← hd.head htype hours, h.represents.levelOrderIds]
    rfl
  have hjoined : event.orderId ∈ s.joined :=
    (h.lined.known _ (List.mem_of_head? hhead)).resolve_left hmem
  have hnone : a.quantityOf s.key (· ∈ s.model.cohort) = 0 := by
    apply KeyedSum.total_eq_zero
    rintro o ho ⟨hkey, hid⟩
    refine h.lined.of_head hhead hmem o.id (List.mem_map_of_mem ?_) hid
    exact List.mem_filter.mpr ⟨ho, by simpa using hkey⟩
  have hahead : s.model.ahead = 0 := by rw [h.counted.ahead hactive, hnone, Nat.cast_zero]
  have htraded : (s.next event).traded = s.traded + event.quantity.toNat :=
    if_pos ⟨htype, hjoined, hours⟩
  have hfilled := h.counted.filled
  have hlt := UInt64.lt_iff_toNat_lt.mp hactive
  have hmodel : (s.next event).model = _ := QueueModel.onEvent_trade hactive htype horder
  refine ⟨?_, fun _ => ?_⟩
  · rw [hmodel, htraded]
    dsimp only
    rw [QueueModel.toNat_filled hlt.le, hahead, sub_zero, Nat.floor_natCast]
    omega
  · rw [(next_same s event).1, (next_same s event).2.2, hquantity, hnone, hmodel]
    dsimp only
    rw [hahead, zero_sub, Nat.cast_zero]
    exact max_eq_right (neg_nonpos.mpr (Nat.cast_nonneg _))

/-- An order of the level loses a quantity. -/
theorem Exact.counted_lost (h : Exact s a) (hd : Displayed s event)
    (hfind : a.find event.orderId = some o)
    (hloses : PriceTimeBook.Loses a o (event.lost o) a') (hadd : event.type ≠ .add) :
    Counted (s.next event) a' := by
  have hbook : s.book.findOrder event.orderId = some o := (h.represents.findOrder _).trans hfind
  have horder := orderAtOurLevel_eq hbook
  have hid : o.id = event.orderId := (PriceTimeBook.find_eq_some hfind).2
  have hmodify := hd.itch.type
  have hquantity := hloses.quantityOf s.key (· ∈ s.model.cohort)
  by_cases hfull : ¬ s.model.filled < s.model.size
  · exact h.counted.next_of_full hfull a' event
  rw [not_not] at hfull
  by_cases hkey : o.key = s.key
  · rw [if_pos hkey] at horder
    by_cases hmem : event.orderId ∈ s.model.cohort
    · -- the order is ahead of us
      have hnotJoined : event.orderId ∉ s.joined := fun hj => h.lined.apart _ hj hmem
      have htraded : (s.next event).traded = s.traded := if_neg fun h => hnotJoined h.2.1
      obtain ⟨hfilled, hahead⟩ :=
        h.counted.ahead_lost hloses hfull horder hmem hkey hid hadd hmodify
      obtain ⟨hkey', hsize', hcohort'⟩ := next_same s event
      refine ⟨?_, fun _ => ?_⟩
      · rw [hsize', htraded, ← h.counted.filled]
        exact hfilled
      · rw [hkey', hcohort']
        exact hahead
    · -- the order is behind us
      rw [if_neg fun h => hmem (hid ▸ h.2), Nat.add_zero] at hquantity
      by_cases htype : event.type = .trade
      · exact h.traded_behind hd htype hfull horder hmem hquantity
      · exact h.counted.next_of_none (QueueModel.taken_of_not_mem hmem htype)
          (traded_of_type htype) hquantity
  · rw [if_neg hkey] at horder
    rw [if_neg fun h => hkey h.1, Nat.add_zero] at hquantity
    refine h.counted.next_of_none (QueueModel.taken_of_orderAtOurLevel horder) (if_neg ?_) hquantity
    rintro ⟨-, -, hours⟩
    rw [QueueModel.referencesOurLevel, horder] at hours
    cases hours

/-- An order that enters behind us changes neither number. -/
theorem Counted.enter (h : Counted s a) {id : OrderId} (hid : id ∉ s.model.cohort) (side : Side)
    (price : Price) (q : Quantity) : Counted s (a.enter id side price q) where
  filled := h.filled
  ahead hactive := by
    rw [PriceTimeBook.quantityOf_enter a hid]
    exact h.ahead hactive

/-- An order that enters the level joins the line. -/
theorem lined_enter {id : OrderId} (side : Side) (price : Price) (q : Quantity)
    (h : Lined s.model.cohort s.joined ((a.queue s.key).map OrderView.id))
    (hid : id ∉ s.model.cohort) :
    Lined s.model.cohort
      (s.joined ++ (if side = s.model.side ∧ price = s.model.price then some id else none).toList)
      (((a.enter id side price q).queue s.key).map OrderView.id) := by
  have hkey : (⟨side, price⟩ : LevelKey) = s.key ↔ side = s.model.side ∧ price = s.model.price :=
    LevelKey.mk.injEq .. |>.to_iff
  rw [PriceTimeBook.queue_enter]
  by_cases hat : side = s.model.side ∧ price = s.model.price
  · rw [if_pos hat, if_pos (hkey.mpr hat)]
    exact h.join hid
  · rw [if_neg hat, if_neg (hkey.not.mpr hat), List.append_nil, Option.toList_none,
      List.append_nil]
    exact h

/-- One event keeps the model exact. -/
theorem Exact.next (h : Exact s a) (hd : Displayed s event)
    (hnew : ∀ id ∈ event.newId?, id ∉ s.model.cohort) : ∃ a', Exact (s.next event) a' := by
  have hstep := h.represents.processEvent event fun hm => hd.itch.type hm.1
  have happlied := hd.applied
  rw [hstep.1] at happlied
  have hchanges := PriceTimeBook.process_changes h.represents.nodup_ids happlied hd.itch.type
  obtain ⟨hkey, -, hcohort⟩ := next_same s event
  have hjoined : (s.next event).joined =
      s.joined ++ (joins s.book s.model.side s.model.price event).toList := rfl
  rw [joins, if_neg (not_not.mpr hd.applied)] at hjoined
  suffices hboth : ∀ a', PriceTimeBook.Changes a event a' →
      Lined (s.next event).model.cohort (s.next event).joined
          ((a'.queue (s.next event).key).map OrderView.id) ∧
        Counted (s.next event) a' from
    ⟨_, hstep.2, (hboth _ hchanges).1, (hboth _ hchanges).2⟩
  intro a' hchanges
  rw [hkey, hcohort, hjoined]
  cases hchanges with
  | joined htype =>
    have hid : event.orderId ∉ s.model.cohort :=
      hnew _ (by rw [MarketDataEvent.newId?, htype]; exact rfl)
    have htaken : s.model.taken event s.book = none := by rw [QueueModel.taken, htype]
    rw [htype]
    exact ⟨lined_enter _ _ _ h.lined hid, h.counted.next_of_none htaken
      (traded_of_type (by simp [htype])) (PriceTimeBook.quantityOf_enter a hid _ _ _ _)⟩
  | lost htype hfind hloses =>
    have hadd : event.type ≠ .add := by rcases htype with ht | ht | ht <;> simp [ht]
    refine ⟨?_, h.counted_lost hd hfind hloses hadd⟩
    rcases htype with ht | ht | ht <;> rw [ht] <;> dsimp only <;>
      rw [Option.toList_none, List.append_nil] <;> exact h.lined.sublist (hloses.ids s.key)
  | @replaced o a₁ htype hfind hloses =>
    have hbook : s.book.findOrder event.orderId = some o :=
      (h.represents.findOrder _).trans hfind
    have hid : event.newOrderId ∉ s.model.cohort :=
      hnew _ (by rw [MarketDataEvent.newId?, htype]; exact rfl)
    have hlost := h.counted_lost hd hfind hloses (by simp [htype])
    refine ⟨?_, hlost.enter (hcohort ▸ hid) _ _ _⟩
    have hlined := lined_enter o.side event.priceTicks event.quantity
      (h.lined.sublist (hloses.ids s.key)) hid
    rw [htype, hbook]
    simpa using hlined

/-! ## Runs -/

/-- What the past of a book says about its orders. -/
theorem processAll_fromItch {past : List MarketDataEvent} (h : ∀ event ∈ past, FromItch event) :
    ∃ a, Represents ((fresh c).processAll past) a ∧
      ∀ o ∈ a.resting, o.quantity.toNat < 2 ^ 32 ∧ o.id ∈ usedIds past := by
  induction past using List.reverseRecOn with
  | nil => exact ⟨_, fresh_represents c, fun o ho => absurd ho List.not_mem_nil⟩
  | append_singleton past event ih =>
    obtain ⟨a, hrep, hresting⟩ := ih fun e he => h e (List.mem_append_left _ he)
    have hitch := h event (List.mem_append_right _ List.mem_cons_self)
    have hstep := (hrep.processEvent event fun hm => hitch.type hm.1).2
    rw [processAll_append]
    refine ⟨_, hstep, fun o ho => ?_⟩
    rw [usedIds, List.filterMap_append, List.mem_append]
    rcases PriceTimeBook.mem_process hitch.type ho with ⟨o', ho', hid, hle⟩ | ⟨hnew, hq⟩
    · obtain ⟨hquantity, hused⟩ := hresting o' ho'
      exact ⟨hle.trans_lt hquantity, .inl (hid ▸ hused)⟩
    · exact ⟨hq ▸ hitch.quantity, .inr (by simp [hnew])⟩

/-- A posted model starts exact. -/
theorem exact_post {book : OrderBook c} {level : LevelView}
    (h : Represents book a) (hquantity : ∀ o ∈ a.resting, o.quantity.toNat < 2 ^ 32)
    (hlevel : level ∈ book.levelViews) (size : Quantity) (arrivalNs : UInt64) :
    Exact ⟨.post book level size 1 arrivalNs, book, [], 0⟩ a := by
  rw [h.levelViews, mem_levels] at hlevel
  have htotal : level.totalQuantity = ((a.queue level.key).map OrderView.quantity).sum :=
    (congrArg LevelView.totalQuantity hlevel.2).symm
  have hsmall : ((a.queue level.key).map (·.quantity.toNat)).sum < 2 ^ 64 := by
    have hlength : (a.queue level.key).length ≤ c.val :=
      (List.length_filter_le _ _).trans h.length_le
    have hsum : ((a.queue level.key).map (·.quantity.toNat)).sum ≤
        (a.queue level.key).length * (2 ^ 32 - 1) := by
      refine (List.sum_le_card_nsmul _ (2 ^ 32 - 1) fun q hq => ?_).trans_eq
        (by rw [List.length_map, nsmul_eq_mul, Nat.cast_id])
      obtain ⟨o, ho, rfl⟩ := List.mem_map.mp hq
      exact Nat.le_sub_one_of_lt (hquantity o (List.mem_filter.mp ho).1)
    have hcapacity : c.val ≤ 2 ^ 32 - 1 := c.le
    have := Nat.mul_le_mul_right (2 ^ 32 - 1) (hlength.trans hcapacity)
    omega
  have hcohort : ∀ id, id ∈ (book.levelOrderIds level.side level.priceTicks).toFinset ↔
      id ∈ (a.queue level.key).map OrderView.id := by
    intro id
    rw [List.mem_toFinset, h.levelOrderIds]
    rfl
  have hcount : a.quantityOf level.key
        (· ∈ (book.levelOrderIds level.side level.priceTicks).toFinset) =
      level.totalQuantity.toNat := by
    rw [htotal, toNat_sum_quantity, Nat.mod_eq_of_lt hsmall, PriceTimeBook.quantityOf]
    change KeyedSum.total _ _ _ = KeyedSum.total _ (fun o : OrderView => o.key = level.key) _
    apply KeyedSum.total_congr
    intro o ho
    refine and_iff_left_of_imp fun hkey => (hcohort _).mpr (List.mem_map_of_mem ?_)
    exact List.mem_filter.mpr ⟨ho, by simpa using hkey⟩
  refine ⟨h, ⟨fun id hid => .inl ((hcohort id).mpr hid), fun id hid => absurd hid
    List.not_mem_nil, ?_⟩, (Nat.min_zero _).symm, fun _ => ?_⟩
  · exact List.pairwise_of_forall_mem_list fun id hid _ _ _ => (hcohort id).mpr hid
  · refine Eq.trans ?_ (congrArg (Nat.cast (R := ℚ)) hcount.symm)
    exact mul_one _

/-- The quantity of the cohort in terms of the price-time book. -/
theorem Exact.cohortQuantity (h : Exact s a) :
    s.cohortQuantity = a.quantityOf s.key (· ∈ s.model.cohort) := by
  have hkey : ∀ o : OrderView,
      o.key = s.key ↔ o.side = s.model.side ∧ o.priceTicks = s.model.price := fun o =>
    LevelKey.mk.injEq .. |>.to_iff
  rw [Following.cohortQuantity, h.represents.ordersInPriority,
    KeyedSum.total_perm (ordersInPriority_perm a)]
  apply KeyedSum.total_congr
  intro o _
  rw [hkey, and_assoc]

/-- A model that is posted as the replay of an ITCH feed does it stays exact. -/
theorem displayed_exact {past events : List MarketDataEvent}
    (hpast : ∀ event ∈ past, FromItch event) {level : LevelView}
    (hlevel : level ∈ ((fresh c).processAll past).levelViews) (size : Quantity)
    (arrivalNs : UInt64)
    (hnew : ∀ event ∈ events, ∀ id ∈ event.newId?, id ∉ usedIds past)
    (hrun : let book := (fresh c).processAll past
      Run (Guarded Displayed Step) ⟨.post book level size 1 arrivalNs, book, [], 0⟩ events s) :
    s.model.filled.toNat = min size.toNat s.traded ∧
      (s.model.filled < size → s.model.ahead = s.cohortQuantity) := by
  obtain ⟨a, hrep, hresting⟩ := processAll_fromItch hpast (c := c)
  have hstart := exact_post hrep (fun o ho => (hresting o ho).1) hlevel size arrivalNs
  have hcohort : ∀ id ∈ (((fresh c).processAll past).levelOrderIds level.side
      level.priceTicks).toFinset, id ∈ usedIds past := by
    intro id hid
    rw [List.mem_toFinset, hrep.levelOrderIds] at hid
    obtain ⟨o, ho, rfl⟩ := List.mem_map.mp hid
    exact (hresting o (List.mem_filter.mp ho).1).2
  have hkept := hrun.invariant_labels
    (I := fun labels s => (∀ event ∈ labels, ∀ id ∈ event.newId?, id ∉ usedIds past) →
      s.model.size = size ∧ (∀ id ∈ s.model.cohort, id ∈ usedIds past) ∧
        ∃ a, Exact s a)
    (fun _ => ⟨rfl, hcohort, a, hstart⟩) ?_
  · obtain ⟨hsize, -, a', hexact⟩ := hkept hnew
    rw [hexact.cohortQuantity, ← hsize]
    exact ⟨hexact.counted.filled, hexact.counted.ahead⟩
  · rintro labels s event s' ih ⟨hdisplayed, rfl⟩ hnew
    obtain ⟨hsize, hused, a', hexact⟩ := ih fun e he => hnew e (List.mem_append_left _ he)
    obtain ⟨-, hsize', hcohort'⟩ := next_same s event
    have hfresh := hnew event (List.mem_append_right _ List.mem_cons_self)
    exact ⟨hsize'.trans hsize, hcohort' ▸ hused,
      hexact.next hdisplayed fun id hid hmem => hfresh id hid (hused id hmem)⟩

/-- The front order is executed. -/
theorem front_executed :
    let s := behindTwo.next { type := .trade, orderId := 1, priceTicks := 100, quantity := 10 }
    s.model.filled.toNat = min 100 s.traded ∧
      (s.model.filled < 100 → s.model.ahead = s.cohortQuantity) := by
  intro s
  have hrun : Run (Guarded Displayed Step) behindTwo ([] ++ [_]) s :=
    .next .start ⟨⟨⟨by decide, by decide⟩, by decide +kernel, by decide +kernel⟩, rfl⟩
  have hpast : ∀ event ∈ twoBids, FromItch event := by
    intro event hmem
    rcases List.mem_pair.mp hmem with rfl | rfl <;> exact ⟨by decide, by decide⟩
  refine displayed_exact hpast (by decide +kernel) 100 0 ?_ hrun
  intro event hmem id hid
  rw [List.mem_singleton.mp hmem] at hid
  cases hid

end Following

end Research

end MarketEngine
