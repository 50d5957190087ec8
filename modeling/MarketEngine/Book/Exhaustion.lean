import MarketEngine.Book.Rejected

/-! # When the level index runs out of empty slots

Tombstones are never turned back into empty slots, so churn over many prices
leaves the level index without one. From then on it refuses the key of every new
level: orders are turned away from a book with room, a `replace` loses its
original, and a `modify` leaves an order on no list, which can make a later
request spin. Until then none of this happens.
-/

namespace MarketEngine

open Transition

variable {c : Capacity} {b b' : OrderBook c} {a : PriceTimeBook} {request : OrderRequest}
  {event : MarketDataEvent} {calls : List Call} {result : SubmitResult} {fills : List Fill}

namespace OrderBook

/-- The call is a `modify` that opens a level while no slot of the level index is empty. -/
def BlocksModify (b : OrderBook c) : Call → Prop
  | .event event => event.type = .modify ∧ b.Blocks (.event event)
  | .submit _ => False

/-- No `modify` of the run opens a level while no slot of the level index is empty. -/
def KeepsLists (c : Capacity) (calls : List Call) (b : OrderBook c) : Prop :=
  Run (Guarded (fun b call => ¬ b.BlocksModify call) Step) (fresh c) calls b

theorem KeepsLists.keepsOrders (h : KeepsLists c calls b) : KeepsOrders c calls b := by
  induction h with
  | start => exact .start
  | @next calls b b' call _ hstep ih =>
    obtain ⟨a, hrep, -⟩ := KeepsOrders.represents ih
    refine .next ih ⟨fun hrefuses => hstep.1 ?_, hstep.2⟩
    cases call with
    | event event => exact ⟨hrefuses.1, (hrep.refuses_iff_blocks _).mp hrefuses.2⟩
    | submit request => exact hrefuses

/-- Only a `modify` can be in the way of such a run. -/
theorem keepsLists_processAll {events : List MarketDataEvent}
    (h : ∀ event ∈ events, event.type ≠ .modify) :
    KeepsLists c (events.map .event) ((fresh c).processAll events) := by
  induction events using List.reverseRecOn with
  | nil => exact .start
  | append_singleton events event ih =>
    rw [List.map_append, processAll_append]
    refine .next (ih fun e he => h e (List.mem_append_left _ he)) ⟨fun hblocks => ?_, rfl⟩
    exact h event (List.mem_append_right _ List.mem_cons_self) hblocks.1

theorem KeepsLists.represents (h : KeepsLists c calls b) : ∃ a, Represents b a :=
  h.keepsOrders.represents.imp fun _ hrep => hrep.1

/-- Only these events open a level. -/
theorem Blocks.type (h : b.Blocks (.event event)) :
    event.type = .add ∨ event.type = .modify ∨ event.type = .replace := by
  have hopens := h.2.2
  cases htype : event.type <;> simp [htype] at hopens ⊢

/-! ## Refused keys -/

theorem acquireLevel_refused {side : Side} {price : Price}
    (h : b.levelRefused side price = true) : (b.acquireLevel side price).1 = none := by
  obtain ⟨hfind, hfree, hfull⟩ := (levelRefused_iff b side price).mp h
  obtain ⟨index, hindex⟩ := Option.ne_none_iff_exists'.mp hfree
  have hinsert : ((b.takeLevelSlot index side price).insertLevelLookup side price index).1 =
      false := by
    rw [insertLevelLookup_eq_false_iff]
    exact hfull
  unfold acquireLevel
  rw [hfind, hindex]
  dsimp only
  split
  · rfl
  · next heq =>
    rw [heq] at hinsert
    cases hinsert

/-- A refused `modify` unlinks its order and goes no further. -/
theorem modify_refused (h : b.modifyRefused event = true) :
    ∃ i, b.findOrderIndex event.orderId = some i ∧
      (b.unlink i).levelRefused event.side event.priceTicks = true ∧ b.modify event =
        (.capacityExhausted, ((b.unlink i).acquireLevel event.side event.priceTicks).2) := by
  unfold modifyRefused at h
  rw [Bool.and_eq_true, decide_eq_true_eq] at h
  obtain ⟨hq, h⟩ := h
  cases hfind : b.findOrderIndex event.orderId with
  | none =>
    rw [hfind] at h
    cases h
  | some i =>
    rw [hfind] at h
    simp only [Bool.and_eq_true, Bool.not_eq_true', decide_eq_false_iff_not] at h
    obtain ⟨⟨hsame, hpre⟩, hlevel⟩ := h
    refine ⟨i, rfl, hlevel, ?_⟩
    have hnone := acquireLevel_refused hlevel
    unfold modify
    rw [if_neg hq, hfind]
    dsimp only
    rw [if_neg hsame, if_neg hpre]
    split
    · next heq => rw [heq]
    · next heq =>
      rw [heq] at hnone
      cases hnone

/-! ## Capacity -/

theorem Represents.capacity (h : Represents b a) : a.capacity = c.val := by
  obtain ⟨l, fl, fo, h⟩ := h
  exact h.capacity

/-- A blocked event reports that the capacity is exhausted. -/
theorem Represents.exhausted_of_blocks (h : Represents b a) (hblocks : b.Blocks (.event event)) :
    (b.processEvent event).1 = .capacityExhausted := by
  have hrefused : b.eventRefused event = true := (h.refuses_iff_blocks (.event event)).mpr hblocks
  by_cases hmodify : event.type = .modify
  · simp only [eventRefused, hmodify] at hrefused
    obtain ⟨i, -, -, hresult⟩ := modify_refused hrefused
    simp only [OrderBook.processEvent, hmodify, hresult]
  · rw [(h.processEvent _ fun hm => hmodify hm.1).1, hrefused]
    have hopens := hblocks.2
    rw [opensLevel_perm (h.ordersInPriority ▸ ordersInPriority_perm a)] at hopens
    exact PriceTimeBook.process_refused hopens hmodify

theorem Represents.resting_eq_nil (h : Represents b a) (hempty : b.orderCount = 0) :
    a.resting = [] :=
  List.eq_nil_of_length_eq_zero (h.orderCount.symm.trans hempty)

/-- In an empty book only the level index decides about a call that opens a level. -/
theorem Represents.blocks_of_empty (h : Represents b a) (hempty : b.orderCount = 0) {call : Call}
    (hopens : OpensLevel c.val [] call) : b.Blocks call ↔ b.LevelTableFull := by
  apply and_iff_left
  rwa [opensLevel_perm (h.ordersInPriority ▸ ordersInPriority_perm a), h.resting_eq_nil hempty]

theorem Represents.capacity_of_event (h : Represents b a) (event : MarketDataEvent) :
    ((b.processEvent event).1 = .capacityExhausted →
      event.type = .add ∧ b.orderCount = c.val) ↔ ¬ b.Blocks (.event event) := by
  have hcount := h.orderCount
  have hcap := h.capacity
  constructor
  · intro hcapacity hblocks
    obtain ⟨htype, hfull⟩ := hcapacity (h.exhausted_of_blocks hblocks)
    have hopens := hblocks.2.2
    rw [htype, h.ordersInPriority] at hopens
    have hroom := hopens.2.1
    rw [(ordersInPriority_perm a).length_eq] at hroom
    omega
  · intro hblocks hresult
    have hrefused : b.eventRefused event = false :=
      Bool.eq_false_iff.mpr ((h.refuses_iff_blocks (.event event)).not.mpr hblocks)
    have hstep := h.processEvent event (by simp [hrefused])
    rw [hrefused] at hstep
    obtain ⟨htype, hfull⟩ :=
      PriceTimeBook.process_exhausted (hcap ▸ h.length_le) (hstep.1.symm.trans hresult)
    exact ⟨htype, hcount.trans (hfull.trans hcap)⟩

theorem Represents.capacity_of_submit (h : Represents b a)
    (hsubmits : b.SubmitsTo request result fills b') :
    (result = .rejectedCapacity → b'.orderCount = c.val) ↔ ¬ b.Blocks (.submit request) := by
  obtain ⟨refused, b'', hsubmits', hrep', hrefused⟩ := h.submitsTo request
  obtain ⟨rfl, rfl, rfl⟩ := hsubmits.unique hsubmits'
  rw [← h.refuses_iff_blocks, ← hrefused, hrep'.orderCount]
  constructor
  · rintro hcapacity rfl
    have hopens := ((h.refuses_iff_blocks _).mp (hrefused.mp rfl)).2
    rw [opensLevel_perm (h.ordersInPriority ▸ ordersInPriority_perm a)] at hopens
    obtain ⟨hresult, hremaining⟩ := PriceTimeBook.submit_refused h.nodup_ids hopens
    have hroom := (PriceTimeBook.traded_length_lt_iff h.nodup_ids h.length_le hremaining).mpr
      hopens.2.2.2.2.1
    have hfull := hcapacity hresult
    rw [(PriceTimeBook.submit_rejected hresult).2] at hfull
    omega
  · intro hne hresult
    rw [(PriceTimeBook.submit_rejected hresult).1.resolve_right hne, hrep'.capacity]

theorem Represents.add_of_empty (h : Represents b a) (hempty : b.orderCount = 0)
    (htype : event.type = .add) (hq : event.quantity ≠ 0) :
    (b.processEvent event).1 = .applied ↔ ¬ b.LevelTableFull := by
  have hopens : OpensLevel c.val [] (.event event) := by
    simp [OpensLevel, htype, hq, c.pos]
  have hstep := (h.processEvent event (by simp [htype])).1
  have hrefused : b.eventRefused event = true ↔ b.LevelTableFull :=
    (h.refuses_iff_blocks (.event event)).trans (h.blocks_of_empty hempty hopens)
  rw [hstep, ← hrefused, Bool.not_eq_true]
  cases b.eventRefused event <;>
    simp [PriceTimeBook.process, PriceTimeBook.rest, PriceTimeBook.find, htype, hq,
      h.resting_eq_nil hempty, h.capacity, c.pos.ne]

theorem Represents.submit_of_empty (h : Represents b a) (hempty : b.orderCount = 0)
    (htype : request.type = .new) (hmay : request.mayRest = true) (hq : request.quantity ≠ 0)
    (hsubmits : b.SubmitsTo request result fills b') :
    result = .restedNoFill ↔ ¬ b.LevelTableFull := by
  have hpos : 0 < request.quantity.toNat :=
    UInt64.lt_iff_toNat_lt.mp (UInt64.pos_iff_ne_zero.mpr hq)
  have hopens : OpensLevel c.val [] (.submit request) := by
    simp [OpensLevel, htype, hmay, OrderRequest.offered, c.pos, hpos]
  have hnil := h.resting_eq_nil hempty
  have htraded : a.traded request = ⟨a, request.quantity, []⟩ := by
    simp [PriceTimeBook.traded, Trading.matchAll, hnil, OrderRequest.bestMaker]
  have hfok := OrderRequest.tif_ne_fok hmay
  obtain ⟨refused, b'', hsubmits', -, hrefused⟩ := h.submitsTo request
  obtain ⟨rfl, -, -⟩ := hsubmits.unique hsubmits'
  rw [← h.blocks_of_empty hempty hopens, ← h.refuses_iff_blocks, ← hrefused]
  cases refused <;>
    simp [PriceTimeBook.submit, PriceTimeBook.settle, PriceTimeBook.rest, PriceTimeBook.find,
      htype, hq, hfok, hmay, htraded, hnil, h.capacity, c.pos.ne]

/-- Only a full book turns a new order away, and an empty book takes one at any price, unless
a level is opened with no empty slot. -/
theorem capacity_exact (hrun : KeepsLists c calls b) :
    (∀ event : MarketDataEvent,
      ((b.processEvent event).1 = .capacityExhausted →
        event.type = .add ∧ b.orderCount = c.val) ↔ ¬ b.Blocks (.event event)) ∧
    (∀ request result fills b', b.SubmitsTo request result fills b' →
      ((result = .rejectedCapacity → b'.orderCount = c.val) ↔ ¬ b.Blocks (.submit request))) ∧
    (b.orderCount = 0 → ∀ event : MarketDataEvent, event.type = .add → event.quantity ≠ 0 →
      ((b.processEvent event).1 = .applied ↔ ¬ b.LevelTableFull)) ∧
    (b.orderCount = 0 → ∀ request result fills b', request.type = .new →
      request.mayRest = true → request.quantity ≠ 0 → b.SubmitsTo request result fills b' →
      (result = .restedNoFill ↔ ¬ b.LevelTableFull)) := by
  obtain ⟨a, hrep⟩ := hrun.represents
  exact ⟨hrep.capacity_of_event, fun _ _ _ _ => hrep.capacity_of_submit,
    fun hempty _ => hrep.add_of_empty hempty, fun hempty _ _ _ _ => hrep.submit_of_empty hempty⟩

/-- An order that comes and goes at each price. -/
def churn (side : Side) (prices : List Price) : List MarketDataEvent :=
  prices.flatMap fun price =>
    [{ type := .add, orderId := 1, side := side, priceTicks := price, quantity := 1 },
      { type := .cancel, orderId := 1 }]

theorem churn_type {side : Side} {prices : List Price} :
    ∀ event ∈ churn side prices, event.type ≠ .modify := by
  intro event hevent
  simp only [churn, List.mem_flatMap, List.mem_cons, List.not_mem_nil, or_false] at hevent
  obtain ⟨price, -, rfl | rfl⟩ := hevent <;> simp

/-- A slot of the level index is still empty after one price. -/
theorem churned_book_accepts :
    let b := (fresh .one).processAll (churn .buy [0])
    (b.processEvent { type := .add, orderId := 1, priceTicks := 1, quantity := 1 }).1 =
      .applied := by
  intro b
  refine ((capacity_exact (keepsLists_processAll churn_type)).2.2.1 ?_ _ rfl ?_).mpr ?_ <;>
    decide +kernel

/-- After two prices the book holds no order and still turns one away. -/
theorem empty_book_exhausted :
    let b := (fresh .one).processAll (churn .buy [0, 1])
    b.orderCount = 0 ∧
      (b.processEvent { type := .add, orderId := 1, priceTicks := 2, quantity := 1 }).1 =
        .capacityExhausted := by
  decide +kernel

/-! ## Rejected events -/

/-- Every query answers alike. -/
structure SameAnswers (b b' : OrderBook c) : Prop where
  ordersInPriority : b'.ordersInPriority = b.ordersInPriority
  levelViews : b'.levelViews = b.levelViews
  bestBid : b'.bestBid = b.bestBid
  bestAsk : b'.bestAsk = b.bestAsk
  orderCount : b'.orderCount = b.orderCount
  stateChecksum : b'.stateChecksum = b.stateChecksum
  findOrder : ∀ id, b'.findOrder id = b.findOrder id

theorem Represents.sameAnswers (h : Represents b a) (h' : Represents b' a) :
    SameAnswers b b' where
  ordersInPriority := h'.ordersInPriority.trans h.ordersInPriority.symm
  levelViews := h'.levelViews.trans h.levelViews.symm
  bestBid := h'.bestBid.trans h.bestBid.symm
  bestAsk := h'.bestAsk.trans h.bestAsk.symm
  orderCount := h'.orderCount.trans h.orderCount.symm
  stateChecksum := h'.stateChecksum.trans h.stateChecksum.symm
  findOrder id := (h'.findOrder id).trans (h.findOrder id).symm

/-- A blocked `modify` takes its order out of the priority list. -/
theorem Represents.modify_loses (h : Represents b a) (hrefused : b.modifyRefused event = true) :
    (b.modify event).2.ordersInPriority.length + 1 = b.ordersInPriority.length := by
  obtain ⟨i, hfind, hlevel, hresult⟩ := modify_refused hrefused
  have hnone := acquireLevel_refused hlevel
  rw [hresult, h.ordersInPriority, (ordersInPriority_perm a).length_eq]
  obtain ⟨l, fl, fo, h⟩ := h
  obtain ⟨hi, -⟩ := h.wf.orders.find_eq_some_iff.mp hfind
  obtain ⟨l₁, l₂, rfl, -⟩ := h.wf.orders.split h.wf.linked.queues.nodup hi
  obtain ⟨fl', hlinked⟩ := unlink_linked h.wf.linked
  have hacquired := acquireLevel_acquired hlinked.levels event.side event.priceTicks
  rw [hnone] at hacquired
  generalize ((b.unlink i).acquireLevel event.side event.priceTicks).2 = b' at hacquired ⊢
  have hlists : Lists b' { a with resting := b'.resting (l₁ ++ l₂) } (l₁ ++ l₂) fl' :=
    ⟨hacquired.linked_none hlinked, rfl⟩
  rw [hlists.ordersInPriority, (ordersInPriority_perm _).length_eq, h.length_eq]
  simp only [OrderBook.resting, List.length_map, List.length_append, List.length_cons]
  omega

/-- A blocked `replace` takes its original out of the book. -/
theorem Represents.replace_loses (h : Represents b a) (htype : event.type = .replace)
    (hblocks : b.Blocks (.event event)) :
    (b.processEvent event).2.orderCount < b.orderCount := by
  have hrefused : b.eventRefused event = true := (h.refuses_iff_blocks (.event event)).mpr hblocks
  have hopens := hblocks.2
  rw [opensLevel_perm (h.ordersInPriority ▸ ordersInPriority_perm a)] at hopens
  have hstep := (h.processEvent event (by simp [htype])).2
  rw [hstep.orderCount, h.orderCount, hrefused,
    PriceTimeBook.process_replace_refused hopens htype]
  obtain ⟨o, ho, hid, -⟩ : ∃ o ∈ a.resting, o.id = event.orderId ∧ _ := by
    have := hopens.2
    rw [htype] at this
    exact this
  exact List.length_filter_lt_length_iff_exists.mpr ⟨o, ho, by simp [hid]⟩

/-- A rejected event leaves the book as it was, unless it is a `modify` or a `replace` that
opens a level with no empty slot. -/
theorem rejection_atomic (hrun : KeepsLists c calls b) (event : MarketDataEvent) :
    ((b.processEvent event).1 ≠ .applied → SameAnswers b (b.processEvent event).2) ↔
      ¬ (b.Blocks (.event event) ∧ event.type ≠ .add) := by
  obtain ⟨a, hrep⟩ := hrun.represents
  constructor
  · rintro hatomic ⟨hblocks, htype⟩
    have hsame := hatomic (by simp [hrep.exhausted_of_blocks hblocks])
    rcases hblocks.type.resolve_left htype with hmodify | hreplace
    · have hrefused := (hrep.refuses_iff_blocks (.event event)).mpr hblocks
      simp only [Refuses, eventRefused, hmodify] at hrefused
      have hloses := hrep.modify_loses hrefused
      have hkept := hsame.ordersInPriority
      simp only [processEvent, hmodify] at hkept
      rw [hkept] at hloses
      omega
    · exact (hrep.replace_loses hreplace hblocks).ne hsame.orderCount
  · intro hnot hresult
    have hsafe : event.type ≠ .add → b.eventRefused event = false := fun htype =>
      Bool.eq_false_iff.mpr fun hr => hnot ⟨(hrep.refuses_iff_blocks (.event event)).mp hr, htype⟩
    have hstep := hrep.processEvent event fun hm => by
      rw [hsafe (by simp [hm.1])] at hm
      cases hm.2
    rw [hstep.1] at hresult
    have hkept := PriceTimeBook.process_rejected (hrep.capacity ▸ hrep.length_le) hresult
      fun htype => hsafe (by simp [htype])
    rw [hkept] at hstep
    exact hrep.sameAnswers hstep.2

/-- A duplicate is turned away with nothing changed. -/
theorem duplicate_add_atomic :
    let b := (fresh .one).processAll (churn .buy [0] ++
      [{ type := .add, orderId := 1, priceTicks := 1, quantity := 1 }])
    SameAnswers b
      (b.processEvent { type := .add, orderId := 1, priceTicks := 2, quantity := 1 }).2 := by
  intro b
  have hrun : KeepsLists .one _ b := keepsLists_processAll (by decide)
  exact (rejection_atomic hrun { type := .add, orderId := 1, priceTicks := 2, quantity := 1 }).mpr
    (fun h => h.2 rfl) (by decide +kernel)

/-- Both a `modify` and a `replace` are rejected here, and either way the order is lost. -/
theorem rejected_order_lost :
    let b := (fresh .one).processAll (churn .buy [0] ++
      [{ type := .add, orderId := 1, priceTicks := 1, quantity := 1 }])
    let modified := b.processEvent { type := .modify, orderId := 1, priceTicks := 2, quantity := 1 }
    let replaced := b.processEvent
      { type := .replace, orderId := 1, newOrderId := 2, priceTicks := 2, quantity := 1 }
    modified.1 = .capacityExhausted ∧ replaced.1 = .capacityExhausted ∧
      b.ordersInPriority.length = 1 ∧ modified.2.ordersInPriority.length = 0 ∧
      b.orderCount = 1 ∧ replaced.2.orderCount = 0 := by
  decide +kernel

/-! ## Termination -/

/-- Every request ends, within a number of loop passes bounded by the resting orders. -/
theorem submit_terminates (hrun : KeepsLists c calls b) (request : OrderRequest) :
    ∃ result fills b', ∀ fuel, b.orderCount + 3 ≤ fuel →
      b.submit fuel request = some (result, fills, b') := by
  obtain ⟨a, hrep⟩ := hrun.represents
  obtain ⟨b', hsubmit, -⟩ := hrep.submit request (le_refl b.submitFuel)
  exact ⟨_, _, b', fun fuel hfuel => submit_mono hsubmit hfuel⟩

/-- A level whose list is empty keeps the outer loop from ending. -/
theorem matchLoop_spins (request : OrderRequest) {m : Matching c} {ℓ : Index c}
    (hremaining : m.remaining ≠ 0)
    (htop : m.book.ladderTop request.side.opposite = some ℓ)
    (hcross : request.crosses (m.book.levels.get ℓ).price = true)
    (hhead : (m.book.levels.get ℓ).head = none) (fuel : ℕ) :
    Matching.matchLoop request fuel m = none := by
  induction fuel with
  | zero => rfl
  | succ fuel ih =>
    unfold Matching.matchLoop
    rw [if_neg hremaining, htop]
    dsimp only
    rw [if_pos hcross, hhead]
    cases fuel with
    | zero => rfl
    | succ fuel => exact ih

/-- The last three orders rest at the price that takes the last empty slot; one of them is lost
in a rejected `modify` and then canceled. -/
def emptiedLevel : List MarketDataEvent :=
  churn .sell [0, 1, 2, 3, 4, 7, 11] ++
    [{ type := .add, orderId := 1, side := .sell, priceTicks := 21, quantity := 1 },
      { type := .add, orderId := 2, side := .sell, priceTicks := 21, quantity := 1 },
      { type := .add, orderId := 3, side := .sell, priceTicks := 21, quantity := 1 },
      { type := .modify, orderId := 3, side := .sell, priceTicks := 22, quantity := 1 },
      { type := .cancel, orderId := 3 }]

def buyAt21 : OrderRequest := { id := 4, side := .buy, priceTicks := 21, quantity := 2 }

/-- Before the `modify` the request trades with two of the orders. -/
theorem three_orders_traded :
    let b := (fresh .three).processAll (emptiedLevel.take 17)
    ∃ result fills b', ∀ fuel, b.orderCount + 3 ≤ fuel →
      b.submit fuel buyAt21 = some (result, fills, b') :=
  submit_terminates (keepsLists_processAll (by decide +kernel)) buyAt21

/-- At the end the request spins. -/
theorem submit_never_ends :
    let b := (fresh .three).processAll emptiedLevel
    ¬ ∃ fuel, (b.submit fuel buyAt21).isSome = true := by
  rintro b ⟨fuel, hends⟩
  have hloop := matchLoop_spins buyAt21 (m := ⟨b, 2, []⟩) (ℓ := 0) (by decide)
    (by decide +kernel) (by decide +kernel) (by decide +kernel) fuel
  have hnew : ¬ (buyAt21.mayRest = true ∧ (b.findOrderIndex buyAt21.id).isSome = true) := by
    decide +kernel
  have hsubmit : b.submit fuel buyAt21 = none := by
    unfold submit
    rw [show buyAt21.type = .new from rfl]
    dsimp only
    rw [if_neg (by decide), if_neg hnew, if_neg (by simp [buyAt21]),
      show buyAt21.quantity = 2 from rfl, hloop]
  rw [hsubmit] at hends
  cases hends

end OrderBook

end MarketEngine
