import MarketEngine.Book.Runs

/-! # Orders have a quantity

No call leaves an order of quantity 0 in the order index, not even one that
corrupts the levels of the book.
-/

namespace MarketEngine

open ProbeTable Transition

variable {c : Capacity} {b b' : OrderBook c} {request : OrderRequest} {event : MarketDataEvent}
  {i ℓ : Index c} {id : OrderId}

namespace OrderBook

/-- The orders that the index finds have a quantity. -/
def HasQuantities (b : OrderBook c) : Prop :=
  ∀ id i, Maps b.orderLookup id i → (b.orders.get i).quantity ≠ 0

theorem HasQuantities.findOrder (h : b.HasQuantities) {order : OrderView}
    (hfind : b.findOrder id = some order) : order.quantity ≠ 0 := by
  obtain ⟨i, hi, rfl⟩ := Option.map_eq_some_iff.mp hfind
  exact h id i (maps_of_lookup hi)

/-- Fewer entries, and no quantity becomes 0. -/
theorem HasQuantities.mono (h : b.HasQuantities)
    (hmaps : ∀ id i, Maps b'.orderLookup id i → Maps b.orderLookup id i)
    (hquantity : ∀ i, (b.orders.get i).quantity ≠ 0 → (b'.orders.get i).quantity ≠ 0) :
    b'.HasQuantities :=
  fun id i hi => hquantity i (h id i (hmaps id i hi))

theorem HasQuantities.congr (h : b.HasQuantities) (hs : SameCores b b') : b'.HasQuantities :=
  h.mono (fun _ _ hi => hs.orderLookup ▸ hi) fun i hi => (hs.quantity i).symm ▸ hi

theorem HasQuantities.erase (h : b.HasQuantities) (id : OrderId) :
    (b.eraseOrderLookup id).HasQuantities :=
  h.mono (fun _ _ hi => maps_of_erase hi) fun _ hi => hi

theorem HasQuantities.free (h : b.HasQuantities) (i : Index c) :
    (b.freeOrderSlot i).HasQuantities := by
  refine h.mono (fun _ _ hi => hi) fun j hj => ?_
  simp only [freeOrderSlot, Pool.get_modify]
  split_ifs <;> exact hj

/-- A new entry points at an order with a quantity. -/
theorem HasQuantities.insert (h : b.HasQuantities) (hi : (b.orders.get i).quantity ≠ 0)
    (id : OrderId) : (b.insertOrderLookup id i).2.HasQuantities := by
  have hset : ∀ slot, ({ b with orderLookup := b.orderLookup.set slot (.occupied id i) } :
      OrderBook c).HasQuantities := by
    rintro slot id' j ⟨s, hs⟩
    rw [Pool.get_set] at hs
    split_ifs at hs
    · cases hs
      exact hi
    · exact h id' j ⟨s, hs⟩
  unfold insertOrderLookup
  split
  · exact hset _
  · exact hset _
  · exact h

/-! ## Levels -/

theorem acquireLevel_sameOrders (b : OrderBook c) (side : Side) (price : Price) :
    SameOrders b (b.acquireLevel side price).2 := by
  have hopen : ∀ index, SameOrders b
      ((b.takeLevelSlot index side price).insertLevelLookup side price index).2 := by
    intro index
    unfold insertLevelLookup
    split <;> exact ⟨rfl, rfl, rfl, rfl, rfl, rfl⟩
  unfold acquireLevel
  split
  · exact .refl b
  · split
    · exact .refl b
    · next index _ =>
      have hsame := hopen index
      rcases heq : (b.takeLevelSlot index side price).insertLevelLookup side price index with
        ⟨_ | _, b'⟩ <;> rw [heq] at hsame
      · exact hsame.trans ⟨rfl, rfl, rfl, rfl, rfl, rfl⟩
      · exact hsame.trans (setLadder_sameOrders _ _ _)

theorem HasQuantities.takeOrderSlot (h : b.HasQuantities) (id : OrderId) (side : Side)
    (price : Price) {q : Quantity} (hq : q ≠ 0) (i ℓ : Index c) :
    (b.takeOrderSlot i id side price q ℓ).HasQuantities ∧
      ((b.takeOrderSlot i id side price q ℓ).orders.get i).quantity ≠ 0 := by
  have hget : ∀ j, ((b.takeOrderSlot i id side price q ℓ).orders.get j).quantity =
      if j = i then q else (b.orders.get j).quantity := by
    intro j
    simp only [OrderBook.takeOrderSlot, Pool.get_set]
    split_ifs <;> rfl
  constructor
  · refine h.mono (fun _ _ hi => hi) fun j hj => ?_
    rw [hget]
    split_ifs <;> assumption
  · rw [hget, if_pos rfl]
    exact hq

/-! ## Events -/

theorem HasQuantities.restOrder (h : b.HasQuantities) (id : OrderId) (side : Side)
    (price : Price) (q : Quantity) : (b.restOrder id side price q).2.HasQuantities := by
  unfold OrderBook.restOrder
  split_ifs with hq hdup
  · exact h
  · exact h
  · split
    · exact h
    · next i _ =>
      have hacquired := h.congr (acquireLevel_sameOrders b side price).sameCores
      split
      · next heq =>
        rw [heq] at hacquired
        exact hacquired
      · next ℓ b' heq =>
        rw [heq] at hacquired
        obtain ⟨htaken, hi⟩ := hacquired.takeOrderSlot id side price hq i ℓ
        have hlinked := htaken.congr (linkTail_sameCores _ i ℓ)
        rw [← (linkTail_sameCores _ i ℓ).quantity] at hi
        have hinserted := hlinked.insert hi id
        dsimp only
        split
        · next heq' =>
          rw [heq'] at hinserted
          exact (hinserted.congr (unlink_sameCores _ i)).free i
        · next heq' =>
          rw [heq'] at hinserted
          exact hinserted.mono (fun _ _ hi => hi) fun _ hi => hi

theorem HasQuantities.cancel (h : b.HasQuantities) (id : OrderId) :
    (b.cancel id).2.HasQuantities := by
  unfold OrderBook.cancel
  split
  · exact h
  · next i _ =>
    have hfreed := ((h.congr (unlink_sameCores b i)).erase id).free i
    exact hfreed.mono (fun _ _ hi => hi) fun _ hi => hi

/-- A change of one quantity to another that is not 0. -/
theorem HasQuantities.requantify (h : b.HasQuantities) {q : Quantity} (hq : q ≠ 0)
    (levels : Pool (Level c) c.val) (i : Index c) :
    ({ b with levels := levels, orders := b.orders.modify i fun o => { o with quantity := q } } :
      OrderBook c).HasQuantities := by
  refine h.mono (fun _ _ hi => hi) fun j hj => ?_
  simp only [Pool.get_modify]
  split_ifs <;> assumption

theorem HasQuantities.trade (h : b.HasQuantities) (id : OrderId) (q : Quantity) :
    (b.trade id q).2.HasQuantities := by
  unfold OrderBook.trade
  split_ifs with hq
  · exact h
  · split
    · exact h
    · next i _ =>
      dsimp only
      split_ifs with hgt heq
      · exact h
      · exact h.cancel id
      · have hrest : (b.orders.get i).quantity - q ≠ 0 :=
          fun hzero => heq (sub_eq_zero.mp hzero).symm
        refine h.mono (fun _ _ hi => hi) fun j hj => ?_
        simp only [Pool.get_modify]
        split_ifs with hji
        · exact hji ▸ hrest
        · exact hj

theorem HasQuantities.modify (h : b.HasQuantities) (event : MarketDataEvent) :
    (b.modify event).2.HasQuantities := by
  unfold OrderBook.modify
  split_ifs with hq
  · exact h
  · split
    · exact h
    · next i _ =>
      dsimp only
      split_ifs
      · exact h.requantify hq _ i
      · exact h
      · have hacquired := (h.congr (unlink_sameCores b i)).congr
          (acquireLevel_sameOrders (b.unlink i) event.side event.priceTicks).sameCores
        split
        · next heq =>
          rw [heq] at hacquired
          exact hacquired
        · next ℓ b' heq =>
          rw [heq] at hacquired
          refine HasQuantities.congr (b := b'.moveOrder i event ℓ) ?_ (linkTail_sameCores _ i ℓ)
          refine hacquired.mono (fun _ _ hi => hi) fun j hj => ?_
          simp only [moveOrder, Pool.get_modify]
          split_ifs <;> assumption

theorem HasQuantities.replace (h : b.HasQuantities) (event : MarketDataEvent) :
    (b.replace event).2.HasQuantities := by
  unfold OrderBook.replace
  split
  · exact h
  · split
    · exact h
    · dsimp only
      split
      · exact h
      · exact (h.cancel _).restOrder _ _ _ _

theorem HasQuantities.processEvent (h : b.HasQuantities) (event : MarketDataEvent) :
    (b.processEvent event).2.HasQuantities := by
  unfold OrderBook.processEvent
  cases event.type with
  | add => exact h.restOrder _ _ _ _
  | modify => exact h.modify event
  | cancel => exact h.cancel _
  | trade | reduce => exact h.trade _ _
  | replace => exact h.replace event

end OrderBook

/-! ## Requests -/

namespace Matching

open OrderBook

variable {m m' : Matching c} {fuel : ℕ}

theorem hasQuantities_fillMaker (h : m.book.HasQuantities) (price : Price) (ℓ i : Index c) :
    (m.fillMaker request price ℓ i).book.HasQuantities := by
  have hticked : ({ m.book with fillSequence := m.book.fillSequence + 1 } :
      OrderBook c).HasQuantities := h.mono (fun _ _ hi => hi) fun _ hi => hi
  unfold fillMaker
  dsimp only
  split
  · have hremoved := ((hticked.erase (m.book.orders.get i).id).congr (unlink_sameCores _ i)).free i
    exact hremoved.mono (fun _ _ hi => hi) fun _ hi => hi
  · next htraded =>
    have hrest : (m.book.orders.get i).quantity - m.traded i ≠ 0 :=
      fun hzero => htraded (sub_eq_zero.mp hzero).symm
    refine hticked.mono (fun _ _ hi => hi) fun j hj => ?_
    simp only [reduceMaker, Pool.get_modify]
    split_ifs with hji
    · exact hji ▸ hrest
    · exact hj

theorem hasQuantities_fillLevel (h : m.book.HasQuantities) {price : Price}
    {o : Option (Index c)} (hfill : fillLevel request price ℓ fuel o m = some m') :
    m'.book.HasQuantities := by
  induction fuel generalizing o m with
  | zero => cases hfill
  | succ fuel ih =>
    unfold fillLevel at hfill
    cases o with
    | none =>
      cases hfill
      exact h
    | some i =>
      dsimp only at hfill
      split_ifs at hfill
      · cases hfill
        exact h
      all_goals exact ih (hasQuantities_fillMaker h price ℓ i) hfill

theorem hasQuantities_matchLoop (h : m.book.HasQuantities)
    (hloop : matchLoop request fuel m = some m') : m'.book.HasQuantities := by
  induction fuel generalizing m with
  | zero => cases hloop
  | succ fuel ih =>
    unfold matchLoop at hloop
    split_ifs at hloop
    · cases hloop
      exact h
    · split at hloop
      · cases hloop
        exact h
      · next ℓ _ =>
        dsimp only at hloop
        split_ifs at hloop
        · split at hloop
          · cases hloop
          · next hfill => exact ih (hasQuantities_fillLevel h hfill) hloop
        · cases hloop
          exact h

end Matching

namespace OrderBook

theorem HasQuantities.settle {m : Matching c} (h : m.book.HasQuantities) :
    (OrderBook.settle request m).2.HasQuantities := by
  have hrested := h.restOrder request.id request.side request.priceTicks m.remaining
  unfold OrderBook.settle
  dsimp only
  split
  · exact h
  · split
    · split
      · next heq =>
        rw [heq] at hrested
        exact hrested
      · next heq =>
        rw [heq] at hrested
        exact hrested
    · exact h

theorem HasQuantities.submit {fuel : ℕ} {result : SubmitResult} {fills : List Fill}
    (h : b.HasQuantities) (hsubmit : b.submit fuel request = some (result, fills, b')) :
    b'.HasQuantities := by
  have hcancel := h.cancel request.id
  unfold OrderBook.submit at hsubmit
  cases htype : request.type with
  | cancel =>
    rw [htype] at hsubmit
    dsimp only at hsubmit
    split at hsubmit <;> next heq =>
      cases hsubmit
      rw [heq] at hcancel
      exact hcancel
  | new =>
    rw [htype] at hsubmit
    dsimp only at hsubmit
    split_ifs at hsubmit
    iterate 3
      · cases hsubmit
        exact h
    · split at hsubmit
      · cases hsubmit
      · next m hloop =>
        cases hsubmit
        exact (Matching.hasQuantities_matchLoop h hloop).settle

theorem HasQuantities.step (h : b.HasQuantities) {call : Call} (hstep : b.Step call b') :
    b'.HasQuantities := by
  cases call with
  | event event =>
    obtain rfl := hstep
    exact h.processEvent event
  | submit request =>
    obtain ⟨result, fills, fuel, hsubmit⟩ := hstep
    exact h.submit hsubmit

/-- In every book that calls lead to, the orders that are found have a quantity. -/
theorem run_hasQuantities {calls : List Call} (h : Run Step (fresh c) calls b) :
    b.HasQuantities := by
  refine h.invariant_length (I := fun _ (b : OrderBook c) => b.HasQuantities) ?_ ?_
  · rintro id i ⟨slot, hslot⟩
    cases hslot
  · exact fun _ _ _ _ _ hi hstep => hi.step hstep

end OrderBook

end MarketEngine
