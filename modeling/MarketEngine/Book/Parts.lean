import MarketEngine.Book.PriorityRefinement

/-! # Parts of a book

Orders have owners. The part of a priority list that one owner has takes the
events of this owner as the whole list does, and no other event changes it.
-/

namespace MarketEngine

variable {κ : Type} [DecidableEq κ] {owner : OrderId → κ} {k : κ} {p : PriorityBook}
  {event : MarketDataEvent} {id : OrderId} {side : Side} {price : Price} {q : Quantity} {n : ℕ}

/-- Every order id of the event is the owner's. -/
def MarketDataEvent.OwnedBy (event : MarketDataEvent) (owner : OrderId → κ) (k : κ) : Prop :=
  owner event.orderId = k ∧ (event.type = .replace → owner event.newOrderId = k)

namespace PriorityBook

/-- The orders of one owner, in a book of capacity `n`. -/
def part (p : PriorityBook) (owner : OrderId → κ) (k : κ) (n : ℕ) : PriorityBook :=
  ⟨n, p.orders.filter fun o => owner o.id = k⟩

/-- The better orders stand in front. -/
def Sorted (p : PriorityBook) : Prop := KeyOrder.Sorted OrderView.key LevelKey.rank p.orders

theorem Sorted.without (h : p.Sorted) (id : OrderId) : (p.without id).Sorted := h.filter _

/-! ## The owner's own operations -/

theorem part_find (hid : owner id = k) : (p.part owner k n).find id = p.find id := by
  rw [part, find, find, List.find?_filter]
  congr 1
  ext o
  by_cases ho : o.id = id <;> simp [ho, hid]

theorem part_without : (p.part owner k n).without id = (p.without id).part owner k n := by
  simp only [part, without, List.filter_filter, Bool.and_comm]

theorem part_requantify :
    (p.part owner k n).requantify id q = (p.requantify id q).part owner k n := by
  have hkept : ∀ o : OrderView,
      decide (owner (if o.id = id then { o with quantity := q } else o).id = k) =
        decide (owner o.id = k) := by
    intro o
    by_cases ho : o.id = id <;> simp [ho]
  simp only [part, requantify, List.filter_map, Function.comp_def, hkept]

theorem part_enter (hsorted : p.Sorted) (hid : owner id = k) :
    (p.part owner k n).enter id side price q = (p.enter id side price q).part owner k n := by
  rw [part, enter, enter, part, hsorted.filter_enqueue LevelKey.rank_injective (by simp [hid])]

theorem part_rest (hsorted : p.Sorted) (hid : owner id = k)
    (h : (p.rest id side price q).1 ≠ .capacityExhausted)
    (h' : ((p.part owner k n).rest id side price q).1 ≠ .capacityExhausted) :
    (p.part owner k n).rest id side price q =
      ((p.rest id side price q).1, (p.rest id side price q).2.part owner k n) := by
  unfold rest at h h' ⊢
  rw [part_find hid] at h' ⊢
  by_cases hq : q = 0
  · simp [hq]
  by_cases hid' : (p.find id).isSome = true
  · simp [hq, hid']
  by_cases hfull : p.orders.length = p.capacity
  · simp [hq, hid', hfull] at h
  by_cases hfull' : (p.part owner k n).orders.length = (p.part owner k n).capacity
  · simp [hq, hid', hfull'] at h'
  simp [hq, hid', hfull, hfull', part_enter hsorted hid]

/-- The events of an owner change the owner's part as they change the whole. -/
theorem part_process (hsorted : p.Sorted) (howned : event.OwnedBy owner k)
    (h : (p.process event).1 ≠ .capacityExhausted)
    (h' : ((p.part owner k n).process event).1 ≠ .capacityExhausted) :
    (p.part owner k n).process event =
      ((p.process event).1, (p.process event).2.part owner k n) := by
  obtain ⟨hid, hnew⟩ := howned
  unfold process at h h' ⊢
  cases htype : event.type with
  | add =>
    simp only [htype] at h h' ⊢
    exact part_rest hsorted hid h h'
  | modify =>
    simp only
    unfold modify
    rw [part_find hid, part_requantify, part_without, part_enter (hsorted.without _) hid]
    split
    · rfl
    · cases p.find event.orderId with
      | none => rfl
      | some order =>
        dsimp only
        split <;> rfl
  | cancel =>
    simp only
    unfold cancel
    rw [part_find hid, part_without]
    cases p.find event.orderId <;> rfl
  | trade | reduce =>
    simp only
    unfold trade
    rw [part_find hid, part_without]
    split
    · rfl
    · cases p.find event.orderId with
      | none => rfl
      | some order =>
        dsimp only
        rw [part_requantify]
        split_ifs <;> rfl
  | replace =>
    simp only [htype] at h h' ⊢
    unfold replace at h h' ⊢
    rw [part_find hid, part_find (hnew htype), part_without] at h' ⊢
    by_cases hq : event.quantity = 0
    · simp [hq]
    cases hfind : p.find event.orderId with
    | none => simp [hq]
    | some order =>
      simp only [hfind, if_neg hq] at h h' ⊢
      by_cases hdup : event.newOrderId ≠ event.orderId ∧ (p.find event.newOrderId).isSome = true
      · simp [hdup]
      · simp only [if_neg hdup] at h h' ⊢
        exact part_rest (hsorted.without _) (hnew htype) h h'

/-! ## The others' operations -/

theorem without_part_of_ne (hid : owner id ≠ k) :
    (p.without id).part owner k n = p.part owner k n := by
  rw [part, without, part, List.filter_filter]
  congr 2
  ext o
  by_cases ho : o.id = id <;> simp [ho, hid]

theorem requantify_part_of_ne (hid : owner id ≠ k) :
    (p.requantify id q).part owner k n = p.part owner k n := by
  rw [← part_requantify, part, requantify]
  congr 1
  refine (List.map_congr_left fun o ho => if_neg ?_).trans (List.map_id' _)
  rintro rfl
  exact hid (by simpa using (List.mem_filter.mp ho).2)

theorem enter_part_of_ne (hid : owner id ≠ k) :
    (p.enter id side price q).part owner k n = p.part owner k n := by
  rw [part, enter, KeyOrder.filter_enqueue_of_not (by simp [hid])]
  rfl

theorem rest_part_of_ne (hid : owner id ≠ k) :
    (p.rest id side price q).2.part owner k n = p.part owner k n := by
  unfold rest
  split_ifs
  · rfl
  · rfl
  · rfl
  · exact enter_part_of_ne hid

/-- The events of one owner are nothing to the others. -/
theorem process_part_of_ne {k' : κ} (howned : event.OwnedBy owner k') (hne : k' ≠ k) :
    (p.process event).2.part owner k n = p.part owner k n := by
  obtain ⟨rfl, hnew⟩ := howned
  unfold process
  cases htype : event.type with
  | add => exact rest_part_of_ne hne
  | modify =>
    simp only
    unfold modify
    split
    · rfl
    · cases p.find event.orderId with
      | none => rfl
      | some order =>
        dsimp only
        split
        · exact requantify_part_of_ne hne
        · exact (enter_part_of_ne hne).trans (without_part_of_ne hne)
  | cancel =>
    simp only
    unfold cancel
    cases p.find event.orderId with
    | none => rfl
    | some order => exact without_part_of_ne hne
  | trade | reduce =>
    simp only
    unfold trade
    split
    · rfl
    · cases p.find event.orderId with
      | none => rfl
      | some order =>
        dsimp only
        split_ifs
        · rfl
        · exact without_part_of_ne hne
        · exact requantify_part_of_ne hne
  | replace =>
    have hne' : owner event.newOrderId ≠ k := by rwa [hnew htype]
    simp only
    unfold replace
    split
    · rfl
    · cases p.find event.orderId with
      | none => rfl
      | some order =>
        dsimp only
        split
        · rfl
        · exact (rest_part_of_ne hne').trans (without_part_of_ne hne)

end PriorityBook

end MarketEngine
