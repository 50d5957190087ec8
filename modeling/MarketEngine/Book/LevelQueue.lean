import MarketEngine.Book.Rejected
import MarketEngine.Kit.KeyedSum

/-! # What an event does to the queue of a level

An event that is applied takes a quantity from one order, or the whole order, and
may put one order at the end of a level. The other orders keep their places.
-/

namespace MarketEngine

variable {a a' : PriceTimeBook} {event : MarketDataEvent} {o : OrderView} {id : OrderId}
  {key : LevelKey} {q : Quantity} {refused : Bool}

/-- The id under which an event may enter an order. -/
def MarketDataEvent.newId? (event : MarketDataEvent) : Option OrderId :=
  match event.type with
  | .add => some event.orderId
  | .replace => some event.newOrderId
  | _ => none

/-- The quantity that an event takes from the order it is for. -/
def MarketDataEvent.lost (event : MarketDataEvent) (o : OrderView) : Quantity :=
  match event.type with
  | .trade | .reduce => event.quantity
  | _ => o.quantity

namespace PriceTimeBook

/-- The orders of a level by arrival. -/
def queue (a : PriceTimeBook) (key : LevelKey) : List OrderView :=
  a.resting.filter fun o => o.key = key

/-- The quantity at a level of the orders whose ids satisfy `p`. -/
def quantityOf (a : PriceTimeBook) (key : LevelKey) (p : OrderId → Prop) [DecidablePred p] : ℕ :=
  KeyedSum.total (·.quantity.toNat) (fun o => o.key = key ∧ p o.id) a.resting

/-- The order `o` has lost `q` and nothing else has changed. -/
structure Loses (a : PriceTimeBook) (o : OrderView) (q : Quantity) (a' : PriceTimeBook) : Prop where
  le : q.toNat ≤ o.quantity.toNat
  ids : ∀ key, ((a'.queue key).map OrderView.id).Sublist ((a.queue key).map OrderView.id)
  quantityOf : ∀ key (p : OrderId → Prop) [DecidablePred p],
    a'.quantityOf key p + (if o.key = key ∧ p o.id then q.toNat else 0) = a.quantityOf key p

variable (hnodup : (a.resting.map OrderView.id).Nodup)

include hnodup

theorem without_loses (hfind : a.find id = some o) : Loses a o o.quantity (a.without id) := by
  obtain ⟨hmem, rfl⟩ := find_eq_some hfind
  refine ⟨Nat.le_refl _, fun key => ?_, fun key p _ => ?_⟩
  · exact (List.filter_sublist.filter _).map _
  · exact KeyedSum.total_erase hnodup hmem

theorem requantify_loses (hfind : a.find id = some o) (hq : q.toNat ≤ o.quantity.toNat) :
    Loses a o q (a.requantify id (o.quantity - q)) := by
  obtain ⟨hmem, rfl⟩ := find_eq_some hfind
  have hsub : (o.quantity - q).toNat = o.quantity.toNat - q.toNat :=
    UInt64.toNat_sub_of_le _ _ (UInt64.le_iff_toNat_le.mpr hq)
  refine ⟨hq, fun key => ?_, fun key p _ => ?_⟩
  · have hids : ((a.requantify o.id (o.quantity - q)).queue key).map OrderView.id =
        (a.queue key).map OrderView.id := by
      rw [queue, requantify, List.filter_map, List.map_map, queue]
      refine congrArg₂ _ (funext fun x => ?_) (List.filter_congr fun x _ => ?_) <;>
        simp only [Function.comp_apply] <;> split_ifs <;> rfl
    rw [hids]
  · have htotal := KeyedSum.total_rewrite (fun o : OrderView => o.quantity.toNat)
      (p := fun o => o.key = key ∧ p o.id) hnodup hmem
      (f := fun x => { x with quantity := o.quantity - q }) Iff.rfl
    simp only [hsub] at htotal
    rw [PriceTimeBook.quantityOf, PriceTimeBook.quantityOf, requantify]
    dsimp only
    split_ifs at htotal ⊢ <;> omega

/-- What an applied event other than a modify can do. -/
inductive Changes (a : PriceTimeBook) (event : MarketDataEvent) : PriceTimeBook → Prop
  | joined (htype : event.type = .add) :
    Changes a event (a.enter event.orderId event.side event.priceTicks event.quantity)
  | lost {o : OrderView} {a' : PriceTimeBook}
    (htype : event.type = .cancel ∨ event.type = .trade ∨ event.type = .reduce)
    (hfind : a.find event.orderId = some o) (hloses : Loses a o (event.lost o) a') :
    Changes a event a'
  | replaced {o : OrderView} {a' : PriceTimeBook} (htype : event.type = .replace)
    (hfind : a.find event.orderId = some o) (hloses : Loses a o (event.lost o) a') :
    Changes a event (a'.enter event.newOrderId o.side event.priceTicks event.quantity)

theorem cancel_changes (htype : event.type = .cancel)
    (h : (a.cancel event.orderId).1 = .applied) :
    Changes a event (a.cancel event.orderId).2 := by
  unfold cancel at h ⊢
  cases hfind : a.find event.orderId with
  | none =>
    rw [hfind] at h
    cases h
  | some o =>
    refine .lost (.inl htype) hfind ?_
    rw [MarketDataEvent.lost, htype]
    exact without_loses hnodup hfind

theorem trade_changes (htype : event.type = .trade ∨ event.type = .reduce)
    (h : (a.trade event.orderId event.quantity).1 = .applied) :
    Changes a event (a.trade event.orderId event.quantity).2 := by
  have hlost : ∀ o, event.lost o = event.quantity := fun o => by
    rcases htype with htype | htype <;> rw [MarketDataEvent.lost, htype]
  unfold trade at h ⊢
  by_cases hq : event.quantity = 0
  · rw [if_pos hq] at h
    cases h
  cases hfind : a.find event.orderId with
  | none =>
    rw [if_neg hq, hfind] at h
    cases h
  | some o =>
    rw [if_neg hq, hfind] at h
    rw [if_neg hq]
    dsimp only at h ⊢
    refine .lost (.inr htype) hfind ?_
    rw [hlost]
    split_ifs at h ⊢ with hgt heq
    · rw [heq]
      exact without_loses hnodup hfind
    · exact requantify_loses hnodup hfind (UInt64.le_iff_toNat_le.mp (UInt64.not_lt.mp hgt))

omit hnodup in
theorem rest_applied {side : Side} {price : Price}
    (h : (a.rest refused id side price q).1 = .applied) :
    (a.rest refused id side price q).2 = a.enter id side price q := by
  unfold rest at h ⊢
  split_ifs at h ⊢
  rfl

/-- An applied event changes the book in one of these ways. -/
theorem process_changes (h : (a.process refused event).1 = .applied)
    (hmodify : event.type ≠ .modify) : Changes a event (a.process refused event).2 := by
  unfold process at h ⊢
  cases htype : event.type <;> rw [htype] at h <;> dsimp only at h ⊢
  case modify => exact absurd htype hmodify
  case add =>
    rw [rest_applied h]
    exact .joined htype
  case cancel => exact cancel_changes hnodup htype h
  case trade => exact trade_changes hnodup (.inl htype) h
  case reduce => exact trade_changes hnodup (.inr htype) h
  case replace =>
    unfold replace at h ⊢
    by_cases hq : event.quantity = 0
    · rw [if_pos hq] at h
      cases h
    cases hfind : a.find event.orderId with
    | none =>
      rw [if_neg hq, hfind] at h
      cases h
    | some o =>
      rw [if_neg hq, hfind] at h
      rw [if_neg hq]
      dsimp only at h ⊢
      split_ifs at h ⊢ with hdup
      rw [rest_applied h]
      refine .replaced htype hfind ?_
      rw [MarketDataEvent.lost, htype]
      exact without_loses hnodup hfind

omit hnodup

theorem queue_enter (a : PriceTimeBook) (id : OrderId) (side : Side) (price : Price)
    (q : Quantity) (key : LevelKey) :
    ((a.enter id side price q).queue key).map OrderView.id =
      (a.queue key).map OrderView.id ++ if ⟨side, price⟩ = key then [id] else [] := by
  have hkey : (⟨id, side, price, q, a.nextPriority⟩ : OrderView).key = ⟨side, price⟩ := rfl
  rw [queue, enter, List.filter_append, List.map_append, queue]
  congr 1
  by_cases hat : (⟨side, price⟩ : LevelKey) = key <;> simp [hkey, hat]

/-- An order that enters under an id that does not count changes nothing. -/
theorem quantityOf_enter (a : PriceTimeBook) {p : OrderId → Prop} [DecidablePred p] (hp : ¬ p id)
    (side : Side) (price : Price) (q : Quantity) (key : LevelKey) :
    (a.enter id side price q).quantityOf key p = a.quantityOf key p := by
  rw [quantityOf, enter, KeyedSum.total_append, KeyedSum.total_cons, if_neg fun h => hp h.2]
  rfl

/-! ## Where the orders come from -/

theorem mem_rest {side : Side} {price : Price}
    (h : o ∈ (a.rest refused id side price q).2.resting) :
    o ∈ a.resting ∨ id = o.id ∧ o.quantity = q := by
  unfold rest at h
  split_ifs at h
  iterate 3 exact .inl h
  rcases List.mem_append.mp h with h | h
  · exact .inl h
  · rw [List.mem_singleton.mp h]
    exact .inr ⟨rfl, rfl⟩

theorem mem_cancel (h : o ∈ (a.cancel id).2.resting) : o ∈ a.resting := by
  unfold cancel at h
  split at h
  · exact h
  · exact (List.mem_filter.mp h).1

theorem mem_trade (h : o ∈ (a.trade id q).2.resting) :
    ∃ o' ∈ a.resting, o'.id = o.id ∧ o.quantity.toNat ≤ o'.quantity.toNat := by
  unfold trade at h
  split at h
  · exact ⟨o, h, rfl, Nat.le_refl _⟩
  · split at h
    · exact ⟨o, h, rfl, Nat.le_refl _⟩
    · next maker hfind =>
      obtain ⟨hmaker, rfl⟩ := find_eq_some hfind
      split_ifs at h with hgt heq
      · exact ⟨o, h, rfl, Nat.le_refl _⟩
      · exact ⟨o, (List.mem_filter.mp h).1, rfl, Nat.le_refl _⟩
      · obtain ⟨o', ho', rfl⟩ := List.mem_map.mp h
        split_ifs with hid
        · refine ⟨maker, hmaker, hid.symm, ?_⟩
          rw [UInt64.toNat_sub_of_le _ _ (UInt64.not_lt.mp hgt)]
          exact Nat.sub_le _ _
        · exact ⟨o', ho', rfl, Nat.le_refl _⟩

/-- An order after an event was there before with no less, or is the event's own. -/
theorem mem_process (hmodify : event.type ≠ .modify)
    (h : o ∈ (a.process refused event).2.resting) :
    (∃ o' ∈ a.resting, o'.id = o.id ∧ o.quantity.toNat ≤ o'.quantity.toNat) ∨
      event.newId? = some o.id ∧ o.quantity = event.quantity := by
  have hkept : ∀ {o' : OrderView}, o' ∈ a.resting →
      ∃ o'' ∈ a.resting, o''.id = o'.id ∧ o'.quantity.toNat ≤ o''.quantity.toNat :=
    fun ho' => ⟨_, ho', rfl, Nat.le_refl _⟩
  unfold process at h
  unfold MarketDataEvent.newId?
  cases htype : event.type <;> rw [htype] at h <;> dsimp only at h ⊢
  case modify => exact absurd htype hmodify
  case add => exact (mem_rest h).imp hkept fun ⟨hid, hq⟩ => ⟨congrArg some hid, hq⟩
  case cancel => exact .inl (hkept (mem_cancel h))
  case trade | reduce => exact .inl (mem_trade h)
  case replace =>
    unfold replace at h
    split at h
    · exact .inl (hkept h)
    · split at h
      · exact .inl (hkept h)
      · split at h
        · exact .inl (hkept h)
        · refine (mem_rest h).imp (fun ho => hkept ?_) fun ⟨hid, hq⟩ => ⟨congrArg some hid, hq⟩
          exact (List.mem_filter.mp ho).1

end PriceTimeBook

end MarketEngine
