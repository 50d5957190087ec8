import MarketEngine.Book.Opening

/-! # Rejected calls of the price-time book

What a price-time book still does when it rejects a call: nothing, unless a
`replace` or a remainder has the key of its level refused.
-/

namespace MarketEngine

variable {c : Capacity} {a : PriceTimeBook} {request : OrderRequest} {event : MarketDataEvent}

namespace PriceTimeBook

/-- An order that rests leaves room for another one when it is taken away. -/
theorem length_without_lt {o : OrderView} (hlen : a.resting.length ≤ a.capacity)
    (ho : o ∈ a.resting) : (a.without o.id).resting.length < a.capacity :=
  lt_of_lt_of_le (List.length_filter_lt_length_iff_exists.mpr ⟨o, ho, by simp⟩) hlen

theorem find_eq_some {id : OrderId} {o : OrderView} (h : a.find id = some o) :
    o ∈ a.resting ∧ o.id = id :=
  ⟨List.mem_of_find?_eq_some h, by simpa using List.find?_some h⟩

theorem find_isSome_iff {id : OrderId} :
    (a.find id).isSome = true ↔ ∃ o ∈ a.resting, o.id = id := by
  simp [find]

theorem find_without {id id' : OrderId} (h : id' ≠ id → (a.find id').isSome = false) :
    ((a.without id).find id').isSome = false := by
  rw [← Bool.not_eq_true, find_isSome_iff]
  rintro ⟨o, ho, rfl⟩
  obtain ⟨ho, hne⟩ := List.mem_filter.mp ho
  have hnone := h (of_decide_eq_true hne)
  rw [← Bool.not_eq_true, find_isSome_iff] at hnone
  exact hnone ⟨o, ho, rfl⟩

/-! ## Operations that are not applied -/

theorem rest_exhausted {refused : Bool} {id : OrderId} {side : Side} {price : Price}
    {q : Quantity} (h : (a.rest refused id side price q).1 = .capacityExhausted) :
    (a.resting.length = a.capacity ∨ refused = true) ∧ (a.rest refused id side price q).2 = a := by
  unfold rest at h ⊢
  split_ifs at h ⊢ with hq hdup hfull
  exact ⟨hfull, rfl⟩

theorem rest_rejected {refused : Bool} {id : OrderId} {side : Side} {price : Price} {q : Quantity}
    (h : (a.rest refused id side price q).1 ≠ .applied) :
    (a.rest refused id side price q).2 = a := by
  unfold rest at h ⊢
  split_ifs at h ⊢ <;> first | rfl | exact absurd rfl h

theorem modify_rejected (h : (a.modify event).1 ≠ .applied) :
    (a.modify event).2 = a ∧ (a.modify event).1 ≠ .capacityExhausted := by
  unfold modify at h ⊢
  by_cases hq : event.quantity = 0
  · rw [if_pos hq]
    exact ⟨rfl, nofun⟩
  · rw [if_neg hq] at h ⊢
    cases hfind : a.find event.orderId with
    | none => exact ⟨rfl, nofun⟩
    | some order =>
      rw [hfind] at h
      dsimp only at h
      split_ifs at h <;> exact absurd rfl h

theorem cancel_rejected {id : OrderId} (h : (a.cancel id).1 ≠ .applied) :
    (a.cancel id).2 = a ∧ (a.cancel id).1 ≠ .capacityExhausted := by
  unfold cancel at h ⊢
  cases hfind : a.find id with
  | none => exact ⟨rfl, nofun⟩
  | some order =>
    rw [hfind] at h
    exact absurd rfl h

theorem trade_rejected {id : OrderId} {q : Quantity} (h : (a.trade id q).1 ≠ .applied) :
    (a.trade id q).2 = a ∧ (a.trade id q).1 ≠ .capacityExhausted := by
  unfold trade at h ⊢
  by_cases hq : q = 0
  · rw [if_pos hq]
    exact ⟨rfl, nofun⟩
  · rw [if_neg hq] at h ⊢
    cases hfind : a.find id with
    | none => exact ⟨rfl, nofun⟩
    | some order =>
      rw [hfind] at h
      dsimp only at h ⊢
      by_cases hle : q > order.quantity
      · rw [if_pos hle]
        exact ⟨rfl, nofun⟩
      · rw [if_neg hle] at h
        split_ifs at h <;> exact absurd rfl h

/-- The original makes room for the order that replaces it. -/
theorem replace_rejected (hlen : a.resting.length ≤ a.capacity)
    (h : (a.replace false event).1 ≠ .applied) :
    (a.replace false event).2 = a ∧ (a.replace false event).1 ≠ .capacityExhausted := by
  unfold replace at h ⊢
  by_cases hq : event.quantity = 0
  · rw [if_pos hq]
    exact ⟨rfl, nofun⟩
  · rw [if_neg hq] at h ⊢
    cases hfind : a.find event.orderId with
    | none => exact ⟨rfl, nofun⟩
    | some order =>
      rw [hfind] at h
      dsimp only at h ⊢
      by_cases hdup : event.newOrderId ≠ event.orderId ∧
          (a.find event.newOrderId).isSome = true
      · rw [if_pos hdup]
        exact ⟨rfl, nofun⟩
      · rw [if_neg hdup] at h
        have hfresh : event.newOrderId ≠ event.orderId →
            (a.find event.newOrderId).isSome = false :=
          fun hne => Bool.eq_false_iff.mpr fun hsome => hdup ⟨hne, hsome⟩
        have hnone := find_without hfresh
        obtain ⟨ho, hid⟩ := find_eq_some hfind
        have hlt := length_without_lt hlen ho
        rw [hid] at hlt
        have hroom : ¬ ((a.without event.orderId).resting.length =
            (a.without event.orderId).capacity ∨ false = true) := by
          rw [Bool.false_eq_true, or_false]
          exact hlt.ne
        unfold rest at h
        rw [if_neg hq, if_neg (by simp [hnone]), if_neg hroom] at h
        exact absurd rfl h

/-- Without a refused key only a new order can lack capacity, and only in a full book. -/
theorem process_exhausted (hlen : a.resting.length ≤ a.capacity)
    (h : (a.process false event).1 = .capacityExhausted) :
    event.type = .add ∧ a.resting.length = a.capacity := by
  have hne : (a.process false event).1 ≠ .applied := by
    rw [h]
    decide
  unfold process at h hne
  cases htype : event.type with
  | add =>
    rw [htype] at h
    exact ⟨rfl, (rest_exhausted h).1.resolve_right (by simp)⟩
  | modify =>
    rw [htype] at h hne
    exact absurd h (modify_rejected hne).2
  | cancel =>
    rw [htype] at h hne
    exact absurd h (cancel_rejected hne).2
  | trade | reduce =>
    rw [htype] at h hne
    exact absurd h (trade_rejected hne).2
  | replace =>
    rw [htype] at h hne
    exact absurd h (replace_rejected hlen hne).2

/-- A rejected event leaves the book as it was, unless it is a `replace` with its key refused. -/
theorem process_rejected (hlen : a.resting.length ≤ a.capacity) {refused : Bool}
    (h : (a.process refused event).1 ≠ .applied)
    (hreplace : event.type = .replace → refused = false) : (a.process refused event).2 = a := by
  unfold process at h ⊢
  cases htype : event.type with
  | add =>
    rw [htype] at h
    exact rest_rejected h
  | modify =>
    rw [htype] at h
    exact (modify_rejected h).1
  | cancel =>
    rw [htype] at h
    exact (cancel_rejected h).1
  | trade | reduce =>
    rw [htype] at h
    exact (trade_rejected h).1
  | replace =>
    obtain rfl := hreplace htype
    rw [htype] at h
    exact (replace_rejected hlen h).1

/-! ## Refused keys and remainders -/

/-- A `replace` that opens a level loses its original when the key is refused. -/
theorem process_replace_refused (h : OpensLevel c.val a.resting (.event event))
    (htype : event.type = .replace) :
    a.process true event = (.capacityExhausted, a.without event.orderId) := by
  obtain ⟨hq, h⟩ := h
  rw [htype] at h
  obtain ⟨o, ho, hid, hnew, -⟩ := h
  have hsome : (a.find event.orderId).isSome = true := find_isSome_iff.mpr ⟨o, ho, hid⟩
  obtain ⟨order, hfind⟩ := Option.isSome_iff_exists.mp hsome
  have hfresh : event.newOrderId ≠ event.orderId → (a.find event.newOrderId).isSome = false := by
    intro hne
    rw [← Bool.not_eq_true, find_isSome_iff]
    rintro ⟨o', ho', hid'⟩
    exact hnew hne o' ho' hid'
  have hdup : ¬ (event.newOrderId ≠ event.orderId ∧ (a.find event.newOrderId).isSome = true) :=
    fun hdup => by simp [hfresh hdup.1] at hdup
  simp only [process, htype, replace, hq, if_false, hfind, if_neg hdup, rest, find_without hfresh]
  simp

/-- An event that opens a level fails when its key is refused. -/
theorem process_refused (h : OpensLevel c.val a.resting (.event event))
    (hmodify : event.type ≠ .modify) :
    (a.process true event).1 = .capacityExhausted := by
  cases htype : event.type with
  | add =>
    obtain ⟨hq, h⟩ := h
    rw [htype] at h
    have hfind : (a.find event.orderId).isSome = false := by
      rw [← Bool.not_eq_true, find_isSome_iff]
      simpa using h.1
    simp [process, htype, rest, hq, hfind]
  | modify => exact absurd htype hmodify
  | replace => rw [process_replace_refused h htype]
  | _ =>
    have hopens := h.2
    rw [htype] at hopens
    exact hopens.elim

theorem settle_rejected {t : Trading} {refused : Bool}
    (h : (settle refused request t).1 = .rejectedCapacity) :
    (t.book.resting.length = t.book.capacity ∨ refused = true) ∧
      (settle refused request t).2 = t.book := by
  unfold settle at h ⊢
  dsimp only at h ⊢
  by_cases hzero : t.remaining = 0
  · rw [if_pos hzero] at h
    cases h
  rw [if_neg hzero] at h ⊢
  by_cases hrest : request.mayRest = true
  · rw [if_pos hrest] at h ⊢
    split at h
    · next heq =>
      have hexhausted := rest_exhausted (congrArg Prod.fst heq)
      rw [heq] at hexhausted
      exact hexhausted
    · dsimp only at h
      split_ifs at h
  · rw [if_neg hrest] at h
    dsimp only at h
    split_ifs at h

/-- A remainder is only turned away from a full book or because its key is refused. -/
theorem submit_rejected {refused : Bool}
    (h : (a.submit refused request).1 = .rejectedCapacity) :
    ((a.submit refused request).2.2.resting.length = (a.submit refused request).2.2.capacity ∨
      refused = true) ∧ (a.submit refused request).2.2 = (a.traded request).book := by
  unfold submit at h ⊢
  cases htype : request.type with
  | cancel =>
    rw [htype] at h
    dsimp only at h
    split at h <;> cases h
  | new =>
    rw [htype] at h
    dsimp only at h ⊢
    by_cases hq : request.quantity = 0
    · rw [if_pos hq] at h
      cases h
    rw [if_neg hq] at h ⊢
    by_cases hdup : request.mayRest = true ∧ (a.find request.id).isSome = true
    · rw [if_pos hdup] at h
      cases h
    rw [if_neg hdup] at h ⊢
    by_cases hfok : request.tif = .fok ∧ request.fillable a.resting < request.quantity
    · rw [if_pos hfok] at h
      cases h
    rw [if_neg hfok] at h ⊢
    have hsettle := settle_rejected h
    dsimp only
    rw [hsettle.2]
    exact ⟨hsettle.1, rfl⟩

/-- A remainder that opens a level is turned away when its key is refused. -/
theorem submit_refused (hnodup : (a.resting.map OrderView.id).Nodup)
    (h : OpensLevel c.val a.resting (.submit request)) :
    (a.submit true request).1 = .rejectedCapacity ∧ (a.traded request).remaining ≠ 0 := by
  obtain ⟨htype, hmay, hid, hoffered, -, -⟩ := h
  have hremaining := (traded_remaining_iff request hnodup).mpr hoffered
  have hq : request.quantity ≠ 0 := fun hq => by simp [hq] at hoffered
  have hfok := OrderRequest.tif_ne_fok hmay
  have hfind : (a.find request.id).isSome = false := by
    rw [← Bool.not_eq_true, find_isSome_iff]
    simpa using hid
  have hgone : ((a.traded request).book.find request.id).isSome = false := by
    rw [← Bool.not_eq_true, find_isSome_iff, traded_resting hnodup hremaining]
    rintro ⟨o, ho, ho'⟩
    exact hid o (List.mem_filter.mp ho).1 ho'
  refine ⟨?_, hremaining⟩
  simp only [submit, htype, hq, if_false, hfind, hfok, settle, hremaining, hmay, rest, hgone]
  simp

end PriceTimeBook

end MarketEngine
