import MarketEngine.Book.PriorityBook

/-! # A book is its priority list

Taking the priority list of a price-time book maps its answers to those of the
one-list book. So what a book has answered to determines what it answers later
only through the orders that it shows.
-/

namespace MarketEngine

open Transition

variable {c : Capacity} {b b' : OrderBook c} {a : PriceTimeBook} {request : OrderRequest}
  {event : MarketDataEvent} {t : Trading} {id : OrderId} {l : List OrderView} {n : ℕ}

namespace PriceTimeBook

/-- What a price-time book shows of its orders. -/
def view (a : PriceTimeBook) : PriorityBook := ⟨a.capacity, a.ordersInPriority.map OrderView.bare⟩

/-! ## Events -/

theorem view_without (a : PriceTimeBook) (id : OrderId) :
    (a.without id).view = a.view.without id := by
  rw [view, priority_without, view, PriorityBook.without, List.filter_map]
  rfl

theorem view_requantify (a : PriceTimeBook) (id : OrderId) (q : Quantity) :
    (a.requantify id q).view = a.view.requantify id q := by
  rw [view, priority_requantify, view, PriorityBook.requantify, List.map_map, List.map_map]
  refine congrArg (PriorityBook.mk a.capacity) (List.map_congr_left fun o _ => ?_)
  change OrderView.bare (if o.id = id then _ else _) = if o.id = id then _ else _
  split <;> rfl

theorem view_enter (a : PriceTimeBook) (id : OrderId) (side : Side) (price : Price)
    (q : Quantity) : (a.enter id side price q).view = a.view.enter id side price q := by
  rw [view, priority_enter]
  exact congrArg (PriorityBook.mk a.capacity)
    (KeyOrder.map_enqueue (f := OrderView.bare) fun _ => rfl)

theorem length_view (a : PriceTimeBook) : a.view.orders.length = a.resting.length := by
  rw [view, List.length_map]
  exact (OrderBook.ordersInPriority_perm a).length_eq

theorem find_priority (hnodup : (a.resting.map OrderView.id).Nodup) (id : OrderId) :
    (a.ordersInPriority.find? fun o => o.id = id) = a.find id := by
  cases hfind : a.find id with
  | none =>
    rw [List.find?_eq_none]
    exact fun o ho => List.find?_eq_none.mp hfind o (mem_priority.mp ho)
  | some o =>
    obtain ⟨ho, rfl⟩ := find_eq_some hfind
    obtain ⟨o', ho'⟩ := Option.isSome_iff_exists.mp (List.find?_isSome.mpr
      ⟨o, mem_priority.mpr ho, decide_eq_true rfl⟩ :
      (a.ordersInPriority.find? fun o' => o'.id = o.id).isSome = true)
    rw [ho']
    exact congrArg some (List.inj_on_of_nodup_map hnodup
      (mem_priority.mp (List.mem_of_find?_eq_some ho')) ho (by simpa using List.find?_some ho'))

theorem view_find (hnodup : (a.resting.map OrderView.id).Nodup) (id : OrderId) :
    a.view.find id = (a.find id).map OrderView.bare := by
  rw [← find_priority hnodup, PriorityBook.find, view, List.find?_map]
  rfl

theorem view_rest (hnodup : (a.resting.map OrderView.id).Nodup) (id : OrderId) (side : Side)
    (price : Price) (q : Quantity) : a.view.rest id side price q =
      ((a.rest false id side price q).1, (a.rest false id side price q).2.view) := by
  unfold PriorityBook.rest rest
  rw [view_find hnodup, Option.isSome_map, length_view]
  simp only [Bool.false_eq_true, or_false, ← view_enter]
  split
  · rfl
  · split
    · rfl
    · change (if a.resting.length = a.capacity then _ else _) = _
      split <;> rfl

theorem nodup_without (hnodup : (a.resting.map OrderView.id).Nodup) (id : OrderId) :
    ((a.without id).resting.map OrderView.id).Nodup :=
  (List.filter_sublist.map OrderView.id).nodup hnodup

/-- Events are seen by the list alone. -/
theorem view_process (hnodup : (a.resting.map OrderView.id).Nodup) (event : MarketDataEvent) :
    a.view.process event = ((a.process false event).1, (a.process false event).2.view) := by
  unfold PriorityBook.process process
  cases event.type with
  | add => exact view_rest hnodup _ _ _ _
  | modify =>
    dsimp only
    unfold PriorityBook.modify modify
    rw [view_find hnodup]
    split
    · rfl
    · cases a.find event.orderId with
      | none => rfl
      | some o =>
        rw [← view_requantify, ← view_without, ← view_enter]
        change (if o.side = event.side ∧ o.priceTicks = event.priceTicks then _ else _) = _
        dsimp only
        split <;> rfl
  | cancel =>
    dsimp only
    unfold PriorityBook.cancel cancel
    rw [view_find hnodup, ← view_without]
    cases a.find event.orderId <;> rfl
  | trade | reduce =>
    dsimp only
    unfold PriorityBook.trade trade
    rw [view_find hnodup]
    split
    · rfl
    · cases a.find event.orderId with
      | none => rfl
      | some o =>
        change (if event.quantity > o.quantity then _ else if event.quantity = o.quantity then _
          else (_, a.view.requantify _ (o.quantity - event.quantity))) = _
        rw [← view_requantify, ← view_without]
        dsimp only
        split
        · rfl
        · split <;> rfl
  | replace =>
    dsimp only
    unfold PriorityBook.replace replace
    rw [view_find hnodup, view_find hnodup, Option.isSome_map]
    split
    · rfl
    · cases a.find event.orderId with
      | none => rfl
      | some o =>
        rw [← view_without]
        dsimp only
        rw [Option.map_some]
        dsimp only
        split
        · rfl
        · exact view_rest (nodup_without hnodup _) _ _ _ _

end PriceTimeBook

/-! ## One pass -/

/-- But for their numbers, the fills do not depend on the first number. -/
theorem fillsOf_numbers (request : OrderRequest) (sequence sequence' : UInt64)
    (parts : List (OrderView × ℕ)) :
    (request.fillsOf sequence parts).map Fill.bare =
      (request.fillsOf sequence' parts).map Fill.bare := by
  induction parts generalizing sequence sequence' with
  | nil => rfl
  | cons part parts ih => exact congrArg (_ :: ·) (ih _ _)

theorem fillsOf_bare (request : OrderRequest) (sequence : UInt64)
    (parts : List (OrderView × ℕ)) :
    request.fillsOf sequence (Serving.rename OrderView.bare parts) =
      request.fillsOf sequence parts := by
  induction parts generalizing sequence with
  | nil => rfl
  | cons part parts ih => exact congrArg (_ :: ·) (ih _)

theorem offers_bare (orders : List OrderView) :
    offers (orders.map OrderView.bare) = Serving.rename OrderView.bare (offers orders) := by
  rw [offers, offers, Serving.rename, List.map_map, List.map_map]
  rfl

theorem remainders_bare (parts : List (OrderView × ℕ)) :
    remainders (Serving.rename OrderView.bare parts) = (remainders parts).map OrderView.bare := by
  rw [remainders, remainders, Serving.rename, List.map_map, List.map_map]
  rfl

/-- One pass serves what is wanted from the reached orders and keeps the others. -/
structure PriorityBook.Serves (request : OrderRequest) (wanted : Quantity) (l : List OrderView)
    (served : PriorityBook.Served) : Prop where
  fills : served.fills = (request.fillsOf 0
    (Serving.taken wanted.toNat (offers (l.filter request.reaches)))).map Fill.bare
  remaining : served.remaining.toNat =
    wanted.toNat - Serving.total (offers (l.filter request.reaches))
  reached : served.orders.filter request.reaches =
    remainders (Serving.left wanted.toNat (offers (l.filter request.reaches)))
  unreached : (served.orders.filter fun o => !request.reaches o) =
    l.filter fun o => !request.reaches o
  keys : (served.orders.map OrderView.key).Sublist (l.map OrderView.key)

namespace PriorityBook

/-- An order that is not reached is passed over. -/
theorem Serves.skip {wanted : Quantity} {o : OrderView} {served : Served}
    (h : Serves request wanted l served) (ho : request.reaches o = false) :
    Serves request wanted (o :: l) { served with orders := o :: served.orders } where
  fills := by rw [List.filter_cons_of_neg (by simp [ho])]; exact h.fills
  remaining := by rw [List.filter_cons_of_neg (by simp [ho])]; exact h.remaining
  reached := by
    rw [List.filter_cons_of_neg (by simp [ho]), List.filter_cons_of_neg (by simp [ho])]
    exact h.reached
  unreached := by
    rw [List.filter_cons_of_pos (by simp [ho]), List.filter_cons_of_pos (by simp [ho]),
      h.unreached]
  keys := h.keys.cons_cons _

/-- With nothing wanted the list stays as it is. -/
theorem serve_zero (request : OrderRequest) (l : List OrderView) :
    serve request 0 l = ⟨[], 0, l⟩ := by
  induction l with
  | nil => rfl
  | cons o l ih =>
    unfold serve
    rw [if_pos (.inl rfl), ih]

theorem serves_zero (hq : ∀ o ∈ l, o.quantity ≠ 0) : Serves request 0 l ⟨[], 0, l⟩ where
  fills := by rw [UInt64.toNat_zero, Serving.taken_zero]; rfl
  remaining := (Nat.zero_sub _).symm
  reached := by
    rw [UInt64.toNat_zero, Serving.left_zero, remainders_offers]
    intro offer hoffer
    obtain ⟨o, ho, rfl⟩ := List.mem_map.mp hoffer
    have := hq o (List.mem_filter.mp ho).1
    exact Nat.pos_of_ne_zero fun hzero => this (UInt64.toNat_inj.mp hzero)
  unreached := rfl
  keys := .refl _

/-- An order that is reached gives what it can. -/
theorem Serves.take {wanted : Quantity} {o : OrderView} {served : Served} (hwanted : wanted ≠ 0)
    (h : Serves request (wanted - min wanted o.quantity) l served)
    (ho : request.reaches o = true) (hq : ∀ o ∈ l, o.quantity ≠ 0) :
    Serves request wanted (o :: l)
      { served with
        fills := ⟨request.id, o.id, request.side, o.priceTicks, min wanted o.quantity, 0⟩ ::
          served.fills
        orders :=
          if min wanted o.quantity = o.quantity then served.orders
          else { o with quantity := o.quantity - min wanted o.quantity } :: served.orders } := by
  have hpos : wanted.toNat ≠ 0 := fun hzero => hwanted (UInt64.toNat_inj.mp hzero)
  have hoffers : offers ((o :: l).filter request.reaches) =
      (o, o.quantity.toNat) :: offers (l.filter request.reaches) := by
    rw [List.filter_cons_of_pos ho]
    rfl
  have htotal : Serving.total (offers ((o :: l).filter request.reaches)) =
      o.quantity.toNat + Serving.total (offers (l.filter request.reaches)) := by
    rw [hoffers]
    exact List.sum_cons
  have hmin := Trading.toNat_min wanted o.quantity
  have hsub : (wanted - min wanted o.quantity).toNat = wanted.toNat - o.quantity.toNat := by
    rw [UInt64.toNat_sub_of_le _ _ (UInt64.le_iff_toNat_le.mpr (by omega)), hmin]
    omega
  have hunreached : ((o :: l).filter fun o => !request.reaches o) =
      l.filter fun o => !request.reaches o := List.filter_cons_of_neg (by simp [ho])
  refine ⟨?_, ?_, ?_, ?_, ?_⟩
  · rw [hoffers, Serving.taken, if_neg hpos, ← hsub, OrderRequest.fillsOf, List.map_cons, h.fills,
      ← hmin, UInt64.ofNat_toNat, fillsOf_numbers request (0 + 1) 0]
    rfl
  · rw [h.remaining, hsub, htotal, Nat.sub_sub]
  · rw [hoffers]
    rcases Nat.lt_or_ge wanted.toNat o.quantity.toNat with hlt | hge
    · have hzero : wanted - min wanted o.quantity = 0 :=
        UInt64.toNat_inj.mp (by rw [hsub, UInt64.toNat_zero]; omega)
      have hstop := h.reached
      rw [hzero, (serves_zero hq).reached.symm] at hstop
      have hpart : ¬ min wanted o.quantity = o.quantity := fun heq => by
        rw [heq] at hmin
        omega
      have hrest : o.quantity - min wanted o.quantity =
          UInt64.ofNat (o.quantity.toNat - wanted.toNat) := by
        refine UInt64.toNat_inj.mp ?_
        rw [UInt64.toNat_sub_of_le _ _ (UInt64.le_iff_toNat_le.mpr (by omega)), hmin,
          UInt64.toNat_ofNat_of_lt' (lt_of_le_of_lt (Nat.sub_le _ _) o.quantity.toNat_lt)]
        omega
      rw [if_neg hpart, Serving.left, if_neg (by omega), hrest,
        List.filter_cons_of_pos (by simpa [OrderRequest.reaches] using ho), hstop]
      exact congrArg (_ :: ·) (remainders_offers _).symm
    · have hwhole : min wanted o.quantity = o.quantity := UInt64.toNat_inj.mp (by omega)
      rw [if_pos hwhole, h.reached, hsub, Serving.left, if_pos hge]
  · rw [hunreached]
    split
    · exact h.unreached
    · rw [List.filter_cons_of_neg (by simpa [OrderRequest.reaches] using ho)]
      exact h.unreached
  · split
    · exact h.keys.cons _
    · exact h.keys.cons_cons _

theorem serve_serves (request : OrderRequest) (wanted : Quantity)
    (hq : ∀ o ∈ l, o.quantity ≠ 0) : Serves request wanted l (serve request wanted l) := by
  induction l generalizing wanted with
  | nil => exact ⟨rfl, rfl, rfl, rfl, List.Sublist.refl _⟩
  | cons o l ih =>
    have hl := (List.forall_mem_cons.mp hq).2
    by_cases hwanted : wanted = 0
    · rw [hwanted, serve_zero]
      exact serves_zero hq
    · cases ho : request.reaches o with
      | false =>
        rw [serve, if_pos (.inr ho)]
        exact (ih wanted hl).skip ho
      | true =>
        rw [serve, if_neg (by simp [hwanted, ho])]
        exact (ih _ hl).take hwanted ho hl

end PriorityBook

/-! ## Requests -/

theorem Trading.Tidy.matchAll (h : Tidy t.book) (request : OrderRequest) (n : ℕ) :
    Tidy (matchAll request n t).book := by
  induction n generalizing t with
  | zero => exact h
  | succ n ih =>
    unfold Trading.matchAll
    split
    · exact h
    · split
      · exact h
      · next hbest => exact ih (h.fill request (OrderRequest.bestMaker_mem hbest).1)

theorem Trading.capacity_matchAll (request : OrderRequest) (n : ℕ) (t : Trading) :
    (matchAll request n t).book.capacity = t.book.capacity := by
  have hfill : ∀ (t : Trading) (maker : OrderView),
      (t.fill request maker).book.capacity = t.book.capacity := by
    intro t maker
    unfold fill
    dsimp only
    split <;> rfl
  induction n generalizing t with
  | zero => rfl
  | succ n ih =>
    unfold matchAll
    split
    · rfl
    · split
      · rfl
      · exact (ih _).trans (hfill t _)

namespace PriceTimeBook

theorem reached_view (a : PriceTimeBook) (request : OrderRequest) :
    offers (a.view.orders.filter request.reaches) =
      Serving.rename OrderView.bare (offers (a.reached request)) := by
  rw [view, List.filter_map, offers_bare]
  rfl

/-- The matching loop is seen as one pass over the list. -/
theorem view_traded (h : Trading.Tidy a) (request : OrderRequest) :
    (a.traded request).fills.map Fill.bare =
        (PriorityBook.serve request request.quantity a.view.orders).fills ∧
      (a.traded request).remaining =
        (PriorityBook.serve request request.quantity a.view.orders).remaining ∧
      (a.traded request).book.view =
        { a.view with
          orders := (PriorityBook.serve request request.quantity a.view.orders).orders } := by
  have hsweeps : Trading.Sweeps request ⟨a, request.quantity, []⟩ (a.traded request) :=
    Trading.matchAll_sweeps request h (Nat.lt_succ_self _)
  have hq : ∀ o ∈ a.view.orders, o.quantity ≠ 0 := by
    intro o ho
    obtain ⟨o', ho', rfl⟩ := List.mem_map.mp ho
    exact h.quantity o' (mem_priority.mp ho')
  have hserves := PriorityBook.serve_serves request request.quantity hq
  refine ⟨?_, ?_, ?_⟩
  · rw [hserves.fills, reached_view, Serving.taken_rename, fillsOf_bare, hsweeps.fills]
    exact fillsOf_numbers request _ _ _
  · rw [← UInt64.toNat_inj, hserves.remaining, reached_view, Serving.total_rename]
    exact hsweeps.remaining
  · have hlist : (a.traded request).book.ordersInPriority.map OrderView.bare =
        (PriorityBook.serve request request.quantity a.view.orders).orders := by
      have hsorted : KeyOrder.Sorted OrderView.key LevelKey.rank
          ((a.traded request).book.ordersInPriority.map OrderView.bare) :=
        (a.traded request).book.priority_sorted.map fun _ => rfl
      have hview : KeyOrder.Sorted OrderView.key LevelKey.rank a.view.orders :=
        a.priority_sorted.map fun _ => rfl
      have hserved : KeyOrder.Sorted OrderView.key LevelKey.rank
          (PriorityBook.serve request request.quantity a.view.orders).orders :=
        hview.of_keys hserves.keys
      refine hsorted.eq_of_parts LevelKey.rank_injective
        (p := request.reaches) (fun o o' hkey => OrderRequest.reaches_congr hkey) hserved ?_ ?_
      · rw [hserves.reached, reached_view, Serving.left_rename, remainders_bare, List.filter_map]
        exact congrArg _ hsweeps.reached
      · rw [hserves.unreached, view, List.filter_map, List.filter_map]
        exact congrArg _ hsweeps.unreached
    rw [view, hlist]
    exact congrArg (PriorityBook.mk · _) (Trading.capacity_matchAll request _ _)

theorem view_settle (h : (t.book.resting.map OrderView.id).Nodup) (request : OrderRequest) :
    t.book.view.settle request t.remaining =
      ((settle false request t).1, (settle false request t).2.view) := by
  unfold PriorityBook.settle settle
  rw [view_rest h]
  dsimp only
  rcases t.book.rest false request.id request.side request.priceTicks t.remaining with ⟨result, a⟩
  split
  · rfl
  · split
    · cases result <;> rfl
    · rfl

/-- What a request can fill is seen on the list. -/
theorem fillable_view (a : PriceTimeBook) (request : OrderRequest) :
    request.fillable a.view.orders = request.fillable a.resting := by
  rw [OrderRequest.fillable, OrderRequest.fillable, view, List.filter_map, List.map_map]
  exact (((OrderBook.ordersInPriority_perm a).filter _).map _).sum_eq

/-- Requests are seen by the list alone. -/
theorem view_submit (h : Trading.Tidy a) (request : OrderRequest) :
    a.view.submit request = ((a.submit false request).1,
      (a.submit false request).2.1.map Fill.bare, (a.submit false request).2.2.view) := by
  unfold PriorityBook.submit submit
  cases request.type with
  | cancel =>
    have hcancel := view_process h.nodup { type := .cancel, orderId := request.id }
    change a.view.cancel request.id = ((a.cancel request.id).1, (a.cancel request.id).2.view)
      at hcancel
    dsimp only
    rw [hcancel]
    rcases a.cancel request.id with ⟨result, a'⟩
    cases result <;> rfl
  | new =>
    obtain ⟨hfills, hremaining, hbook⟩ := view_traded h request
    have hsettle := view_settle (t := a.traded request) (h.matchAll request _).nodup request
    dsimp only
    rw [view_find h.nodup, Option.isSome_map, fillable_view, ← hfills, ← hremaining, ← hbook,
      hsettle]
    split
    · rfl
    · split
      · rfl
      · split <;> rfl

end PriceTimeBook

namespace OrderBook

/-- What a book shows of its orders. -/
def view (b : OrderBook c) : PriorityBook := ⟨c.val, b.ordersInPriority.map OrderView.bare⟩

theorem Represents.view_eq (h : Represents b a) : b.view = a.view := by
  rw [view, PriceTimeBook.view, h.capacity, h.ordersInPriority]

theorem fresh_view (c : Capacity) : (fresh c).view = ⟨c.val, []⟩ := by
  rw [(fresh_represents c).view_eq]
  rfl

variable {calls : List Call} {labels : List (Call × Response)}

end OrderBook

end MarketEngine
