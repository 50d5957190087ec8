import MarketEngine.Book.PriceTime
import MarketEngine.Kit.KeyedSum

/-! # What trading leaves behind

Trading only touches the orders that the request reaches. It stops with nothing
remaining exactly when these orders offer enough, and with something remaining
all of them are gone.
-/

namespace MarketEngine

variable {request : OrderRequest} {t t' : Trading} {maker : OrderView} {a : PriceTimeBook}
  {n : ℕ}

/-- What the reached orders offer, without wrapping. -/
def OrderRequest.offered (request : OrderRequest) (resting : List OrderView) : ℕ :=
  ((resting.filter request.reaches).map (·.quantity.toNat)).sum

theorem OrderRequest.offered_append (request : OrderRequest) (r₁ r₂ : List OrderView) :
    request.offered (r₁ ++ r₂) = request.offered r₁ + request.offered r₂ := by
  simp [offered]

theorem OrderRequest.offered_cons {o : OrderView} (ho : request.reaches o = true)
    (resting : List OrderView) :
    request.offered (o :: resting) = o.quantity.toNat + request.offered resting := by
  simp [offered, ho]

/-- A sum of quantities is exact up to wrapping. -/
theorem toNat_sum_quantity (orders : List OrderView) :
    (orders.map OrderView.quantity).sum.toNat =
      (orders.map (·.quantity.toNat)).sum % 2 ^ 64 := by
  induction orders with
  | nil => rfl
  | cons o orders ih =>
    rw [List.map_cons, List.sum_cons, UInt64.toNat_add, ih, List.map_cons, List.sum_cons]
    exact Nat.add_mod_mod _ _ _

namespace Trading

/-- What a fill leaves of its maker. -/
def leftover (t : Trading) (maker : OrderView) : List OrderView :=
  let traded := min t.remaining maker.quantity
  if traded = maker.quantity then [] else [{ maker with quantity := maker.quantity - traded }]

theorem leftover_reaches (h : request.reaches maker = true) :
    (t.leftover maker).filter (fun o => !request.reaches o) = [] := by
  unfold leftover
  dsimp only
  split
  · rfl
  · exact List.filter_eq_nil_iff.mpr fun o ho => by
      obtain rfl := List.mem_singleton.mp ho
      have hreaches : request.reaches
        { maker with quantity := maker.quantity - min t.remaining maker.quantity } = true := h
      simp [hreaches]

theorem offered_leftover (h : request.reaches maker = true) :
    (t.remaining - min t.remaining maker.quantity).toNat + maker.quantity.toNat =
      t.remaining.toNat + request.offered (t.leftover maker) := by
  unfold leftover
  dsimp only
  rcases min_cases t.remaining maker.quantity with ⟨hle, hmin⟩ | ⟨hlt, hmin⟩
  · rw [hmin, UInt64.sub_self]
    split
    · next he => simp [OrderRequest.offered, he]
    · next hne =>
      have hreaches : request.reaches { maker with quantity := maker.quantity - t.remaining } =
        true := h
      rw [OrderRequest.offered_cons hreaches]
      have := UInt64.toNat_sub_of_le _ _ hle
      have := UInt64.le_iff_toNat_le.mp hle
      simp only [OrderRequest.offered, List.filter_nil, List.map_nil, List.sum_nil]
      simp
      omega
  · rw [hmin, if_pos rfl, UInt64.toNat_sub_of_le _ _ (UInt64.le_of_lt hlt)]
    have := UInt64.lt_iff_toNat_lt.mp hlt
    simp only [OrderRequest.offered, List.filter_nil, List.map_nil, List.sum_nil]
    omega

/-- A fill leaves the other orders as they are. -/
theorem fill_split (request : OrderRequest) (hnodup : (t.book.resting.map OrderView.id).Nodup)
    (hmaker : maker ∈ t.book.resting) :
    ∃ r₁ r₂, t.book.resting = r₁ ++ maker :: r₂ ∧
      (t.fill request maker).book.resting = r₁ ++ t.leftover maker ++ r₂ := by
  obtain ⟨r₁, r₂, hsplit, h₁, h₂⟩ := KeyedSum.exists_split hnodup hmaker
  refine ⟨r₁, r₂, hsplit, ?_⟩
  unfold fill leftover
  dsimp only
  split
  · simp only [PriceTimeBook.without, hsplit, List.filter_append, List.append_nil]
    rw [List.filter_cons_of_neg (by simp), List.filter_eq_self.mpr (by simpa using h₁),
      List.filter_eq_self.mpr (by simpa using h₂)]
  · have hkept : ∀ r : List OrderView, (∀ o ∈ r, o.id ≠ maker.id) → ∀ q : Quantity,
        (r.map fun o => if o.id = maker.id then { o with quantity := q } else o) = r :=
      fun r hr q => (List.map_congr_left fun o ho => if_neg (hr o ho)).trans (List.map_id' r)
    simp only [PriceTimeBook.requantify, hsplit, List.map_append, List.map_cons, if_true,
      hkept r₁ h₁, hkept r₂ h₂, List.append_assoc, List.singleton_append]

theorem nodup_fill (hnodup : (t.book.resting.map OrderView.id).Nodup) :
    ((t.fill request maker).book.resting.map OrderView.id).Nodup := by
  unfold fill
  dsimp only
  split
  · exact hnodup.sublist (List.filter_sublist.map _)
  · rw [PriceTimeBook.requantify, List.map_map]
    refine (List.map_congr_left fun o _ => ?_ : _ = t.book.resting.map OrderView.id) ▸ hnodup
    dsimp only [Function.comp_apply]
    split <;> rfl

/-- A run of fills keeps what the request does not reach, and takes from the quantity still to
trade what it takes from the orders. -/
theorem trades_account (h : Trades request t t')
    (hnodup : (t.book.resting.map OrderView.id).Nodup) :
    t'.book.resting.filter (fun o => !request.reaches o) =
        t.book.resting.filter (fun o => !request.reaches o) ∧
      t'.remaining.toNat + request.offered t.book.resting =
        t.remaining.toNat + request.offered t'.book.resting := by
  induction h with
  | done => exact ⟨rfl, rfl⟩
  | @fill t t' maker hremaining hbest _ ih =>
    obtain ⟨hmaker, hreaches⟩ := OrderRequest.bestMaker_mem hbest
    obtain ⟨r₁, r₂, hsplit, hfill⟩ := fill_split request hnodup hmaker
    obtain ⟨hkept, htotal⟩ := ih (nodup_fill hnodup)
    rw [hfill] at hkept htotal
    rw [hkept, hsplit]
    constructor
    · rw [List.filter_append, List.filter_append, leftover_reaches hreaches, List.append_nil,
        List.filter_append, List.filter_cons_of_neg (by simpa using hreaches)]
    · have hoffered := offered_leftover (t := t) hreaches
      have hrem : (t.fill request maker).remaining =
        t.remaining - min t.remaining maker.quantity := rfl
      rw [hrem] at htotal
      rw [OrderRequest.offered_append, OrderRequest.offered_append] at htotal
      rw [OrderRequest.offered_append, OrderRequest.offered_cons hreaches]
      omega

/-! ## The end of trading -/

theorem matchAll_trades (request : OrderRequest) (n : ℕ) (t : Trading) :
    Trades request t (matchAll request n t) := by
  induction n generalizing t with
  | zero => exact .done t
  | succ n ih =>
    unfold matchAll
    split
    · exact .done t
    · next hremaining =>
      cases hbest : request.bestMaker t.book.resting with
      | none => exact .done t
      | some maker => exact .fill hremaining hbest (ih _)

/-- Trading ends, with one fill more than there are orders at most. -/
theorem done_matchAll (h : t.book.resting.length < n) : (matchAll request n t).Done request := by
  induction n generalizing t with
  | zero => exact absurd h (Nat.not_lt_zero _)
  | succ n ih =>
    unfold matchAll
    split
    · next hzero => exact .inl hzero
    · cases hbest : request.bestMaker t.book.resting with
      | none => exact .inr hbest
      | some maker =>
        dsimp only
        rcases fill_progress hbest with hzero | hlt
        · rw [matchAll_done (.inl hzero)]
          exact .inl hzero
        · exact ih (by omega)

end Trading

namespace PriceTimeBook

theorem traded_trades (a : PriceTimeBook) (request : OrderRequest) :
    Trades request ⟨a, request.quantity, []⟩ (a.traded request) :=
  Trading.matchAll_trades request _ _

theorem traded_done (a : PriceTimeBook) (request : OrderRequest) :
    (a.traded request).Done request :=
  Trading.done_matchAll (Nat.lt_succ_self _)

/-- With something remaining, exactly the reached orders are gone. -/
theorem traded_resting (hnodup : (a.resting.map OrderView.id).Nodup)
    (hremaining : (a.traded request).remaining ≠ 0) :
    (a.traded request).book.resting = a.resting.filter fun o => !request.reaches o := by
  have hnone := (a.traded_done request).resolve_left hremaining
  rw [← (Trading.trades_account (a.traded_trades request) hnodup).1, List.filter_eq_self.mpr]
  intro o ho
  simp [OrderRequest.reaches_eq_false hnone ho]

/-- A remainder finds room if there was some before or if some order was reached. -/
theorem traded_length_lt_iff (hnodup : (a.resting.map OrderView.id).Nodup)
    (hlen : a.resting.length ≤ n) (hremaining : (a.traded request).remaining ≠ 0) :
    (a.traded request).book.resting.length < n ↔
      a.resting.length < n ∨ ∃ o ∈ a.resting, request.reaches o = true := by
  rw [traded_resting hnodup hremaining]
  by_cases hex : ∃ o ∈ a.resting, request.reaches o = true
  · refine iff_of_true ?_ (.inr hex)
    obtain ⟨o, ho, hr⟩ := hex
    refine lt_of_lt_of_le ?_ hlen
    exact List.length_filter_lt_length_iff_exists.mpr ⟨o, ho, by simpa using hr⟩
  · rw [List.filter_eq_self.mpr fun o ho => by
      by_contra hr
      exact hex ⟨o, ho, by simpa using hr⟩]
    simp [hex]

/-- Something remains exactly when the reached orders do not offer enough. -/
theorem traded_remaining_iff (request : OrderRequest)
    (hnodup : (a.resting.map OrderView.id).Nodup) :
    (a.traded request).remaining ≠ 0 ↔ request.offered a.resting < request.quantity.toNat := by
  have htotal := (Trading.trades_account (a.traded_trades request) hnodup).2
  dsimp only at htotal
  rw [ne_eq, ← UInt64.toNat_inj, UInt64.toNat_zero]
  rcases a.traded_done request with hzero | hnone
  · rw [hzero, UInt64.toNat_zero] at htotal
    rw [hzero, UInt64.toNat_zero]
    omega
  · have hoffered : request.offered (a.traded request).book.resting = 0 := by
      rw [OrderRequest.offered, List.filter_eq_nil_iff.mpr fun o ho => by
        simp [OrderRequest.reaches_eq_false hnone ho]]
      rfl
    rw [hoffered] at htotal
    omega

end PriceTimeBook

end MarketEngine
