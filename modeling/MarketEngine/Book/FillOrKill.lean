import MarketEngine.Book.Structure
import MarketEngine.Book.Trading

/-! # Fill or kill

A fill-or-kill request is decided by a scan that adds quantities in `uint64_t`
and carried out by the matching loop. The scan never promises too much. It
promises too little when the sum wraps.
-/

namespace MarketEngine

open Transition

variable {c : Capacity} {b b' : OrderBook c} {a : PriceTimeBook} {request : OrderRequest}
  {t t' : Trading} {calls : List Call}

/-- The exact sum of the quantities of some fills. -/
def filledQuantity (fills : List Fill) : ℕ := (fills.map fun fill => fill.quantity.toNat).sum

theorem filledQuantity_append (fills : List Fill) (fill : Fill) :
    filledQuantity (fills ++ [fill]) = filledQuantity fills + fill.quantity.toNat := by
  simp [filledQuantity]

/-- What a run of fills takes from the remaining quantity is what they report. -/
theorem Trading.trades_filled (h : Trades request t t') :
    t'.remaining.toNat + filledQuantity t'.fills =
      t.remaining.toNat + filledQuantity t.fills := by
  induction h with
  | done => rfl
  | @fill t t' maker _ _ _ ih =>
    have hle : min t.remaining maker.quantity ≤ t.remaining := by
      rcases min_cases t.remaining maker.quantity with ⟨-, hmin⟩ | ⟨hlt, hmin⟩
      · rw [hmin]
        exact UInt64.le_refl _
      · rw [hmin]
        exact UInt64.le_of_lt hlt
    have hsub := UInt64.toNat_sub_of_le _ _ hle
    have hle := UInt64.le_iff_toNat_le.mp hle
    rw [ih, fill, filledQuantity_append]
    dsimp only
    omega

/-- The scan is the offered quantity up to wrapping. -/
theorem OrderRequest.fillable_toNat (request : OrderRequest) (resting : List OrderView) :
    (request.fillable resting).toNat = request.offered resting % 2 ^ 64 :=
  toNat_sum_quantity (resting.filter request.reaches)

namespace PriceTimeBook

/-- The two outcomes of a fill-or-kill request. -/
theorem submit_fok (hnodup : (a.resting.map OrderView.id).Nodup) (htype : request.type = .new)
    (htif : request.tif = .fok) (hq : request.quantity ≠ 0) (refused : Bool) :
    if request.offered a.resting % 2 ^ 64 < request.quantity.toNat then
      a.submit refused request = (.rejectedFOK, [], a)
    else (a.submit refused request).1 = .filledComplete ∧
      filledQuantity (a.submit refused request).2.1 = request.quantity.toNat := by
  have hmay : ¬ (request.mayRest = true ∧ (a.find request.id).isSome = true) := fun h =>
    OrderRequest.tif_ne_fok h.1 htif
  have hscan : request.fillable a.resting < request.quantity ↔
      request.offered a.resting % 2 ^ 64 < request.quantity.toNat := by
    rw [UInt64.lt_iff_toNat_lt, request.fillable_toNat]
  simp only [submit, htype, if_neg hq, if_neg hmay, htif, true_and, hscan]
  split_ifs with hshort
  · rfl
  · have henough : request.quantity.toNat ≤ request.offered a.resting :=
      (Nat.not_lt.mp hshort).trans (Nat.mod_le _ _)
    have hzero : (a.traded request).remaining = 0 := by
      by_contra hremaining
      have := (a.traded_remaining_iff request hnodup).mp hremaining
      omega
    have hfilled := Trading.trades_filled (a.traded_trades request)
    rw [hzero, UInt64.toNat_zero, Nat.zero_add] at hfilled
    simp only [settle, hzero, if_true]
    exact ⟨trivial, hfilled⟩

end PriceTimeBook

namespace OrderBook

/-- No `modify` of the run is turned away for want of capacity. -/
def KeepsModified (c : Capacity) (calls : List Call) (b : OrderBook c) : Prop :=
  Run (Guarded (fun b call => ¬ b.ExhaustsModify call) Step) (fresh c) calls b

theorem KeepsModified.represents (h : KeepsModified c calls b) : ∃ a, Represents b a := by
  have hkeeps : KeepsOrders c calls b := h.mono fun _ _ _ hstep =>
    ⟨fun hrefuses => hstep.1 (exhaustsModify_of_refuses hrefuses), hstep.2⟩
  exact hkeeps.represents.imp fun _ ha => ha.1

/-- The exact sum of the quantities that cross a request, over the orders of the book. -/
def crossingQuantity (b : OrderBook c) (request : OrderRequest) : ℕ :=
  request.offered b.ordersInPriority

theorem Represents.crossingQuantity_eq (h : Represents b a) (request : OrderRequest) :
    b.crossingQuantity request = request.offered a.resting := by
  rw [crossingQuantity, h.ordersInPriority]
  exact OrderRequest.offered_perm (ordersInPriority_perm a)

/-- A rejected fill-or-kill request changes nothing. -/
theorem submit_rejectedFOK (b : OrderBook c) (request : OrderRequest) (htype : request.type = .new)
    (htif : request.tif = .fok) (hq : request.quantity ≠ 0)
    (hshort : b.fillableQuantity request < request.quantity)
    (fuel : ℕ) : b.submit fuel request = some (.rejectedFOK, [], b) := by
  have hmay : ¬ (request.mayRest = true ∧ (b.findOrderIndex request.id).isSome = true) := fun h =>
    OrderRequest.tif_ne_fok h.1 htif
  simp only [submit, htype, if_neg hq, if_neg hmay, htif, true_and, if_pos hshort]

/-- The outcome of a fill-or-kill request is decided by the wrapped sum. -/
theorem Represents.submit_fok (h : Represents b a) (htype : request.type = .new)
    (htif : request.tif = .fok) (hq : request.quantity ≠ 0) :
    if b.crossingQuantity request % 2 ^ 64 < request.quantity.toNat then
      b.SubmitsTo request .rejectedFOK [] b
    else ∃ fills b', b.SubmitsTo request .filledComplete fills b' ∧
      filledQuantity fills = request.quantity.toNat := by
  rw [h.crossingQuantity_eq]
  obtain ⟨refused, b', hsubmits, -⟩ := h.submitsTo request
  have houtcome := PriceTimeBook.submit_fok h.nodup_ids htype htif hq refused
  split_ifs at houtcome ⊢ with hshort
  · have ⟨l, fl, fo, hshows⟩ := h
    refine ⟨0, submit_rejectedFOK b request htype htif hq ?_ 0⟩
    rw [UInt64.lt_iff_toNat_lt, hshows.fillable_eq, request.fillable_toNat]
    exact hshort
  · rw [houtcome.1] at hsubmits
    exact ⟨_, b', hsubmits, houtcome.2⟩

/-- A fill-or-kill request is filled whole or leaves no trace. -/
theorem fok_all_or_nothing (hrun : KeepsModified c calls b) (htype : request.type = .new)
    (htif : request.tif = .fok) (hq : request.quantity ≠ 0) :
    ∃ result fills b', b.SubmitsTo request result fills b' ∧
      ((result = .rejectedFOK ∧ fills = [] ∧ b' = b) ∨
        (result = .filledComplete ∧ filledQuantity fills = request.quantity.toNat)) := by
  obtain ⟨a, hrep⟩ := hrun.represents
  have houtcome := hrep.submit_fok htype htif hq
  split_ifs at houtcome with hshort
  · exact ⟨_, _, _, houtcome, .inl ⟨rfl, rfl, rfl⟩⟩
  · obtain ⟨fills, b', hsubmits, hfilled⟩ := houtcome
    exact ⟨_, fills, b', hsubmits, .inr ⟨rfl, hfilled⟩⟩

/-- Liquidity that suffices is used, unless its sum wraps to less than the request. -/
theorem fok_filled_iff (hrun : KeepsModified c calls b) (htype : request.type = .new)
    (htif : request.tif = .fok) (hq : request.quantity ≠ 0) :
    (request.quantity.toNat ≤ b.crossingQuantity request →
      ∃ fills b', b.SubmitsTo request .filledComplete fills b') ↔
    ¬ (request.quantity.toNat ≤ b.crossingQuantity request ∧
      b.crossingQuantity request % 2 ^ 64 < request.quantity.toNat) := by
  obtain ⟨a, hrep⟩ := hrun.represents
  have houtcome := hrep.submit_fok htype htif hq
  split_ifs at houtcome with hshort
  · constructor
    · rintro hfilled ⟨henough, -⟩
      obtain ⟨fills, b', hsubmits⟩ := hfilled henough
      have := (hsubmits.unique houtcome).1
      cases this
    · exact fun hnot henough => absurd ⟨henough, hshort⟩ hnot
  · obtain ⟨fills, b', hsubmits, -⟩ := houtcome
    exact ⟨fun _ h => hshort h.2, fun _ _ => ⟨fills, b', hsubmits⟩⟩

/-- Two orders to sell, of half the range of a quantity each. -/
def twoHuge : List MarketDataEvent :=
  [{ type := .add, orderId := 1, side := .sell, priceTicks := 10, quantity := 2 ^ 63 },
    { type := .add, orderId := 2, side := .sell, priceTicks := 10, quantity := 2 ^ 63 }]

def killBuy (quantity : Quantity) : OrderRequest :=
  { id := 3, side := .buy, priceTicks := 10, quantity, tif := .fok }

theorem keepsModified_twoHuge : KeepsModified .two (twoHuge.map .event)
    ((fresh .two).processAll twoHuge) :=
  have hrefused : (fresh .two).NeverRefused twoHuge :=
    neverRefused_cons (by decide +kernel) (neverRefused_cons (by decide +kernel) neverRefused_nil)
  hrefused.keepsKeys.guarded

theorem wrapped_liquidity_all_or_nothing :
    let b := (fresh .two).processAll twoHuge
    ∃ result fills b', b.SubmitsTo (killBuy 5) result fills b' ∧
      ((result = .rejectedFOK ∧ fills = [] ∧ b' = b) ∨
        (result = .filledComplete ∧ filledQuantity fills = 5)) :=
  fok_all_or_nothing keepsModified_twoHuge rfl rfl (by decide)

/-- The first order is enough by itself. -/
theorem first_offer_filled :
    let b := (fresh .two).processAll (twoHuge.take 1)
    ∃ fills b', b.SubmitsTo (killBuy 5) .filledComplete fills b' := by
  have hrefused : (fresh .two).NeverRefused (twoHuge.take 1) :=
    neverRefused_cons (by decide +kernel) neverRefused_nil
  exact (fok_filled_iff hrefused.keepsKeys.guarded rfl rfl (by decide)).mpr (by decide +kernel)
    (by decide +kernel)

/-- With both orders the sum wraps to zero and the request is rejected. -/
theorem wrapped_liquidity_rejected :
    let b := (fresh .two).processAll twoHuge
    (killBuy 5).quantity.toNat ≤ b.crossingQuantity (killBuy 5) ∧
      ¬ ∃ fills b', b.SubmitsTo (killBuy 5) .filledComplete fills b' := by
  intro b
  refine ⟨by decide +kernel, ?_⟩
  rintro ⟨fills, b', hfilled⟩
  have hrejected := submit_rejectedFOK b (killBuy 5) rfl rfl (by decide)
    (by decide +kernel) 0
  have := (hfilled.unique ⟨0, hrejected⟩).1
  cases this

end OrderBook

end MarketEngine
