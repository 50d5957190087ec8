import MarketEngine.Book.Sweep

/-! # Splitting an order

A request that neither rests nor waits for its whole quantity may be sent in two
parts: the orders it reaches give the same, and the book ends up the same. The
second part meets the remainders that the first one leaves.
-/

namespace MarketEngine

open Transition

variable {c : Capacity} {b b' : OrderBook c} {request : OrderRequest} {id : OrderId}
  {parts : List (OrderView × ℕ)} {demand : ℕ}

/-- The exact sum of what a maker gives in some fills. -/
def makerVolume (fills : List Fill) (id : OrderId) : ℕ :=
  KeyedSum.total (fun fill : Fill => fill.quantity.toNat) (fun fill => fill.makerId = id) fills

theorem offers_lt (orders : List OrderView) : ∀ offer ∈ offers orders, offer.2 < 2 ^ 64 := by
  intro offer hoffer
  obtain ⟨o, -, rfl⟩ := List.mem_map.mp hoffer
  exact o.quantity.toNat_lt

theorem makerVolume_fillsOf (request : OrderRequest) (sequence : UInt64)
    (h : ∀ part ∈ parts, part.2 < 2 ^ 64) (id : OrderId) :
    makerVolume (request.fillsOf sequence parts) id =
      Serving.volume (fun o => o.id = id) parts := by
  induction parts generalizing sequence with
  | nil => rfl
  | cons part parts ih =>
    obtain ⟨hpart, hparts⟩ := List.forall_mem_cons.mp h
    rw [OrderRequest.fillsOf, makerVolume, KeyedSum.total_cons, Serving.volume_cons]
    dsimp only
    rw [UInt64.toNat_ofNat_of_lt' hpart]
    exact congrArg _ (ih _ hparts)

/-! ## Serving remainders -/

namespace OrderBook

variable {calls : List Call} {result : SubmitResult} {fills : List Fill}

/-- A request that neither rests nor is fill-or-kill trades what it can and is gone. -/
theorem SubmitsTo.trades (h : b.SubmitsTo request result fills b') (htype : request.type = .new)
    (hq : request.quantity ≠ 0) (hrest : request.mayRest = false) (hfok : request.tif ≠ .fok) :
    result.turnsAway = false ∧ result.rests = false := by
  obtain ⟨fuel, h⟩ := h
  simp only [submit, htype, if_neg hq, hrest, Bool.false_eq_true, false_and, if_false, hfok] at h
  split at h
  · cases h
  · next m _ =>
    cases h
    refine ⟨settle_turnsAway request m, ?_⟩
    unfold settle
    simp only [hrest, Bool.false_eq_true, if_false]
    split_ifs <;> rfl

/-- What such a request leaves of the orders, and what it takes from each maker. -/
theorem KeepsOrders.taken (request : OrderRequest) (hrun : KeepsOrders c calls b)
    (htype : request.type = .new) (hq : request.quantity ≠ 0) (hrest : request.mayRest = false)
    (hfok : request.tif ≠ .fok) (hsubmits : b.SubmitsTo request result fills b') :
    b'.reached request =
        remainders (Serving.left request.quantity.toNat (offers (b.reached request))) ∧
      b'.unreached request = b.unreached request ∧
      ∀ id, makerVolume fills id = Serving.volume (fun o : OrderView => o.id = id)
        (Serving.taken request.quantity.toNat (offers (b.reached request))) := by
  obtain ⟨haway, hrests⟩ := hsubmits.trades htype hq hrest hfok
  rcases submit_sweeps hrun htype hsubmits with ⟨hturned, -⟩ | hswept
  · rw [haway] at hturned
    cases hturned
  · refine ⟨hswept.reached, ?_, fun id => ?_⟩
    · rw [hswept.unreached, hrests]
      rfl
    · rw [hswept.fills]
      refine makerVolume_fillsOf request _ (fun part hpart => ?_) id
      obtain ⟨amount, hmem, hle⟩ := Serving.mem_taken hpart
      exact lt_of_le_of_lt hle (offers_lt _ _ hmem)

end OrderBook

end MarketEngine
