import MarketEngine.Kit.Sorting
import MarketEngine.Market.Event
import Mathlib.Algebra.Order.Group.Int

/-! # Price priority

The prices a request may trade at, and the order of price levels: bids come
first, each side from its best price. The comparison of levels is that of a rank
which tells their keys apart.
-/

namespace MarketEngine

/-- Whether a request may trade at a price. -/
def OrderRequest.crosses (request : OrderRequest) (levelPrice : Price) : Bool :=
  match request.orderType, request.side with
  | .market, _ => true
  | .limit, .buy => request.priceTicks ≥ levelPrice
  | .limit, .sell => request.priceTicks ≤ levelPrice

/-- Only the remainder of such an order may rest. -/
def OrderRequest.mayRest (request : OrderRequest) : Bool :=
  request.orderType = .limit ∧ request.tif = .gtc

theorem OrderRequest.tif_ne_fok {request : OrderRequest} (h : request.mayRest = true) :
    request.tif ≠ .fok := by
  unfold mayRest at h
  rw [decide_eq_true_eq] at h
  rw [h.2]
  decide

/-- The side and price of a level. -/
structure LevelKey where
  side : Side
  price : Price
  deriving DecidableEq, Repr

def OrderView.key (order : OrderView) : LevelKey := ⟨order.side, order.priceTicks⟩

def LevelView.key (level : LevelView) : LevelKey := ⟨level.side, level.priceTicks⟩

/-- The comparison that `levels()` sorts by. -/
def LevelView.before (left right : LevelView) : Bool :=
  if left.side ≠ right.side then left.side = .buy
  else match left.side with
    | .buy => left.priceTicks > right.priceTicks
    | .sell => left.priceTicks < right.priceTicks

/-- A smaller rank is closer to the top of a side of the book. -/
def Side.rank (side : Side) (price : Price) : ℤ :=
  match side with
  | .buy => -price.toInt
  | .sell => price.toInt

theorem Side.rank_injective (side : Side) : Function.Injective side.rank := by
  intro p q h
  cases side <;> simpa [rank, Int64.toInt_inj] using h

namespace LevelKey

/-- A smaller rank comes earlier. -/
def rank (key : LevelKey) : Lex (ℕ × ℤ) :=
  toLex (if key.side = .buy then 0 else 1, key.side.rank key.price)

theorem rank_injective : Function.Injective rank := by
  rintro ⟨s, p⟩ ⟨t, q⟩ h
  simp only [rank, EmbeddingLike.apply_eq_iff_eq, Prod.mk.injEq] at h
  obtain ⟨hs, hp⟩ := h
  obtain rfl : s = t := by cases s <;> cases t <;> simp at hs <;> rfl
  rw [s.rank_injective hp]

theorem rank_lt_iff (k k' : LevelKey) : k.rank < k'.rank ↔
    if k.side = k'.side then k.side.rank k.price < k.side.rank k'.price
    else k.side = .buy := by
  obtain ⟨s, p⟩ := k
  obtain ⟨t, q⟩ := k'
  cases s <;> cases t <;> simp [rank, Prod.Lex.toLex_lt_toLex]

/-- The keys of one side compare as their prices do. -/
theorem rank_lt_of_side {k k' : LevelKey} {side : Side} (hk : k.side = side)
    (hk' : k'.side = side) : k.rank < k'.rank ↔ side.rank k.price < side.rank k'.price := by
  subst hk
  rw [rank_lt_iff, if_pos hk'.symm]

end LevelKey

theorem LevelView.before_iff (a b : LevelView) :
    a.before b = true ↔ a.key.rank < b.key.rank := by
  rw [LevelKey.rank_lt_iff]
  obtain ⟨s, p⟩ := a
  obtain ⟨t, q⟩ := b
  cases s <;> cases t <;> simp [before, key, Side.rank, Int64.lt_iff_toInt_lt]

/-! ## What a taker wants -/

namespace OrderRequest

variable {request : OrderRequest} {p q : Price}

/-- The taker likes price `p` better than price `q`. -/
def prefers (request : OrderRequest) (p q : Price) : Bool :=
  match request.side with
  | .buy => p < q
  | .sell => p > q

/-- A taker likes what is closer to the top of the opposite side. -/
theorem prefers_iff : request.prefers p q = true ↔
    request.side.opposite.rank p < request.side.opposite.rank q := by
  unfold prefers
  cases request.side <;> simp [Side.opposite, Side.rank, Int64.lt_iff_toInt_lt]

theorem prefers_eq_false_iff : request.prefers p q = false ↔
    request.side.opposite.rank q ≤ request.side.opposite.rank p := by
  rw [← Bool.not_eq_true, prefers_iff, not_lt]

/-- A request that reaches a price reaches every price closer to the top. -/
theorem crosses_of_rank_le (h : request.crosses q = true)
    (hp : request.side.opposite.rank p ≤ request.side.opposite.rank q) :
    request.crosses p = true := by
  unfold crosses at h ⊢
  cases ht : request.orderType <;> cases hs : request.side <;>
    simp only [ht, hs, decide_eq_true_eq, ge_iff_le, Side.opposite, Side.rank,
      Int64.le_iff_toInt_le] at h hp ⊢ <;> omega

end OrderRequest

end MarketEngine
