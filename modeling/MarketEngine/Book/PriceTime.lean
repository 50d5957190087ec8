import Mathlib.Data.List.Dedup
import Mathlib.Data.UInt
import MarketEngine.Market.Checksum
import MarketEngine.Market.Priority

/-! # Price-time priority

What an order book is for, without its data structures: the list of its resting
orders by arrival. An order keeps its place while only its quantity changes, and
goes to the end when its side or price does. An incoming order trades against
the best price first and against the earliest order of a price first.

The environment decides with `refused` whether a new price level can be opened.
-/

namespace MarketEngine

/-- The resting orders by arrival, with the two counters of the book. -/
structure PriceTimeBook where
  capacity : ℕ
  resting : List OrderView := []
  nextPriority : UInt64 := 0
  fillSequence : UInt64 := 0

namespace PriceTimeBook

def find (a : PriceTimeBook) (id : OrderId) : Option OrderView :=
  a.resting.find? fun o => o.id = id

def without (a : PriceTimeBook) (id : OrderId) : PriceTimeBook :=
  { a with resting := a.resting.filter fun o => o.id ≠ id }

/-- Change a quantity in place. -/
def requantify (a : PriceTimeBook) (id : OrderId) (quantity : Quantity) : PriceTimeBook :=
  { a with resting := a.resting.map fun o =>
      if o.id = id then { o with quantity := quantity } else o }

/-- The latest arrival. -/
def enter (a : PriceTimeBook) (id : OrderId) (side : Side) (price : Price)
    (quantity : Quantity) : PriceTimeBook :=
  { a with
    resting := a.resting ++ [⟨id, side, price, quantity, a.nextPriority⟩]
    nextPriority := a.nextPriority + 1 }

/-! ## Events -/

def rest (a : PriceTimeBook) (refused : Bool) (id : OrderId) (side : Side) (price : Price)
    (quantity : Quantity) : ProcessResult × PriceTimeBook :=
  if quantity = 0 then (.invalidQuantity, a)
  else if (a.find id).isSome then (.duplicateOrderId, a)
  else if a.resting.length = a.capacity ∨ refused then (.capacityExhausted, a)
  else (.applied, a.enter id side price quantity)

def modify (a : PriceTimeBook) (event : MarketDataEvent) : ProcessResult × PriceTimeBook :=
  if event.quantity = 0 then (.invalidQuantity, a)
  else
    match a.find event.orderId with
    | none => (.orderNotFound, a)
    | some order =>
      if order.side = event.side ∧ order.priceTicks = event.priceTicks then
        (.applied, a.requantify event.orderId event.quantity)
      else
        (.applied, (a.without event.orderId).enter event.orderId event.side event.priceTicks
          event.quantity)

def cancel (a : PriceTimeBook) (id : OrderId) : ProcessResult × PriceTimeBook :=
  match a.find id with
  | none => (.orderNotFound, a)
  | some _ => (.applied, a.without id)

def replace (a : PriceTimeBook) (refused : Bool) (event : MarketDataEvent) :
    ProcessResult × PriceTimeBook :=
  if event.quantity = 0 then (.invalidQuantity, a)
  else
    match a.find event.orderId with
    | none => (.orderNotFound, a)
    | some order =>
      if event.newOrderId ≠ event.orderId ∧ (a.find event.newOrderId).isSome then
        (.duplicateOrderId, a)
      else
        (a.without event.orderId).rest refused event.newOrderId order.side event.priceTicks
          event.quantity

def trade (a : PriceTimeBook) (id : OrderId) (quantity : Quantity) :
    ProcessResult × PriceTimeBook :=
  if quantity = 0 then (.invalidQuantity, a)
  else
    match a.find id with
    | none => (.orderNotFound, a)
    | some order =>
      if quantity > order.quantity then (.invalidQuantity, a)
      else if quantity = order.quantity then (.applied, a.without id)
      else (.applied, a.requantify id (order.quantity - quantity))

def process (a : PriceTimeBook) (refused : Bool) (event : MarketDataEvent) :
    ProcessResult × PriceTimeBook :=
  match event.type with
  | .add => a.rest refused event.orderId event.side event.priceTicks event.quantity
  | .modify => a.modify event
  | .cancel => a.cancel event.orderId
  | .trade => a.trade event.orderId event.quantity
  | .reduce => a.trade event.orderId event.quantity
  | .replace => a.replace refused event

/-! ## Views -/

/-- What a level of the given key shows. -/
def levelView (a : PriceTimeBook) (key : LevelKey) : LevelView :=
  let queue := a.resting.filter fun o => o.key = key
  ⟨key.side, key.price, (queue.map (·.quantity)).sum, UInt64.ofNat queue.length⟩

/-- The levels with an order, best first. -/
def levels (a : PriceTimeBook) : List LevelView :=
  sortBy LevelView.before ((a.resting.map OrderView.key).dedup.map a.levelView)

def ordersInPriority (a : PriceTimeBook) : List OrderView :=
  a.levels.flatMap fun level => a.resting.filter fun o => o.key = level.key

/-- The best level of a side. -/
def best (a : PriceTimeBook) (side : Side) : Option LevelView :=
  a.levels.find? fun level => level.side = side

end PriceTimeBook

/-! ## Matching -/

/-- A resting order that a request may trade against. -/
def OrderRequest.reaches (request : OrderRequest) (o : OrderView) : Bool :=
  o.side = request.side.opposite ∧ request.crosses o.priceTicks

/-- The better of the best maker so far and a later order. -/
def OrderRequest.better (request : OrderRequest) (best : Option OrderView) (o : OrderView) :
    Option OrderView :=
  if request.reaches o then
    match best with
    | none => some o
    | some maker => if request.prefers o.priceTicks maker.priceTicks then some o else some maker
  else best

/-- The earliest order at the best price that a request reaches. -/
def OrderRequest.bestMaker (request : OrderRequest) (resting : List OrderView) :
    Option OrderView :=
  resting.foldl request.better none

/-- What the resting orders reached by a request can fill, in `uint64_t`. -/
def OrderRequest.fillable (request : OrderRequest) (resting : List OrderView) : Quantity :=
  ((resting.filter request.reaches).map (·.quantity)).sum

/-- A request while it trades. -/
structure Trading where
  book : PriceTimeBook
  remaining : Quantity
  fills : List Fill

namespace Trading

/-- Trade against one maker. -/
def fill (request : OrderRequest) (maker : OrderView) (t : Trading) : Trading :=
  let traded := min t.remaining maker.quantity
  let fill : Fill :=
    { takerId := request.id, makerId := maker.id, takerSide := request.side,
      priceTicks := maker.priceTicks, quantity := traded, sequence := t.book.fillSequence }
  let book := { t.book with fillSequence := t.book.fillSequence + 1 }
  { book :=
      if traded = maker.quantity then book.without maker.id
      else book.requantify maker.id (maker.quantity - traded)
    remaining := t.remaining - traded
    fills := t.fills ++ [fill] }

/-- Trade until nothing remains or no maker is reached, with at most `n` fills. -/
def matchAll (request : OrderRequest) : ℕ → Trading → Trading
  | 0, t => t
  | n + 1, t =>
    if t.remaining = 0 then t
    else
      match request.bestMaker t.book.resting with
      | none => t
      | some maker => matchAll request n (t.fill request maker)

end Trading

/-! ### The best maker -/

namespace OrderRequest

variable {request : OrderRequest} {o maker : OrderView} {resting r₁ r₂ : List OrderView}

/-- The scan keeps the first order at the best price. -/
theorem better_selects (request : OrderRequest) : Sorting.Selects request.reaches
    (fun o => request.side.opposite.rank o.priceTicks) request.better where
  skip best o ho := by simp [better, ho]
  none o ho := by simp [better, ho]
  lt m o ho hlt := by simp [better, ho, prefers_iff.mpr hlt]
  le m o ho hle := by simp [better, ho, prefers_eq_false_iff.mpr hle]

theorem bestMaker_mem (h : request.bestMaker resting = some maker) :
    maker ∈ resting ∧ request.reaches maker = true :=
  (request.better_selects.foldl_eq_some h).1.resolve_left (by simp)

theorem bestMaker_eq_none (h : ∀ o ∈ resting, request.reaches o = false) :
    request.bestMaker resting = none := by
  cases hb : request.bestMaker resting with
  | none => rfl
  | some maker =>
    obtain ⟨hm, hr⟩ := bestMaker_mem hb
    rw [h maker hm] at hr
    cases hr

/-- When no maker is found no order is reached. -/
theorem reaches_eq_false (h : request.bestMaker resting = none) (ho : o ∈ resting) :
    request.reaches o = false :=
  (request.better_selects.foldl_eq_none h).2 o ho

/-- An order that is better than the makers before it and no worse than those after it. -/
theorem bestMaker_eq_some (ho : request.reaches o = true)
    (h₁ : ∀ m ∈ r₁, request.reaches m = true →
      request.prefers o.priceTicks m.priceTicks = true)
    (h₂ : ∀ m ∈ r₂, request.reaches m = true →
      request.prefers m.priceTicks o.priceTicks = false) :
    request.bestMaker (r₁ ++ o :: r₂) = some o := by
  have hselects := request.better_selects
  have htail : r₂.foldl request.better (some o) = some o := by
    induction r₂ with
    | nil => rfl
    | cons m r₂ ih =>
      have hm : request.better (some o) m = some o := by
        cases hr : request.reaches m with
        | false => exact hselects.skip _ m hr
        | true => exact hselects.le o m hr (prefers_eq_false_iff.mp (h₂ m List.mem_cons_self hr))
      rw [List.foldl_cons, hm]
      exact ih fun m hm => h₂ m (List.mem_cons_of_mem _ hm)
  have hhead : request.better (r₁.foldl request.better none) o = some o := by
    cases hb : request.bestMaker r₁ with
    | none => exact (congrArg (request.better · o) hb).trans (hselects.none o ho)
    | some m =>
      obtain ⟨hm, hr⟩ := bestMaker_mem hb
      exact (congrArg (request.better · o) hb).trans
        (hselects.lt m o ho (prefers_iff.mp (h₁ m hm hr)))
  rw [bestMaker, List.foldl_append, List.foldl_cons, hhead, htail]

end OrderRequest

/-! ### Runs of fills -/

/-- From `t` any number of fills lead to `t'`. -/
inductive Trades (request : OrderRequest) : Trading → Trading → Prop
  | done (t : Trading) : Trades request t t
  | fill {t t' : Trading} {maker : OrderView} (hremaining : t.remaining ≠ 0)
      (hbest : request.bestMaker t.book.resting = some maker)
      (h : Trades request (t.fill request maker) t') : Trades request t t'

/-- No further fill is possible. -/
def Trading.Done (request : OrderRequest) (t : Trading) : Prop :=
  t.remaining = 0 ∨ request.bestMaker t.book.resting = none

namespace Trading

variable {request : OrderRequest} {t t' t'' : Trading} {maker : OrderView}

theorem trans_trades (h : Trades request t t') (h' : Trades request t' t'') :
    Trades request t t'' := by
  induction h with
  | done => exact h'
  | fill hremaining hbest _ ih => exact .fill hremaining hbest (ih h')

theorem min_cases (a b : Quantity) : (a ≤ b ∧ min a b = a) ∨ (b < a ∧ min a b = b) := by
  have h : min a b = if a ≤ b then a else b := rfl
  rw [h]
  split
  · next hle => exact .inl ⟨hle, rfl⟩
  · next hle => exact .inr ⟨UInt64.not_le.mp hle, rfl⟩

/-- A fill leaves nothing remaining or takes the maker. -/
theorem fill_progress (hbest : request.bestMaker t.book.resting = some maker) :
    (t.fill request maker).remaining = 0 ∨
      (t.fill request maker).book.resting.length < t.book.resting.length := by
  unfold fill
  dsimp only
  split
  · next htraded =>
    refine .inr (List.length_filter_lt_length_iff_exists.mpr ⟨maker, ?_, by simp⟩)
    exact (OrderRequest.bestMaker_mem hbest).1
  · next htraded =>
    left
    rcases min_cases t.remaining maker.quantity with ⟨-, hmin⟩ | ⟨-, hmin⟩
    · rw [hmin, UInt64.sub_self]
    · exact absurd hmin htraded

theorem matchAll_done (h : t.Done request) (n : ℕ) : matchAll request n t = t := by
  cases n with
  | zero => rfl
  | succ n =>
    unfold matchAll
    rcases h with h | h
    · rw [if_pos h]
    · split
      · rfl
      · rw [h]

/-- Fills until the end are what `matchAll` computes. -/
theorem matchAll_eq (h : Trades request t t') (hdone : t'.Done request) {n : ℕ}
    (hn : t.book.resting.length < n) : matchAll request n t = t' := by
  induction h generalizing n with
  | done => exact matchAll_done hdone n
  | @fill t t' maker hremaining hbest htrades ih =>
    obtain ⟨n, rfl⟩ : ∃ k, n = k + 1 := ⟨n - 1, by omega⟩
    unfold matchAll
    rw [if_neg hremaining, hbest]
    rcases fill_progress hbest with hzero | hlt
    · have heq : t' = t.fill request maker := by
        cases htrades with
        | done => rfl
        | fill hremaining' => exact absurd hzero hremaining'
      rw [heq]
      exact matchAll_done (.inl hzero) n
    · exact ih hdone (by omega)

/-- Trading only takes orders away or reduces their quantities. -/
theorem origin_fill {o : OrderView} (ho : o ∈ (t.fill request maker).book.resting) :
    ∃ o' ∈ t.book.resting, o'.id = o.id ∧ o'.key = o.key := by
  unfold fill at ho
  dsimp only at ho
  split at ho
  · exact ⟨o, (List.mem_filter.mp ho).1, rfl, rfl⟩
  · obtain ⟨o', ho', rfl⟩ := List.mem_map.mp ho
    refine ⟨o', ho', ?_⟩
    split <;> exact ⟨rfl, rfl⟩

theorem origin_matchAll {o : OrderView} {n : ℕ} (ho : o ∈ (matchAll request n t).book.resting) :
    ∃ o' ∈ t.book.resting, o'.id = o.id ∧ o'.key = o.key := by
  induction n generalizing t with
  | zero => exact ⟨o, ho, rfl, rfl⟩
  | succ n ih =>
    unfold matchAll at ho
    split at ho
    · exact ⟨o, ho, rfl, rfl⟩
    · split at ho
      · exact ⟨o, ho, rfl, rfl⟩
      · obtain ⟨o₁, ho₁, hid₁, hkey₁⟩ := ih ho
        obtain ⟨o₂, ho₂, hid₂, hkey₂⟩ := origin_fill ho₁
        exact ⟨o₂, ho₂, hid₂.trans hid₁, hkey₂.trans hkey₁⟩

end Trading

namespace PriceTimeBook

/-- What becomes of the remainder. -/
def settle (refused : Bool) (request : OrderRequest) (t : Trading) :
    SubmitResult × PriceTimeBook :=
  let filled := request.quantity - t.remaining
  if t.remaining = 0 then (.filledComplete, t.book)
  else if request.mayRest then
    match t.book.rest refused request.id request.side request.priceTicks t.remaining with
    | (.capacityExhausted, a) => (.rejectedCapacity, a)
    | (_, a) => (if filled = 0 then .restedNoFill else .partialFillRested, a)
  else (if filled = 0 then .noFillKilled else .partialFillKilled, t.book)

/-- The trading of a request that is not rejected; every fill but the last takes a resting
order. -/
def traded (a : PriceTimeBook) (request : OrderRequest) : Trading :=
  Trading.matchAll request (a.resting.length + 1) ⟨a, request.quantity, []⟩

def submit (a : PriceTimeBook) (refused : Bool) (request : OrderRequest) :
    SubmitResult × List Fill × PriceTimeBook :=
  match request.type with
  | .cancel =>
    match a.cancel request.id with
    | (.applied, a) => (.canceled, [], a)
    | (_, a) => (.rejectedInvalid, [], a)
  | .new =>
    if request.quantity = 0 then (.rejectedInvalid, [], a)
    else if request.mayRest ∧ (a.find request.id).isSome then (.rejectedDuplicate, [], a)
    else if request.tif = .fok ∧ request.fillable a.resting < request.quantity then
      (.rejectedFOK, [], a)
    else
      let t := a.traded request
      let (result, a) := settle refused request t
      (result, t.fills, a)

end PriceTimeBook

end MarketEngine
