import Mathlib.Algebra.Order.Floor.Semiring
import Mathlib.Algebra.Order.Group.MinMax
import Mathlib.Data.Rat.Floor
import MarketEngine.Book.Runs
import MarketEngine.Research.Backtest

/-! # The queue position of a passive order

The model of one hypothetical order that rests behind the orders displayed at its
price. It looks at each event together with the book before the event, keeps the
quantity that is still ahead, and fills the order with what is executed beyond it.
-/

namespace MarketEngine.Research

variable {c : Capacity}

/-- What the queue model uses of `double`; the conversion to a quantity truncates. -/
class QueueDouble (F : Type) extends Double F, Mul F, LT F where
  decidableLT : DecidableLT F
  toQuantity : F → Quantity

instance instDecidableLTQueueDouble (F : Type) [QueueDouble F] : DecidableLT F :=
  QueueDouble.decidableLT

instance : QueueDouble Float where
  decidableLT := inferInstance
  toQuantity := Float.toUInt64

instance : QueueDouble ℚ where
  decidableLT := inferInstance
  toQuantity x := UInt64.ofNat ⌊x⌋₊

/-- The member variables; of the set of order ids only membership is asked. -/
structure QueueModel (F : Type) where
  side : Side
  price : Price
  size : Quantity
  ahead : F
  filled : Quantity := 0
  cohort : Finset OrderId
  arrivalNs : UInt64

namespace QueueModel

variable {F : Type}

def orderAtOurLevel (m : QueueModel F) (id : OrderId) (book : OrderBook c) : Option OrderView :=
  (book.findOrder id).filter fun order => order.side = m.side ∧ order.priceTicks = m.price

def referencesOurLevel (m : QueueModel F) (id : OrderId) (book : OrderBook c) : Bool :=
  (m.orderAtOurLevel id book).isSome

def active (m : QueueModel F) : Bool := m.filled < m.size

def fullyFilled (m : QueueModel F) : Bool := m.filled ≥ m.size

section Source

variable [QueueDouble F]

/-- The constructor. -/
def create (side : Side) (price : Price) (size displayedAhead : Quantity) (multiplier : F)
    (cohort : Finset OrderId) (arrivalNs : UInt64) : QueueModel F where
  side := side
  price := price
  size := size
  ahead := Double.ofQuantity displayedAhead * multiplier
  cohort := cohort
  arrivalNs := arrivalNs

def stdMin (a b : F) : F := if b < a then b else a

def stdMax (a b : F) : F := if a < b then b else a

/-- A known order leaves, by a cancel or by a replace. -/
def onDeparture (m : QueueModel F) (id : OrderId) (bookBefore : OrderBook c) : QueueModel F :=
  match m.orderAtOurLevel id bookBefore with
  | none => m
  | some order =>
    if id ∈ m.cohort then
      { m with ahead := stdMax 0 (m.ahead - Double.ofQuantity order.quantity) }
    else m

/-- React to one event, with the book before it. -/
def onEvent (m : QueueModel F) (event : MarketDataEvent) (bookBefore : OrderBook c) :
    QueueModel F :=
  if m.filled ≥ m.size then m
  else
    match event.type with
    | .trade =>
      if ¬ m.referencesOurLevel event.orderId bookBefore then m
      else
        let q : F := Double.ofQuantity event.quantity
        let consumed := stdMin q m.ahead
        let m := { m with ahead := m.ahead - consumed }
        let overflow := q - consumed
        if 0 < overflow then
          let room : F := Double.ofQuantity (m.size - m.filled)
          { m with filled := m.filled + QueueDouble.toQuantity (stdMin overflow room) }
        else m
    | .reduce =>
      if ¬ m.referencesOurLevel event.orderId bookBefore then m
      else if event.orderId ∈ m.cohort then
        { m with ahead := stdMax 0 (m.ahead - Double.ofQuantity event.quantity) }
      else m
    | .cancel => m.onDeparture event.orderId bookBefore
    | .replace => m.onDeparture event.orderId bookBefore
    | .add => m
    | .modify => m

/-- A new order at the price of a level, as the replay of a feed posts it. -/
def post (book : OrderBook c) (level : LevelView) (size : Quantity) (multiplier : F)
    (arrivalNs : UInt64) : QueueModel F :=
  .create level.side level.priceTicks size level.totalQuantity multiplier
    (book.levelOrderIds level.side level.priceTicks).toFinset arrivalNs

end Source

/-! ## What an event takes -/

/-- The quantity that an event takes from ahead of us. -/
def taken (m : QueueModel F) (event : MarketDataEvent) (book : OrderBook c) : Option Quantity :=
  match event.type with
  | .trade => (m.orderAtOurLevel event.orderId book).map fun _ => event.quantity
  | .reduce =>
    if event.orderId ∈ m.cohort then
      (m.orderAtOurLevel event.orderId book).map fun _ => event.quantity
    else none
  | .cancel | .replace =>
    if event.orderId ∈ m.cohort then
      (m.orderAtOurLevel event.orderId book).map fun order => order.quantity
    else none
  | .add | .modify => none

variable {m : QueueModel F} {event : MarketDataEvent} {book : OrderBook c}

theorem taken_eq_some {q : Quantity} (h : m.taken event book = some q) :
    ∃ order, m.orderAtOurLevel event.orderId book = some order ∧
      (event.type = .trade ∧ q = event.quantity ∨
        event.orderId ∈ m.cohort ∧
          (event.type = .reduce ∧ q = event.quantity ∨
            (event.type = .cancel ∨ event.type = .replace) ∧ q = order.quantity)) := by
  unfold taken at h
  cases htype : event.type <;> rw [htype] at h <;> dsimp only at h
  case add | modify => cases h
  case trade =>
    obtain ⟨order, horder, rfl⟩ := Option.map_eq_some_iff.mp h
    exact ⟨order, horder, .inl ⟨rfl, rfl⟩⟩
  all_goals
    split_ifs at h with hcohort
    obtain ⟨order, horder, rfl⟩ := Option.map_eq_some_iff.mp h
    exact ⟨order, horder, .inr ⟨hcohort, by simp⟩⟩

theorem taken_of_orderAtOurLevel (h : m.orderAtOurLevel event.orderId book = none) :
    m.taken event book = none := by
  cases htaken : m.taken event book with
  | none => rfl
  | some q =>
    obtain ⟨order, horder, -⟩ := taken_eq_some htaken
    rw [h] at horder
    cases horder

/-- An order behind us is only taken by a trade. -/
theorem taken_of_not_mem (hmem : event.orderId ∉ m.cohort) (htype : event.type ≠ .trade) :
    m.taken event book = none := by
  unfold taken
  cases h : event.type <;> simp only [hmem, if_false]
  exact absurd h htype

section Doubles

variable [QueueDouble F]

theorem onEvent_of_full (h : ¬ m.filled < m.size) : m.onEvent event book = m :=
  if_pos (UInt64.not_lt.mp h)

/-- An event that takes nothing leaves the model as it was. -/
theorem onEvent_of_none (h : m.taken event book = none) : m.onEvent event book = m := by
  by_cases hfull : m.filled ≥ m.size
  · exact if_pos hfull
  unfold onEvent
  rw [if_neg hfull]
  unfold taken at h
  cases htype : event.type <;> rw [htype] at h <;> dsimp only at h ⊢
  case trade =>
    rw [Option.map_eq_none_iff] at h
    rw [if_pos (by simp [referencesOurLevel, h])]
  case reduce =>
    by_cases hcohort : event.orderId ∈ m.cohort
    · rw [if_pos hcohort, Option.map_eq_none_iff] at h
      rw [if_pos (by simp [referencesOurLevel, h])]
    · rw [if_neg hcohort, ite_self]
  all_goals
    unfold onDeparture
    cases horder : m.orderAtOurLevel event.orderId book with
    | none => rfl
    | some order =>
      rw [horder] at h
      exact if_neg fun hcohort => by simp [hcohort] at h

/-- The order itself and the cohort stay as they are. -/
theorem onEvent_same (m : QueueModel F) (event : MarketDataEvent) (book : OrderBook c) :
    (m.onEvent event book).side = m.side ∧ (m.onEvent event book).price = m.price ∧
      (m.onEvent event book).size = m.size ∧ (m.onEvent event book).cohort = m.cohort := by
  by_cases hfull : m.filled ≥ m.size
  · rw [onEvent_of_full (UInt64.not_lt.mpr hfull)]
    exact ⟨rfl, rfl, rfl, rfl⟩
  unfold onEvent
  rw [if_neg hfull]
  cases event.type with
  | add | modify => exact ⟨rfl, rfl, rfl, rfl⟩
  | trade | reduce =>
    dsimp only
    split_ifs <;> exact ⟨rfl, rfl, rfl, rfl⟩
  | cancel | replace =>
    dsimp only
    unfold onDeparture
    split
    · exact ⟨rfl, rfl, rfl, rfl⟩
    · split_ifs <;> exact ⟨rfl, rfl, rfl, rfl⟩

end Doubles

/-! ## Exact arithmetic -/

section Exact

variable {m : QueueModel ℚ}

theorem ofQuantity_eq (q : Quantity) : (Double.ofQuantity q : ℚ) = q.toNat := rfl

theorem stdMin_eq (a b : ℚ) : stdMin a b = min a b := by
  rw [min_comm, min_def_lt]
  rfl

theorem stdMax_eq (a b : ℚ) : stdMax a b = max a b := by
  rw [max_def_lt]
  rfl

/-- What an execution of `q` fills of us. -/
def fill (m : QueueModel ℚ) (q : Quantity) : ℕ :=
  min ⌊(q.toNat : ℚ) - m.ahead⌋₊ (m.size - m.filled).toNat

theorem onEvent_trade {order : OrderView} (hactive : m.filled < m.size)
    (htype : event.type = .trade) (horder : m.orderAtOurLevel event.orderId book = some order) :
    m.onEvent event book =
      { m with
        ahead := max (m.ahead - event.quantity.toNat) 0
        filled := m.filled + UInt64.ofNat (m.fill event.quantity) } := by
  have hours : m.referencesOurLevel event.orderId book = true := by
    simp [referencesOurLevel, horder]
  have hahead : m.ahead - min (event.quantity.toNat : ℚ) m.ahead =
      max (m.ahead - event.quantity.toNat) 0 := by
    rw [← max_sub_sub_left, sub_self]
  have hoverflow : (event.quantity.toNat : ℚ) - min (event.quantity.toNat : ℚ) m.ahead =
      max 0 (event.quantity.toNat - m.ahead) := by
    rw [← max_sub_sub_left, sub_self]
  unfold onEvent
  rw [if_neg (UInt64.not_le.mpr hactive), htype]
  dsimp only
  rw [if_neg (by simp [hours])]
  simp only [stdMin_eq, ofQuantity_eq, hoverflow, hahead]
  by_cases hbeyond : m.ahead < event.quantity.toNat
  · have hpos : 0 < (event.quantity.toNat : ℚ) - m.ahead := sub_pos.mpr hbeyond
    have hfill : ⌊min ((event.quantity.toNat : ℚ) - m.ahead) ((m.size - m.filled).toNat : ℚ)⌋₊ =
        m.fill event.quantity := by
      rw [Nat.floor_mono.map_min, Nat.floor_natCast, fill]
    rw [if_pos (lt_max_of_lt_right hpos), max_eq_right hpos.le, ← hfill]
    rfl
  · have hnone : m.fill event.quantity = 0 := by
      rw [fill, Nat.floor_of_nonpos (sub_nonpos.mpr (not_lt.mp hbeyond)), Nat.zero_min]
    rw [if_neg (by simpa using hbeyond), hnone]
    simp

/-- A departure from ahead of us brings us forward. -/
theorem onEvent_departure {q : Quantity} (hactive : m.filled < m.size)
    (htype : event.type ≠ .trade) (htaken : m.taken event book = some q) :
    m.onEvent event book = { m with ahead := max (m.ahead - q.toNat) 0 } := by
  obtain ⟨order, horder, hcases⟩ := taken_eq_some htaken
  have hours : m.referencesOurLevel event.orderId book = true := by
    simp [referencesOurLevel, horder]
  unfold onEvent
  rw [if_neg (UInt64.not_le.mpr hactive)]
  rcases hcases with ⟨htrade, -⟩ | ⟨hmem, ⟨hreduce, rfl⟩ | ⟨hleaves, rfl⟩⟩
  · exact absurd htrade htype
  · rw [hreduce]
    dsimp only
    rw [if_neg (by simp [hours]), if_pos hmem, stdMax_eq, max_comm]
    rfl
  · have hdeparture : m.onDeparture event.orderId book =
        { m with ahead := max (m.ahead - order.quantity.toNat) 0 } := by
      unfold onDeparture
      rw [horder]
      dsimp only
      rw [if_pos hmem, stdMax_eq, max_comm]
      rfl
    rcases hleaves with htype | htype <;> rw [htype] <;> exact hdeparture

/-! ## The band

Two models of one order that differ in the quantity ahead at the start. -/

theorem toNat_filled (h : m.filled.toNat ≤ m.size.toNat) (q : Quantity) :
    (m.filled + UInt64.ofNat (m.fill q)).toNat =
      min (m.filled.toNat + ⌊(q.toNat : ℚ) - m.ahead⌋₊) m.size.toNat := by
  have hroom : (m.size - m.filled).toNat = m.size.toNat - m.filled.toNat :=
    UInt64.toNat_sub_of_le _ _ (UInt64.le_iff_toNat_le.mpr h)
  have hsize := m.size.toNat_lt
  rw [UInt64.toNat_add, UInt64.toNat_ofNat', fill, hroom]
  omega

/-- We are filled no further than our size. -/
theorem onEvent_filled_le (h : m.filled.toNat ≤ m.size.toNat) (event : MarketDataEvent)
    (book : OrderBook c) : (m.onEvent event book).filled.toNat ≤ m.size.toNat := by
  by_cases hactive : m.filled < m.size
  · cases htaken : m.taken event book with
    | none => rwa [onEvent_of_none htaken]
    | some q =>
      by_cases htype : event.type = .trade
      · obtain ⟨order, horder, -⟩ := taken_eq_some htaken
        rw [onEvent_trade hactive htype horder]
        dsimp only
        rw [toNat_filled h]
        exact Nat.min_le_right _ _
      · rwa [onEvent_departure hactive htype htaken]
  · rwa [onEvent_of_full hactive]

/-- The first model has filled no less and, until it is full, has no more ahead. -/
structure Leads (m₁ m₂ : QueueModel ℚ) : Prop where
  side : m₁.side = m₂.side
  price : m₁.price = m₂.price
  size : m₁.size = m₂.size
  cohort : m₁.cohort = m₂.cohort
  filled_le : m₂.filled.toNat ≤ m₁.filled.toNat
  le_size : m₁.filled.toNat ≤ m₁.size.toNat
  ahead_le : m₁.filled < m₁.size → m₁.ahead ≤ m₂.ahead

variable {m₁ m₂ : QueueModel ℚ}

/-- What an event takes does not depend on the quantity ahead. -/
theorem Leads.taken_eq (h : Leads m₁ m₂) (event : MarketDataEvent) (book : OrderBook c) :
    m₁.taken event book = m₂.taken event book := by
  have horder : ∀ id, m₁.orderAtOurLevel id book = m₂.orderAtOurLevel id book := fun id => by
    rw [orderAtOurLevel, orderAtOurLevel, h.side, h.price]
  rw [taken, taken, horder, h.cohort]

theorem Leads.onEvent (h : Leads m₁ m₂) (event : MarketDataEvent) (book : OrderBook c) :
    Leads (m₁.onEvent event book) (m₂.onEvent event book) := by
  have hle : m₂.filled.toNat ≤ m₂.size.toNat := h.size ▸ h.filled_le.trans h.le_size
  by_cases hactive : m₁.filled < m₁.size
  · have hactive₂ : m₂.filled < m₂.size := by
      rw [UInt64.lt_iff_toNat_lt] at hactive ⊢
      exact h.size ▸ h.filled_le.trans_lt hactive
    have hahead := h.ahead_le hactive
    have htaken₂ := h.taken_eq event book
    cases htaken : m₁.taken event book with
    | none => rwa [onEvent_of_none htaken, onEvent_of_none (htaken₂.symm.trans htaken)]
    | some q =>
      rw [htaken] at htaken₂
      by_cases htype : event.type = .trade
      · obtain ⟨order, horder, -⟩ := taken_eq_some htaken
        obtain ⟨order₂, horder₂, -⟩ := taken_eq_some htaken₂.symm
        have hbeyond : ⌊(event.quantity.toNat : ℚ) - m₂.ahead⌋₊ ≤
            ⌊(event.quantity.toNat : ℚ) - m₁.ahead⌋₊ :=
          Nat.floor_mono (sub_le_sub_left hahead _)
        have hfilled := h.filled_le
        have hsize := h.size
        rw [onEvent_trade hactive htype horder, onEvent_trade hactive₂ htype horder₂]
        refine ⟨h.side, h.price, h.size, h.cohort, ?_, ?_, fun _ => ?_⟩ <;> dsimp only
        · rw [toNat_filled h.le_size, toNat_filled hle, ← hsize]
          omega
        · rw [toNat_filled h.le_size]
          exact Nat.min_le_right _ _
        · exact max_le_max_right _ (sub_le_sub_right hahead _)
      · rw [onEvent_departure hactive htype htaken, onEvent_departure hactive₂ htype htaken₂.symm]
        exact ⟨h.side, h.price, h.size, h.cohort, h.filled_le, h.le_size, fun _ =>
          max_le_max_right _ (sub_le_sub_right hahead _)⟩
  · -- a full order stays full, and the other one cannot pass it
    have hfull : m₁.size.toNat ≤ m₁.filled.toNat := by
      simpa [UInt64.lt_iff_toNat_lt] using hactive
    obtain ⟨hside, hprice, hsize, hcohort⟩ := onEvent_same m₂ event book
    have hfilled := onEvent_filled_le hle event book
    rw [← h.size] at hfilled
    rw [onEvent_of_full hactive]
    exact ⟨h.side.trans hside.symm, h.price.trans hprice.symm, h.size.trans hsize.symm,
      h.cohort.trans hcohort.symm, hfilled.trans hfull, h.le_size, fun hlt => absurd hlt hactive⟩

/-! ### Runs of observations -/

end Exact

end QueueModel

end MarketEngine.Research
