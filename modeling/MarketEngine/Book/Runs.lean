import MarketEngine.Book.Arrival
import MarketEngine.Book.MatchRefinement
import MarketEngine.Kit.Loop
import MarketEngine.Kit.Transition

/-! # Runs of a book

A run is any interleaving of events and requests. Until a `modify` has its level
key refused, the book stands for a price-time book that follows the same calls.
-/

namespace MarketEngine

open Transition

variable {c : Capacity} {b b' : OrderBook c} {a : PriceTimeBook} {request : OrderRequest}
  {event : MarketDataEvent} {result : SubmitResult} {fills : List Fill} {fuel fuel' n : ℕ}

/-- A call of the book, in either mode. -/
inductive Call
  | event (event : MarketDataEvent)
  | submit (request : OrderRequest)
  deriving DecidableEq

namespace PriceTimeBook

/-- The price-time book after a call. -/
def next (a : PriceTimeBook) (refused : Bool) : Call → PriceTimeBook
  | .event event => (a.process refused event).2
  | .submit request => (a.submit refused request).2.2

theorem Aged.next (h : a.Aged n) (hn : n + 1 < 2 ^ 64) (refused : Bool) (call : Call) :
    (a.next refused call).Aged (n + 1) := by
  cases call with
  | event event => exact h.process hn refused event
  | submit request => exact h.submit hn refused request

end PriceTimeBook

/-! ## Fuel -/

namespace Matching

variable {m m' : Matching c} {ℓ : Index c} {p : Price} {i : Option (Index c)}

theorem fillLevel_mono (h : fillLevel request p ℓ fuel i m = some m') (hle : fuel ≤ fuel') :
    fillLevel request p ℓ fuel' i m = some m' := by
  induction fuel generalizing fuel' i m with
  | zero => cases h
  | succ fuel ih =>
    obtain ⟨fuel', rfl⟩ : ∃ f, fuel' = f + 1 := ⟨fuel' - 1, by omega⟩
    unfold fillLevel at h ⊢
    cases i with
    | none => exact h
    | some i =>
      dsimp only at h ⊢
      by_cases hzero : m.remaining = 0
      · rwa [if_pos hzero] at h ⊢
      · rw [if_neg hzero] at h ⊢
        exact ih h (by omega)

theorem matchLoop_mono (h : matchLoop request fuel m = some m') (hle : fuel ≤ fuel') :
    matchLoop request fuel' m = some m' := by
  induction fuel generalizing fuel' m with
  | zero => cases h
  | succ fuel ih =>
    obtain ⟨fuel', rfl⟩ : ∃ f, fuel' = f + 1 := ⟨fuel' - 1, by omega⟩
    have hle' : fuel ≤ fuel' := by omega
    unfold matchLoop at h ⊢
    by_cases hzero : m.remaining = 0
    · rwa [if_pos hzero] at h ⊢
    rw [if_neg hzero] at h ⊢
    cases htop : m.book.ladderTop request.side.opposite with
    | none => rwa [htop] at h
    | some ℓ =>
      rw [htop] at h
      dsimp only at h ⊢
      by_cases hcross : request.crosses (m.book.levels.get ℓ).price = true
      · rw [if_pos hcross] at h ⊢
        cases hfill : fillLevel request (m.book.levels.get ℓ).price ℓ fuel
          (m.book.levels.get ℓ).head m with
        | none =>
          rw [hfill] at h
          cases h
        | some m₁ =>
          rw [hfill] at h
          rw [fillLevel_mono hfill hle']
          exact ih h hle'
      · rwa [if_neg hcross] at h ⊢

end Matching

namespace OrderBook

/-- More fuel does not change the result. -/
theorem submit_mono (h : b.submit fuel request = some (result, fills, b')) (hle : fuel ≤ fuel') :
    b.submit fuel' request = some (result, fills, b') := by
  unfold submit at h ⊢
  cases htype : request.type with
  | cancel =>
    rw [htype] at h
    exact h
  | new =>
    rw [htype] at h
    dsimp only at h ⊢
    split
    · next hq => rwa [if_pos hq] at h
    · next hq =>
      rw [if_neg hq] at h
      split
      · next hdup => rwa [if_pos hdup] at h
      · next hdup =>
        rw [if_neg hdup] at h
        split
        · next hfok => rwa [if_pos hfok] at h
        · next hfok =>
          rw [if_neg hfok] at h
          cases hloop : Matching.matchLoop request fuel ⟨b, request.quantity, []⟩ with
          | none =>
            rw [hloop] at h
            cases h
          | some m =>
            rw [hloop] at h
            rw [Matching.matchLoop_mono hloop hle]
            exact h

theorem submitRefused_mono (h : b.submitRefused fuel request = true) (hle : fuel ≤ fuel') :
    b.submitRefused fuel' request = true := by
  unfold submitRefused at h ⊢
  rw [Bool.and_eq_true] at h ⊢
  refine ⟨h.1, ?_⟩
  cases hloop : Matching.matchLoop request fuel ⟨b, request.quantity, []⟩ with
  | none =>
    rw [hloop] at h
    cases h.2
  | some m =>
    rw [hloop] at h
    rw [Matching.matchLoop_mono hloop hle]
    exact h.2

/-! ## Steps -/

/-- The request ends with the given result, fills and book. -/
def SubmitsTo (b : OrderBook c) (request : OrderRequest) (result : SubmitResult)
    (fills : List Fill) (b' : OrderBook c) : Prop :=
  ∃ fuel, b.submit fuel request = some (result, fills, b')

/-- A call takes the book `b` to `b'`. -/
def Step (b : OrderBook c) (call : Call) (b' : OrderBook c) : Prop :=
  match call with
  | .event event => (b.processEvent event).2 = b'
  | .submit request => ∃ result fills, b.SubmitsTo request result fills b'

/-- The book after a list of events. -/
def processAll (b : OrderBook c) (events : List MarketDataEvent) : OrderBook c :=
  events.foldl (fun b event => (b.processEvent event).2) b

theorem processAll_append (b : OrderBook c) (events events' : List MarketDataEvent) :
    b.processAll (events ++ events') = (b.processAll events).processAll events' :=
  List.foldl_append

/-- A level key is refused during the call. -/
def Refuses (b : OrderBook c) : Call → Prop
  | .event event => b.eventRefused event = true
  | .submit request => ∃ fuel, b.submitRefused fuel request = true

/-- The call is a `modify` that has its level key refused. -/
def RefusesModify (b : OrderBook c) : Call → Prop
  | .event event => event.type = .modify ∧ b.eventRefused event = true
  | .submit _ => False

theorem not_refusesModify {call : Call} (h : ¬ b.Refuses call) : ¬ b.RefusesModify call := by
  cases call with
  | event event => exact fun hm => h hm.2
  | submit request => exact id

theorem SubmitsTo.unique {result' : SubmitResult} {fills' : List Fill} {b'' : OrderBook c}
    (h : b.SubmitsTo request result fills b') (h' : b.SubmitsTo request result' fills' b'') :
    result = result' ∧ fills = fills' ∧ b' = b'' := by
  obtain ⟨fuel, h⟩ := h
  obtain ⟨fuel', h'⟩ := h'
  have heq := Loop.answer_unique submit_mono h h'
  simpa only [Prod.mk.injEq] using heq

theorem Represents.submitRefused_eq (h : Represents b a) (hfuel : b.submitFuel ≤ fuel) :
    b.submitRefused fuel request = b.submitRefused b.submitFuel request := by
  obtain ⟨m, hloop, -⟩ := h.matchLoop request
  rw [submitRefused, submitRefused, hloop fuel hfuel, hloop _ le_rfl]

theorem Represents.refuses_iff (h : Represents b a) :
    b.Refuses (.submit request) ↔ b.submitRefused b.submitFuel request = true := by
  refine ⟨?_, fun hr => ⟨_, hr⟩⟩
  rintro ⟨fuel, hfuel⟩
  rcases Nat.le_total fuel b.submitFuel with hle | hle
  · exact submitRefused_mono hfuel hle
  · rwa [h.submitRefused_eq hle] at hfuel

/-- Every request ends, in the way of the price-time book. -/
theorem Represents.submitsTo (h : Represents b a) (request : OrderRequest) :
    ∃ refused b', b.SubmitsTo request (a.submit refused request).1
        (a.submit refused request).2.1 b' ∧
      Represents b' (a.submit refused request).2.2 ∧
      (refused = true ↔ b.Refuses (.submit request)) := by
  obtain ⟨b', hsubmit, hrep⟩ := h.submit request (le_refl b.submitFuel)
  exact ⟨_, b', ⟨_, hsubmit⟩, hrep, h.refuses_iff.symm⟩

/-- A call takes a represented book to a represented one. -/
theorem Represents.step (h : Represents b a) {call : Call} (hmodify : ¬ b.RefusesModify call)
    (hstep : b.Step call b') :
    ∃ refused, Represents b' (a.next refused call) ∧ (refused = true ↔ b.Refuses call) := by
  cases call with
  | event event =>
    obtain rfl := hstep
    exact ⟨b.eventRefused event, (h.processEvent event hmodify).2, Iff.rfl⟩
  | submit request =>
    obtain ⟨result, fills, hsubmits⟩ := hstep
    obtain ⟨refused, b'', hsubmits', hrep, hrefused⟩ := h.submitsTo request
    obtain ⟨-, -, rfl⟩ := hsubmits.unique hsubmits'
    exact ⟨refused, hrep, hrefused⟩

/-! ## Runs -/

/-- The run never has the level key of a `modify` refused. -/
def KeepsOrders (c : Capacity) (calls : List Call) (b : OrderBook c) : Prop :=
  Run (Guarded (fun b call => ¬ b.RefusesModify call) Step) (fresh c) calls b

/-- No call of the run has a level key refused. -/
def KeepsKeys (c : Capacity) (calls : List Call) (b : OrderBook c) : Prop :=
  Run (Guarded (fun b call => ¬ b.Refuses call) Step) (fresh c) calls b

variable {calls : List Call}

theorem KeepsKeys.keepsOrders (h : KeepsKeys c calls b) : KeepsOrders c calls b :=
  h.mono fun _ _ _ hstep => ⟨not_refusesModify hstep.1, hstep.2⟩

/-- No event of the list has a level key refused. -/
def NeverRefused (b : OrderBook c) (events : List MarketDataEvent) : Prop :=
  ∀ pre event post, events = pre ++ event :: post → (b.processAll pre).eventRefused event = false

variable {events post : List MarketDataEvent}

theorem neverRefused_nil : b.NeverRefused [] := fun pre event post h => by simp at h

theorem neverRefused_cons {event : MarketDataEvent} (hevent : b.eventRefused event = false)
    (h : (b.processEvent event).2.NeverRefused events) : b.NeverRefused (event :: events) := by
  intro pre event' post hsplit
  cases pre with
  | nil =>
    rw [List.nil_append, List.cons.injEq] at hsplit
    exact hsplit.1 ▸ hevent
  | cons e pre =>
    rw [List.cons_append, List.cons.injEq] at hsplit
    obtain ⟨rfl, hsplit⟩ := hsplit
    exact h pre event' post hsplit

theorem NeverRefused.prefix (h : b.NeverRefused (events ++ post)) : b.NeverRefused events :=
  fun pre event rest hsplit => h pre event (rest ++ post) (by rw [hsplit]; simp)

theorem NeverRefused.keepsKeys (h : (fresh c).NeverRefused events) :
    KeepsKeys c (events.map .event) ((fresh c).processAll events) := by
  induction events using List.reverseRecOn with
  | nil => exact .start
  | append_singleton events event ih =>
    rw [List.map_append, processAll_append]
    exact .next (ih h.prefix) ⟨Bool.eq_false_iff.mp (h events event [] rfl), rfl⟩

/-- After such a run the book stands for a price-time book. -/
theorem KeepsOrders.represents (h : KeepsOrders c calls b) :
    ∃ a, Represents b a ∧ (calls.length < 2 ^ 64 → a.Aged calls.length) := by
  refine h.invariant_length
    (I := fun n (b : OrderBook c) => ∃ a, Represents b a ∧ (n < 2 ^ 64 → a.Aged n))
    ⟨.empty c, fresh_represents c, fun _ => .empty c⟩ ?_
  rintro n b call b' - ⟨a, hrep, hage⟩ ⟨hguard, hstep⟩
  obtain ⟨refused, hrep', -⟩ := hrep.step hguard hstep
  exact ⟨_, hrep', fun hn => (hage (by omega)).next hn refused call⟩

end OrderBook

end MarketEngine
