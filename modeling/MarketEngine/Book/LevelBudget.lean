import Mathlib.Data.Fintype.Card
import MarketEngine.Book.Exhaustion
import MarketEngine.Book.Wraparound

/-! # How long the level index lasts

A slot of the level index that was taken once is never empty again. A call takes
one new slot at most, and only calls that may open a level take any. So no key is
refused before as many of these calls as the index has slots.
-/

namespace MarketEngine

open Transition

variable {c : Capacity} {b b' : OrderBook c} {request : OrderRequest} {event : MarketDataEvent}
  {calls : List Call}

/-- The call may open a level. -/
def Call.opens : Call → Bool
  | .event event => event.type = .add ∨ event.type = .modify ∨ event.type = .replace
  | .submit request => request.type = .new ∧ request.mayRest

namespace OrderBook

/-- The slots of the level index that were taken once. -/
def spent (b : OrderBook c) : Finset (Fin (tableSize c)) :=
  Finset.univ.filter fun slot => b.levelLookup.get slot ≠ .empty

theorem spent_congr (h : ∀ slot, b'.levelLookup.get slot = .empty ↔
    b.levelLookup.get slot = .empty) : b'.spent = b.spent :=
  Finset.filter_congr fun slot _ => not_congr (h slot)

theorem tableFull_iff (b : OrderBook c) : b.LevelTableFull ↔ b.spent.card = tableSize c := by
  have hcard : b.spent.card = tableSize c ↔ b.spent = Finset.univ := by
    simpa using Finset.card_eq_iff_eq_univ b.spent
  rw [hcard, spent, Finset.filter_eq_self]
  exact ⟨fun h slot _ => h slot, fun h slot => h slot (Finset.mem_univ _)⟩

/-! ## Levels -/

theorem insertLevelLookup_spent (b : OrderBook c) (side : Side) (price : Price)
    (value : Index c) :
    (b.insertLevelLookup side price value).2.spent.card ≤ b.spent.card + 1 := by
  unfold insertLevelLookup
  split
  · next slot _ =>
    refine (Finset.card_le_card fun s hs => ?_).trans (Finset.card_insert_le slot b.spent)
    by_cases he : s = slot
    · exact Finset.mem_insert.mpr (.inl he)
    · refine Finset.mem_insert_of_mem (Finset.mem_filter.mpr ⟨Finset.mem_univ _, ?_⟩)
      have hne := (Finset.mem_filter.mp hs).2
      rwa [Pool.get_set_of_ne _ _ he] at hne
  · exact Nat.le_succ _

theorem acquireLevel_spent (b : OrderBook c) (side : Side) (price : Price) :
    (b.acquireLevel side price).2.spent.card ≤ b.spent.card + 1 := by
  unfold acquireLevel
  split
  · exact Nat.le_succ _
  · split
    · exact Nat.le_succ _
    · next index _ =>
      have hinsert := insertLevelLookup_spent (b.takeLevelSlot index side price) side price index
      split
      · next heq =>
        rw [heq] at hinsert
        exact hinsert
      · next heq =>
        rw [heq] at hinsert
        refine le_of_eq_of_le (congrArg Finset.card (spent_congr fun slot => ?_)) hinsert
        rw [ladderPush, setLadder_levelLookup]

theorem unlink_spent (b : OrderBook c) (i : Index c) : (b.unlink i).spent = b.spent :=
  spent_congr (unlink_empty_iff b i)

theorem cancel_spent (b : OrderBook c) (id : OrderId) : (b.cancel id).2.spent = b.spent :=
  spent_congr (cancel_empty_iff b id)

/-! ## Events -/

theorem restOrder_spent (b : OrderBook c) (id : OrderId) (side : Side) (price : Price)
    (q : Quantity) : (b.restOrder id side price q).2.spent.card ≤ b.spent.card + 1 := by
  have hacquire := acquireLevel_spent b side price
  unfold restOrder
  split
  · exact Nat.le_succ _
  · split
    · exact Nat.le_succ _
    · split
      · exact Nat.le_succ _
      · next i _ =>
        split
        · next heq =>
          rw [heq] at hacquire
          exact hacquire
        · next ℓ b₁ heq =>
          rw [heq] at hacquire
          have hinsert := insertOrderLookup_levelLookup
            ((b₁.takeOrderSlot i id side price q ℓ).linkTail i ℓ) id i
          refine le_of_eq_of_le (congrArg Finset.card (spent_congr fun slot => ?_)) hacquire
          dsimp only
          split
          · next heq' =>
            rw [heq'] at hinsert
            refine (unlink_empty_iff _ _ _).trans ?_
            rw [hinsert]
            rfl
          · next heq' =>
            rw [heq'] at hinsert
            dsimp only at hinsert ⊢
            rw [hinsert]
            rfl

theorem modify_spent (b : OrderBook c) (event : MarketDataEvent) :
    (b.modify event).2.spent.card ≤ b.spent.card + 1 := by
  unfold modify
  split
  · exact Nat.le_succ _
  · split
    · exact Nat.le_succ _
    · next i _ =>
      have hacquire := acquireLevel_spent (b.unlink i) event.side event.priceTicks
      rw [unlink_spent] at hacquire
      dsimp only
      split
      · exact Nat.le_succ _
      · split
        · exact Nat.le_succ _
        · split
          · next heq =>
            rw [heq] at hacquire
            exact hacquire
          · next heq =>
            rw [heq] at hacquire
            exact hacquire

theorem trade_spent (b : OrderBook c) (id : OrderId) (q : Quantity) :
    (b.trade id q).2.spent = b.spent := by
  unfold trade
  split
  · rfl
  · split
    · rfl
    · dsimp only
      split
      · rfl
      · split
        · exact cancel_spent b id
        · rfl

theorem replace_spent (b : OrderBook c) (event : MarketDataEvent) :
    (b.replace event).2.spent.card ≤ b.spent.card + 1 := by
  unfold replace
  split
  · exact Nat.le_succ _
  · split
    · exact Nat.le_succ _
    · dsimp only
      split
      · exact Nat.le_succ _
      · refine (restOrder_spent _ _ _ _ _).trans ?_
        rw [cancel_spent]

theorem processEvent_spent (b : OrderBook c) (event : MarketDataEvent) :
    (b.processEvent event).2.spent.card ≤
      b.spent.card + if Call.opens (.event event) then 1 else 0 := by
  unfold processEvent
  cases htype : event.type <;> simp only [Call.opens, htype]
  case add => exact restOrder_spent b _ _ _ _
  case modify => exact modify_spent b event
  case cancel => exact le_of_eq (congrArg Finset.card (cancel_spent b _))
  case trade | reduce => exact le_of_eq (congrArg Finset.card (trade_spent b _ _))
  case replace => exact replace_spent b event

/-! ## Requests -/

end OrderBook

namespace Matching

variable {m m' : Matching c} {p : Price} {ℓ i : Index c} {fuel : ℕ}

theorem fillMaker_spent (request : OrderRequest) (p : Price) (ℓ i : Index c) (m : Matching c) :
    (m.fillMaker request p ℓ i).book.spent = m.book.spent := by
  by_cases hwhole : m.traded i = (m.book.orders.get i).quantity
  · rw [fillMaker_whole_book hwhole]
    exact OrderBook.spent_congr (OrderBook.unlink_empty_iff _ _)
  · simp only [fillMaker, if_neg hwhole]
    rfl

theorem fillLevel_spent {o : Option (Index c)} (h : fillLevel request p ℓ fuel o m = some m') :
    m'.book.spent = m.book.spent := by
  induction fuel generalizing o m with
  | zero => cases h
  | succ fuel ih =>
    unfold fillLevel at h
    cases o with
    | none =>
      cases h
      rfl
    | some i =>
      dsimp only at h
      split at h
      · cases h
        rfl
      · exact (ih h).trans (fillMaker_spent _ _ _ _ _)

theorem matchLoop_spent (h : matchLoop request fuel m = some m') :
    m'.book.spent = m.book.spent := by
  induction fuel generalizing m with
  | zero => cases h
  | succ fuel ih =>
    unfold matchLoop at h
    split at h
    · cases h
      rfl
    · split at h
      · cases h
        rfl
      · dsimp only at h
        split at h
        · split at h
          · cases h
          · next hfill => exact (ih h).trans (fillLevel_spent hfill)
        · cases h
          rfl

end Matching

namespace OrderBook

theorem settle_spent (request : OrderRequest) (m : Matching c) :
    (settle request m).2.spent.card ≤ m.book.spent.card + if request.mayRest then 1 else 0 := by
  have hrest := restOrder_spent m.book request.id request.side request.priceTicks m.remaining
  unfold settle
  dsimp only
  split
  · exact Nat.le_add_right _ _
  · split
    · split <;> next heq =>
        rw [heq] at hrest
        exact hrest
    · exact Nat.le_add_right _ _

theorem submit_spent {result : SubmitResult} {fills : List Fill}
    (h : b.SubmitsTo request result fills b') :
    b'.spent.card ≤ b.spent.card + if Call.opens (.submit request) then 1 else 0 := by
  obtain ⟨fuel, h⟩ := h
  unfold submit at h
  cases htype : request.type with
  | cancel =>
    have hcancel := cancel_spent b request.id
    rw [htype] at h
    dsimp only at h
    split at h <;> next heq =>
      cases h
      rw [heq] at hcancel
      exact le_of_eq_of_le (congrArg _ hcancel) (Nat.le_add_right _ _)
  | new =>
    rw [htype] at h
    dsimp only at h
    split_ifs at h
    iterate 3
      · cases h
        exact Nat.le_add_right _ _
    split at h
    · cases h
    · next m hloop =>
      cases h
      have hspent := settle_spent request m
      rw [Matching.matchLoop_spent hloop] at hspent
      simpa [Call.opens, htype] using hspent

theorem Step.spent {call : Call} (h : b.Step call b') :
    b'.spent.card ≤ b.spent.card + if call.opens then 1 else 0 := by
  cases call with
  | event event =>
    obtain rfl := h
    exact processEvent_spent b event
  | submit request =>
    obtain ⟨result, fills, hsubmits⟩ := h
    exact submit_spent hsubmits

/-- Every slot that was taken has its call. -/
theorem run_spent (h : Run Step (fresh c) calls b) : b.spent.card ≤ calls.countP Call.opens := by
  refine h.invariant_labels (I := fun calls (b : OrderBook c) =>
    b.spent.card ≤ calls.countP Call.opens) ?_ ?_
  · have hnone : (fresh c).spent = ∅ := Finset.filter_eq_empty_iff.mpr fun _ _ hne => hne rfl
    rw [hnone]
    exact Nat.zero_le _
  · intro calls b call b' hi hstep
    rw [List.countP_append, List.countP_singleton]
    exact hstep.spent.trans (Nat.add_le_add_right hi _)

/-- A call that does not open a level has no key refused. -/
theorem Refuses.opens {call : Call} (h : b.Refuses call) : call.opens = true := by
  cases call with
  | event event =>
    change b.eventRefused event = true at h
    unfold eventRefused at h
    cases htype : event.type <;> rw [htype] at h
    case cancel | trade | reduce => cases h
    all_goals exact decide_eq_true (by simp [htype])
  | submit request =>
    obtain ⟨fuel, h⟩ := h
    unfold submitRefused at h
    simp only [Bool.and_eq_true] at h
    obtain ⟨⟨⟨⟨htype, -⟩, -⟩, -⟩, h⟩ := h
    cases hloop : Matching.matchLoop request fuel ⟨b, request.quantity, []⟩ with
    | none =>
      rw [hloop] at h
      cases h
    | some m =>
      rw [hloop] at h
      simp only [Bool.and_eq_true] at h
      exact decide_eq_true ⟨of_decide_eq_true htype, h.1.2⟩

/-- No key is refused within as many calls that may open a level as the level index has slots. -/
theorem keepsKeys_of_openings (h : Run Step (fresh c) calls b)
    (hfew : calls.countP Call.opens ≤ tableSize c) : KeepsKeys c calls b := by
  induction h with
  | start => exact .start
  | @next calls b b' call hrun hstep ih =>
    rw [List.countP_append, List.countP_singleton] at hfew
    have hkeeps := ih (by omega)
    refine .next hkeeps ⟨fun hrefuses => ?_, hstep⟩
    have hopens := hrefuses.opens
    rw [hopens, if_pos rfl] at hfew
    have hspent := run_spent hrun
    refine hkeeps.not_refuses (fun hfull => ?_) call hrefuses
    rw [tableFull_iff] at hfull
    omega

/-- A key that is refused has been preceded by as many calls that may open a level as the index
has slots, at least two for each order that the book can hold. -/
theorem refusal_after_openings {call : Call} (h : Run Step (fresh c) calls b)
    (hrefuses : b.Refuses call) :
    2 * c.val ≤ tableSize c ∧ tableSize c ≤ calls.countP Call.opens := by
  constructor
  · rw [Nat.mul_comm]
    exact le_growPowerOfTwo _ _ _ (by simpa using Nat.lt_two_pow_self.le)
  · by_contra hfew
    have hspent := run_spent h
    refine (keepsKeys_of_openings h (by omega)).not_refuses (fun hfull => ?_) call hrefuses
    rw [tableFull_iff] at hfull
    omega

/-- An index of two slots refuses the third price. -/
theorem third_price_refused :
    2 * Capacity.one.val ≤ tableSize .one ∧
      tableSize .one ≤ ((churn .buy [0, 1]).map Call.event).countP Call.opens := by
  have hrefused : ((fresh .one).processAll (churn .buy [0, 1])).eventRefused
      { type := .add, orderId := 1, priceTicks := 2, quantity := 1 } = true := by
    decide +kernel
  have hrefuses : ((fresh .one).processAll (churn .buy [0, 1])).Refuses
      (.event { type := .add, orderId := 1, priceTicks := 2, quantity := 1 }) := hrefused
  exact refusal_after_openings
    ((keepsLists_processAll churn_type).mono fun _ _ _ hstep => hstep.2) hrefuses

end OrderBook

end MarketEngine
