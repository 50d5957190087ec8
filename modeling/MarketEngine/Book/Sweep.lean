import MarketEngine.Book.Exhaustion
import MarketEngine.Book.PriorityList
import MarketEngine.Book.Quantities
import MarketEngine.Kit.Serving

/-! # A request sweeps the priority list

The matching loops take from the reached orders in the order of the priority
list: the quantity of a request is a demand, and the reached orders are the
offers that serve it.
-/

namespace MarketEngine

open Transition

variable {c : Capacity} {b b' : OrderBook c} {a : PriceTimeBook} {request : OrderRequest}
  {t : Trading} {maker : OrderView} {rest : List OrderView} {n : ℕ}

/-- What some orders offer. -/
def offers (orders : List OrderView) : List (OrderView × ℕ) :=
  orders.map fun o => (o, o.quantity.toNat)

/-- The orders with what is left of them. -/
def remainders (parts : List (OrderView × ℕ)) : List OrderView :=
  parts.map fun part => { part.1 with quantity := UInt64.ofNat part.2 }

/-- The fills by which a request takes parts of the makers, numbered from `sequence` on. -/
def OrderRequest.fillsOf (request : OrderRequest) (sequence : UInt64) :
    List (OrderView × ℕ) → List Fill
  | [] => []
  | (maker, part) :: parts =>
    { takerId := request.id, makerId := maker.id, takerSide := request.side,
      priceTicks := maker.priceTicks, quantity := UInt64.ofNat part, sequence } ::
      request.fillsOf (sequence + 1) parts

theorem remainders_offers (orders : List OrderView) : remainders (offers orders) = orders := by
  rw [remainders, offers, List.map_map]
  refine (List.map_congr_left fun o _ => ?_).trans (List.map_id orders)
  rw [Function.comp_apply, UInt64.ofNat_toNat]
  rfl

namespace PriceTimeBook

/-- The orders that a request does not reach, in priority order. -/
def unreached (a : PriceTimeBook) (request : OrderRequest) : List OrderView :=
  a.ordersInPriority.filter fun o => !request.reaches o

end PriceTimeBook

namespace Trading

/-! ## One fill -/

/-- Ids are unique and every order has a quantity. -/
structure Tidy (a : PriceTimeBook) : Prop where
  nodup : (a.resting.map OrderView.id).Nodup
  quantity : ∀ o ∈ a.resting, o.quantity ≠ 0

theorem Tidy.eq_of_id (h : Tidy a) {o o' : OrderView} (ho : o ∈ a.ordersInPriority)
    (ho' : o' ∈ a.ordersInPriority) (hid : o.id = o'.id) : o = o' :=
  List.inj_on_of_nodup_map h.nodup (PriceTimeBook.mem_priority.mp ho)
    (PriceTimeBook.mem_priority.mp ho') hid

theorem Tidy.fill (h : Tidy t.book) (request : OrderRequest) (hmaker : maker ∈ t.book.resting) :
    Tidy (t.fill request maker).book := by
  refine ⟨nodup_fill h.nodup, fun o ho => ?_⟩
  obtain ⟨r₁, r₂, hsplit, hfill⟩ := fill_split request h.nodup hmaker
  rw [hfill] at ho
  have hkept : ∀ o ∈ r₁ ++ r₂, o.quantity ≠ 0 := fun o ho => h.quantity o (by grind)
  have hleft : ∀ o ∈ t.leftover maker, o.quantity ≠ 0 := by
    intro o ho
    unfold leftover at ho
    dsimp only at ho
    split at ho
    · exact absurd ho List.not_mem_nil
    · next hpart =>
      obtain rfl := List.mem_singleton.mp ho
      intro hzero
      have hall := UInt64.sub_add_cancel maker.quantity (min t.remaining maker.quantity)
      rw [show maker.quantity - min t.remaining maker.quantity = 0 from hzero,
        UInt64.zero_add] at hall
      exact hpart hall
  grind

/-- No other order of the list has the id of the first one that is reached. -/
theorem Tidy.apart (h : Tidy a) (hreached : a.reached request = maker :: rest) :
    (∀ o ∈ rest, o.id ≠ maker.id) ∧ ∀ o ∈ a.unreached request, o.id ≠ maker.id := by
  have hmaker : maker ∈ a.ordersInPriority ∧ request.reaches maker = true :=
    List.mem_filter.mp (hreached ▸ List.mem_cons_self : maker ∈ a.reached request)
  constructor
  · have hnodup : ((maker :: rest).map OrderView.id).Nodup := by
      rw [← hreached]
      refine (List.filter_sublist.map OrderView.id).nodup ?_
      exact ((OrderBook.ordersInPriority_perm a).map _).nodup_iff.mpr h.nodup
    intro o ho hid
    exact (List.nodup_cons.mp hnodup).1 (hid ▸ List.mem_map_of_mem ho)
  · intro o ho hid
    obtain ⟨ho, hr⟩ := List.mem_filter.mp ho
    rw [h.eq_of_id ho hmaker.1 hid, hmaker.2] at hr
    cases hr

/-- A maker that is filled whole leaves the list. -/
theorem fill_whole (h : Tidy t.book) (hreached : t.book.reached request = maker :: rest)
    (hle : maker.quantity ≤ t.remaining) :
    (t.fill request maker).remaining = t.remaining - maker.quantity ∧
      (t.fill request maker).book.reached request = rest ∧
      (t.fill request maker).book.unreached request = t.book.unreached request := by
  have hmin : min t.remaining maker.quantity = maker.quantity := by
    rcases min_cases t.remaining maker.quantity with ⟨hle', hmin⟩ | ⟨-, hmin⟩
    · rw [hmin]
      exact UInt64.le_antisymm hle' hle
    · exact hmin
  have hbook : (t.fill request maker).book.ordersInPriority =
      t.book.ordersInPriority.filter fun o => o.id ≠ maker.id := by
    simp only [fill, hmin, if_true]
    exact PriceTimeBook.priority_without _ _
  obtain ⟨hrest, hunreached⟩ := h.apart hreached
  refine ⟨by simp only [fill, hmin], ?_, ?_⟩
  · rw [PriceTimeBook.reached, hbook, List.filter_comm]
    change (t.book.reached request).filter _ = rest
    rw [hreached, List.filter_cons_of_neg (by simp), List.filter_eq_self]
    exact fun o ho => decide_eq_true (hrest o ho)
  · rw [PriceTimeBook.unreached, hbook, List.filter_comm]
    exact List.filter_eq_self.mpr fun o ho => decide_eq_true (hunreached o ho)

/-- A maker that is filled in part keeps its place, and nothing remains. -/
theorem fill_part (h : Tidy t.book) (hreached : t.book.reached request = maker :: rest)
    (hlt : t.remaining < maker.quantity) :
    (t.fill request maker).remaining = 0 ∧
      (t.fill request maker).book.reached request =
        { maker with quantity := maker.quantity - t.remaining } :: rest ∧
      (t.fill request maker).book.unreached request = t.book.unreached request := by
  have hmin : min t.remaining maker.quantity = t.remaining := by
    rcases min_cases t.remaining maker.quantity with ⟨-, hmin⟩ | ⟨hlt', -⟩
    · exact hmin
    · exact absurd hlt (UInt64.lt_asymm hlt')
  let shrink := fun o : OrderView =>
    if o.id = maker.id then { o with quantity := maker.quantity - t.remaining } else o
  have hbook : (t.fill request maker).book.ordersInPriority =
      t.book.ordersInPriority.map shrink := by
    simp only [fill, hmin, if_neg (UInt64.ne_of_lt hlt)]
    exact PriceTimeBook.priority_requantify _ _ _
  have hreaches : ∀ o, request.reaches (shrink o) = request.reaches o := by
    intro o
    refine OrderRequest.reaches_congr ?_
    dsimp only [shrink]
    split <;> rfl
  have hkept : ∀ orders : List OrderView, (∀ o ∈ orders, o.id ≠ maker.id) →
      orders.map shrink = orders := fun orders horders =>
    (List.map_congr_left fun o ho => if_neg (horders o ho)).trans (List.map_id' orders)
  obtain ⟨hrest, hunreached⟩ := h.apart hreached
  refine ⟨by simp only [fill, hmin, UInt64.sub_self], ?_, ?_⟩
  · rw [PriceTimeBook.reached, hbook, List.filter_map]
    simp only [Function.comp_def, hreaches]
    change (t.book.reached request).map shrink = _
    rw [hreached, List.map_cons, hkept rest hrest]
    exact congrArg (· :: rest) (if_pos rfl)
  · rw [PriceTimeBook.unreached, hbook, List.filter_map]
    simp only [Function.comp_def, hreaches]
    exact hkept _ hunreached

/-! ## All fills -/

/-- Trading from `t` to `t'` serves what remains of the request from the reached orders. -/
structure Sweeps (request : OrderRequest) (t t' : Trading) : Prop where
  fills : t'.fills = t.fills ++ request.fillsOf t.book.fillSequence
    (Serving.taken t.remaining.toNat (offers (t.book.reached request)))
  remaining : t'.remaining.toNat =
    t.remaining.toNat - Serving.total (offers (t.book.reached request))
  reached : t'.book.reached request =
    remainders (Serving.left t.remaining.toNat (offers (t.book.reached request)))
  unreached : t'.book.unreached request = t.book.unreached request
  nextPriority : t'.book.nextPriority = t.book.nextPriority

theorem toNat_min (p q : Quantity) : (min p q).toNat = min p.toNat q.toNat := by
  rcases min_cases p q with ⟨hle, hmin⟩ | ⟨hlt, hmin⟩
  · rw [hmin, Nat.min_eq_left (UInt64.le_iff_toNat_le.mp hle)]
  · rw [hmin, Nat.min_eq_right (Nat.le_of_lt (UInt64.lt_iff_toNat_lt.mp hlt))]

/-- What one fill reports. -/
theorem fill_reports (request : OrderRequest) (maker : OrderView) (t : Trading) :
    (t.fill request maker).fills = t.fills ++ request.fillsOf t.book.fillSequence
        [(maker, min t.remaining.toNat maker.quantity.toNat)] ∧
      (t.fill request maker).book.fillSequence = t.book.fillSequence + 1 ∧
      (t.fill request maker).book.nextPriority = t.book.nextPriority := by
  refine ⟨?_, ?_, ?_⟩
  · rw [← toNat_min]
    simp only [fill, OrderRequest.fillsOf, UInt64.ofNat_toNat]
  · unfold fill
    dsimp only
    split <;> rfl
  · unfold fill
    dsimp only
    split <;> rfl

theorem offers_pos (request : OrderRequest) (h : Tidy a) :
    ∀ offer ∈ offers (a.reached request), 0 < offer.2 := by
  intro offer hoffer
  obtain ⟨o, ho, rfl⟩ := List.mem_map.mp hoffer
  have hq := h.quantity o (PriceTimeBook.mem_priority.mp (List.mem_filter.mp ho).1)
  exact Nat.pos_of_ne_zero fun hzero => hq (UInt64.toNat_inj.mp hzero)

/-- Nothing more is traded, and nothing is served any more. -/
theorem Sweeps.stop (h : Tidy t.book) (hdone : t.Done request) : Sweeps request t t := by
  rcases hdone with hzero | hnone
  · have hleft := Serving.left_zero (offers_pos request h)
    refine ⟨?_, ?_, ?_, rfl, rfl⟩
    · rw [hzero, UInt64.toNat_zero, Serving.taken_zero]
      exact (List.append_nil _).symm
    · rw [hzero, UInt64.toNat_zero, Nat.zero_sub]
    · rw [hzero, UInt64.toNat_zero, hleft, remainders_offers]
  · rw [PriceTimeBook.bestMaker_eq_head, List.head?_eq_none_iff] at hnone
    refine ⟨?_, ?_, ?_, rfl, rfl⟩
    · rw [hnone]
      exact (List.append_nil _).symm
    · rw [hnone]
      rfl
    · rw [hnone]
      rfl

/-- One fill and the service after it are one service. -/
theorem Sweeps.fill {t' : Trading} (h : Tidy t.book) (hremaining : t.remaining ≠ 0)
    (hreached : t.book.reached request = maker :: rest)
    (hrest : Sweeps request (t.fill request maker) t') : Sweeps request t t' := by
  have hpos : t.remaining.toNat ≠ 0 := fun hzero => hremaining (UInt64.toNat_inj.mp hzero)
  have hoffers : offers (maker :: rest) = (maker, maker.quantity.toNat) :: offers rest := rfl
  have htotal : Serving.total (offers (maker :: rest)) =
      maker.quantity.toNat + Serving.total (offers rest) := List.sum_cons
  obtain ⟨hfills, hsequence, hpriority⟩ := fill_reports request maker t
  rcases Nat.lt_or_ge t.remaining.toNat maker.quantity.toNat with hlt | hge
  · obtain ⟨hzero, hpart, hunreached⟩ := fill_part h hreached (UInt64.lt_iff_toNat_lt.mpr hlt)
    have hshort : (maker.quantity - t.remaining).toNat =
        maker.quantity.toNat - t.remaining.toNat :=
      UInt64.toNat_sub_of_le _ _ (UInt64.le_iff_toNat_le.mpr hlt.le)
    have hstop := hrest.reached
    rw [hzero, UInt64.toNat_zero, hpart] at hstop
    refine ⟨?_, ?_, ?_, hrest.unreached.trans hunreached, hrest.nextPriority.trans hpriority⟩
    · rw [hrest.fills, hzero, UInt64.toNat_zero, Serving.taken_zero, hfills, hreached, hoffers,
        Serving.taken, if_neg hpos, Nat.sub_eq_zero_of_le hlt.le, Serving.taken_zero]
      exact List.append_nil _
    · rw [hrest.remaining, hzero, hreached, htotal]
      simp only [UInt64.toNat_zero, Nat.zero_sub]
      omega
    · rw [hstop, hreached, hoffers, Serving.left, if_neg (Nat.not_le.mpr hlt)]
      change remainders (Serving.left 0 ((_, (maker.quantity - t.remaining).toNat) :: _)) = _
      rw [hshort, Serving.left, if_neg (by omega)]
      rfl
  · obtain ⟨hless, hwhole, hunreached⟩ := fill_whole h hreached (UInt64.le_iff_toNat_le.mpr hge)
    have hsub : (t.remaining - maker.quantity).toNat =
        t.remaining.toNat - maker.quantity.toNat :=
      UInt64.toNat_sub_of_le _ _ (UInt64.le_iff_toNat_le.mpr hge)
    have hlater := hrest.fills
    have hremains := hrest.remaining
    have hstop := hrest.reached
    rw [hless, hsub, hwhole] at hlater hremains hstop
    refine ⟨?_, ?_, ?_, hrest.unreached.trans hunreached, hrest.nextPriority.trans hpriority⟩
    · rw [hlater, hfills, hsequence, hreached, hoffers, Serving.taken, if_neg hpos,
        List.append_assoc]
      rfl
    · rw [hremains, hreached, htotal, Nat.sub_sub]
    · rw [hstop, hreached, hoffers, Serving.left, if_pos hge]

/-- The matching loop serves the request from the reached orders. -/
theorem matchAll_sweeps (request : OrderRequest) (h : Tidy t.book)
    (hn : t.book.resting.length < n) : Sweeps request t (matchAll request n t) := by
  induction n generalizing t with
  | zero => exact absurd hn (Nat.not_lt_zero _)
  | succ n ih =>
    unfold matchAll
    split
    · next hzero => exact .stop h (.inl hzero)
    · next hremaining =>
      cases hbest : request.bestMaker t.book.resting with
      | none => exact .stop h (.inr hbest)
      | some maker =>
        dsimp only
        have hmaker := (OrderRequest.bestMaker_mem hbest).1
        have hprogress := fill_progress hbest
        rw [PriceTimeBook.bestMaker_eq_head, List.head?_eq_some_iff] at hbest
        obtain ⟨rest, hreached⟩ := hbest
        refine .fill h hremaining hreached ?_
        rcases hprogress with hzero | hlt
        · rw [matchAll_done (.inl hzero)]
          exact .stop (h.fill request hmaker) (.inl hzero)
        · exact ih (h.fill request hmaker) (by omega)

end Trading

/-! ## Requests -/

/-- The request is turned away before it trades. -/
def SubmitResult.turnsAway : SubmitResult → Bool
  | .rejectedInvalid | .rejectedDuplicate | .rejectedFOK => true
  | _ => false

/-- The remainder of the request rests. -/
def SubmitResult.rests : SubmitResult → Bool
  | .restedNoFill | .partialFillRested => true
  | _ => false

/-- The order that a request rests with the given quantity. -/
def OrderRequest.order (request : OrderRequest) (quantity : Quantity) (priority : UInt64) :
    OrderView :=
  ⟨request.id, request.side, request.priceTicks, quantity, priority⟩

namespace PriceTimeBook

/-- What a request that was not turned away leaves. -/
inductive Settles (request : OrderRequest) (t : Trading) : SubmitResult × PriceTimeBook → Prop
  | filled (hzero : t.remaining = 0) : Settles request t (.filledComplete, t.book)
  | rested {result : SubmitResult} (hremaining : t.remaining ≠ 0) (hrests : result.rests = true) :
    Settles request t
      (result, t.book.enter request.id request.side request.priceTicks t.remaining)
  | dropped {result : SubmitResult} (hremaining : t.remaining ≠ 0) (hrests : result.rests = false)
    (hresult : result.turnsAway = false ∧ result ≠ .filledComplete) :
    Settles request t (result, t.book)

theorem settle_settles (refused : Bool)
    (hnew : request.mayRest = true → t.book.find request.id = none) :
    Settles request t (settle refused request t) := by
  unfold settle
  dsimp only
  by_cases hzero : t.remaining = 0
  · rw [if_pos hzero]
    exact .filled hzero
  rw [if_neg hzero]
  by_cases hrest : request.mayRest = true
  · rw [if_pos hrest, rest, if_neg hzero, hnew hrest]
    simp only [Option.isSome_none, Bool.false_eq_true, if_false]
    by_cases hfull : t.book.resting.length = t.book.capacity ∨ refused = true
    · rw [if_pos hfull]
      exact .dropped hzero rfl (by decide)
    · rw [if_neg hfull]
      dsimp only
      split
      · exact .rested hzero rfl
      · exact .rested hzero rfl
  · rw [if_neg hrest]
    split
    · exact .dropped hzero rfl (by decide)
    · exact .dropped hzero rfl (by decide)

/-- A free id stays free while a request trades. -/
theorem find_traded {id : OrderId} (h : a.find id = none) (request : OrderRequest) :
    (a.traded request).book.find id = none := by
  refine List.find?_eq_none.mpr fun o ho => ?_
  obtain ⟨o', ho', hid, -⟩ := Trading.origin_matchAll ho
  rw [← hid]
  exact List.find?_eq_none.mp h o' ho'

/-- A request is turned away or trades. -/
theorem submit_new (a : PriceTimeBook) (refused : Bool) (htype : request.type = .new) :
    (∃ result, result.turnsAway = true ∧ a.submit refused request = (result, [], a)) ∨
      ∃ result a', Settles request (a.traded request) (result, a') ∧
        a.submit refused request = (result, (a.traded request).fills, a') := by
  unfold submit
  rw [htype]
  dsimp only
  split_ifs with hq hdup hfok
  · exact .inl ⟨_, rfl, rfl⟩
  · exact .inl ⟨_, rfl, rfl⟩
  · exact .inl ⟨_, rfl, rfl⟩
  · refine .inr ⟨_, _, settle_settles refused fun hrest => find_traded ?_ request, rfl⟩
    simpa [hrest] using hdup

end PriceTimeBook

namespace OrderBook

/-- The orders that a request reaches, in priority order. -/
def reached (b : OrderBook c) (request : OrderRequest) : List OrderView :=
  b.ordersInPriority.filter request.reaches

def unreached (b : OrderBook c) (request : OrderRequest) : List OrderView :=
  b.ordersInPriority.filter fun o => !request.reaches o

/-- The request is served from the reached orders, and what is left of it may take its place
among the others. -/
structure SweptBy (b : OrderBook c) (request : OrderRequest) (result : SubmitResult)
    (fills : List Fill) (b' : OrderBook c) : Prop where
  filled : result = .filledComplete ↔
    request.quantity.toNat ≤ Serving.total (offers (b.reached request))
  fills : fills = request.fillsOf b.fillSequence
    (Serving.taken request.quantity.toNat (offers (b.reached request)))
  reached : b'.reached request =
    remainders (Serving.left request.quantity.toNat (offers (b.reached request)))
  unreached : b'.unreached request =
    if result.rests then
      KeyOrder.enqueue OrderView.key LevelKey.rank
        (request.order (UInt64.ofNat (request.quantity.toNat -
          Serving.total (offers (b.reached request)))) b.nextPriority)
        (b.unreached request)
    else b.unreached request

theorem Represents.priority_sorted (h : Represents b a) :
    KeyOrder.Sorted OrderView.key LevelKey.rank b.ordersInPriority := by
  rw [h.ordersInPriority]
  exact a.priority_sorted

theorem Represents.reached (h : Represents b a) (request : OrderRequest) :
    b.reached request = a.reached request :=
  congrArg (List.filter request.reaches) h.ordersInPriority

theorem Represents.unreached (h : Represents b a) (request : OrderRequest) :
    b.unreached request = a.unreached request :=
  congrArg (List.filter fun o => !request.reaches o) h.ordersInPriority

theorem Represents.counters (h : Represents b a) :
    a.nextPriority = b.nextPriority ∧ a.fillSequence = b.fillSequence := by
  obtain ⟨l, fl, fo, h⟩ := h
  exact ⟨h.nextPriority, h.fillSequence⟩

theorem Represents.tidy (h : Represents b a) (hq : b.HasQuantities) : Trading.Tidy a := by
  refine ⟨h.nodup_ids, fun o ho => ?_⟩
  refine hq.findOrder ((h.findOrder o.id).trans ?_)
  obtain ⟨o', hfind⟩ :=
    Option.isSome_iff_exists.mp (PriceTimeBook.find_isSome_iff.mpr ⟨o, ho, rfl⟩)
  obtain ⟨ho', hid⟩ := PriceTimeBook.find_eq_some hfind
  rw [hfind, List.inj_on_of_nodup_map h.nodup_ids ho' ho hid]

theorem SweptBy.of_sweeps {result : SubmitResult} {a' : PriceTimeBook} (h : Represents b a)
    (h' : Represents b' a')
    (hsweeps : Trading.Sweeps request ⟨a, request.quantity, []⟩ t)
    (hsettles : PriceTimeBook.Settles request t (result, a')) :
    b.SweptBy request result t.fills b' := by
  have hremaining := hsweeps.remaining
  have hfilled : t.remaining = 0 ↔
      request.quantity.toNat ≤ Serving.total (offers (a.reached request)) := by
    rw [← UInt64.toNat_inj, hremaining, UInt64.toNat_zero]
    exact Nat.sub_eq_zero_iff_le
  obtain ⟨hpriority, hsequence⟩ := h.counters
  have hown : ∀ q p, request.reaches (request.order q p) = false := by
    intro q p
    refine decide_eq_false fun hr => ?_
    have hside : request.side = request.side.opposite := hr.1
    cases hs : request.side <;> rw [hs] at hside <;> cases hside
  refine ⟨?_, ?_, ?_, ?_⟩
  · rw [h.reached, ← hfilled]
    cases hsettles with
    | filled hzero => exact ⟨fun _ => hzero, fun _ => rfl⟩
    | rested hne hrests =>
      refine ⟨fun he => ?_, fun hzero => absurd hzero hne⟩
      rw [he] at hrests
      cases hrests
    | dropped hne _ hresult => exact ⟨fun he => absurd he hresult.2, fun hzero => absurd hzero hne⟩
  · rw [hsweeps.fills, h.reached, ← hsequence]
    rfl
  · rw [h.reached, h'.reached]
    refine Eq.trans ?_ hsweeps.reached
    cases hsettles with
    | filled => rfl
    | dropped => rfl
    | rested =>
      rw [PriceTimeBook.reached, PriceTimeBook.priority_enter]
      exact KeyOrder.filter_enqueue_of_not (hown _ _) _
  · rw [h.reached, h.unreached, h'.unreached, ← hsweeps.unreached]
    cases hsettles with
    | filled => rfl
    | dropped _ hrests =>
      rw [hrests]
      rfl
    | rested _ hrests =>
      rw [hrests, if_pos rfl, ← hremaining, UInt64.ofNat_toNat, ← hpriority,
        ← hsweeps.nextPriority, PriceTimeBook.unreached, PriceTimeBook.priority_enter]
      refine t.book.priority_sorted.filter_enqueue LevelKey.rank_injective ?_
      exact congrArg Bool.not (hown _ _)

theorem settle_turnsAway (request : OrderRequest) (m : Matching c) :
    (settle request m).1.turnsAway = false := by
  unfold settle
  dsimp only
  split_ifs
  · rfl
  · split <;> rfl
  · split <;> rfl
  · rfl
  · rfl

/-- A request that is turned away leaves the book as it was. -/
theorem SubmitsTo.turnsAway {result : SubmitResult} {fills : List Fill}
    (h : b.SubmitsTo request result fills b') (htype : request.type = .new)
    (haway : result.turnsAway = true) : fills = [] ∧ b' = b := by
  obtain ⟨fuel, h⟩ := h
  unfold submit at h
  rw [htype] at h
  dsimp only at h
  split_ifs at h
  iterate 3
    · cases h
      exact ⟨rfl, rfl⟩
  split at h
  · cases h
  · next m _ =>
    cases h
    rw [settle_turnsAway] at haway
    cases haway

theorem KeepsOrders.hasQuantities {calls : List Call} (hrun : KeepsOrders c calls b) :
    b.HasQuantities :=
  run_hasQuantities (hrun.mono fun _ _ _ hstep => hstep.2)

theorem KeepsOrders.tidy {calls : List Call} (hrun : KeepsOrders c calls b) :
    ∃ a, Represents b a ∧ Trading.Tidy a := by
  obtain ⟨a, hrep, -⟩ := hrun.represents
  exact ⟨a, hrep, hrep.tidy hrun.hasQuantities⟩

/-- Every request is answered. -/
theorem KeepsOrders.answers {calls : List Call} (hrun : KeepsOrders c calls b)
    (request : OrderRequest) : ∃ result fills b', b.SubmitsTo request result fills b' := by
  obtain ⟨a, hrep, -⟩ := hrun.represents
  obtain ⟨refused, b', hsubmits, -⟩ := hrep.submitsTo request
  exact ⟨_, _, b', hsubmits⟩

/-- While a slot of the level index is empty no key is refused. -/
theorem KeepsOrders.not_refuses {calls : List Call} (hrun : KeepsOrders c calls b)
    (hempty : ¬ b.LevelTableFull) (call : Call) : ¬ b.Refuses call := by
  obtain ⟨a, hrep, -⟩ := hrun.represents
  rw [hrep.refuses_iff_blocks]
  exact fun hblocks => hempty hblocks.1

/-- In every book that calls lead to, a new request is turned away without a trace or is served
from the reached orders in priority order, and no other order is touched. -/
theorem submit_sweeps {calls : List Call} {result : SubmitResult} {fills : List Fill}
    (hrun : KeepsOrders c calls b) (htype : request.type = .new)
    (hsubmits : b.SubmitsTo request result fills b') :
    (result.turnsAway = true ∧ fills = [] ∧ b' = b) ∨ b.SweptBy request result fills b' := by
  obtain ⟨a, hrep, htidy⟩ := hrun.tidy
  obtain ⟨refused, b'', hsubmits', hrep', -⟩ := hrep.submitsTo request
  obtain ⟨rfl, rfl, rfl⟩ := hsubmits.unique hsubmits'
  rcases a.submit_new refused htype with ⟨result, haway, hsubmit⟩ | ⟨result, a', hsettles, hsubmit⟩
  · have haway' : (a.submit refused request).1.turnsAway = true := by
      rw [hsubmit]
      exact haway
    exact .inl ⟨haway', hsubmits.turnsAway htype haway'⟩
  · rw [hsubmit] at hrep' ⊢
    have hsweeps := Trading.matchAll_sweeps request (t := ⟨a, request.quantity, []⟩) htidy
      (Nat.lt_succ_self _)
    exact .inr (.of_sweeps hrep hrep' hsweeps hsettles)

/-- Orders to sell on two levels. -/
def threeAsks : List MarketDataEvent :=
  [{ type := .add, orderId := 1, side := .sell, priceTicks := 10, quantity := 4 },
    { type := .add, orderId := 2, side := .sell, priceTicks := 9, quantity := 2 },
    { type := .add, orderId := 3, side := .sell, priceTicks := 10, quantity := 3 }]

def buyFiveAtTen : OrderRequest := { id := 4, side := .buy, priceTicks := 10, quantity := 5 }

theorem keepsOrders_threeAsks : KeepsOrders .three (threeAsks.map .event)
    ((fresh .three).processAll threeAsks) :=
  (keepsLists_processAll (by decide)).keepsOrders

example : ((fresh .three).processAll threeAsks).reached buyFiveAtTen =
    [⟨2, .sell, 9, 2, 1⟩, ⟨1, .sell, 10, 4, 0⟩, ⟨3, .sell, 10, 3, 2⟩] := by decide +kernel

end OrderBook

end MarketEngine
