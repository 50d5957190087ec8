import MarketEngine.Book.Wraparound
import MarketEngine.Reference.Matcher

/-! # The reference matcher matches by price and time

As long as priorities grow by arrival, the best maker of the reference matcher
is the earliest order at the best price, and a request fares as in a price-time
book that never has a level key refused.
-/

namespace MarketEngine

variable {c : Capacity} {a : PriceTimeBook} {ref : ReferenceMatcher} {request : OrderRequest}
  {m : ReferenceMatching} {t : Trading} {n : ℕ}

/-- The order of an entry of the map. -/
def entryView (entry : OrderId × RefOrder) : OrderView := entry.2.view entry.1

/-- A smaller rank is a better maker. -/
def OrderRequest.makerRank (request : OrderRequest) (o : OrderView) : Lex (ℤ × ℕ) :=
  toLex (request.side.opposite.rank o.priceTicks, o.priority.toNat)

theorem OrderRequest.makerRank_lt_iff {o o' : OrderView} :
    request.makerRank o < request.makerRank o' ↔ request.prefers o.priceTicks o'.priceTicks = true ∨
      o.priceTicks = o'.priceTicks ∧ o.priority < o'.priority := by
  rw [makerRank, makerRank, Prod.Lex.toLex_lt_toLex, prefers_iff,
    request.side.opposite.rank_injective.eq_iff, UInt64.lt_iff_toNat_lt]

/-- With growing priorities the order of least rank is the best maker. -/
theorem PriceTimeBook.Aged.bestMaker_eq {maker : OrderView} (h : a.Aged n)
    (hmem : maker ∈ a.resting) (hreaches : request.reaches maker = true)
    (hleast : ∀ o ∈ a.resting, request.reaches o = true →
      request.makerRank maker ≤ request.makerRank o) :
    request.bestMaker a.resting = some maker := by
  obtain ⟨r₁, r₂, hsplit⟩ := List.append_of_mem hmem
  have hordered := h.ordered
  rw [hsplit, List.pairwise_append] at hordered
  rw [hsplit] at hleast ⊢
  have hnot : ∀ o ∈ r₁ ++ maker :: r₂, request.reaches o = true →
      ¬ (request.prefers o.priceTicks maker.priceTicks = true ∨
        o.priceTicks = maker.priceTicks ∧ o.priority < maker.priority) := fun o ho hr => by
    rw [← OrderRequest.makerRank_lt_iff, not_lt]
    exact hleast o ho hr
  refine OrderRequest.bestMaker_eq_some hreaches (fun o ho hr => ?_) fun o ho hr => ?_
  · have hlt := hordered.2.2 o ho maker List.mem_cons_self
    have := hnot o (List.mem_append_left _ ho) hr
    rw [← UInt64.lt_iff_toNat_lt] at hlt
    rw [OrderRequest.prefers_iff] at this ⊢
    push Not at this
    exact lt_of_le_of_ne this.1 fun he => this.2 (Side.rank_injective _ he.symm) hlt
  · have := hnot o (List.mem_append_right _ (List.mem_cons_of_mem _ ho)) hr
    exact Bool.eq_false_iff.mpr fun hp => this (.inl hp)

namespace ReferenceMatcher

theorem crosses_eq (request : OrderRequest) (price : Price) :
    crosses request price = request.crosses price := by
  unfold crosses OrderRequest.crosses
  cases request.orderType <;> cases request.side <;> rfl

theorem reaches_entry (entry : OrderId × RefOrder) : request.reaches (entryView entry) =
    decide (entry.2.side = request.side.opposite ∧ crosses request entry.2.price) := by
  rw [OrderRequest.reaches, crosses_eq]
  rfl

theorem better_selects (request : OrderRequest) :
    Sorting.Selects (fun entry => request.reaches (entryView entry))
      (fun entry => request.makerRank (entryView entry)) (better request) := by
  have hskip : ∀ entry : OrderId × RefOrder,
      (entry.2.side ≠ request.side.opposite ∨ crosses request entry.2.price = false) ↔
        request.reaches (entryView entry) = false := by
    intro entry
    rw [reaches_entry, decide_eq_false_iff_not, not_and_or, Bool.not_eq_true]
  have hbetter : ∀ maker entry : OrderId × RefOrder, request.reaches (entryView entry) = true →
      better request (some maker) entry =
        if request.makerRank (entryView entry) < request.makerRank (entryView maker) then some entry
        else some maker := by
    intro maker entry hr
    unfold better
    rw [if_neg ((hskip entry).not.mpr (by simp [hr]))]
    refine if_congr ?_ rfl rfl
    rw [OrderRequest.makerRank_lt_iff, Bool.or_eq_true, Bool.and_eq_true, decide_eq_true_iff,
      decide_eq_true_iff]
    rfl
  refine ⟨fun best entry hr => ?_, fun entry hr => ?_, fun maker entry hr hlt => ?_,
    fun maker entry hr hle => ?_⟩
  · unfold better
    rw [if_pos ((hskip entry).mpr hr)]
  · unfold better
    rw [if_neg ((hskip entry).not.mpr (by simp [hr]))]
  · rw [hbetter maker entry hr, if_pos hlt]
  · rw [hbetter maker entry hr, if_neg hle.not_gt]

theorem lookup_bestMaker {maker : OrderId × RefOrder} (h : ref.bestMaker request = some maker) :
    ref.orders[maker.1]? = some maker.2 := by
  obtain ⟨hmaker, -, -⟩ := (better_selects request).foldl_eq_some h
  exact Std.TreeMap.mem_toList_iff_getElem?_eq_some.mp (hmaker.resolve_left (by simp)).1

/-- The reference matcher is a price-time book. -/
structure Follows (ref : ReferenceMatcher) (a : PriceTimeBook) : Prop where
  orders : Mirrors ref.orders a.resting
  capacity : ref.capacity = a.capacity
  nextPriority : ref.nextPriority = a.nextPriority
  fillSequence : ref.fillSequence = a.fillSequence

namespace Follows

theorem fillable_eq (h : Follows ref a) (request : OrderRequest) :
    ref.fillable request = request.fillable a.resting := by
  have hsum := Sorting.foldl_add_if
    (fun entry : OrderId × RefOrder => request.reaches (entryView entry))
    (fun entry => entry.2.quantity) ref.orders.toList 0
  have hviews : (ref.orders.views.filter request.reaches).Perm
      (a.resting.filter request.reaches) := h.orders.views_perm.filter _
  rw [OrderRequest.fillable, ← (hviews.map _).sum_eq, RefOrders.views, List.filter_map,
    List.map_map]
  rw [zero_add] at hsum
  refine Eq.trans ?_ hsum
  unfold fillable
  congr 1
  funext available entry
  simp only [reaches_entry, decide_eq_true_eq]

/-- Both books choose the same maker. -/
theorem bestMaker_eq (request : OrderRequest) (h : Follows ref a) (hage : a.Aged n) :
    (ref.bestMaker request).map entryView = request.bestMaker a.resting := by
  have hmem : ∀ o, o ∈ a.resting ↔ ∃ entry ∈ ref.orders.toList, entryView entry = o := by
    intro o
    rw [← h.orders.views_perm.mem_iff, RefOrders.views, List.mem_map]
    rfl
  cases hbest : ref.bestMaker request with
  | none =>
    refine (OrderRequest.bestMaker_eq_none fun o ho => ?_).symm
    obtain ⟨entry, hentry, rfl⟩ := (hmem o).mp ho
    exact ((better_selects request).foldl_eq_none hbest).2 entry hentry
  | some maker =>
    obtain ⟨hmaker, hleast, -⟩ := (better_selects request).foldl_eq_some hbest
    obtain ⟨hmaker, hreaches⟩ := hmaker.resolve_left (by simp)
    refine (hage.bestMaker_eq ((hmem _).mpr ⟨maker, hmaker, rfl⟩) hreaches fun o ho hr => ?_).symm
    obtain ⟨entry, hentry, rfl⟩ := (hmem o).mp ho
    exact hleast entry hentry hr

end Follows

end ReferenceMatcher

/-! ## The loop -/

/-- The loop of the reference matcher is at the same point as the trading. -/
structure ReferenceMatching.Follows (m : ReferenceMatching) (t : Trading) : Prop where
  matcher : m.matcher.Follows t.book
  remaining : m.remaining = t.remaining
  fills : m.fills = t.fills

namespace ReferenceMatcher

theorem fill_follows (request : OrderRequest) (h : m.Follows t) {maker : OrderId × RefOrder}
    (hmaker : m.matcher.orders[maker.1]? = some maker.2) :
    (fill request maker m).Follows (t.fill request (entryView maker)) := by
  have horders := h.matcher.orders
  unfold fill Trading.fill entryView RefOrder.view
  dsimp only
  rw [h.remaining, h.fills, h.matcher.fillSequence]
  refine ⟨?_, rfl, rfl⟩
  by_cases hall : min t.remaining maker.2.quantity = maker.2.quantity
  · rw [if_pos hall, if_pos hall]
    exact ⟨horders.erase _, h.matcher.capacity, h.matcher.nextPriority, rfl⟩
  · rw [if_neg hall, if_neg hall]
    exact ⟨horders.insert_quantity hmaker _, h.matcher.capacity, h.matcher.nextPriority, rfl⟩

/-- With growing priorities the loop trades as the price-time book does. -/
theorem matchLoop_follows (request : OrderRequest) (h : m.Follows t) (hage : t.book.Aged n)
    {k fuel : ℕ} (hk : t.book.resting.length < k) (hfuel : k < fuel) :
    ∃ m', matchLoop request fuel m = some m' ∧ m'.Follows (Trading.matchAll request k t) := by
  induction k generalizing m t fuel with
  | zero => exact absurd hk (Nat.not_lt_zero _)
  | succ k ih =>
    obtain ⟨fuel, rfl⟩ : ∃ f, fuel = f + 1 := ⟨fuel - 1, by omega⟩
    unfold matchLoop Trading.matchAll
    by_cases hzero : t.remaining = 0
    · rw [if_pos hzero, h.remaining, hzero, if_neg (by decide)]
      exact ⟨m, rfl, h⟩
    have hpos : m.remaining > 0 := by
      rw [h.remaining]
      exact UInt64.pos_iff_ne_zero.mpr hzero
    have hbest := h.matcher.bestMaker_eq request hage
    rw [if_neg hzero, if_pos hpos, ← hbest]
    cases hmaker : m.matcher.bestMaker request with
    | none => exact ⟨m, rfl, h⟩
    | some maker =>
      rw [hmaker, Option.map_some] at hbest
      have hstep := fill_follows request h (lookup_bestMaker hmaker)
      dsimp only [Option.map_some]
      rcases Trading.fill_progress hbest.symm with hdone | hlt
      · rw [Trading.matchAll_done (.inl hdone)]
        obtain ⟨fuel, rfl⟩ : ∃ f, fuel = f + 1 := ⟨fuel - 1, by omega⟩
        unfold matchLoop
        rw [hstep.remaining, hdone, if_neg (by decide)]
        exact ⟨_, rfl, hstep⟩
      · exact ih hstep (hage.fill _) (by omega) (by omega)

/-- A remainder with a new id is settled as in the price-time book. -/
theorem settle_follows (h : m.Follows t)
    (hid : request.mayRest = true → t.book.find request.id = none) :
    ∃ ref', settle request request.mayRest m =
        ((PriceTimeBook.settle false request t).1, t.fills, ref') ∧
      ref'.Follows (PriceTimeBook.settle false request t).2 := by
  have hmatcher := h.matcher
  unfold settle PriceTimeBook.settle
  rw [h.remaining, h.fills]
  dsimp only
  by_cases hzero : t.remaining = 0
  · rw [if_pos hzero, if_pos hzero]
    exact ⟨m.matcher, rfl, hmatcher⟩
  rw [if_neg hzero, if_neg hzero]
  by_cases hrest : request.mayRest = true
  · rw [if_pos hrest, if_pos hrest, hmatcher.nextPriority]
    have hnew := hid hrest
    have hlookup : m.matcher.orders[request.id]? = none := by
      rw [hmatcher.orders.find_eq, Option.map_eq_none_iff] at hnew
      exact hnew
    have henter : t.book.rest false request.id request.side request.priceTicks t.remaining =
        if t.book.resting.length = t.book.capacity then (.capacityExhausted, t.book)
        else (.applied, t.book.enter request.id request.side request.priceTicks t.remaining) := by
      simp [PriceTimeBook.rest, hzero, hnew]
    have hsize : m.matcher.orders.size = m.matcher.capacity ↔
        t.book.resting.length = t.book.capacity := by
      rw [hmatcher.orders.size_eq, hmatcher.capacity]
    rw [henter]
    by_cases hfull : t.book.resting.length = t.book.capacity
    · rw [if_pos hfull, if_pos (hsize.mpr hfull)]
      exact ⟨m.matcher, rfl, hmatcher⟩
    · rw [if_neg hfull, if_neg (hsize.not.mpr hfull)]
      have horders := hmatcher.orders.insertIfNew hlookup
        ⟨request.side, request.priceTicks, t.remaining, t.book.nextPriority⟩
      exact ⟨_, rfl, horders, hmatcher.capacity, rfl, hmatcher.fillSequence⟩
  · rw [if_neg hrest, if_neg hrest]
    exact ⟨m.matcher, rfl, hmatcher⟩

/-- A request fares in the reference matcher as in the price-time book. -/
theorem Follows.submit (h : Follows ref a) (hage : a.Aged n) (request : OrderRequest) {fuel : ℕ}
    (hfuel : a.resting.length + 2 ≤ fuel) :
    ∃ ref', ref.submit fuel request =
        some ((a.submit false request).1, (a.submit false request).2.1, ref') ∧
      ref'.Follows (a.submit false request).2.2 := by
  unfold ReferenceMatcher.submit PriceTimeBook.submit
  cases htype : request.type with
  | cancel =>
    rw [if_pos rfl]
    simp only [PriceTimeBook.cancel, h.orders.find_eq]
    cases hid : ref.orders[request.id]? with
    | none => exact ⟨ref, rfl, h⟩
    | some order =>
      exact ⟨_, rfl, h.orders.erase _, h.capacity, h.nextPriority, h.fillSequence⟩
  | new =>
    rw [if_neg (by decide)]
    have hmay : decide (request.orderType = .limit ∧ request.tif = .gtc) = request.mayRest := rfl
    simp only [hmay, h.orders.find_eq, Option.isSome_map, ← h.fillable_eq]
    by_cases hq : request.quantity = 0
    · simp only [hq, if_true]
      exact ⟨ref, rfl, h⟩
    rw [if_neg hq, if_neg hq]
    by_cases hdup : request.mayRest = true ∧ (ref.orders[request.id]?).isSome = true
    · rw [if_pos hdup, if_pos hdup]
      exact ⟨ref, rfl, h⟩
    rw [if_neg hdup, if_neg hdup]
    by_cases hfok : request.tif = .fok ∧ ref.fillable request < request.quantity
    · rw [if_pos hfok, if_pos hfok]
      exact ⟨ref, rfl, h⟩
    rw [if_neg hfok, if_neg hfok]
    have hstart : ReferenceMatching.Follows ⟨ref, request.quantity, []⟩
      ⟨a, request.quantity, []⟩ := ⟨h, rfl, rfl⟩
    obtain ⟨m, hloop, hm⟩ := matchLoop_follows request hstart hage (Nat.lt_succ_self _) hfuel
    have hnone : request.mayRest = true → (a.traded request).book.find request.id = none := by
      intro hrest
      refine List.find?_eq_none.mpr fun o ho hid => hdup ⟨hrest, ?_⟩
      obtain ⟨o', ho', hid', -⟩ := Trading.origin_matchAll ho
      rw [Option.isSome_iff_ne_none, ne_eq, h.orders.lookup_none]
      exact fun hne => hne o' ho' (hid'.trans (of_decide_eq_true hid))
    obtain ⟨ref', hsettle, href'⟩ := settle_follows hm hnone
    rw [hloop]
    exact ⟨ref', congrArg some hsettle, href'⟩

theorem matchLoop_mono {m' : ReferenceMatching} {fuel fuel' : ℕ}
    (h : matchLoop request fuel m = some m') (hle : fuel ≤ fuel') :
    matchLoop request fuel' m = some m' := by
  induction fuel generalizing fuel' m with
  | zero => cases h
  | succ fuel ih =>
    obtain ⟨fuel', rfl⟩ : ∃ f, fuel' = f + 1 := ⟨fuel' - 1, by omega⟩
    unfold matchLoop at h ⊢
    by_cases hpos : m.remaining > 0
    · rw [if_pos hpos] at h ⊢
      cases hbest : m.matcher.bestMaker request with
      | none => rwa [hbest] at h
      | some maker =>
        rw [hbest] at h
        exact ih h (by omega)
    · rwa [if_neg hpos] at h ⊢

theorem submit_mono {result : SubmitResult × List Fill × ReferenceMatcher} {fuel fuel' : ℕ}
    (h : ref.submit fuel request = some result) (hle : fuel ≤ fuel') :
    ref.submit fuel' request = some result := by
  unfold submit at h ⊢
  dsimp only at h ⊢
  split
  · next htype => rwa [if_pos htype] at h
  · next htype =>
    rw [if_neg htype] at h
    split
    · next hq => rwa [if_pos hq] at h
    · next hq =>
      rw [if_neg hq] at h
      split
      · next hdup => rwa [if_pos hdup] at h
      · next hdup =>
        rw [if_neg hdup] at h
        split
        · next hfok => rwa [if_pos hfok] at h
        · next hfok =>
          rw [if_neg hfok, Option.map_eq_some_iff] at h
          obtain ⟨m, hloop, hsettle⟩ := h
          rw [matchLoop_mono hloop hle]
          exact congrArg some hsettle

theorem SubmitsTo.unique {result result' : SubmitResult} {fills fills' : List Fill}
    {ref' ref'' : ReferenceMatcher} (h : ref.SubmitsTo request result fills ref')
    (h' : ref.SubmitsTo request result' fills' ref'') :
    result = result' ∧ fills = fills' ∧ ref' = ref'' := by
  obtain ⟨fuel, h⟩ := h
  obtain ⟨fuel', h'⟩ := h'
  have heq := Loop.answer_unique submit_mono h h'
  simpa only [Prod.mk.injEq] using heq

/-- The matcher loaded from a book stands for the same price-time book. -/
theorem ofBook_follows {b : OrderBook c} (h : b.Represents a) : (ofBook b).Follows a := by
  have hperm := OrderBook.ordersInPriority_perm a
  have horders : (ofBook b).Follows { a with resting := a.ordersInPriority } := by
    obtain ⟨l, fl, fo, hshows⟩ := id h
    refine ⟨?_, hshows.capacity.symm, hshows.nextPriority.symm, hshows.fillSequence.symm⟩
    dsimp only [ofBook]
    rw [h.ordersInPriority]
    apply Mirrors.empty.foldl_insertIfNew
    exact (hperm.map _).nodup_iff.mpr h.nodup_ids
  exact ⟨horders.orders.perm hperm, horders.capacity, horders.nextPriority, horders.fillSequence⟩

end ReferenceMatcher

namespace OrderBook

variable {b : OrderBook c} {calls : List Call}

/-- Match mode agrees with the reference matcher after every run of fewer than `2 ^ 64` calls. -/
theorem submit_refines_matcher (hrun : KeepsKeys c calls b) (hlen : calls.length < 2 ^ 64)
    (request : OrderRequest) (hrefused : ¬ b.Refuses (.submit request)) :
    ∃ result fills b' ref', b.SubmitsTo request result fills b' ∧
      (ReferenceMatcher.ofBook b).SubmitsTo request result fills ref' ∧
      b'.ordersInPriority.Perm ref'.orders.views ∧ b'.levelViews = ref'.levels := by
  obtain ⟨a, hrep, hage⟩ := hrun.keepsOrders.represents
  obtain ⟨refused, b', hsubmits, hrep', hiff⟩ := hrep.submitsTo request
  obtain rfl : refused = false := Bool.eq_false_iff.mpr fun hr => hrefused (hiff.mp hr)
  obtain ⟨ref', hsubmit, href'⟩ :=
    (ReferenceMatcher.ofBook_follows hrep).submit (hage hlen) request le_rfl
  refine ⟨_, _, b', ref', hsubmits, ⟨_, hsubmit⟩, ?_, ?_⟩
  · rw [hrep'.ordersInPriority]
    exact (ordersInPriority_perm _).trans href'.orders.views_perm.symm
  · rw [hrep'.levelViews]
    exact href'.orders.levels_eq.symm

/-- Two orders to sell, and a request that fills one of them. -/
def twoOffers : List MarketDataEvent := [arrival 1, arrival 2]

def buyFive : OrderRequest := { id := 3, side := .buy, priceTicks := 10, quantity := 5 }

theorem two_offers_matched :
    let b := (fresh .two).processAll twoOffers
    ∃ result fills b' ref', b.SubmitsTo buyFive result fills b' ∧
      (ReferenceMatcher.ofBook b).SubmitsTo buyFive result fills ref' ∧
      b'.ordersInPriority.Perm ref'.orders.views ∧ b'.levelViews = ref'.levels := by
  have hrefused : (fresh .two).NeverRefused twoOffers :=
    neverRefused_cons (by decide +kernel) (neverRefused_cons (by decide +kernel) neverRefused_nil)
  exact submit_refines_matcher hrefused.keepsKeys (by decide) buyFive
    (hrefused.keepsKeys.not_refuses (by decide +kernel) _)

/-- The matcher loaded with the two orders around the wrap of the counter. -/
def wrappedMatcher : ReferenceMatcher where
  capacity := 2
  nextPriority := 1
  orders := wrapped.ordersInPriority.foldl (fun orders o => orders.insertIfNew o.id o.entry) ∅

/-- Once the counter has wrapped the matcher prefers the later order. -/
theorem submit_differs_when_wrapped :
    ∃ calls b, KeepsKeys .two calls b ∧ ¬ b.Refuses (.submit buyFive) ∧
      ¬ ∃ result fills b' ref', b.SubmitsTo buyFive result fills b' ∧
        (ReferenceMatcher.ofBook b).SubmitsTo buyFive result fills ref' := by
  obtain ⟨calls, b, hrun, hrep⟩ := exists_wrapped
  have hoffers : ¬ OpensLevel 2 wrapped.resting (.submit buyFive) := fun hopens =>
    absurd hopens.2.2.2.1 (by decide)
  refine ⟨calls, b, hrun, ?_, ?_⟩
  · rw [hrep.refuses_iff_blocks, Blocks,
      opensLevel_perm (hrep.ordersInPriority ▸ ordersInPriority_perm wrapped)]
    exact fun hblocks => hoffers hblocks.2
  · rintro ⟨result, fills, b', ref', hbook, href⟩
    obtain ⟨refused, b'', hbook', -⟩ := hrep.submitsTo buyFive
    have hload : ReferenceMatcher.ofBook b = wrappedMatcher := by
      have hshows := hrep
      obtain ⟨l, fl, fo, hshows⟩ := hshows
      unfold ReferenceMatcher.ofBook
      rw [hrep.ordersInPriority, ← hshows.nextPriority, ← hshows.fillSequence]
      rfl
    have hmatcher : ∃ r, wrappedMatcher.submit 2 buyFive = some r ∧
        r.2.1 = [⟨3, 2, .buy, 10, 5, 0⟩] := by
      rw [← Option.map_eq_some_iff]
      decide +kernel
    obtain ⟨r, hr, hrfills⟩ := hmatcher
    rw [hload] at href
    have hlater : fills = [⟨3, 2, .buy, 10, 5, 0⟩] :=
      (href.unique ⟨2, hr⟩).2.1.trans hrfills
    have hearlier : fills = [⟨3, 1, .buy, 10, 5, 0⟩] :=
      (hbook.unique hbook').2.1.trans (by cases refused <;> decide +kernel)
    rw [hlater] at hearlier
    exact absurd hearlier (by decide)

end OrderBook

end MarketEngine
