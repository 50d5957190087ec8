import MarketEngine.Book.FillOrKill
import MarketEngine.Book.Sweep

/-! # Reports as a feed

What match mode reports, the fills with their makers, what rests and what is
canceled, is a feed that apply mode can read. It leads to the same book, down to
the pools, the free lists and the hash indexes; only the fill counter is not
part of the feed.
-/

namespace MarketEngine

open Transition

variable {c : Capacity} {b b' : OrderBook c} {request : OrderRequest} {event : MarketDataEvent}

/-- The trade of the maker that a fill reports. -/
def Fill.trade (fill : Fill) : MarketDataEvent :=
  { type := .trade, orderId := fill.makerId, side := fill.takerSide.opposite,
    priceTicks := fill.priceTicks, quantity := fill.quantity }

/-- What the result of a request adds to the feed. -/
def OrderRequest.entry (request : OrderRequest) (result : SubmitResult) (fills : List Fill) :
    List MarketDataEvent :=
  if result = .canceled then [{ type := .cancel, orderId := request.id }]
  else if result.rests then
    [{ type := .add, orderId := request.id, side := request.side,
       priceTicks := request.priceTicks,
       quantity := request.quantity - (fills.map Fill.quantity).sum }]
  else []

/-- A request with its result and its fills. -/
structure SubmitReport where
  request : OrderRequest
  result : SubmitResult
  fills : List Fill

/-- What a report adds to the feed. -/
def SubmitReport.feed (report : SubmitReport) : List MarketDataEvent :=
  report.fills.map Fill.trade ++ report.request.entry report.result report.fills

namespace OrderBook

/-! ## The fill counter -/

/-- The same book with another fill counter. -/
def numbered (b : OrderBook c) (sequence : UInt64) : OrderBook c :=
  { b with fillSequence := sequence }

variable (b) (s : UInt64)

theorem unlink_numbered (i : Index c) : (b.numbered s).unlink i = (b.unlink i).numbered s := by
  unfold unlink
  cases hℓ : (b.orders.get i).level with
  | none => simp only [numbered, hℓ]
  | some ℓ =>
    have hlevel : ((b.numbered s).orders.get i).level = some ℓ := hℓ
    simp only [hlevel]
    by_cases hc : ((b.detach i ℓ).levels.get ℓ).orderCount = 0
    · have hc' : (((b.numbered s).detach i ℓ).levels.get ℓ).orderCount = 0 := hc
      rw [if_pos hc, if_pos hc']
      unfold releaseLevel ladderRemove setLadder ladder
      have hside : (((b.numbered s).detach i ℓ).levels.get ℓ).side =
        ((b.detach i ℓ).levels.get ℓ).side := rfl
      cases hs : ((b.detach i ℓ).levels.get ℓ).side <;> simp only [hside, hs] <;> rfl
    · have hc' : ¬ (((b.numbered s).detach i ℓ).levels.get ℓ).orderCount = 0 := hc
      rw [if_neg hc, if_neg hc']
      rfl

theorem removed_numbered (i : Index c) (id : OrderId) :
    (b.numbered s).removed i id = (b.removed i id).numbered s := by
  unfold removed
  rw [unlink_numbered]
  rfl

theorem cancel_numbered (id : OrderId) :
    (b.numbered s).cancel id = ((b.cancel id).1, (b.cancel id).2.numbered s) := by
  have hfind : (b.numbered s).findOrderIndex id = b.findOrderIndex id := rfl
  unfold cancel
  rw [hfind]
  cases b.findOrderIndex id with
  | none => rfl
  | some i => exact congrArg (Prod.mk ProcessResult.applied) (removed_numbered b s i id)

theorem insertLevelLookup_numbered (side : Side) (price : Price) (value : Index c) :
    (b.numbered s).insertLevelLookup side price value =
      ((b.insertLevelLookup side price value).1,
        (b.insertLevelLookup side price value).2.numbered s) := by
  unfold insertLevelLookup
  dsimp only [numbered]
  cases ProbeTable.destination b.levelLookup (tableSize c) (levelHome c ⟨side, price⟩) none <;> rfl

theorem insertOrderLookup_numbered (id : OrderId) (value : Index c) :
    (b.numbered s).insertOrderLookup id value =
      ((b.insertOrderLookup id value).1, (b.insertOrderLookup id value).2.numbered s) := by
  unfold insertOrderLookup
  dsimp only [numbered]
  rcases ProbeTable.destination b.orderLookup (tableSize c) (orderHome c id) none with
    (_ | _) | _ <;> rfl

theorem acquireLevel_numbered (side : Side) (price : Price) :
    (b.numbered s).acquireLevel side price =
      ((b.acquireLevel side price).1, (b.acquireLevel side price).2.numbered s) := by
  have hfind : (b.numbered s).findLevelIndex side price = b.findLevelIndex side price := rfl
  have hfree : (b.numbered s).freeLevel = b.freeLevel := rfl
  unfold acquireLevel
  rw [hfind, hfree]
  cases b.findLevelIndex side price with
  | some existing => rfl
  | none =>
    cases b.freeLevel with
    | none => rfl
    | some index =>
      have htake : (b.numbered s).takeLevelSlot index side price =
        (b.takeLevelSlot index side price).numbered s := rfl
      dsimp only
      rw [htake, insertLevelLookup_numbered]
      rcases (b.takeLevelSlot index side price).insertLevelLookup side price index with
        ⟨_ | _, b'⟩
      · rfl
      · dsimp only
        unfold ladderPush setLadder ladder
        cases side <;> rfl

theorem restOrder_numbered (id : OrderId) (side : Side) (price : Price) (q : Quantity) :
    (b.numbered s).restOrder id side price q =
      ((b.restOrder id side price q).1, (b.restOrder id side price q).2.numbered s) := by
  have hfind : (b.numbered s).findOrderIndex id = b.findOrderIndex id := rfl
  have hfree : (b.numbered s).freeOrder = b.freeOrder := rfl
  unfold restOrder
  rw [hfind, hfree, acquireLevel_numbered]
  split
  · rfl
  · split
    · rfl
    · cases b.freeOrder with
      | none => rfl
      | some i =>
        dsimp only
        rcases b.acquireLevel side price with ⟨_ | ℓ, b'⟩
        · rfl
        · have hlink : ((b'.numbered s).takeOrderSlot i id side price q ℓ).linkTail i ℓ =
            ((b'.takeOrderSlot i id side price q ℓ).linkTail i ℓ).numbered s := rfl
          dsimp only
          rw [hlink, insertOrderLookup_numbered]
          rcases ((b'.takeOrderSlot i id side price q ℓ).linkTail i ℓ).insertOrderLookup id i with
            ⟨_ | _, b''⟩
          · dsimp only
            rw [unlink_numbered]
            rfl
          · rfl

theorem modify_numbered (event : MarketDataEvent) :
    (b.numbered s).modify event = ((b.modify event).1, (b.modify event).2.numbered s) := by
  have hfind : (b.numbered s).findOrderIndex event.orderId = b.findOrderIndex event.orderId := rfl
  unfold modify
  rw [hfind]
  split
  · rfl
  · cases b.findOrderIndex event.orderId with
    | none => rfl
    | some i =>
      have horder : (b.numbered s).orders.get i = b.orders.get i := rfl
      have hlevel : (b.numbered s).findLevelIndex event.side event.priceTicks =
        b.findLevelIndex event.side event.priceTicks := rfl
      have hfree : (b.numbered s).freeLevel = b.freeLevel := rfl
      have hlevels : (b.numbered s).levels = b.levels := rfl
      dsimp only
      rw [unlink_numbered, acquireLevel_numbered, horder, hlevel, hfree, hlevels]
      split
      · rfl
      · split
        · rfl
        · rcases (b.unlink i).acquireLevel event.side event.priceTicks with ⟨_ | ℓ, b'⟩ <;> rfl

theorem trade_numbered (id : OrderId) (q : Quantity) :
    (b.numbered s).trade id q = ((b.trade id q).1, (b.trade id q).2.numbered s) := by
  have hfind : (b.numbered s).findOrderIndex id = b.findOrderIndex id := rfl
  unfold trade
  rw [hfind, cancel_numbered]
  split
  · rfl
  · cases b.findOrderIndex id with
    | none => rfl
    | some i =>
      have horder : (b.numbered s).orders.get i = b.orders.get i := rfl
      dsimp only
      rw [horder]
      split
      · rfl
      · split <;> rfl

theorem replace_numbered (event : MarketDataEvent) :
    (b.numbered s).replace event = ((b.replace event).1, (b.replace event).2.numbered s) := by
  have hfind : ∀ id, (b.numbered s).findOrderIndex id = b.findOrderIndex id := fun _ => rfl
  unfold replace
  rw [hfind, hfind, cancel_numbered]
  split
  · rfl
  · cases b.findOrderIndex event.orderId with
    | none => rfl
    | some i =>
      dsimp only
      split
      · rfl
      · exact restOrder_numbered _ s _ _ _ _

/-- No event reads the fill counter. -/
theorem processEvent_numbered (event : MarketDataEvent) :
    (b.numbered s).processEvent event =
      ((b.processEvent event).1, (b.processEvent event).2.numbered s) := by
  unfold processEvent
  cases event.type with
  | add => exact restOrder_numbered b s _ _ _ _
  | modify => exact modify_numbered b s event
  | cancel => exact cancel_numbered b s _
  | trade | reduce => exact trade_numbered b s _ _
  | replace => exact replace_numbered b s event

/-! ## One fill -/

/-- Every event is applied. -/
def Applies (b : OrderBook c) (events : List MarketDataEvent) (b' : OrderBook c) : Prop :=
  Run (fun b event b' => b.processEvent event = (.applied, b')) b events b'

end OrderBook

namespace Matching

open OrderBook

variable {m m' : Matching c} {t : Trading} {p : Price} {i ℓ : Index c}
  {l fl fo rest : List (Index c)} {fuel : ℕ}

/-- A pass of the inner loop is the trade that its fill reports. -/
theorem fillMaker_trade (request : OrderRequest) (p : Price)
    (hfind : m.book.findOrderIndex (m.book.orders.get i).id = some i)
    (hlevel : (m.book.orders.get i).level = some ℓ) (hremaining : m.remaining ≠ 0)
    (hquantity : (m.book.orders.get i).quantity ≠ 0) (s : UInt64) :
    (m.book.numbered s).trade (m.book.orders.get i).id (m.traded i) =
      (.applied, (m.fillMaker request p ℓ i).book.numbered s) := by
  have htraded : m.traded i ≠ 0 ∧ ¬ m.traded i > (m.book.orders.get i).quantity := by
    unfold traded
    rcases Trading.min_cases m.remaining (m.book.orders.get i).quantity with
      ⟨hle, hmin⟩ | ⟨-, hmin⟩
    · rw [hmin]
      exact ⟨hremaining, UInt64.not_lt.mpr hle⟩
    · rw [hmin]
      exact ⟨hquantity, UInt64.lt_irrefl _⟩
  have hfind' : (m.book.numbered s).findOrderIndex (m.book.orders.get i).id = some i := hfind
  have horder : (m.book.numbered s).orders.get i = m.book.orders.get i := rfl
  unfold OrderBook.trade
  rw [if_neg htraded.1, hfind']
  dsimp only
  rw [horder, if_neg htraded.2, hlevel]
  by_cases hwhole : m.traded i = (m.book.orders.get i).quantity
  · rw [if_pos hwhole, fillMaker_whole_book hwhole, cancel_numbered, cancel_eq hfind]
    have hremoved := removed_numbered m.book (m.book.fillSequence + 1) i (m.book.orders.get i).id
    have hsame := congrArg (fun b : OrderBook c => (ProcessResult.applied, b.numbered s)) hremoved
    exact hsame.symm
  · rw [if_neg hwhole]
    simp only [fillMaker, if_neg hwhole]
    rfl

/-! ## The loops -/

/-- What stays true from fill to fill. -/
structure Tracks (m : Matching c) (l : List (Index c)) : Prop where
  follows : ∃ t fl fo, Follows m t l fl fo
  quantities : m.book.HasQuantities

/-- The fills from `m` to `m'` are trades that lead from one book to the other. -/
def Feeds (m m' : Matching c) : Prop :=
  ∃ fills, m'.fills = m.fills ++ fills ∧
    ∀ s, (m.book.numbered s).Applies (fills.map Fill.trade) (m'.book.numbered s)

theorem Feeds.refl (m : Matching c) : Feeds m m := ⟨[], (List.append_nil _).symm, fun _ => .start⟩

theorem Feeds.trans {m'' : Matching c} (h : Feeds m m') (h' : Feeds m' m'') : Feeds m m'' := by
  obtain ⟨fills, hfills, happlies⟩ := h
  obtain ⟨fills', hfills', happlies'⟩ := h'
  refine ⟨fills ++ fills', ?_, fun s => ?_⟩
  · rw [hfills', hfills, List.append_assoc]
  · rw [List.map_append]
    exact (happlies s).trans (happlies' s)

/-- The first order of the best level, one fill later. -/
theorem Tracks.fill (h : Tracks m l) (hbest : BestLevel m.book request p l ℓ)
    (hq : m.book.fifo l ℓ = i :: rest) (hremaining : m.remaining ≠ 0) :
    Feeds m (m.fillMaker request p ℓ i) ∧
      if m.traded i = (m.book.orders.get i).quantity then
        ∃ l', Tracks (m.fillMaker request p ℓ i) l' ∧
          BestLevel (m.fillMaker request p ℓ i).book request p l' ℓ ∧
          (m.fillMaker request p ℓ i).book.fifo l' ℓ = rest ∧
          (m.book.orders.get i).next = rest.head?
      else Tracks (m.fillMaker request p ℓ i) l ∧ (m.fillMaker request p ℓ i).remaining = 0 := by
  obtain ⟨t, fl, fo, hfollows⟩ := h.follows
  have hi : i ∈ m.book.fifo l ℓ := by
    rw [hq]
    exact List.mem_cons_self
  obtain ⟨hil, hℓ⟩ := mem_fifo.mp hi
  have hp : p = (m.book.orders.get i).price :=
    (congrArg LevelKey.price ((hbest.level_iff i hil).mp hℓ)).symm
  have hquantities : (m.fillMaker request p ℓ i).book.HasQuantities :=
    hasQuantities_fillMaker h.quantities p ℓ i
  have hfind := hfollows.book.wf.orders.find_eq_some_iff.mpr ⟨hil, rfl⟩
  constructor
  · refine ⟨[_], rfl, fun s => .next .start ?_⟩
    exact fillMaker_trade request p hfind hℓ hremaining
      (h.quantities _ i (ProbeTable.maps_of_lookup hfind)) s
  split
  · next hwhole =>
    obtain ⟨l₁, l₂, rfl, hother⟩ :=
      hfollows.book.wf.orders.split hfollows.book.wf.linked.queues.nodup hil
    obtain ⟨fl', hfollows'⟩ := hfollows.fill_whole request ℓ hother hwhole hp
    have hne : ∀ j ∈ l₁ ++ l₂, j ≠ i := fun j hj => (hother j hj).1
    have hcore : ∀ j, j ≠ i → ((m.fillMaker request p ℓ i).book.orders.get j).core =
        (m.book.orders.get j).core := by
      intro j hj
      rw [fillMaker_whole_book hwhole]
      exact removed_order_of_ne hj
    have hactive := (hfollows.book.wf.linked.queues.level_active hil hℓ).1
    refine ⟨l₁ ++ l₂, ⟨⟨_, fl', _, hfollows'⟩, hquantities⟩,
      hbest.mono (fun k hk => by grind) fun k hk => hcore k (hne k hk), ?_,
      (hfollows.book.wf.linked.queues.queued ℓ hactive).next_head hq⟩
    rw [← fifo_without_head hne hq]
    exact fifo_congr fun j hj => (congrArg Order.level (hcore j (hne j hj)) :)
  · next hpart =>
    obtain ⟨hfollows', hzero⟩ := hfollows.fill_part request hil hℓ hpart hp
    exact ⟨⟨⟨_, fl, fo, hfollows'⟩, hquantities⟩, hzero⟩

theorem fillLevel_done (hzero : m.remaining = 0) {o : Option (Index c)}
    (h : fillLevel request p ℓ fuel o m = some m') : m' = m := by
  cases fuel with
  | zero => cases h
  | succ fuel =>
    unfold fillLevel at h
    cases o with
    | none => exact (Option.some.inj h).symm
    | some i =>
      dsimp only at h
      rw [if_pos hzero] at h
      exact (Option.some.inj h).symm

/-- The fills of the inner loop are trades. -/
theorem Tracks.fillLevel (h : Tracks m l) (hbest : BestLevel m.book request p l ℓ)
    (hfill : fillLevel request p ℓ fuel (m.book.fifo l ℓ).head? m = some m') :
    Feeds m m' ∧ ∃ l', Tracks m' l' := by
  induction fuel generalizing m l with
  | zero => cases hfill
  | succ fuel ih =>
    by_cases hzero : m.remaining = 0
    · rw [fillLevel_done hzero hfill]
      exact ⟨.refl m, l, h⟩
    cases hq : m.book.fifo l ℓ with
    | nil =>
      rw [hq] at hfill
      obtain rfl := Option.some.inj hfill
      exact ⟨.refl _, l, h⟩
    | cons i rest =>
      rw [hq, List.head?_cons, Matching.fillLevel, if_neg hzero] at hfill
      obtain ⟨hfeeds, hnext⟩ := h.fill hbest hq hzero
      split at hnext
      · next hwhole =>
        obtain ⟨l', htracks, hbest', hqueue, hhead⟩ := hnext
        dsimp only at hfill
        rw [if_pos hwhole, hhead, ← hqueue] at hfill
        obtain ⟨hfeeds', htracks'⟩ := ih htracks hbest' hfill
        exact ⟨hfeeds.trans hfeeds', htracks'⟩
      · rw [fillLevel_done hnext.2 hfill]
        exact ⟨hfeeds, l, hnext.1⟩

/-- The fills of the outer loop are trades. -/
theorem Tracks.matchLoop (h : Tracks m l) (hloop : matchLoop request fuel m = some m') :
    Feeds m m' ∧ ∃ l', Tracks m' l' := by
  induction fuel generalizing m l with
  | zero => cases hloop
  | succ fuel ih =>
    unfold Matching.matchLoop at hloop
    by_cases hzero : m.remaining = 0
    · rw [if_pos hzero] at hloop
      obtain rfl := Option.some.inj hloop
      exact ⟨.refl _, l, h⟩
    rw [if_neg hzero] at hloop
    cases htop : m.book.ladderTop request.side.opposite with
    | none =>
      rw [htop] at hloop
      obtain rfl := Option.some.inj hloop
      exact ⟨.refl _, l, h⟩
    | some ℓ =>
      rw [htop] at hloop
      dsimp only at hloop
      by_cases hcross : request.crosses (m.book.levels.get ℓ).price = true
      · rw [if_pos hcross] at hloop
        obtain ⟨t, fl, fo, hfollows⟩ := h.follows
        have hactive := (hfollows.book.ladderTop_some htop).1
        rw [(hfollows.book.wf.linked.queues.queued ℓ hactive).links.head_eq] at hloop
        split at hloop
        · cases hloop
        · next m₁ hfill =>
          obtain ⟨hfeeds, l₁, htracks⟩ := h.fillLevel (hfollows.book.bestLevel htop hcross) hfill
          obtain ⟨hfeeds', htracks'⟩ := ih htracks hloop
          exact ⟨hfeeds.trans hfeeds', htracks'⟩
      · rw [if_neg hcross] at hloop
        obtain rfl := Option.some.inj hloop
        exact ⟨.refl _, l, h⟩

end Matching

/-! ## Requests -/

namespace OrderBook

variable {a : PriceTimeBook} {t : Trading} {m : Matching c} {result : SubmitResult}
  {fills : List Fill}

/-- Requests with their results and fills, with no level key refused on the way. -/
def Session (b : OrderBook c) (reports : List SubmitReport) (b' : OrderBook c) : Prop :=
  Run (Guarded (fun b report => ¬ b.Refuses (.submit report.request))
    fun b report b' => b.SubmitsTo report.request report.result report.fills b') b reports b'

end OrderBook

end MarketEngine
