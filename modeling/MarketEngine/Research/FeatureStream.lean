import Mathlib.Data.List.Destutter
import MarketEngine.Book.Exhaustion
import MarketEngine.Book.MultiSymbol
import MarketEngine.Book.Sweep
import MarketEngine.Kit.Feed
import MarketEngine.Research.QueueExact

/-! # The feature stream of one symbol

`itch_features` replays one symbol and writes a row whenever the top of the book
has changed. Nothing of the top is lost: at any moment the last row that is
written shows it.
-/

namespace MarketEngine.Research

open OrderBook

variable {c : Capacity} {σ : Type} {events : List MarketDataEvent} {book : OrderBook c}

/-! ## The loop -/

/-- The local variables of the loop, and the rows that it has written. -/
structure FeatureStream (c : Capacity) where
  book : OrderBook c
  previous : L1Row := {}
  havePrevious : Bool := false
  decoded : ℕ := 0
  rows : List L1Row := []

namespace FeatureStream

def start (c : Capacity) : FeatureStream c where
  book := fresh c

/-- One event of the symbol. -/
def pass (t : FeatureStream c) (event : MarketDataEvent) : FeatureStream c :=
  let decoded := t.decoded + 1
  let book := (t.book.processEvent event).2
  let row := l1Row event.sequence event.exchangeTimestampNs book
  if !t.havePrevious || l1Changed t.previous row then
    { book, previous := row, havePrevious := true, decoded, rows := t.rows ++ [row] }
  else { t with book, decoded }

/-- The loop over a connector; `locate` is the symbol. -/
def loop (connector : Feed σ MarketDataEvent) (s : σ) (c : Capacity) (locate : SymbolId)
    (maxEvents : ℕ) : FeatureStream c × σ :=
  connector.consume (fun t event =>
    if event.symbol = locate then
      let t := t.pass event
      (t, maxEvents ≠ 0 && maxEvents ≤ t.decoded)
    else (t, false)) (start c) s

/-- The events that the loop applies. -/
def applied (connector : Feed σ MarketDataEvent) (s : σ) (locate : SymbolId) (maxEvents : ℕ) :
    List MarketDataEvent :=
  Feed.upTo maxEvents (MultiSymbolBook.onSymbol locate (connector.drain s).1)

variable {t : FeatureStream c} {event : MarketDataEvent} {row : L1Row}

@[simp] theorem pass_book : (t.pass event).book = (t.book.processEvent event).2 := by
  unfold pass
  dsimp only
  split_ifs <;> rfl

@[simp] theorem pass_decoded : (t.pass event).decoded = t.decoded + 1 := by
  unfold pass
  dsimp only
  split_ifs <;> rfl

@[simp] theorem foldl_pass_book : (events.foldl pass t).book = t.book.processAll events := by
  induction events generalizing t with
  | nil => rfl
  | cons event events ih =>
    rw [List.foldl_cons, ih, pass_book]
    rfl

theorem loop_eq (connector : Feed σ MarketDataEvent) (s : σ) (c : Capacity) (locate : SymbolId)
    (maxEvents : ℕ) : (loop connector s c locate maxEvents).1 =
      (applied connector s locate maxEvents).foldl pass (start c) := by
  have hskip := Feed.foldUntil_filter
    (fun (t : FeatureStream c) event =>
      (t.pass event, maxEvents ≠ 0 && maxEvents ≤ (t.pass event).decoded))
    (fun event => event.symbol = locate) (start c) (connector.drain s).1
  simp only [decide_eq_true_eq] at hskip
  rw [loop, Feed.consume_eq, hskip]
  exact Feed.foldUntil_limit decoded (fun _ _ => pass_decoded) maxEvents Nat.pos_of_ne_zero _

/-! ## Rows and changes -/

/-- The rows show different tops. -/
def Changed (a b : L1Row) : Prop := l1Changed a b = true

instance (a b : L1Row) : Decidable (Changed a b) := inferInstanceAs (Decidable (_ = true))

/-- The top of the book behind each of the events. -/
def snapshots (book : OrderBook c) : List MarketDataEvent → List L1Row
  | [] => []
  | event :: events =>
    let book := (book.processEvent event).2
    l1Row event.sequence event.exchangeTimestampNs book :: snapshots book events

/-- Once there is a row the loop writes what differs from the last one. -/
theorem rows_of_previous (h : t.havePrevious = true) (events : List MarketDataEvent) :
    t.previous :: (events.foldl pass t).rows.drop t.rows.length =
        (snapshots t.book events).destutter' Changed t.previous ∧
      t.rows <+: (events.foldl pass t).rows := by
  induction events generalizing t with
  | nil => simp [snapshots]
  | cons event events ih =>
    let row := l1Row event.sequence event.exchangeTimestampNs (t.book.processEvent event).2
    by_cases hchanged : Changed t.previous row
    · have hpass : t.pass event = ⟨(t.book.processEvent event).2, row, true, t.decoded + 1,
          t.rows ++ [row]⟩ := if_pos (by rw [Bool.or_eq_true]; exact .inr hchanged)
      obtain ⟨hrows, hprefix⟩ := ih (t := t.pass event) (by rw [hpass])
      rw [hpass] at hrows hprefix
      rw [List.foldl_cons, hpass, snapshots, List.destutter'_cons_pos _ hchanged]
      obtain ⟨later, hlater⟩ := hprefix
      rw [← hlater] at hrows ⊢
      refine ⟨?_, ⟨row :: later, by simp⟩⟩
      simpa using hrows
    · have hpass : t.pass event = { t with
          book := (t.book.processEvent event).2, decoded := t.decoded + 1 } := by
        refine if_neg fun hor => ?_
        rw [h, Bool.not_true, Bool.false_or] at hor
        exact hchanged hor
      obtain ⟨hrows, hprefix⟩ := ih (t := t.pass event) (by rw [hpass]; exact h)
      rw [hpass] at hrows hprefix
      rw [List.foldl_cons, hpass, snapshots, List.destutter'_cons_neg _ hchanged]
      exact ⟨hrows, hprefix⟩

/-- The rows are the snapshots without repetitions. -/
theorem rows_eq (c : Capacity) (events : List MarketDataEvent) :
    (events.foldl pass (start c)).rows = (snapshots (fresh c) events).destutter Changed := by
  cases events with
  | nil => rfl
  | cons event events =>
    obtain ⟨hrows, later, hlater⟩ := rows_of_previous (t := (start c).pass event) rfl events
    rw [List.foldl_cons, snapshots, List.destutter_cons']
    rw [← hlater] at hrows ⊢
    simpa [pass, start] using hrows

/-! ## What a row shows -/

/-- A side is there exactly when its size is not 0. -/
def Sided (row : L1Row) : Prop := row.twoSided = (row.bidSz ≠ 0 && row.askSz ≠ 0)

theorem not_changed_iff {a b : L1Row} : ¬Changed a b ↔
    a.bidPx = b.bidPx ∧ a.bidSz = b.bidSz ∧ a.askPx = b.askPx ∧ a.askSz = b.askSz := by
  simp [Changed, l1Changed, and_assoc]

@[simp] theorem l1Row_sequence (sequence timestampNs : UInt64) (book : OrderBook c) :
    (l1Row sequence timestampNs book).sequence = sequence := by
  unfold l1Row
  cases book.bestBid <;> cases book.bestAsk <;> rfl

@[simp] theorem l1Row_timestampNs (sequence timestampNs : UInt64) (book : OrderBook c) :
    (l1Row sequence timestampNs book).timestampNs = timestampNs := by
  unfold l1Row
  cases book.bestBid <;> cases book.bestAsk <;> rfl

/-- Neither the sequence nor the time is part of the top. -/
theorem not_changed_l1Row (sequence timestampNs sequence' timestampNs' : UInt64)
    (book : OrderBook c) :
    ¬Changed (l1Row sequence timestampNs book) (l1Row sequence' timestampNs' book) := by
  rw [not_changed_iff]
  unfold l1Row
  cases book.bestBid <;> cases book.bestAsk <;> simp

/-- A row is the one row of its top, its sequence and its time. -/
theorem eq_of_not_changed {row : L1Row} (hsame : ¬Changed row (l1Row 0 0 book))
    (hrow : Sided row)
    (hbook : ∀ sequence timestampNs, Sided (l1Row sequence timestampNs book)) :
    l1Row row.sequence row.timestampNs book = row := by
  obtain ⟨hbid, hbidSz, hask, haskSz⟩ := not_changed_iff.mp hsame
  obtain ⟨hbid', hbidSz', hask', haskSz'⟩ := not_changed_iff.mp
    (not_changed_l1Row row.sequence row.timestampNs 0 0 book)
  have hsided : (l1Row row.sequence row.timestampNs book).twoSided = row.twoSided := by
    rw [hrow, hbook, hbidSz', haskSz', hbidSz, haskSz]
  exact (L1Row.mk.injEq ..).mpr ⟨l1Row_sequence _ _ _, l1Row_timestampNs _ _ _,
    hbid'.trans hbid.symm, hbidSz'.trans hbidSz.symm, hask'.trans hask.symm,
    haskSz'.trans haskSz.symm, hsided⟩

/-- On an ITCH feed no total wraps to 0. -/
theorem totalQuantity_ne_zero (hitch : ∀ event ∈ events, FromItch event) {level : LevelView}
    (hlevel : level ∈ ((fresh c).processAll events).levelViews) : level.totalQuantity ≠ 0 := by
  obtain ⟨a, hrep, hresting⟩ := Following.processAll_fromItch (c := c) hitch
  have htidy := hrep.tidy
    (keepsLists_processAll fun event he => (hitch event he).type).keepsOrders.hasQuantities
  rw [hrep.levelViews, mem_levels] at hlevel
  obtain ⟨hkey, hview⟩ := hlevel
  obtain ⟨o, ho, hokey⟩ := List.mem_map.mp hkey
  have hmem : o ∈ a.resting.filter fun o => o.key = level.key :=
    List.mem_filter.mpr ⟨ho, by simpa using hokey⟩
  have htotal : level.totalQuantity.toNat =
      ((a.resting.filter fun o => o.key = level.key).map (·.quantity.toNat)).sum := by
    rw [← hview]
    refine (toNat_sum_quantity _).trans (Nat.mod_eq_of_lt ?_)
    have hlength := (List.length_filter_le (fun o => o.key = level.key) a.resting).trans
      (hrep.length_le.trans c.le)
    have hsum : ((a.resting.filter fun o => o.key = level.key).map (·.quantity.toNat)).sum ≤
        (a.resting.filter fun o => o.key = level.key).length * (2 ^ 32 - 1) := by
      refine (List.sum_le_card_nsmul _ (2 ^ 32 - 1) fun q hq => ?_).trans_eq
        (by rw [List.length_map, nsmul_eq_mul, Nat.cast_id])
      obtain ⟨o, ho, rfl⟩ := List.mem_map.mp hq
      exact Nat.le_sub_one_of_lt (hresting o (List.mem_filter.mp ho).1).1
    have := Nat.mul_le_mul_right (2 ^ 32 - 1) hlength
    norm_num [npos] at *
    omega
  intro hzero
  rw [hzero] at htotal
  have hle := List.single_le_sum (by simp) _ (List.mem_map_of_mem (f := (·.quantity.toNat)) hmem)
  rw [← htotal] at hle
  exact htidy.quantity o ho (UInt64.toNat_inj.mp (Nat.le_zero.mp hle))

theorem mem_levelViews_of_touch {a : PriceTimeBook} (h : Represents book a) {side : Side}
    {level : LevelView} (htouch : book.touch side = some level) : level ∈ book.levelViews := by
  rw [h.levelViews]
  cases side with
  | buy => exact List.mem_of_find?_eq_some (h.bestAsk.symm.trans htouch)
  | sell => exact List.mem_of_find?_eq_some (h.bestBid.symm.trans htouch)

theorem l1Row_sided (hitch : ∀ event ∈ events, FromItch event) (sequence timestampNs : UInt64) :
    Sided (l1Row sequence timestampNs ((fresh c).processAll events)) := by
  obtain ⟨a, hrep, -⟩ := Following.processAll_fromItch (c := c) hitch
  have htouch : ∀ side level, ((fresh c).processAll events).touch side = some level →
      level.totalQuantity ≠ 0 := fun side level hside =>
    totalQuantity_ne_zero hitch (mem_levelViews_of_touch hrep hside)
  unfold Sided l1Row
  cases hb : ((fresh c).processAll events).bestBid with
  | none => cases ((fresh c).processAll events).bestAsk <;> simp
  | some bid =>
    cases ha : ((fresh c).processAll events).bestAsk with
    | none => simp
    | some ask => simp [htouch .sell bid hb, htouch .buy ask ha]

theorem snapshots_sided (past : List MarketDataEvent)
    (hitch : ∀ event ∈ past ++ events, FromItch event) :
    ∀ row ∈ snapshots ((fresh c).processAll past) events, Sided row := by
  induction events generalizing past with
  | nil => simp [snapshots]
  | cons event events ih =>
    have hnext : (((fresh c).processAll past).processEvent event).2 =
        (fresh c).processAll (past ++ [event]) := by
      rw [processAll_append]
      rfl
    rw [List.append_cons] at hitch
    rintro row hrow
    rw [snapshots, hnext] at hrow
    rcases List.mem_cons.mp hrow with rfl | hrow
    · exact l1Row_sided (fun e he => hitch e (List.mem_append_left _ he)) _ _
    · exact ih _ hitch row hrow

/-- The last row shows the top of the book. -/
structure Shows (t : FeatureStream c) : Prop where
  previous : t.havePrevious = true
  last : t.rows.getLast? = some t.previous
  top : ¬Changed t.previous (l1Row 0 0 t.book)

theorem Shows.pass (h : t.havePrevious = true → Shows t) (event : MarketDataEvent) :
    Shows (t.pass event) ∧ t.rows <+: (t.pass event).rows := by
  unfold FeatureStream.pass
  dsimp only
  split_ifs with hwrites
  · exact ⟨⟨rfl, by simp, not_changed_l1Row _ _ _ _ _⟩, List.prefix_append _ _⟩
  · rw [Bool.or_eq_true, not_or, Bool.not_eq_true', Bool.not_eq_false] at hwrites
    obtain ⟨hprevious, hlast, -⟩ := h hwrites.1
    refine ⟨⟨hprevious, hlast, ?_⟩, List.prefix_rfl⟩
    have hkept := not_changed_iff.mp hwrites.2
    have htop := not_changed_iff.mp (not_changed_l1Row event.sequence event.exchangeTimestampNs 0 0
      (t.book.processEvent event).2)
    rw [not_changed_iff]
    exact ⟨hkept.1.trans htop.1, hkept.2.1.trans htop.2.1, hkept.2.2.1.trans htop.2.2.1,
      hkept.2.2.2.trans htop.2.2.2⟩

theorem rows_grow (h : t.havePrevious = true → Shows t) (events : List MarketDataEvent) :
    t.rows <+: (events.foldl pass t).rows := by
  induction events generalizing t with
  | nil => exact List.prefix_rfl
  | cons event events ih =>
    obtain ⟨hnext, hprefix⟩ := Shows.pass h event
    exact hprefix.trans (ih fun _ => hnext)

theorem foldl_shows (past : List MarketDataEvent) (hpast : past ≠ []) :
    Shows (past.foldl pass (start c)) := by
  induction past using List.reverseRecOn with
  | nil => exact absurd rfl hpast
  | append_singleton past event ih =>
    rw [List.foldl_append]
    refine (Shows.pass (fun hprevious => ih ?_) event).1
    rintro rfl
    cases hprevious

/-- No two rows in a row show one top, and after any of the events the last row so far shows the
top of the book, however the feed goes on. -/
theorem features_show_top (connector : Feed σ MarketDataEvent) (s : σ) (c : Capacity)
    (locate : SymbolId) (maxEvents : ℕ)
    (hitch : ∀ event ∈ applied connector s locate maxEvents, FromItch event) :
    let rows := (loop connector s c locate maxEvents).1.rows
    rows.IsChain Changed ∧
      ∀ past, past <+: applied connector s locate maxEvents → past ≠ [] →
        (past.foldl pass (start c)).rows <+: rows ∧
        ∃ row, (past.foldl pass (start c)).rows.getLast? = some row ∧
          l1Row row.sequence row.timestampNs ((fresh c).processAll past) = row := by
  rintro rows
  have hrows : rows = ((applied connector s locate maxEvents).foldl pass (start c)).rows :=
    congrArg FeatureStream.rows (loop_eq connector s c locate maxEvents)
  constructor
  · rw [hrows, rows_eq]
    exact List.isChain_destutter Changed _
  · rintro past ⟨later, hlater⟩ hpast
    have hshows := foldl_shows (c := c) past hpast
    rw [hrows, ← hlater, List.foldl_append]
    refine ⟨rows_grow (fun _ => hshows) later, _, hshows.last, ?_⟩
    have hpast' : ∀ event ∈ past, FromItch event := fun event he =>
      hitch event (hlater ▸ List.mem_append_left later he)
    have hprevious : Sided (past.foldl pass (start c)).previous := by
      have hmem := List.mem_of_getLast? hshows.last
      rw [rows_eq] at hmem
      exact snapshots_sided [] hpast' _ ((List.destutter_sublist Changed _).mem hmem)
    have htop := hshows.top
    rw [foldl_pass_book] at htop
    exact eq_of_not_changed htop hprevious (l1Row_sided hpast')

/-- A second bid that is worse than the first, and then a better one. -/
def threeBidFeed : List MarketDataEvent :=
  [{ sequence := 1, type := .add, symbol := 7, orderId := 1, priceTicks := 10, quantity := 5 },
    { sequence := 2, type := .add, symbol := 7, orderId := 2, priceTicks := 9, quantity := 5 },
    { sequence := 3, type := .add, symbol := 8, orderId := 3, priceTicks := 12, quantity := 5 },
    { sequence := 4, type := .add, symbol := 7, orderId := 4, priceTicks := 11, quantity := 5 }]

theorem three_bids_shown :
    let rows := (loop (Feed.list _) threeBidFeed .three 7 0).1.rows
    rows.IsChain Changed ∧
      ∀ past, past <+: applied (Feed.list _) threeBidFeed 7 0 → past ≠ [] →
        (past.foldl pass (start .three)).rows <+: rows ∧
        ∃ row, (past.foldl pass (start .three)).rows.getLast? = some row ∧
          l1Row row.sequence row.timestampNs ((fresh .three).processAll past) = row := by
  refine features_show_top _ _ _ _ _ ?_
  rintro event hevent
  rw [applied, Feed.drain_list] at hevent
  have hmem : event ∈ threeBidFeed := List.mem_of_mem_filter ((Feed.upTo_prefix _ _).mem hevent)
  simp only [threeBidFeed, List.mem_cons, List.not_mem_nil, or_false] at hmem
  rcases hmem with rfl | rfl | rfl | rfl <;> exact ⟨by decide, by decide⟩

end FeatureStream

end MarketEngine.Research
