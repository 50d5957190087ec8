import MarketEngine.Book.MultiSymbol
import MarketEngine.Book.Parts
import MarketEngine.Kit.Feed
import MarketEngine.Kit.KeyedSum

/-! # The two modes of a replay

`itch_replay` feeds one book with all symbols, or a book for each symbol. While
no book is exhausted and every order id is of one symbol, the modes count alike,
and the book of a symbol has the orders of the one book that are of this symbol.
-/

namespace MarketEngine

open Transition

variable {c c' : Capacity} {n : ℕ} {β σ : Type} {b : OrderBook c} {a : PriceTimeBook}
  {event : MarketDataEvent} {events : List MarketDataEvent}

structure Counts where
  decoded : ℕ := 0
  applied : ℕ := 0
  rejected : ℕ := 0
  peakOrders : ℕ := 0
  deriving DecidableEq

namespace Counts

/-- One more event with this result. -/
def note (counts : Counts) (result : ProcessResult) : Counts :=
  let counts := { counts with decoded := counts.decoded + 1 }
  if result = .applied then { counts with applied := counts.applied + 1 }
  else { counts with rejected := counts.rejected + 1 }

/-- The book holds so many orders now. -/
def peak (counts : Counts) (orderCount : ℕ) : Counts :=
  if orderCount > counts.peakOrders then { counts with peakOrders := orderCount } else counts

@[simp] theorem note_decoded (counts : Counts) (result : ProcessResult) :
    (counts.note result).decoded = counts.decoded + 1 := by
  unfold note
  split_ifs <;> rfl

@[simp] theorem note_applied (counts : Counts) (result : ProcessResult) :
    (counts.note result).applied = counts.applied + if result = .applied then 1 else 0 := by
  unfold note
  split_ifs <;> rfl

@[simp] theorem note_rejected (counts : Counts) (result : ProcessResult) :
    (counts.note result).rejected = counts.rejected + if result = .applied then 0 else 1 := by
  unfold note
  split_ifs <;> rfl

@[simp] theorem note_peakOrders (counts : Counts) (result : ProcessResult) :
    (counts.note result).peakOrders = counts.peakOrders := by
  unfold note
  split_ifs <;> rfl

@[simp] theorem peak_decoded (counts : Counts) (k : ℕ) :
    (counts.peak k).decoded = counts.decoded := by
  unfold peak
  split_ifs <;> rfl

@[simp] theorem peak_applied (counts : Counts) (k : ℕ) :
    (counts.peak k).applied = counts.applied := by
  unfold peak
  split_ifs <;> rfl

@[simp] theorem peak_rejected (counts : Counts) (k : ℕ) :
    (counts.peak k).rejected = counts.rejected := by
  unfold peak
  split_ifs <;> rfl

@[simp] theorem peak_peakOrders (counts : Counts) (k : ℕ) :
    (counts.peak k).peakOrders = max counts.peakOrders k := by
  unfold peak
  split_ifs with h
  · exact (Nat.max_eq_right h.le).symm
  · exact (Nat.max_eq_left (Nat.le_of_not_lt h)).symm

end Counts

namespace ItchReplay

/-- One pass: `process` is the call of the book, `look` what is counted of the book behind it. -/
def pass (process : β → MarketDataEvent → ProcessResult × β) (look : β → Counts → Counts)
    (t : Counts × β) (event : MarketDataEvent) : Counts × β :=
  let (result, book) := process t.2 event
  (look book (t.1.note result), book)

/-- The loop of a replay over a connector. -/
def applyLoop (process : β → MarketDataEvent → ProcessResult × β) (look : β → Counts → Counts)
    (connector : Feed σ MarketDataEvent) (s : σ) (book : β) (maxEvents : ℕ) : (Counts × β) × σ :=
  connector.consume (fun t event =>
    let t := pass process look t event
    (t, maxEvents ≠ 0 && maxEvents ≤ t.1.decoded)) ({}, book) s

def applyAll (connector : Feed σ MarketDataEvent) (s : σ) (book : OrderBook c) (maxEvents : ℕ) :
    (Counts × OrderBook c) × σ :=
  applyLoop OrderBook.processEvent (fun book counts => counts.peak book.orderCount) connector s
    book maxEvents

def applyAllSymbols (connector : Feed σ MarketDataEvent) (s : σ) (books : MultiSymbolBook c n)
    (maxEvents : ℕ) : (Counts × MultiSymbolBook c n) × σ :=
  applyLoop MultiSymbolBook.processEvent (fun _ counts => counts) connector s books maxEvents

/-! ## Counting -/

variable {process : β → MarketDataEvent → ProcessResult × β} {look : β → Counts → Counts}

/-- Nothing that is counted of the book touches the other counts. -/
structure Looks (look : β → Counts → Counts) : Prop where
  decoded : ∀ book counts, (look book counts).decoded = counts.decoded
  applied : ∀ book counts, (look book counts).applied = counts.applied
  rejected : ∀ book counts, (look book counts).rejected = counts.rejected

/-- Passes run the machine and count its answers. -/
theorem foldl_pass (process : β → MarketDataEvent → ProcessResult × β) (hlook : Looks look)
    (events : List MarketDataEvent) (counts : Counts) (book : β) :
    (events.foldl (pass process look) (counts, book)).2 = after process book events ∧
      (events.foldl (pass process look) (counts, book)).1.decoded =
        counts.decoded + events.length ∧
      (events.foldl (pass process look) (counts, book)).1.applied =
        counts.applied + (answers process book events).count .applied ∧
      (events.foldl (pass process look) (counts, book)).1.rejected =
        counts.rejected + (answers process book events).countP (· ≠ .applied) := by
  induction events generalizing counts book with
  | nil => simp [after, answers]
  | cons event events ih =>
    obtain ⟨hbook, hdecoded, happlied, hrejected⟩ :=
      ih (pass process look (counts, book) event).1 (process book event).2
    refine ⟨hbook, hdecoded.trans ?_, happlied.trans ?_, hrejected.trans ?_⟩
    · simp only [pass, hlook.decoded, Counts.note_decoded, List.length_cons]
      omega
    · simp only [pass, hlook.applied, Counts.note_applied, answers, List.count_cons, beq_iff_eq]
      omega
    · simp only [pass, hlook.rejected, Counts.note_rejected, answers, List.countP_cons]
      by_cases hresult : (process book event).1 = .applied <;> simp [hresult]
      omega

/-- A replay takes up the events that the connector delivers, up to the limit. -/
theorem applyLoop_eq (hlook : Looks look) (connector : Feed σ MarketDataEvent) (s : σ) (book : β)
    (maxEvents : ℕ) : (applyLoop process look connector s book maxEvents).1 =
      (Feed.upTo maxEvents (connector.drain s).1).foldl (pass process look) ({}, book) := by
  have hcount : ∀ (t : Counts × β) event,
      (pass process look t event).1.decoded = t.1.decoded + 1 := by
    intro t event
    simp [pass, hlook.decoded]
  rw [applyLoop, Feed.consume_eq]
  exact Feed.foldUntil_limit (fun t : Counts × β => t.1.decoded) hcount maxEvents
    Nat.pos_of_ne_zero _

theorem looks_peak : Looks fun (book : OrderBook c) counts => counts.peak book.orderCount where
  decoded _ counts := counts.peak_decoded _
  applied _ counts := counts.peak_applied _
  rejected _ counts := counts.peak_rejected _

theorem looks_not : Looks fun (_ : β) counts => counts where
  decoded _ _ := rfl
  applied _ _ := rfl
  rejected _ _ := rfl

end ItchReplay

/-! ## One event -/

/-- A book that is not exhausted answers as the list of its orders. -/
theorem OrderBook.Represents.view_processEvent (h : OrderBook.Represents b a)
    (hresult : (b.processEvent event).1 ≠ .capacityExhausted) :
    b.view.process event = ((b.processEvent event).1, (b.processEvent event).2.view) ∧
      ∃ a', OrderBook.Represents (b.processEvent event).2 a' := by
  have hkeys : ¬ b.Refuses (.event event) := fun hrefuses =>
    hresult (h.exhausted_of_blocks ((h.refuses_iff_blocks _).mp hrefuses))
  have hanswers : b.Answers (.event event, .processed (b.processEvent event).1)
    (b.processEvent event).2 := rfl
  obtain ⟨hresponse, hrep⟩ := h.answers hkeys hanswers
  rw [h.view_eq, hrep.view_eq, PriceTimeBook.view_process h.nodup_ids]
  exact ⟨Prod.ext (Response.processed.inj hresponse).symm rfl, _, hrep⟩

theorem OrderBook.Represents.view_sorted (h : OrderBook.Represents b a) : b.view.Sorted := by
  rw [h.view_eq]
  exact KeyOrder.Sorted.map (fun _ => rfl) (PriceTimeBook.priority_sorted a)

namespace MultiSymbolBook

variable {m : MultiSymbolBook c' n} {owner : OrderId → SymbolId} {symbol : SymbolId}

/-- The book of a symbol; before its first event it is a fresh one. -/
def bookOrFresh (m : MultiSymbolBook c' n) (symbol : SymbolId) : OrderBook c' :=
  (m.book symbol).getD (OrderBook.fresh c')

/-- The books hold the parts of one book. -/
structure Partitions (owner : OrderId → SymbolId) (b : OrderBook c) (m : MultiSymbolBook c' n) :
    Prop where
  whole : ∃ a, OrderBook.Represents b a
  books : ∀ symbol, ∃ a, OrderBook.Represents (m.bookOrFresh symbol) a
  parts : ∀ symbol, (m.bookOrFresh symbol).view = b.view.part owner symbol c'.val
  tracked : m.Tracked

theorem partitions_empty (owner : OrderId → SymbolId) :
    Partitions owner (OrderBook.fresh c) (empty c' n) where
  whole := ⟨_, OrderBook.fresh_represents c⟩
  books symbol := by
    rw [bookOrFresh, empty_book]
    exact ⟨_, OrderBook.fresh_represents c'⟩
  parts symbol := by
    rw [bookOrFresh, empty_book, Option.getD_none, OrderBook.fresh_view, OrderBook.fresh_view]
    rfl
  tracked := empty_tracked

/-- An event within capacity has one result, and parts of the next book come of the parts. -/
theorem Partitions.processEvent (h : Partitions owner b m)
    (howned : event.OwnedBy owner event.symbol) (hlt : event.symbol.toNat < n)
    (hb : (b.processEvent event).1 ≠ .capacityExhausted)
    (hm : (m.processEvent event).1 ≠ .capacityExhausted) :
    (m.processEvent event).1 = (b.processEvent event).1 ∧
      Partitions owner (b.processEvent event).2 (m.processEvent event).2 := by
  obtain ⟨a, ha⟩ := h.whole
  obtain ⟨a', ha'⟩ := h.books event.symbol
  obtain ⟨hview, hwhole⟩ := ha.view_processEvent hb
  have hresult : (m.processEvent event).1 = ((m.bookOrFresh event.symbol).processEvent event).1 :=
    processEvent_result hlt
  rw [hresult] at hm ⊢
  obtain ⟨hview', hbook⟩ := ha'.view_processEvent hm
  have hm' : ((b.view.part owner event.symbol c'.val).process event).1 ≠ .capacityExhausted := by
    rwa [← h.parts, hview']
  have hb' : (b.view.process event).1 ≠ .capacityExhausted := by rwa [hview]
  have hpart := PriorityBook.part_process ha.view_sorted howned hb' hm'
  rw [← h.parts, hview', hview] at hpart
  have hnext : ∀ symbol, (m.processEvent event).2.bookOrFresh symbol =
      if event.symbol = symbol then ((m.bookOrFresh symbol).processEvent event).2
      else m.bookOrFresh symbol := by
    intro symbol
    rw [bookOrFresh, processEvent_book hlt]
    split_ifs <;> rfl
  refine ⟨congrArg Prod.fst hpart, hwhole, fun symbol => ?_, fun symbol => ?_,
    h.tracked.processEvent event⟩
  · rw [hnext]
    split_ifs with hs
    · subst hs
      exact hbook
    · exact h.books symbol
  · rw [hnext]
    split_ifs with hs
    · subst hs
      exact congrArg Prod.snd hpart
    · have hother := PriorityBook.process_part_of_ne (p := b.view) (n := c'.val) howned hs
      rw [hview] at hother
      rw [h.parts, hother]

/-! ## A list of events -/

/-- The ids of every event are of its symbol, and the symbol has a book. -/
def Routed (owner : OrderId → SymbolId) (maxSymbols : ℕ) (events : List MarketDataEvent) : Prop :=
  ∀ event ∈ events, event.OwnedBy owner event.symbol ∧ event.symbol.toNat < maxSymbols

theorem Partitions.run (h : Partitions owner b m) (hrouted : Routed owner n events)
    (hb : .capacityExhausted ∉ answers OrderBook.processEvent b events)
    (hm : .capacityExhausted ∉ answers MultiSymbolBook.processEvent m events) :
    answers MultiSymbolBook.processEvent m events = answers OrderBook.processEvent b events ∧
      Partitions owner (after OrderBook.processEvent b events)
        (after MultiSymbolBook.processEvent m events) := by
  induction events generalizing b m with
  | nil => exact ⟨rfl, h⟩
  | cons event events ih =>
    obtain ⟨⟨howned, hlt⟩, hrest⟩ := List.forall_mem_cons.mp hrouted
    obtain ⟨hb, hbs⟩ := not_or.mp (mt List.mem_cons.mpr hb)
    obtain ⟨hm, hms⟩ := not_or.mp (mt List.mem_cons.mpr hm)
    obtain ⟨hresult, hnext⟩ := h.processEvent howned hlt (Ne.symm hb) (Ne.symm hm)
    obtain ⟨hresults, hend⟩ := ih hnext hrest hbs hms
    exact ⟨List.cons_eq_cons.mpr ⟨hresult, hresults⟩, hend⟩

theorem view_length (ha : OrderBook.Represents b a) : b.view.orders.length = b.orderCount := by
  rw [ha.view_eq, PriceTimeBook.length_view, ha.orderCount]

/-- Every order is counted in the book of its owner. -/
theorem Partitions.totalOrders (h : Partitions owner b m) : m.totalOrders = b.orderCount := by
  obtain ⟨a, ha⟩ := h.whole
  have hcover : ∀ o ∈ b.view.orders, owner o.id ∈ m.seen := by
    intro o ho
    by_contra hnot
    have hnone : m.book (owner o.id) = none := by
      simpa [h.tracked.mem_iff] using hnot
    have hpart := congrArg PriorityBook.orders (h.parts (owner o.id))
    rw [bookOrFresh, hnone, Option.getD_none, OrderBook.fresh_view] at hpart
    have hmem : o ∈ (b.view.part owner (owner o.id) c'.val).orders :=
      List.mem_filter.mpr ⟨ho, by simp⟩
    rw [← hpart] at hmem
    cases hmem
  rw [totalOrders_eq, ← view_length ha, ← KeyedSum.length_classes h.tracked.nodup hcover]
  refine congrArg List.sum (List.map_congr_left fun symbol hs => ?_)
  obtain ⟨book, hbook⟩ := Option.isSome_iff_exists.mp ((h.tracked.mem_iff symbol).mp hs)
  obtain ⟨a', ha'⟩ := h.books symbol
  have hpart := congrArg (List.length ∘ PriorityBook.orders) (h.parts symbol)
  rw [bookOrFresh, hbook, Option.getD_some] at ha' hpart
  rw [hbook]
  exact (view_length ha').symm.trans hpart

end MultiSymbolBook

/-! ## Whole replays -/

namespace ItchReplay

/-- The largest number of orders behind any of the events. -/
theorem foldl_peak (c : Capacity) (events : List MarketDataEvent) :
    IsGreatest {k | ∃ l, l <+: events ∧
        (after OrderBook.processEvent (OrderBook.fresh c) l).orderCount = k}
      (events.foldl (pass OrderBook.processEvent fun book counts => counts.peak book.orderCount)
        ({}, OrderBook.fresh c)).1.peakOrders := by
  induction events using List.reverseRecOn with
  | nil =>
    constructor
    · exact ⟨[], List.prefix_rfl, rfl⟩
    · rintro k ⟨l, hl, rfl⟩
      obtain rfl := List.prefix_nil.mp hl
      exact Nat.zero_le _
  | append_singleton events event ih =>
    obtain ⟨⟨l, hl, hmax⟩, hbound⟩ := ih
    have hbook := (foldl_pass OrderBook.processEvent looks_peak events {} (OrderBook.fresh c)).1
    rw [List.foldl_append, List.foldl_cons, List.foldl_nil]
    simp only [pass, Counts.peak_peakOrders, Counts.note_peakOrders, hbook]
    have hlast : (OrderBook.processEvent (after OrderBook.processEvent (OrderBook.fresh c) events)
        event).2 = after OrderBook.processEvent (OrderBook.fresh c) (events ++ [event]) := by
      rw [after_append]
      rfl
    rw [hlast]
    constructor
    · rcases le_total (after OrderBook.processEvent (OrderBook.fresh c)
        (events ++ [event])).orderCount _ with hle | hle
      · rw [max_eq_left hle]
        exact ⟨l, hl.trans (List.prefix_append _ _), hmax⟩
      · rw [max_eq_right hle]
        exact ⟨_, List.prefix_rfl, rfl⟩
    · rintro k ⟨l, hl, rfl⟩
      rcases List.prefix_concat_iff.mp hl with rfl | hl
      · exact le_max_right _ _
      · exact (hbound ⟨l, hl, rfl⟩).trans (le_max_left _ _)

/-- While no book is exhausted the modes count alike, and the book of a symbol has the orders of
the one book that are of this symbol, in the same priority. -/
theorem replay_modes_agree (connector : Feed σ MarketDataEvent) (s : σ) (maxEvents : ℕ)
    (owner : OrderId → SymbolId)
    (hrouted : MultiSymbolBook.Routed owner n (Feed.upTo maxEvents (connector.drain s).1))
    (hb : .capacityExhausted ∉ answers OrderBook.processEvent (OrderBook.fresh c)
      (Feed.upTo maxEvents (connector.drain s).1))
    (hm : .capacityExhausted ∉ answers MultiSymbolBook.processEvent (MultiSymbolBook.empty c' n)
      (Feed.upTo maxEvents (connector.drain s).1)) :
    let (counts, book) := (applyAll connector s (OrderBook.fresh c) maxEvents).1
    let (counts', books) :=
      (applyAllSymbols connector s (MultiSymbolBook.empty c' n) maxEvents).1
    counts'.decoded = counts.decoded ∧ counts'.applied = counts.applied ∧
      counts'.rejected = counts.rejected ∧
      books.totalOrders = book.orderCount ∧
      (∀ symbol, (books.book symbol).elim [] (fun b => b.ordersInPriority.map OrderView.bare) =
        (book.ordersInPriority.map OrderView.bare).filter fun o => owner o.id = symbol) ∧
      IsGreatest {k | ∃ l, l <+: Feed.upTo maxEvents (connector.drain s).1 ∧
          ((OrderBook.fresh c).processAll l).orderCount = k} counts.peakOrders := by
  unfold applyAll applyAllSymbols
  rw [applyLoop_eq looks_peak, applyLoop_eq looks_not]
  generalize Feed.upTo maxEvents (connector.drain s).1 = events at *
  obtain ⟨hbook, hdecoded, happlied, hrejected⟩ :=
    foldl_pass OrderBook.processEvent looks_peak events {} (OrderBook.fresh c)
  obtain ⟨hbooks, hdecoded', happlied', hrejected'⟩ :=
    foldl_pass MultiSymbolBook.processEvent looks_not events {} (MultiSymbolBook.empty c' n)
  obtain ⟨hanswers, hend⟩ := (MultiSymbolBook.partitions_empty owner).run hrouted hb hm
  rw [hanswers] at happlied' hrejected'
  refine ⟨hdecoded'.trans hdecoded.symm, happlied'.trans happlied.symm,
    hrejected'.trans hrejected.symm, ?_, fun symbol => ?_, foldl_peak c events⟩
  · rw [hbook, hbooks]
    exact hend.totalOrders
  · rw [hbook, hbooks]
    have hpart := congrArg PriorityBook.orders (hend.parts symbol)
    unfold MultiSymbolBook.bookOrFresh at hpart
    cases hs : (after MultiSymbolBook.processEvent (MultiSymbolBook.empty c' n) events).book
        symbol with
    | none =>
      rw [hs, Option.getD_none, OrderBook.fresh_view] at hpart
      exact hpart
    | some book =>
      rw [hs, Option.getD_some] at hpart
      exact hpart

/-- Orders of two symbols, one of which is replaced. -/
def twoSymbolFeed : List MarketDataEvent :=
  [{ type := .add, symbol := 1, orderId := 1, priceTicks := 10, quantity := 5 },
    { type := .add, symbol := 2, orderId := 11, priceTicks := 20, quantity := 7 },
    { type := .replace, symbol := 1, orderId := 1, newOrderId := 2, priceTicks := 9,
      quantity := 4 },
    { type := .cancel, symbol := 2, orderId := 12 }]

/-- The ids below 10 are of the first symbol. -/
def belowTen (id : OrderId) : SymbolId := if id < 10 then 1 else 2

theorem two_symbols_agree :
    MultiSymbolBook.Routed belowTen 3 (Feed.upTo 0 ((Feed.list _).drain twoSymbolFeed).1) ∧
    let (counts, book) := (applyAll (Feed.list _) twoSymbolFeed (OrderBook.fresh .two) 0).1
    let (counts', books) :=
      (applyAllSymbols (Feed.list _) twoSymbolFeed (MultiSymbolBook.empty .two 3) 0).1
    counts'.decoded = counts.decoded ∧ counts'.applied = counts.applied ∧
      counts'.rejected = counts.rejected ∧
      books.totalOrders = book.orderCount ∧
      (∀ symbol, (books.book symbol).elim [] (fun b => b.ordersInPriority.map OrderView.bare) =
        (book.ordersInPriority.map OrderView.bare).filter fun o => belowTen o.id = symbol) ∧
      IsGreatest {k | ∃ l, l <+: Feed.upTo 0 ((Feed.list _).drain twoSymbolFeed).1 ∧
          ((OrderBook.fresh .two).processAll l).orderCount = k} counts.peakOrders := by
  have hrouted : MultiSymbolBook.Routed belowTen 3
      (Feed.upTo 0 ((Feed.list _).drain twoSymbolFeed).1) := by
    rw [Feed.drain_list]
    unfold MultiSymbolBook.Routed MarketDataEvent.OwnedBy
    decide
  refine ⟨hrouted, replay_modes_agree _ _ _ _ hrouted ?_ ?_⟩
  · rw [Feed.drain_list]
    decide +kernel
  · rw [Feed.drain_list]
    decide +kernel

end ItchReplay

end MarketEngine
