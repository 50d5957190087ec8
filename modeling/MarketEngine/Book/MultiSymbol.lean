import Mathlib.Data.List.Dedup
import MarketEngine.Book.Runs
import MarketEngine.Book.Views

/-! # One book for each symbol

Events are routed by symbol to a book of their own, created at the first event
of the symbol. Nothing one symbol does is seen by another.
-/

namespace MarketEngine

variable {c : Capacity} {n : ℕ}

/-- The books by symbol, and the symbols with a book as they were first seen. -/
structure MultiSymbolBook (c : Capacity) (maxSymbols : ℕ) where
  books : Pool (Option (OrderBook c)) maxSymbols := ⟨fun _ => none⟩
  seen : List SymbolId := []

namespace MultiSymbolBook

def processEvent (m : MultiSymbolBook c n) (event : MarketDataEvent) :
    ProcessResult × MultiSymbolBook c n :=
  if h : event.symbol.toNat < n then
    let slot : Fin n := ⟨event.symbol.toNat, h⟩
    let seen := if (m.books.get slot).isNone then m.seen ++ [event.symbol] else m.seen
    let (result, book) := ((m.books.get slot).getD (OrderBook.fresh c)).processEvent event
    (result, { books := m.books.set slot (some book), seen })
  else (.capacityExhausted, m)

def book (m : MultiSymbolBook c n) (symbol : SymbolId) : Option (OrderBook c) :=
  if h : symbol.toNat < n then m.books.get ⟨symbol.toNat, h⟩ else none

def bestBid (m : MultiSymbolBook c n) (symbol : SymbolId) : Option LevelView :=
  (m.book symbol).bind OrderBook.bestBid

def bestAsk (m : MultiSymbolBook c n) (symbol : SymbolId) : Option LevelView :=
  (m.book symbol).bind OrderBook.bestAsk

def totalOrders (m : MultiSymbolBook c n) : ℕ :=
  m.seen.foldl (fun total symbol => total + (m.book symbol).elim 0 OrderBook.orderCount) 0

/-- The digest of one symbol and its book. -/
def symbolChecksum (m : MultiSymbolBook c n) (symbol : SymbolId) : UInt64 :=
  checksumMix symbol.toUInt64 ^^^ (m.book symbol).elim 0 OrderBook.stateChecksum

def stateChecksum (m : MultiSymbolBook c n) : UInt64 :=
  m.seen.foldl (fun result symbol => result ^^^ m.symbolChecksum symbol) 0

def processAll (m : MultiSymbolBook c n) (events : List MarketDataEvent) : MultiSymbolBook c n :=
  events.foldl (fun m event => (m.processEvent event).2) m

variable {m m' : MultiSymbolBook c n} {events events' : List MarketDataEvent}
  {event : MarketDataEvent} {symbol : SymbolId}

/-! ## One event -/

theorem processEvent_out_of_range (h : n ≤ event.symbol.toNat) :
    m.processEvent event = (.capacityExhausted, m) := by
  rw [processEvent, dif_neg (Nat.not_lt.mpr h)]

theorem book_out_of_range (h : n ≤ symbol.toNat) : m.book symbol = none := by
  rw [book, dif_neg (Nat.not_lt.mpr h)]

theorem processEvent_result (h : event.symbol.toNat < n) :
    (m.processEvent event).1 =
      (((m.book event.symbol).getD (OrderBook.fresh c)).processEvent event).1 := by
  rw [processEvent, dif_pos h, book, dif_pos h]

/-- An event changes the book of its own symbol, and no other. -/
theorem processEvent_book (h : event.symbol.toNat < n) (symbol : SymbolId) :
    (m.processEvent event).2.book symbol =
      if event.symbol = symbol then
        some (((m.book symbol).getD (OrderBook.fresh c)).processEvent event).2
      else m.book symbol := by
  rw [processEvent, dif_pos h]
  dsimp only [book]
  by_cases hs : event.symbol = symbol
  · subst hs
    rw [if_pos rfl, dif_pos h, dif_pos h, Pool.get_set_self]
  · rw [if_neg hs]
    split_ifs with hlt
    · refine Pool.get_set_of_ne _ _ fun heq => hs ?_
      exact UInt32.toNat_inj.mp (congrArg Fin.val heq).symm
    · rfl

theorem processEvent_seen (h : event.symbol.toNat < n) :
    (m.processEvent event).2.seen =
      if (m.book event.symbol).isNone then m.seen ++ [event.symbol] else m.seen := by
  rw [processEvent, dif_pos h, book, dif_pos h]

/-- The symbols seen are those with a book, each once. -/
structure Tracked (m : MultiSymbolBook c n) : Prop where
  nodup : m.seen.Nodup
  mem_iff : ∀ symbol, symbol ∈ m.seen ↔ (m.book symbol).isSome = true

theorem Tracked.processEvent (h : m.Tracked) (event : MarketDataEvent) :
    (m.processEvent event).2.Tracked := by
  rcases Nat.lt_or_ge event.symbol.toNat n with hlt | hge
  · have hmem := h.mem_iff event.symbol
    cases hbook : m.book event.symbol with
    | none =>
      have hnew : event.symbol ∉ m.seen := by simpa [hbook] using hmem
      have hseen : (m.processEvent event).2.seen = m.seen ++ [event.symbol] := by
        rw [processEvent_seen hlt, hbook]
        rfl
      refine ⟨?_, fun symbol => ?_⟩
      · rw [hseen, ← List.concat_eq_append]
        exact h.nodup.concat hnew
      · rw [hseen, processEvent_book hlt, List.mem_append, List.mem_singleton]
        by_cases hs : event.symbol = symbol
        · simp [hs]
        · simp [hs, Ne.symm hs, h.mem_iff symbol]
    | some b =>
      have hseen : (m.processEvent event).2.seen = m.seen := by
        rw [processEvent_seen hlt, hbook]
        rfl
      refine ⟨hseen ▸ h.nodup, fun symbol => ?_⟩
      rw [hseen, processEvent_book hlt, h.mem_iff]
      by_cases hs : event.symbol = symbol
      · subst hs
        simp [hbook]
      · simp [hs]
  · rw [processEvent_out_of_range hge]
    exact h

/-! ## A list of events -/

/-- No book has been created. -/
def empty (c : Capacity) (maxSymbols : ℕ) : MultiSymbolBook c maxSymbols := {}

theorem empty_book (symbol : SymbolId) : (empty c n).book symbol = none := by
  unfold book
  split_ifs <;> rfl

theorem empty_tracked : (empty c n).Tracked where
  nodup := List.nodup_nil
  mem_iff symbol := by
    rw [empty_book]
    simp [empty]

theorem Tracked.processAll (h : m.Tracked) (events : List MarketDataEvent) :
    (m.processAll events).Tracked := by
  induction events generalizing m with
  | nil => exact h
  | cons event events ih => exact ih (h.processEvent event)

/-- The events of one symbol. -/
def onSymbol (symbol : SymbolId) (events : List MarketDataEvent) : List MarketDataEvent :=
  events.filter fun event => event.symbol = symbol

/-- What the events of a symbol make of its book. -/
theorem processAll_book (m : MultiSymbolBook c n) (hlt : symbol.toNat < n)
    (events : List MarketDataEvent) :
    (m.processAll events).book symbol =
      if onSymbol symbol events = [] then m.book symbol
      else
        some (((m.book symbol).getD (OrderBook.fresh c)).processAll (onSymbol symbol events)) := by
  induction events generalizing m with
  | nil => rfl
  | cons event events ih =>
    have hcons : m.processAll (event :: events) = (m.processEvent event).2.processAll events := rfl
    rw [hcons, ih]
    by_cases hs : event.symbol = symbol
    · subst hs
      have hsub : onSymbol event.symbol (event :: events) =
          event :: onSymbol event.symbol events := by
        simp [onSymbol]
      rw [processEvent_book hlt, if_pos rfl, hsub, if_neg (List.cons_ne_nil _ _)]
      split_ifs with hnil
      · rw [hnil]
        rfl
      · rfl
    · have hsub : onSymbol symbol (event :: events) = onSymbol symbol events := by
        simp [onSymbol, hs]
      have hbook : (m.processEvent event).2.book symbol = m.book symbol := by
        rcases Nat.lt_or_ge event.symbol.toNat n with hlt' | hge
        · rw [processEvent_book hlt', if_neg hs]
        · rw [processEvent_out_of_range hge]
      rw [hsub, hbook]

/-! ## Isolation -/

/-- The symbols in range that occur, each once. -/
def occurring (maxSymbols : ℕ) (events : List MarketDataEvent) : List SymbolId :=
  ((events.map MarketDataEvent.symbol).filter fun symbol => symbol.toNat < maxSymbols).dedup

theorem onSymbol_eq_nil_iff :
    onSymbol symbol events = [] ↔ ∀ event ∈ events, event.symbol ≠ symbol := by
  simp [onSymbol, List.filter_eq_nil_iff]

theorem mem_occurring : symbol ∈ occurring n events ↔
    symbol.toNat < n ∧ onSymbol symbol events ≠ [] := by
  rw [occurring, List.mem_dedup, List.mem_filter, List.mem_map, and_comm, decide_eq_true_eq, ne_eq,
    onSymbol_eq_nil_iff]
  push Not
  rfl

/-- After a list of events from the empty state. -/
theorem processAll_empty_book (hlt : symbol.toNat < n) (events : List MarketDataEvent) :
    ((empty c n).processAll events).book symbol =
      if onSymbol symbol events = [] then none
      else some ((OrderBook.fresh c).processAll (onSymbol symbol events)) := by
  rw [processAll_book _ hlt, empty_book]
  rfl

theorem seen_perm (events : List MarketDataEvent) :
    ((empty c n).processAll events).seen.Perm (occurring n events) := by
  have htracked := empty_tracked.processAll (c := c) (n := n) events
  have hnodup : (occurring n events).Nodup := List.nodup_dedup _
  apply (List.perm_ext_iff_of_nodup htracked.nodup hnodup).mpr
  intro symbol
  rw [htracked.mem_iff, mem_occurring]
  rcases Nat.lt_or_ge symbol.toNat n with hlt | hge
  · rw [processAll_empty_book hlt]
    by_cases hnil : onSymbol symbol events = [] <;> simp [hnil, hlt]
  · simp [book_out_of_range hge, Nat.not_lt.mpr hge]

theorem totalOrders_eq (m : MultiSymbolBook c n) :
    m.totalOrders = (m.seen.map fun symbol => (m.book symbol).elim 0 OrderBook.orderCount).sum := by
  rw [totalOrders, ← List.foldl_map (f := fun symbol => (m.book symbol).elim 0 OrderBook.orderCount)
    (g := fun total count => total + count), List.sum_eq_foldl]

/-- The checksum and the total depend on the books only, not on the order they were created in. -/
theorem Tracked.congr (h : m.Tracked) (h' : m'.Tracked)
    (hbook : ∀ symbol, m'.book symbol = m.book symbol) :
    m'.stateChecksum = m.stateChecksum ∧ m'.totalOrders = m.totalOrders := by
  have hperm : m'.seen.Perm m.seen := by
    rw [List.perm_ext_iff_of_nodup h'.nodup h.nodup]
    intro symbol
    rw [h'.mem_iff, h.mem_iff, hbook]
  have hchecksum : m'.symbolChecksum = m.symbolChecksum := by
    funext symbol
    rw [symbolChecksum, symbolChecksum, hbook]
  constructor
  · rw [stateChecksum, stateChecksum, hchecksum]
    exact hperm.foldl_eq' (fun _ _ _ _ _ => by ac_rfl) _
  · rw [totalOrders_eq, totalOrders_eq]
    simp only [hbook]
    exact (hperm.map _).sum_eq

/-- The book of a symbol is what its own events alone make of a fresh book, however they are
interleaved with those of other symbols. -/
theorem symbols_isolated (c : Capacity) (maxSymbols : ℕ) (events : List MarketDataEvent) :
    let m := (empty c maxSymbols).processAll events
    (∀ symbol, symbol.toNat < maxSymbols → (∃ event ∈ events, event.symbol = symbol) →
      m.book symbol = some ((OrderBook.fresh c).processAll (onSymbol symbol events))) ∧
    (∀ symbol, (∀ event ∈ events, event.symbol ≠ symbol) → m.book symbol = none) ∧
    (∀ event, maxSymbols ≤ event.symbol.toNat →
      m.processEvent event = (.capacityExhausted, m)) ∧
    (∀ event, event.symbol.toNat < maxSymbols → (m.processEvent event).1 =
      (((OrderBook.fresh c).processAll (onSymbol event.symbol events)).processEvent event).1) ∧
    m.totalOrders = ((occurring maxSymbols events).map fun symbol =>
      ((OrderBook.fresh c).processAll (onSymbol symbol events)).orderCount).sum ∧
    ∀ events', (∀ symbol, symbol.toNat < maxSymbols →
        onSymbol symbol events' = onSymbol symbol events) →
      let m' := (empty c maxSymbols).processAll events'
      (∀ symbol, m'.book symbol = m.book symbol) ∧ m'.stateChecksum = m.stateChecksum ∧
        m'.totalOrders = m.totalOrders := by
  intro m
  have hbook : ∀ symbol, symbol.toNat < maxSymbols → m.book symbol = _ := fun symbol hlt =>
    processAll_empty_book hlt events
  refine ⟨?_, ?_, ?_, ?_, ?_, ?_⟩
  · rintro symbol hlt ⟨event, hevent, hs⟩
    rw [hbook symbol hlt, if_neg fun hnil => onSymbol_eq_nil_iff.mp hnil event hevent hs]
  · intro symbol hnot
    rcases Nat.lt_or_ge symbol.toNat maxSymbols with hlt | hge
    · rw [hbook symbol hlt, if_pos (onSymbol_eq_nil_iff.mpr hnot)]
    · exact book_out_of_range hge
  · exact fun event => processEvent_out_of_range
  · intro event hlt
    rw [processEvent_result hlt, hbook _ hlt]
    split_ifs with hnil
    · rw [hnil]
      rfl
    · rfl
  · rw [totalOrders_eq, ((seen_perm events).map _).sum_eq]
    refine congrArg List.sum (List.map_congr_left fun symbol hs => ?_)
    obtain ⟨hlt, hne⟩ := mem_occurring.mp hs
    rw [hbook symbol hlt, if_neg hne]
    rfl
  · intro events' hsame m'
    have hbooks : ∀ symbol, m'.book symbol = m.book symbol := by
      intro symbol
      rcases Nat.lt_or_ge symbol.toNat maxSymbols with hlt | hge
      · rw [hbook symbol hlt, processAll_empty_book hlt, hsame symbol hlt]
      · rw [book_out_of_range hge, book_out_of_range hge]
    have htracked := empty_tracked.processAll (c := c) (n := maxSymbols) events
    exact ⟨hbooks, htracked.congr (empty_tracked.processAll events') hbooks⟩

/-! ## The checksum of two books -/

/-- The events as events of the given symbol. -/
def relabel (symbol : SymbolId) (events : List MarketDataEvent) : List MarketDataEvent :=
  events.map fun event => { event with symbol }

/-- One list of events on each of two symbols. -/
def twoSymbols (c : Capacity) (maxSymbols : ℕ) (s₁ s₂ : SymbolId) (X Y : List MarketDataEvent) :
    MultiSymbolBook c maxSymbols :=
  (empty c maxSymbols).processAll (relabel s₁ X ++ relabel s₂ Y)

/-- A book does not look at the symbol. -/
theorem processAll_relabel (symbol : SymbolId) (b : OrderBook c) (events : List MarketDataEvent) :
    b.processAll (relabel symbol events) = b.processAll events := by
  induction events generalizing b with
  | nil => rfl
  | cons event events ih => exact ih (b.processEvent event).2

theorem onSymbol_relabel (symbol : SymbolId) (events : List MarketDataEvent) :
    onSymbol symbol (relabel symbol events) = relabel symbol events := by
  apply List.filter_eq_self.mpr
  intro event hevent
  obtain ⟨_, -, rfl⟩ := List.mem_map.mp hevent
  simp

theorem onSymbol_relabel_of_ne {symbol' : SymbolId} (h : symbol' ≠ symbol)
    (events : List MarketDataEvent) : onSymbol symbol (relabel symbol' events) = [] := by
  rw [onSymbol_eq_nil_iff]
  intro event hevent
  obtain ⟨_, -, rfl⟩ := List.mem_map.mp hevent
  exact h

variable {s₁ s₂ : SymbolId} {X Y : List MarketDataEvent}

theorem twoSymbols_book (h : s₁ ≠ s₂) (hX : X ≠ []) (hY : Y ≠ []) :
    (s₁.toNat < n →
      (twoSymbols c n s₁ s₂ X Y).book s₁ = some ((OrderBook.fresh c).processAll X)) ∧
    (s₂.toNat < n →
      (twoSymbols c n s₁ s₂ X Y).book s₂ = some ((OrderBook.fresh c).processAll Y)) := by
  have hon : ∀ symbol, onSymbol symbol (relabel s₁ X ++ relabel s₂ Y) =
      onSymbol symbol (relabel s₁ X) ++ onSymbol symbol (relabel s₂ Y) := fun symbol =>
    List.filter_append _ _
  constructor
  · intro hlt
    rw [twoSymbols, processAll_empty_book hlt, hon, onSymbol_relabel,
      onSymbol_relabel_of_ne h.symm, List.append_nil, processAll_relabel, if_neg]
    simpa [relabel] using hX
  · intro hlt
    rw [twoSymbols, processAll_empty_book hlt, hon, onSymbol_relabel,
      onSymbol_relabel_of_ne h, List.nil_append, processAll_relabel, if_neg]
    simpa [relabel] using hY

/-- The symbols and the books are mixed in separately. -/
theorem twoSymbols_checksum (h : s₁ ≠ s₂) (h₁ : s₁.toNat < n) (h₂ : s₂.toNat < n) (hX : X ≠ [])
    (hY : Y ≠ []) : (twoSymbols c n s₁ s₂ X Y).stateChecksum =
      checksumMix s₁.toUInt64 ^^^ checksumMix s₂.toUInt64 ^^^
        (((OrderBook.fresh c).processAll X).stateChecksum ^^^
          ((OrderBook.fresh c).processAll Y).stateChecksum) := by
  have htracked : (twoSymbols c n s₁ s₂ X Y).Tracked := empty_tracked.processAll _
  obtain ⟨hbook₁, hbook₂⟩ := twoSymbols_book (c := c) (n := n) h hX hY
  have hperm : (twoSymbols c n s₁ s₂ X Y).seen.Perm [s₁, s₂] := by
    apply (List.perm_ext_iff_of_nodup htracked.nodup (by simp [h])).mpr
    intro symbol
    rw [htracked.mem_iff, List.mem_cons, List.mem_singleton]
    constructor
    · intro hsome
      by_contra hnot
      have hnil : onSymbol symbol (relabel s₁ X ++ relabel s₂ Y) = [] := by
        rw [onSymbol, List.filter_append]
        exact List.append_eq_nil_iff.mpr ⟨onSymbol_relabel_of_ne (fun hs => hnot (.inl hs.symm)) X,
          onSymbol_relabel_of_ne (fun hs => hnot (.inr hs.symm)) Y⟩
      rcases Nat.lt_or_ge symbol.toNat n with hlt | hge
      · rw [twoSymbols, processAll_empty_book hlt, if_pos hnil] at hsome
        cases hsome
      · rw [book_out_of_range hge] at hsome
        cases hsome
    · rintro (rfl | rfl)
      · rw [hbook₁ h₁]
        rfl
      · rw [hbook₂ h₂]
        rfl
  rw [stateChecksum, hperm.foldl_eq' (fun _ _ _ _ _ => by ac_rfl)]
  simp only [List.foldl_cons, List.foldl_nil, symbolChecksum, hbook₁ h₁, hbook₂ h₂, Option.elim]
  simp only [UInt64.zero_xor]
  ac_rfl

theorem checksum_swap (h : s₁ ≠ s₂) (h₁ : s₁.toNat < n) (h₂ : s₂.toNat < n) (hX : X ≠ [])
    (hY : Y ≠ []) :
    (twoSymbols c n s₁ s₂ X Y).stateChecksum = (twoSymbols c n s₁ s₂ Y X).stateChecksum := by
  rw [twoSymbols_checksum h h₁ h₂ hX hY, twoSymbols_checksum h h₁ h₂ hY hX]
  ac_rfl

/-- Two equal books cancel out. -/
theorem checksum_twice (h : s₁ ≠ s₂) (h₁ : s₁.toNat < n) (h₂ : s₂.toNat < n) (hX : X ≠ []) :
    (twoSymbols c n s₁ s₂ X X).stateChecksum =
      checksumMix s₁.toUInt64 ^^^ checksumMix s₂.toUInt64 := by
  rw [twoSymbols_checksum h h₁ h₂ hX hX, UInt64.xor_self, UInt64.xor_zero]

/-- On no two symbols does the checksum tell two books from the same books swapped, or a book held
twice from another book held twice. -/
theorem checksum_never_keyed (h : s₁ ≠ s₂) (h₁ : s₁.toNat < n) (h₂ : s₂.toNat < n) :
    (¬ ∃ X Y : List MarketDataEvent, X ≠ [] ∧ Y ≠ [] ∧
      (twoSymbols c n s₁ s₂ X Y).stateChecksum ≠ (twoSymbols c n s₁ s₂ Y X).stateChecksum) ∧
    ¬ ∃ X Y : List MarketDataEvent, X ≠ [] ∧ Y ≠ [] ∧
      (twoSymbols c n s₁ s₂ X X).stateChecksum ≠ (twoSymbols c n s₁ s₂ Y Y).stateChecksum := by
  constructor
  · rintro ⟨X, Y, hX, hY, hne⟩
    exact hne (checksum_swap h h₁ h₂ hX hY)
  · rintro ⟨X, Y, hX, hY, hne⟩
    exact hne ((checksum_twice h h₁ h₂ hX).trans (checksum_twice h h₁ h₂ hY).symm)

theorem first_two_symbols_never_keyed :
    (¬ ∃ X Y : List MarketDataEvent, X ≠ [] ∧ Y ≠ [] ∧
      (twoSymbols .one 65536 1 2 X Y).stateChecksum ≠
        (twoSymbols .one 65536 1 2 Y X).stateChecksum) ∧
    ¬ ∃ X Y : List MarketDataEvent, X ≠ [] ∧ Y ≠ [] ∧
      (twoSymbols .one 65536 1 2 X X).stateChecksum ≠
        (twoSymbols .one 65536 1 2 Y Y).stateChecksum :=
  checksum_never_keyed (by decide) (by decide) (by decide)

/-- No books at all on symbols 1 and 2 are told apart from the same books swapped. -/
theorem swapped_books_alike :
    ¬ ∃ X Y : List MarketDataEvent, X ≠ [] ∧ Y ≠ [] ∧
      (twoSymbols .one 65536 1 2 X Y).stateChecksum ≠
        (twoSymbols .one 65536 1 2 Y X).stateChecksum := by
  rintro ⟨X, Y, hX, hY, hne⟩
  exact hne (checksum_swap (by decide) (by decide) (by decide) hX hY)

end MultiSymbolBook

end MarketEngine
