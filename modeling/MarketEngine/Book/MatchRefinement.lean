import MarketEngine.Book.Matching
import MarketEngine.Book.Refinement
import Mathlib.Data.UInt

/-! # Matching refines price-time priority

Each pass of the inner loop fills the best maker of the represented book: the
level on top of the ladder has the best price, and its queue the earliest order
of that price first. Every pass takes a maker or leaves nothing remaining, so the
loops end, with no more passes than there are resting orders and one.
-/

namespace MarketEngine

open Intrusive ProbeTable

variable {c : Capacity}

namespace OrderBook

variable {b b' : OrderBook c} {a : PriceTimeBook} {l l' l₁ l₂ fl fo : List (Index c)}
  {i ℓ : Index c} {request : OrderRequest} {p : Price}

/-! ## One pass -/

theorem releaseLevel_erase (b : OrderBook c) (ℓ : Index c) (id : OrderId) :
    (b.eraseOrderLookup id).releaseLevel ℓ = (b.releaseLevel ℓ).eraseOrderLookup id := by
  unfold releaseLevel ladderRemove setLadder ladder eraseOrderLookup
  cases (b.levels.get ℓ).side <;> rfl

theorem unlink_erase (b : OrderBook c) (i : Index c) (id : OrderId) :
    (b.eraseOrderLookup id).unlink i = (b.unlink i).eraseOrderLookup id := by
  unfold unlink
  cases hℓ : (b.orders.get i).level with
  | none => simp only [eraseOrderLookup, hℓ]
  | some ℓ =>
    have hdetach : (b.eraseOrderLookup id).detach i ℓ = (b.detach i ℓ).eraseOrderLookup id := rfl
    have hlevel : ((b.eraseOrderLookup id).orders.get i).level = some ℓ := hℓ
    simp only [hlevel, hdetach, releaseLevel_erase]
    by_cases hc : ((b.detach i ℓ).levels.get ℓ).orderCount = 0
    · have hc' : (((b.detach i ℓ).eraseOrderLookup id).levels.get ℓ).orderCount = 0 := hc
      rw [if_pos hc, if_pos hc']
    · have hc' : ¬ (((b.detach i ℓ).eraseOrderLookup id).levels.get ℓ).orderCount = 0 := hc
      rw [if_neg hc, if_neg hc']

/-- A maker that is filled whole is taken out as by a cancel. -/
theorem removeMaker_eq (b : OrderBook c) (i : Index c) :
    b.removeMaker i = b.removed i (b.orders.get i).id := by
  simp only [removeMaker, removed, unlink_erase]

theorem Shows.tick (h : Shows b a l fl fo) :
    Shows { b with fillSequence := b.fillSequence + 1 }
      { a with fillSequence := a.fillSequence + 1 } l fl fo where
  wf := ⟨h.wf.linked.congr ⟨fun _ => rfl, rfl, rfl, rfl, rfl, rfl, rfl⟩ (fun _ => rfl)
    fun _ _ => rfl, h.wf.orders.congr (fun _ => rfl) rfl rfl rfl (.refl l)⟩
  capacity := h.capacity
  resting := h.resting
  nextPriority := h.nextPriority
  fillSequence := congrArg (· + 1) h.fillSequence

end OrderBook

open OrderBook

/-- The matching loops are where the abstract trading is. -/
structure Matching.Follows (m : Matching c) (t : Trading) (l fl fo : List (Index c)) : Prop where
  book : Shows m.book t.book l fl fo
  remaining : m.remaining = t.remaining
  fills : m.fills = t.fills

namespace Matching

variable {m m' : Matching c} {t t' : Trading} {l l' l₁ l₂ fl fo : List (Index c)}
  {i ℓ : Index c} {request : OrderRequest} {p : Price}

/-- A maker filled whole leaves the list. -/
theorem Follows.fill_whole (h : Follows m t (l₁ ++ i :: l₂) fl fo) (request : OrderRequest)
    (ℓ : Index c)
    (hother : ∀ j ∈ l₁ ++ l₂, j ≠ i ∧ (m.book.orders.get j).id ≠ (m.book.orders.get i).id)
    (hwhole : m.traded i = (m.book.orders.get i).quantity)
    (hp : p = (m.book.orders.get i).price) :
    ∃ fl', Follows (m.fillMaker request p ℓ i) (t.fill request (m.book.orders.get i).view)
      (l₁ ++ l₂) fl' (i :: fo) := by
  obtain ⟨fl', hshows⟩ := removed_shows h.book.tick hother
  have htraded : min t.remaining (m.book.orders.get i).quantity =
      (m.book.orders.get i).quantity := by
    rw [← h.remaining]
    exact hwhole
  refine ⟨fl', ?_, ?_, ?_⟩
  · simp only [fillMaker, hwhole, if_true, Trading.fill, htraded]
    rw [removeMaker_eq]
    exact hshows
  · simp only [fillMaker, hwhole, Trading.fill, htraded, h.remaining]
  · simp only [fillMaker, hwhole, Trading.fill, htraded, h.fills, hp, h.book.fillSequence]

/-- A maker filled in part keeps its place, and nothing remains. -/
theorem Follows.fill_part (h : Follows m t l fl fo) (request : OrderRequest) (hi : i ∈ l)
    (hℓ : (m.book.orders.get i).level = some ℓ)
    (hpart : m.traded i ≠ (m.book.orders.get i).quantity)
    (hp : p = (m.book.orders.get i).price) :
    Follows (m.fillMaker request p ℓ i) (t.fill request (m.book.orders.get i).view) l fl fo ∧
      (m.fillMaker request p ℓ i).remaining = 0 := by
  have htraded : min t.remaining (m.book.orders.get i).quantity = m.traded i := by
    rw [← h.remaining]
    rfl
  have hall : m.traded i = m.remaining := by
    rcases Trading.min_cases m.remaining (m.book.orders.get i).quantity with ⟨-, hmin⟩ | ⟨-, hmin⟩
    · exact hmin
    · exact absurd hmin hpart
  refine ⟨⟨?_, ?_, ?_⟩, ?_⟩
  · simp only [fillMaker, Trading.fill, htraded, if_neg hpart]
    refine h.book.tick.requantify hi hℓ ⟨fun k => ?_, rfl, rfl, rfl, rfl, rfl, rfl⟩ (fun j => ?_)
      (fun k => ?_) rfl rfl rfl rfl rfl
    · simp only [reduceMaker, Pool.get_modify]
      split <;> rfl
    · simp only [reduceMaker, Pool.get_modify]
      split
      · next hj => rw [hj]
      · rfl
    · simp only [reduceMaker, Pool.get_modify]
      split
      · congr 1
        grind
      · rfl
  · simp only [fillMaker, Trading.fill, htraded, h.remaining]
  · simp only [fillMaker, Trading.fill, htraded, h.fills, hp, h.book.fillSequence]
  · simp only [fillMaker, hall, UInt64.sub_self]

/-! ## The best level -/

end Matching

namespace OrderBook

variable {b b' : OrderBook c} {a : PriceTimeBook} {l l' l₁ l₂ fl fo : List (Index c)}
  {i ℓ : Index c} {request : OrderRequest} {p : Price}

theorem reaches_view (request : OrderRequest) (order : Order c) :
    request.reaches order.view = true ↔
      order.side = request.side.opposite ∧ request.crosses order.price = true := by
  simp [OrderRequest.reaches]

/-- Level `ℓ` holds the orders at the price `p` that the request trades at first. -/
structure BestLevel (b : OrderBook c) (request : OrderRequest) (p : Price) (l : List (Index c))
    (ℓ : Index c) : Prop where
  crosses : request.crosses p = true
  best : ∀ k ∈ l, (b.orders.get k).side = request.side.opposite →
    request.prefers (b.orders.get k).price p = false
  level_iff : ∀ k ∈ l, (b.orders.get k).level = some ℓ ↔
    (b.orders.get k).key = ⟨request.side.opposite, p⟩

/-- Fewer orders do not make the level any worse. -/
theorem BestLevel.mono (h : BestLevel b request p l ℓ) (hl : ∀ k ∈ l', k ∈ l)
    (hcore : ∀ k ∈ l', (b'.orders.get k).core = (b.orders.get k).core) :
    BestLevel b' request p l' ℓ where
  crosses := h.crosses
  best k hk hside := by
    have hprice : (b'.orders.get k).price = (b.orders.get k).price :=
      (congrArg Order.price (hcore k hk) :)
    rw [hprice]
    exact h.best k (hl k hk) ((congrArg Order.side (hcore k hk) :).symm.trans hside)
  level_iff k hk := by
    have hlevel : (b'.orders.get k).level = (b.orders.get k).level :=
      (congrArg Order.level (hcore k hk) :)
    have hkey : (b'.orders.get k).key = (b.orders.get k).key :=
      (congrArg Order.key (hcore k hk) :)
    rw [hlevel, hkey]
    exact h.level_iff k (hl k hk)

/-- The first order of the best level is the best maker. -/
theorem BestLevel.bestMaker (h : BestLevel b request p l ℓ) {rest : List (Index c)}
    (hq : b.fifo l ℓ = i :: rest) :
    request.bestMaker (b.resting l) = some (b.orders.get i).view := by
  obtain ⟨l₁, l₂, rfl, hbefore, hℓ, -⟩ := List.filter_eq_cons_iff.mp hq
  rw [decide_eq_true_eq] at hℓ
  have hi := (h.level_iff i (by simp)).mp hℓ
  have hprice : (b.orders.get i).price = p := congrArg LevelKey.price hi
  have hside : (b.orders.get i).side = request.side.opposite := congrArg LevelKey.side hi
  subst hprice
  have hsplit : b.resting (l₁ ++ i :: l₂) =
      b.resting l₁ ++ (b.orders.get i).view :: b.resting l₂ := by
    simp [OrderBook.resting]
  rw [hsplit]
  refine OrderRequest.bestMaker_eq_some ?_ ?_ ?_
  · rw [reaches_view]
    exact ⟨hside, h.crosses⟩
  · intro o ho hr
    obtain ⟨k, hk, rfl⟩ := List.mem_map.mp ho
    have hkside := ((reaches_view request _).mp hr).1
    have hbest := h.best k (by simp [hk]) hkside
    rw [OrderRequest.prefers_eq_false_iff] at hbest
    rw [OrderRequest.prefers_iff]
    apply lt_of_le_of_ne hbest
    intro he
    have hkprice : (b.orders.get i).price = (b.orders.get k).price :=
      request.side.opposite.rank_injective he
    apply hbefore k hk
    rw [decide_eq_true_eq, h.level_iff k (by simp [hk]), Order.key, hkside, hkprice]
  · intro o ho hr
    obtain ⟨k, hk, rfl⟩ := List.mem_map.mp ho
    have hkside := ((reaches_view request _).mp hr).1
    exact h.best k (by simp [hk]) hkside

/-- What is on top of the ladder of a side. -/
theorem Shows.ladderTop_none (h : Shows b a l fl fo) {side : Side}
    (htop : b.ladderTop side = none) : ∀ k ∈ l, (b.orders.get k).side ≠ side := by
  have hactive := (h.wf.linked.levels.ladder side).top_eq_none_iff.mp htop
  intro k hk hside
  obtain ⟨ℓ, -, hℓ, hkey⟩ := h.wf.linked.queues.linked k hk
  exact hactive ℓ ⟨hℓ, (congrArg LevelKey.side hkey).trans hside⟩

theorem Shows.ladderTop_some (h : Shows b a l fl fo) {side : Side}
    (htop : b.ladderTop side = some ℓ) :
    (b.levels.get ℓ).active = true ∧ (b.levels.get ℓ).side = side ∧
      ∀ k ∈ l, (b.orders.get k).side = side →
        side.rank (b.levels.get ℓ).price ≤ side.rank (b.orders.get k).price := by
  obtain ⟨⟨hactive, hside⟩, hbest⟩ := (h.wf.linked.levels.ladder side).top_eq_some htop
  refine ⟨hactive, hside, fun k hk hkside => ?_⟩
  obtain ⟨m, -, hm, hkey⟩ := h.wf.linked.queues.linked k hk
  have hprice : (b.levels.get m).price = (b.orders.get k).price := congrArg LevelKey.price hkey
  have := hbest m ⟨hm, (congrArg LevelKey.side hkey).trans hkside⟩
  simp only [Ladder.rank, ladder_levels] at this
  rwa [hprice] at this

/-- The level on top of the opposite ladder is the one to trade at. -/
theorem Shows.bestLevel (h : Shows b a l fl fo)
    (htop : b.ladderTop request.side.opposite = some ℓ)
    (hcross : request.crosses (b.levels.get ℓ).price = true) :
    BestLevel b request (b.levels.get ℓ).price l ℓ := by
  obtain ⟨hactive, hside, hbest⟩ := h.ladderTop_some htop
  refine ⟨hcross, fun k hk hkside => ?_, fun k hk => ?_⟩
  · rw [OrderRequest.prefers_eq_false_iff]
    exact hbest k hk hkside
  · obtain ⟨m, hm, hmactive, hkey⟩ := h.wf.linked.queues.linked k hk
    rw [hm, ← hkey, Option.some.injEq]
    constructor
    · rintro rfl
      rw [Level.key, hside]
    · intro he
      exact h.wf.linked.levels.key_inj hmactive hactive (by rw [he, Level.key, hside])

/-- Nothing is traded when the top of the opposite ladder is not reached. -/
theorem Shows.bestMaker_none (h : Shows b a l fl fo)
    (hcross : ∀ ℓ ∈ b.ladderTop request.side.opposite,
      request.crosses (b.levels.get ℓ).price = false) :
    request.bestMaker a.resting = none := by
  apply OrderRequest.bestMaker_eq_none
  rw [h.resting]
  intro o ho
  obtain ⟨k, hk, rfl⟩ := List.mem_map.mp ho
  rw [← Bool.not_eq_true, reaches_view]
  rintro ⟨hside, hkcross⟩
  cases htop : b.ladderTop request.side.opposite with
  | none => exact h.ladderTop_none htop k hk hside
  | some ℓ =>
    have hrank := (h.ladderTop_some htop).2.2 k hk hside
    rw [htop] at hcross
    have := hcross ℓ rfl
    rw [OrderRequest.crosses_of_rank_le hkcross hrank] at this
    cases this

/-! ## The loops -/

theorem releaseLevel_empty_iff (b : OrderBook c) (ℓ : Index c) (slot : Fin (tableSize c)) :
    (b.releaseLevel ℓ).levelLookup.get slot = .empty ↔ b.levelLookup.get slot = .empty := by
  simp only [releaseLevel, freeLevelSlot, eraseLevelLookup, ladderRemove, setLadder_levelLookup]
  exact erase_eq_empty_iff

/-- Unlinking leaves the empty slots of the level index as they are. -/
theorem unlink_empty_iff (b : OrderBook c) (i : Index c) (slot : Fin (tableSize c)) :
    (b.unlink i).levelLookup.get slot = .empty ↔ b.levelLookup.get slot = .empty := by
  unfold unlink
  split
  · rfl
  · dsimp only
    split
    · exact releaseLevel_empty_iff _ _ _
    · rfl

theorem unlink_tableFull (b : OrderBook c) (i : Index c) :
    (b.unlink i).LevelTableFull ↔ b.LevelTableFull :=
  forall_congr' fun slot => not_congr (unlink_empty_iff b i slot)

theorem removed_tableFull (b : OrderBook c) (i : Index c) (id : OrderId) :
    (b.removed i id).LevelTableFull ↔ b.LevelTableFull :=
  unlink_tableFull b i

/-- The successor of the first order of a queue is the second one. -/
theorem Queued.next_head (h : b.Queued l ℓ) {rest : List (Index c)}
    (hq : b.fifo l ℓ = i :: rest) : (b.orders.get i).next = rest.head? := by
  have hlinks := h.links
  rw [hq] at hlinks
  have hsplit : i :: rest = [] ++ i :: rest := rfl
  rw [hsplit] at hlinks
  exact hlinks.neighbours.2

/-- Without its first order a queue is the rest of it. -/
theorem fifo_without_head (hother : ∀ j ∈ l₁ ++ l₂, j ≠ i) {rest : List (Index c)}
    (hq : b.fifo (l₁ ++ i :: l₂) ℓ = i :: rest) : b.fifo (l₁ ++ l₂) ℓ = rest := by
  have hℓ : (b.orders.get i).level = some ℓ :=
    (mem_fifo.mp (by rw [hq]; exact List.mem_cons_self : i ∈ b.fifo (l₁ ++ i :: l₂) ℓ)).2
  rw [fifo_append, fifo_cons_self hℓ] at hq
  rw [fifo_append]
  cases hf : b.fifo l₁ ℓ with
  | nil =>
    rw [hf] at hq
    exact (List.cons.inj hq).2
  | cons j r =>
    rw [hf] at hq
    have hj : j ∈ l₁ := (mem_fifo.mp (by rw [hf]; exact List.mem_cons_self : j ∈ b.fifo l₁ ℓ)).1
    exact absurd (List.cons.inj hq).1 (hother j (by simp [hj]))

end OrderBook

namespace Matching

variable {m m' : Matching c} {t t' : Trading} {l l' l₁ l₂ fl fo : List (Index c)}
  {i ℓ : Index c} {request : OrderRequest} {p : Price}

theorem fillMaker_whole_book (hwhole : m.traded i = (m.book.orders.get i).quantity) :
    (m.fillMaker request p ℓ i).book =
      { m.book with fillSequence := m.book.fillSequence + 1 }.removed i
        (m.book.orders.get i).id := by
  simp only [fillMaker, hwhole, if_true]
  exact removeMaker_eq _ i

theorem fillMaker_tableFull :
    (m.fillMaker request p ℓ i).book.LevelTableFull ↔ m.book.LevelTableFull := by
  by_cases hwhole : m.traded i = (m.book.orders.get i).quantity
  · rw [fillMaker_whole_book hwhole, removed_tableFull]
    rfl
  · simp only [fillMaker, if_neg hwhole]
    rfl

/-- How far a loop has come: the trading it follows, and what it has left untouched. -/
structure Reached (request : OrderRequest) (m : Matching c) (t : Trading) (l : List (Index c))
    (m' : Matching c) (t' : Trading) (l' : List (Index c)) : Prop where
  follows : ∃ fl fo, Follows m' t' l' fl fo
  trades : Trades request t t'
  length_le : l'.length ≤ l.length
  tableFull : m'.book.LevelTableFull ↔ m.book.LevelTableFull

/-- The inner loop fills the queue of the best level, and makes progress if there is any. -/
theorem fillLevel_spec (n : ℕ) {m : Matching c} {t : Trading} {l fl fo : List (Index c)}
    (hn : l.length ≤ n) (h : Follows m t l fl fo) (hbest : BestLevel m.book request p l ℓ) :
    ∃ m' t' l', Reached request m t l m' t' l' ∧
      (∀ fuel, n + 2 ≤ fuel →
        fillLevel request p ℓ fuel (m.book.fifo l ℓ).head? m = some m') ∧
      (m.book.fifo l ℓ ≠ [] → t.remaining ≠ 0 → t'.remaining ≠ 0 → l'.length < l.length) := by
  induction n using Nat.strongRecOn generalizing m t l fl fo with
  | ind n ih =>
  have hstop : Reached request m t l m t l := ⟨⟨fl, fo, h⟩, .done t, le_rfl, Iff.rfl⟩
  cases hq : m.book.fifo l ℓ with
  | nil =>
    refine ⟨m, t, l, hstop, fun fuel hfuel => ?_, fun hne => absurd rfl hne⟩
    obtain ⟨fuel, rfl⟩ : ∃ k, fuel = k + 1 := ⟨fuel - 1, by omega⟩
    simp [fillLevel]
  | cons i rest =>
    by_cases hzero : m.remaining = 0
    · refine ⟨m, t, l, hstop, fun fuel hfuel => ?_, fun _ hne => ?_⟩
      · obtain ⟨fuel, rfl⟩ : ∃ k, fuel = k + 1 := ⟨fuel - 1, by omega⟩
        simp [fillLevel, hzero]
      · exact absurd (h.remaining.symm.trans hzero) hne
    have hi : i ∈ m.book.fifo l ℓ := by
      rw [hq]
      exact List.mem_cons_self
    obtain ⟨hil, hℓ⟩ := mem_fifo.mp hi
    have hp : p = (m.book.orders.get i).price :=
      (congrArg LevelKey.price ((hbest.level_iff i hil).mp hℓ)).symm
    have hactive := (h.book.wf.linked.queues.level_active hil hℓ).1
    have hmaker : request.bestMaker t.book.resting = some (m.book.orders.get i).view := by
      rw [h.book.resting]
      exact hbest.bestMaker hq
    have hremaining : t.remaining ≠ 0 := fun he => hzero (h.remaining.trans he)
    by_cases hwhole : m.traded i = (m.book.orders.get i).quantity
    · obtain ⟨l₁, l₂, rfl, hother⟩ :=
        h.book.wf.orders.split h.book.wf.linked.queues.nodup hil
      obtain ⟨fl', hfollows⟩ := h.fill_whole request ℓ hother hwhole hp
      have hne : ∀ j ∈ l₁ ++ l₂, j ≠ i := fun j hj => (hother j hj).1
      have hcore : ∀ j, j ≠ i → ((m.fillMaker request p ℓ i).book.orders.get j).core =
          (m.book.orders.get j).core := by
        intro j hj
        rw [fillMaker_whole_book hwhole]
        exact removed_order_of_ne hj
      have hbest' : BestLevel (m.fillMaker request p ℓ i).book request p (l₁ ++ l₂) ℓ :=
        hbest.mono (fun k hk => by grind) fun k hk => hcore k (hne k hk)
      have hqueue : (m.fillMaker request p ℓ i).book.fifo (l₁ ++ l₂) ℓ = rest := by
        rw [← fifo_without_head hne hq]
        exact fifo_congr fun j hj => (congrArg Order.level (hcore j (hne j hj)) :)
      have hlen : (l₁ ++ l₂).length + 1 = (l₁ ++ i :: l₂).length := by
        simp only [List.length_append, List.length_cons]
        omega
      have hnext := (h.book.wf.linked.queues.queued ℓ hactive).next_head hq
      obtain ⟨m', t', l', hreached, hloop, -⟩ :=
        ih (n - 1) (by omega) (by omega) hfollows hbest'
      have hle := hreached.length_le
      refine ⟨m', t', l', ⟨hreached.follows, .fill hremaining hmaker hreached.trades, by omega,
        hreached.tableFull.trans fillMaker_tableFull⟩, fun fuel hfuel => ?_, fun _ _ _ => by omega⟩
      obtain ⟨fuel, rfl⟩ : ∃ k, fuel = k + 1 := ⟨fuel - 1, by omega⟩
      have hrec := hloop fuel (by omega)
      rw [hqueue] at hrec
      simpa [fillLevel, hzero, hwhole, hnext] using hrec
    · obtain ⟨hfollows, hnone⟩ := h.fill_part request hil hℓ hwhole hp
      refine ⟨_, _, l, ⟨⟨fl, fo, hfollows⟩, .fill hremaining hmaker (.done _), le_rfl,
        fillMaker_tableFull⟩, fun fuel hfuel => ?_, fun _ _ hne => ?_⟩
      · obtain ⟨fuel, rfl⟩ : ∃ k, fuel = k + 2 := ⟨fuel - 2, by omega⟩
        simp [fillLevel, hzero, hwhole, hnone]
      · exact absurd (hfollows.remaining.symm.trans hnone) hne

/-- The outer loop trades until nothing remains or no maker is reached. -/
theorem matchLoop_spec (request : OrderRequest) (n : ℕ) {m : Matching c} {t : Trading}
    {l fl fo : List (Index c)} (hn : l.length ≤ n) (h : Follows m t l fl fo) :
    ∃ m' t' l', Reached request m t l m' t' l' ∧ t'.Done request ∧
      ∀ fuel, n + 3 ≤ fuel → matchLoop request fuel m = some m' := by
  induction n using Nat.strongRecOn generalizing m t l fl fo with
  | ind n ih =>
  have hstop : Reached request m t l m t l := ⟨⟨fl, fo, h⟩, .done t, le_rfl, Iff.rfl⟩
  have hfuel : ∀ {fuel}, n + 3 ≤ fuel → ∃ k, fuel = k + 1 ∧ n + 2 ≤ k :=
    fun {fuel} hf => ⟨fuel - 1, by omega, by omega⟩
  by_cases hzero : m.remaining = 0
  · refine ⟨m, t, l, hstop, .inl (h.remaining.symm.trans hzero), fun fuel hf => ?_⟩
    obtain ⟨fuel, rfl, -⟩ := hfuel hf
    simp [matchLoop, hzero]
  cases htop : m.book.ladderTop request.side.opposite with
  | none =>
    refine ⟨m, t, l, hstop, .inr (h.book.bestMaker_none (by simp [htop])), fun fuel hf => ?_⟩
    obtain ⟨fuel, rfl, -⟩ := hfuel hf
    simp [matchLoop, hzero, htop]
  | some ℓ =>
    by_cases hcross : request.crosses (m.book.levels.get ℓ).price = true
    · have hactive := (h.book.ladderTop_some htop).1
      have hhead := (h.book.wf.linked.queues.queued ℓ hactive).links.head_eq
      have hne := h.book.wf.linked.nonempty ℓ hactive
      have hremaining : t.remaining ≠ 0 := fun he => hzero (h.remaining.trans he)
      obtain ⟨m₁, t₁, l₁, hreached, hinner, hprogress⟩ :=
        fillLevel_spec n hn h (h.book.bestLevel htop hcross)
      obtain ⟨fl₁, fo₁, hfollows⟩ := hreached.follows
      have hstep : ∀ {fuel}, n + 2 ≤ fuel →
          matchLoop request (fuel + 1) m = matchLoop request fuel m₁ := by
        intro fuel hf
        have := hinner fuel hf
        simp [matchLoop, hzero, htop, hcross, hhead, this]
      by_cases hzero₁ : m₁.remaining = 0
      · refine ⟨m₁, t₁, l₁, hreached, .inl (hfollows.remaining.symm.trans hzero₁),
          fun fuel hf => ?_⟩
        obtain ⟨fuel, rfl, hk⟩ := hfuel hf
        obtain ⟨k, rfl⟩ : ∃ k, fuel = k + 1 := ⟨fuel - 1, by omega⟩
        rw [hstep hk]
        simp [matchLoop, hzero₁]
      · have hlt := hprogress hne hremaining fun he => hzero₁ (hfollows.remaining.trans he)
        obtain ⟨m₂, t₂, l₂, hreached₂, hdone, hloop⟩ :=
          ih (n - 1) (by omega) (by omega) hfollows
        have hle := hreached₂.length_le
        refine ⟨m₂, t₂, l₂, ⟨hreached₂.follows, Trading.trans_trades hreached.trades
          hreached₂.trades, by omega, hreached₂.tableFull.trans hreached.tableFull⟩, hdone,
          fun fuel hf => ?_⟩
        obtain ⟨fuel, rfl, hk⟩ := hfuel hf
        rw [hstep hk]
        exact hloop fuel (by omega)
    · rw [Bool.not_eq_true] at hcross
      refine ⟨m, t, l, hstop, .inr (h.book.bestMaker_none (by simpa [htop] using hcross)),
        fun fuel hf => ?_⟩
      obtain ⟨fuel, rfl, -⟩ := hfuel hf
      simp [matchLoop, hzero, htop, hcross]

end Matching

namespace OrderBook

variable {b b' : OrderBook c} {a : PriceTimeBook} {l l' l₁ l₂ fl fo : List (Index c)}
  {i ℓ : Index c} {request : OrderRequest} {p : Price}

/-! ## Submitting -/

/-- The levels on a ladder, in heap order. -/
def onLadder (b : OrderBook c) (side : Side) : List (Index c) :=
  (List.range (b.ladder side).size).map (b.ladder side).heap.read

theorem LevelsOk.mem_onLadder (h : LevelsOk b fl) (side : Side) :
    ℓ ∈ b.onLadder side ↔ b.ActiveOn side ℓ := by
  have hplaced := (h.ladder side).placed
  simp only [onLadder, List.mem_map, List.mem_range]
  constructor
  · rintro ⟨k, hk, rfl⟩
    exact hplaced.mem k hk
  · exact fun hℓ => ⟨_, hplaced.pos_lt ℓ hℓ, hplaced.at_pos ℓ hℓ⟩

theorem LevelsOk.nodup_onLadder (h : LevelsOk b fl) (side : Side) : (b.onLadder side).Nodup := by
  rw [onLadder, List.nodup_map_iff_inj_on List.nodup_range]
  intro i hi j hj he
  exact (h.ladder side).placed.at_inj (List.mem_range.mp hi) (List.mem_range.mp hj) he

/-- The scan over the heap adds up what the reached orders offer. -/
theorem Shows.fillable_eq (h : Shows b a l fl fo) (request : OrderRequest) :
    b.fillableQuantity request = request.fillable a.resting := by
  let reached := (b.onLadder request.side.opposite).filter fun ℓ =>
    request.crosses (b.levels.get ℓ).price
  have hscan : b.fillableQuantity request =
      (reached.map fun ℓ => (b.levels.get ℓ).totalQuantity).sum := by
    have := Sorting.foldl_add_if (fun ℓ => request.crosses (b.levels.get ℓ).price)
      (fun ℓ => (b.levels.get ℓ).totalQuantity) (b.onLadder request.side.opposite) 0
    rw [zero_add] at this
    rw [← this, onLadder, List.foldl_map]
    rfl
  have hreached : ∀ ℓ ∈ reached, b.ActiveOn request.side.opposite ℓ := fun ℓ hℓ =>
    (h.wf.linked.levels.mem_onLadder _).mp (List.mem_filter.mp hℓ).1
  have htotals : (reached.map fun ℓ => (b.levels.get ℓ).totalQuantity) =
      reached.map fun ℓ => ((b.fifo l ℓ).map fun i => (b.orders.get i).quantity).sum :=
    List.map_congr_left fun ℓ hℓ => (h.wf.linked.queues.queued ℓ (hreached ℓ hℓ).1).total
  have hgroups : (reached.flatMap fun ℓ => b.fifo l ℓ).Perm
      (l.filter fun i => request.reaches (b.orders.get i).view) := by
    have hnodup : (reached.map some).Nodup :=
      ((h.wf.linked.levels.nodup_onLadder _).filter _).map (Option.some_injective _)
    have hperm := Sorting.flatMap_filter_perm hnodup (fun i => (b.orders.get i).level)
      l (p := fun i => request.reaches (b.orders.get i).view) fun i hi => by
        obtain ⟨ℓ, hℓ, hactive, hkey⟩ := h.wf.linked.queues.linked i hi
        have hside : (b.levels.get ℓ).side = (b.orders.get i).side :=
          congrArg LevelKey.side hkey
        have hprice : (b.levels.get ℓ).price = (b.orders.get i).price :=
          congrArg LevelKey.price hkey
        rw [reaches_view, hℓ]
        simp only [List.mem_map, Option.some.injEq, exists_eq_right, reached, List.mem_filter,
          h.wf.linked.levels.mem_onLadder, ActiveOn, hactive, hside, hprice, true_and]
    rw [List.flatMap_map] at hperm
    exact hperm
  rw [hscan, htotals, ← Sorting.sum_map_flatMap, (hgroups.map _).sum_eq,
    OrderRequest.fillable, h.resting, OrderBook.resting, List.filter_map, List.map_map]
  rfl

/-- What becomes of the remainder refines its abstract counterpart. -/
theorem settle_represents {m : Matching c} {t : Trading} (h : Represents m.book t.book)
    (hremaining : m.remaining = t.remaining) (request : OrderRequest) (refused : Bool)
    (hrefused : t.remaining ≠ 0 → request.mayRest = true →
      refused = m.book.restRefused request.id request.side request.priceTicks m.remaining) :
    (settle request m).1 = (PriceTimeBook.settle refused request t).1 ∧
      Represents (settle request m).2 (PriceTimeBook.settle refused request t).2 := by
  unfold settle PriceTimeBook.settle
  rw [hremaining]
  dsimp only
  by_cases hzero : t.remaining = 0
  · simp only [hzero, if_true]
    exact ⟨trivial, h⟩
  by_cases hrest : request.mayRest = true
  · simp only [hzero, hrest, if_false, if_true]
    obtain rfl := hrefused hzero hrest
    obtain ⟨hresult, hrep⟩ := h.rest request.id request.side request.priceTicks t.remaining
    rw [hremaining]
    rcases hb : m.book.restOrder request.id request.side request.priceTicks t.remaining
      with ⟨r, b'⟩
    rcases ha : t.book.rest (m.book.restRefused request.id request.side request.priceTicks
      t.remaining) request.id request.side request.priceTicks t.remaining with ⟨r', a'⟩
    rw [hb, ha] at hresult hrep
    subst hresult
    cases r <;> exact ⟨rfl, hrep⟩
  · simp only [hzero, hrest, if_false]
    exact ⟨rfl, h⟩

/-- The fuel with which a submit always ends. -/
def submitFuel (b : OrderBook c) : ℕ := b.orderCount + 3

/-- The matching loops of a submit end where the abstract trading ends. -/
theorem Represents.matchLoop (h : Represents b a) (request : OrderRequest) :
    ∃ m : Matching c, (∀ fuel, b.submitFuel ≤ fuel →
        Matching.matchLoop request fuel ⟨b, request.quantity, []⟩ = some m) ∧
      Represents m.book (a.traded request).book ∧ m.remaining = (a.traded request).remaining ∧
      m.fills = (a.traded request).fills ∧ (m.book.LevelTableFull ↔ b.LevelTableFull) := by
  obtain ⟨l, fl, fo, h⟩ := h
  have hlen : l.length = b.orderCount := h.wf.orders.count.symm
  obtain ⟨m, t, l', hreached, hdone, hloop⟩ := Matching.matchLoop_spec request l.length
    le_rfl (m := ⟨b, request.quantity, []⟩) (t := ⟨a, request.quantity, []⟩)
    ⟨h, rfl, rfl⟩
  have htraded : a.traded request = t := by
    apply Trading.matchAll_eq hreached.trades hdone
    exact Nat.lt_succ_self _
  obtain ⟨fl', fo', hfollows⟩ := hreached.follows
  refine ⟨m, fun fuel hf => hloop fuel ?_, ?_⟩
  · rw [submitFuel] at hf
    omega
  · rw [htraded]
    exact ⟨⟨l', fl', fo', hfollows.book⟩, hfollows.remaining, hfollows.fills,
      hreached.tableFull⟩

/-- With enough fuel every request refines its abstract counterpart. -/
theorem Represents.submit (h : Represents b a) (request : OrderRequest) {fuel : ℕ}
    (hfuel : b.submitFuel ≤ fuel) :
    ∃ b', b.submit fuel request =
        some ((a.submit (b.submitRefused fuel request) request).1,
          (a.submit (b.submitRefused fuel request) request).2.1, b') ∧
      Represents b' (a.submit (b.submitRefused fuel request) request).2.2 := by
  cases htype : request.type with
  | cancel =>
    obtain ⟨hresult, hrep⟩ := h.cancel request.id
    simp only [OrderBook.submit, PriceTimeBook.submit, htype]
    rcases hb : b.cancel request.id with ⟨r, b'⟩
    rcases ha : a.cancel request.id with ⟨r', a'⟩
    rw [hb, ha] at hresult hrep
    subst hresult
    cases r <;> exact ⟨b', rfl, hrep⟩
  | new =>
    have ⟨l, fl, fo, hshows⟩ := h
    have hfind : (a.find request.id).isSome = (b.findOrderIndex request.id).isSome := by
      rw [hshows.find_eq, Option.isSome_map]
    simp only [OrderBook.submit, PriceTimeBook.submit, htype, hfind, ← hshows.fillable_eq]
    by_cases hq : request.quantity = 0
    · simp only [hq, if_true]
      exact ⟨b, rfl, h⟩
    by_cases hdup : request.mayRest = true ∧ (b.findOrderIndex request.id).isSome = true
    · simp only [hq, if_false, if_pos hdup]
      exact ⟨b, rfl, h⟩
    by_cases hfok : request.tif = .fok ∧ b.fillableQuantity request < request.quantity
    · simp only [hq, if_false, if_neg hdup, if_pos hfok]
      exact ⟨b, rfl, h⟩
    obtain ⟨m, hloop, hrep, hremaining, hfills, -⟩ := h.matchLoop request
    simp only [hq, if_false, if_neg hdup, if_neg hfok, hloop fuel hfuel, hfills]
    have hsettle := settle_represents hrep hremaining request (b.submitRefused fuel request)
      fun hne hrest => by
        rw [← hremaining] at hne
        have hnone : b.findOrderIndex request.id = none := by simpa [hrest] using hdup
        simp [submitRefused, htype, hq, hfok, hloop fuel hfuel, hne, hrest, hnone]
    rw [← hsettle.1]
    exact ⟨_, rfl, hsettle.2⟩

end OrderBook

end MarketEngine
