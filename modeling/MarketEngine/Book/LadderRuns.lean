import MarketEngine.Book.Levels
import MarketEngine.Kit.Transition

/-! # Runs of the price ladders

Levels are pushed onto the ladder of a side and removed from anywhere on it.
Between these calls the rest of the book does as it likes with everything but
the heaps and the prices and positions of the levels on them.
-/

namespace MarketEngine

open IndexHeap Transition

variable {c : Capacity}

/-- A book, and the ladder that each of its level slots is on. -/
structure LadderState (c : Capacity) where
  book : OrderBook c
  on : Index c → Option Side

inductive LadderCall (c : Capacity)
  | push (side : Side) (index : Index c)
  | remove (side : Side) (index : Index c)
  | elsewhere

namespace LadderState

variable {s s' : LadderState c} {side : Side} {index : Index c}

def level (s : LadderState c) (index : Index c) : Level c := s.book.levels.get index

def move (s : LadderState c) (book : OrderBook c) (index : Index c) (on : Option Side) :
    LadderState c := ⟨book, Function.update s.on index on⟩

/-- Nothing that a ladder is made of is touched. -/
structure KeepsLadders (s s' : LadderState c) : Prop where
  on : s'.on = s.on
  bidHeap : s'.book.bidHeap = s.book.bidHeap
  askHeap : s'.book.askHeap = s.book.askHeap
  bidHeapSize : s'.book.bidHeapSize = s.book.bidHeapSize
  askHeapSize : s'.book.askHeapSize = s.book.askHeapSize
  price : ∀ index, s.on index ≠ none → (s'.level index).price = (s.level index).price
  heapPos : ∀ index, s.on index ≠ none → (s'.level index).heapPos = (s.level index).heapPos

/-- A level is pushed only while it is on no ladder and its price is new to the side, and removed
only from the ladder it is on. -/
inductive Step (s : LadderState c) : LadderCall c → LadderState c → Prop
  | push (side : Side) (index : Index c) (hoff : s.on index = none)
      (hprice : ∀ j, s.on j = some side → (s.level j).price ≠ (s.level index).price) :
      Step s (.push side index) (s.move (s.book.ladderPush side index) index (some side))
  | remove (side : Side) (index : Index c) (hon : s.on index = some side) :
      Step s (.remove side index) (s.move (s.book.ladderRemove side index) index none)
  | elsewhere (s' : LadderState c) (h : KeepsLadders s s') : Step s .elsewhere s'

/-- The constructor leaves both ladders empty. -/
def start (c : Capacity) : LadderState c := ⟨.fresh c, fun _ => none⟩

/-- What the ladder of a side is for. -/
structure Sound (s : LadderState c) (side : Side) : Prop where
  size_le : (s.book.ladder side).size ≤ c.val
  mem : ∀ index, s.on index = some side ↔
    ∃ pos < (s.book.ladder side).size, (s.book.ladder side).heap.read pos = index
  once : ∀ i < (s.book.ladder side).size, ∀ j < (s.book.ladder side).size,
    (s.book.ladder side).heap.read i = (s.book.ladder side).heap.read j → i = j
  heapPos : ∀ pos < (s.book.ladder side).size,
    (s.level ((s.book.ladder side).heap.read pos)).heapPos = pos
  before : ∀ pos, 0 < pos → pos < (s.book.ladder side).size →
    (s.book.ladder side).before side ((s.book.ladder side).heap.read ((pos - 1) / 2))
      ((s.book.ladder side).heap.read pos) = true
  top_none : s.book.ladderTop side = none ↔ ∀ index, s.on index ≠ some side
  top_some : ∀ top, s.book.ladderTop side = some top → s.on top = some side ∧
    ∀ index, s.on index = some side →
      match side with
      | .buy => (s.level index).price ≤ (s.level top).price
      | .sell => (s.level top).price ≤ (s.level index).price

/-! ## What a call keeps -/

/-- Each ladder is a heap of the levels on it, and they differ in price. -/
structure Ok (s : LadderState c) : Prop where
  holds : ∀ side, (s.book.ladder side).Holds side fun index => s.on index = some side
  distinct : ∀ side i j, s.on i = some side → s.on j = some side →
    (s.level i).price = (s.level j).price → i = j

theorem start_ok (c : Capacity) : (start c).Ok where
  holds side := by
    have hsize : ((start c).book.ladder side).size = 0 := by cases side <;> rfl
    refine ⟨hsize ▸ Nat.zero_le _, ⟨?_, ?_, ?_, ?_⟩, ?_⟩
    · intro i hi
      omega
    · intro i hi
      omega
    · rintro x ⟨⟩
    · rintro x ⟨⟩
    · intro i _ hi
      omega
  distinct side i j hi := nomatch hi

/-- Two ladders of one book share the level pool only. -/
theorem setLadder_holds {L : Ladder c} {S : Side → Index c → Prop}
    (hother : ∀ other, other ≠ side → (s.book.ladder other).Holds other (S other))
    (hL : L.Holds side (S side))
    (hprice : ∀ j, (L.levels.get j).price = (s.level j).price)
    (hpos : ∀ other j, other ≠ side → S other j → L.pos j = (s.level j).heapPos) (other : Side) :
    ((s.book.setLadder L side).ladder other).Holds other (S other) := by
  by_cases hs : other = side
  · subst hs
    rwa [OrderBook.setLadder_ladder]
  · rw [OrderBook.setLadder_ladder_of_ne _ _ hs]
    refine (hother other hs).congr rfl rfl (fun j _ => ?_) (fun j hj => ?_) fun _ => Iff.rfl
    · rw [OrderBook.ladder_levels]
      exact hprice j
    · rw [Ladder.pos, Ladder.pos, OrderBook.ladder_levels]
      exact hpos other j hs hj

theorem Ok.push (h : s.Ok) (hoff : s.on index = none)
    (hprice : ∀ j, s.on j = some side → (s.level j).price ≠ (s.level index).price) :
    (s.move (s.book.ladderPush side index) index (some side)).Ok := by
  have hon : ∀ other j, Function.update s.on index (some side) j = some other ↔
      (j = index ∧ other = side) ∨ s.on j = some other := by
    intro other j
    by_cases hj : j = index
    · subst hj
      simp [hoff, eq_comm]
    · simp [hj]
  obtain ⟨hsame, hholds⟩ := (h.holds side).push (i := index)
    (T := fun j => Function.update s.on index (some side) j = some side) (by simp [hoff])
    fun j => by simp [hon]
  have hprices : ∀ j, (((s.book.ladder side).push side index).levels.get j).price =
      (s.level j).price := by
    intro j
    rw [hsame.price, level, OrderBook.ladder_levels]
  constructor
  · refine setLadder_holds (fun other hs => ?_) hholds hprices fun other j hs hj => ?_
    · have hiff : ∀ j, Function.update s.on index (some side) j = some other ↔
          s.on j = some other := by simp [hon, hs]
      exact (h.holds other).congr rfl rfl (fun _ _ => rfl) (fun _ _ => rfl) hiff
    · rw [hsame.pos j, Ladder.pos, level, OrderBook.ladder_levels]
      rw [show Function.update s.on index (some side) j = some other from hj]
      simpa using hs
  · intro other i j hi hj heq
    have hlevel : ∀ k, ((s.move (s.book.ladderPush side index) index (some side)).level k).price =
        (s.level k).price := by
      intro k
      rw [← hprices, level, move, OrderBook.ladderPush, OrderBook.setLadder_levels]
    rw [hlevel, hlevel] at heq
    rcases (hon other i).mp hi with ⟨rfl, rfl⟩ | hi' <;>
      rcases (hon _ j).mp hj with ⟨rfl, hs⟩ | hj'
    · rfl
    · exact absurd heq.symm (hprice j hj')
    · subst hs
      exact absurd heq (hprice i hi')
    · exact h.distinct other i j hi' hj' heq

theorem Ok.remove (h : s.Ok) (hon : s.on index = some side) :
    (s.move (s.book.ladderRemove side index) index none).Ok := by
  have hoff : ∀ other j, Function.update s.on index none j = some other ↔
      j ≠ index ∧ s.on j = some other := by
    intro other j
    by_cases hj : j = index
    · simp [hj]
    · simp [hj]
  obtain ⟨hsame, hholds⟩ := (h.holds side).remove hon (hoff side)
  have hprices : ∀ j, (((s.book.ladder side).remove side index).levels.get j).price =
      (s.level j).price := by
    intro j
    rw [hsame.price, level, ← OrderBook.ladder_levels s.book side]
  constructor
  · refine setLadder_holds (fun other hs => ?_) hholds hprices fun other j hs hj => ?_
    · have hiff : ∀ j, Function.update s.on index none j = some other ↔ s.on j = some other := by
        intro j
        rw [hoff]
        refine and_iff_right_of_imp fun hj he => hs ?_
        rw [he, hon] at hj
        exact (Option.some.inj hj).symm
      exact (h.holds other).congr rfl rfl (fun _ _ => rfl) (fun _ _ => rfl) hiff
    · rw [hsame.pos j]
      · rw [level, ← OrderBook.ladder_levels s.book side]
        rfl
      · rw [((hoff other j).mp hj).2]
        simpa using hs
  · intro other i j hi hj heq
    have hlevel : ∀ k, ((s.move (s.book.ladderRemove side index) index none).level k).price =
        (s.level k).price := by
      intro k
      rw [← hprices, level, move, OrderBook.ladderRemove, OrderBook.setLadder_levels]
    rw [hlevel, hlevel] at heq
    exact h.distinct other i j ((hoff other i).mp hi).2 ((hoff other j).mp hj).2 heq

theorem Ok.elsewhere (h : s.Ok) (hs : KeepsLadders s s') : s'.Ok where
  holds side := by
    refine (h.holds side).congr ?_ ?_ (fun i hi => ?_) (fun i hi => ?_) fun i => by rw [hs.on]
    · cases side
      · exact hs.bidHeapSize
      · exact hs.askHeapSize
    · cases side
      · exact hs.bidHeap
      · exact hs.askHeap
    · have := hs.price i (by rw [hi]; simp)
      rwa [OrderBook.ladder_levels, OrderBook.ladder_levels]
    · have := hs.heapPos i (by rw [hi]; simp)
      rwa [Ladder.pos, Ladder.pos, OrderBook.ladder_levels, OrderBook.ladder_levels]
  distinct side i j hi hj heq := by
    rw [hs.on] at hi hj
    rw [hs.price i (by rw [hi]; simp), hs.price j (by rw [hj]; simp)] at heq
    exact h.distinct side i j hi hj heq

theorem Ok.step (h : s.Ok) {call : LadderCall c} (hstep : s.Step call s') : s'.Ok := by
  cases hstep with
  | push side index hoff hprice => exact h.push hoff hprice
  | remove side index hon => exact h.remove hon
  | elsewhere _ hs => exact h.elsewhere hs

/-! ## What holds after any calls -/

theorem Ok.sound (h : s.Ok) (side : Side) : s.Sound side := by
  have hholds := h.holds side
  have hlevel : ∀ index, ((s.book.ladder side).levels.get index) = s.level index := by
    intro index
    rw [OrderBook.ladder_levels]
    rfl
  refine ⟨hholds.size_le, fun index => ⟨fun hon => ?_, ?_⟩, ?_, ?_, ?_, hholds.top_eq_none_iff, ?_⟩
  · exact ⟨_, hholds.placed.pos_lt index hon, hholds.placed.at_pos index hon⟩
  · rintro ⟨pos, hpos, rfl⟩
    exact hholds.placed.mem pos hpos
  · exact fun i hi j hj => hholds.placed.at_inj hi hj
  · intro pos hpos
    rw [← hlevel]
    exact hholds.placed.pos_at pos hpos
  · intro pos hzero hpos
    have hparent : (pos - 1) / 2 < (s.book.ladder side).size := by omega
    -- two positions hold two levels, and two levels of a side have two prices
    have hne : (s.book.ladder side).rank side ((s.book.ladder side).heap.read ((pos - 1) / 2)) ≠
        (s.book.ladder side).rank side ((s.book.ladder side).heap.read pos) := by
      intro heq
      have hprice := side.rank_injective heq
      rw [hlevel, hlevel] at hprice
      have hsame := h.distinct side _ _ (hholds.placed.mem _ hparent) (hholds.placed.mem pos hpos)
        hprice
      have := hholds.placed.at_inj hparent hpos hsame
      omega
    rw [Ladder.before_iff]
    exact lt_of_le_of_ne (hholds.ordered pos hzero hpos) hne
  · intro top htop
    obtain ⟨hon, hle⟩ := hholds.top_eq_some htop
    refine ⟨hon, fun index hindex => ?_⟩
    have hrank := hle index hindex
    rw [Ladder.rank, Ladder.rank, hlevel, hlevel] at hrank
    cases side with
    | buy => exact Int64.le_iff_toInt_le.mpr (by simpa [Side.rank] using hrank)
    | sell => exact Int64.le_iff_toInt_le.mpr hrank

/-- However levels come and go, both ladders stay heaps with the best level on top. -/
theorem ladders_sound {calls : List (LadderCall c)} (hrun : Run Step (start c) calls s)
    (side : Side) : s.Sound side := by
  have hok : s.Ok := hrun.invariant_labels (I := fun _ s => s.Ok) (start_ok c)
    fun _ _ _ _ hok hstep => hok.step hstep
  exact hok.sound side

/-- Three levels, of which none is on a ladder. -/
def offered : LadderState .three :=
  ⟨{ OrderBook.fresh .three with levels := ⟨fun i => { price := Int64.ofNat (10 + i.val) }⟩ },
    fun _ => none⟩

/-- All three bids, worst first. -/
def bidding : LadderState .three :=
  let s := offered.move (offered.book.ladderPush .buy 0) 0 (some .buy)
  let s := s.move (s.book.ladderPush .buy 1) 1 (some .buy)
  s.move (s.book.ladderPush .buy 2) 2 (some .buy)

/-- The worst bid leaves from the middle of the heap. -/
def outbid : LadderState .three := bidding.move (bidding.book.ladderRemove .buy 0) 0 none

theorem outbid_sound : outbid.Sound .buy ∧ outbid.book.ladderTop .buy = some 2 := by
  have hoffered : Run Step (start .three) [.elsewhere] offered :=
    .next .start (.elsewhere offered
      ⟨rfl, rfl, rfl, rfl, rfl, fun _ h => absurd rfl h, fun _ h => absurd rfl h⟩)
  have hfirst := hoffered.next (.push .buy 0 rfl (by decide))
  have hsecond := hfirst.next (.push .buy 1 rfl (by decide +kernel))
  have hbidding := hsecond.next (.push .buy 2 rfl (by decide +kernel))
  exact ⟨ladders_sound (hbidding.next (.remove .buy 0 rfl)) .buy, by decide +kernel⟩

end LadderState

end MarketEngine
