import MarketEngine.Book.Ladder
import MarketEngine.Book.Refusal
import MarketEngine.Kit.Intrusive

/-! # The pool of price levels

Every level slot is either free or active. The active ones are indexed by side
and price and lie on the ladder of their side. Acquiring a level takes a slot
off the free list, unless the level index has no room for the key; releasing it
puts the slot back.
-/

namespace MarketEngine

open IndexHeap Intrusive ProbeTable

variable {c : Capacity}

/-- The key a level is indexed by. -/
def Level.key (level : Level c) : LevelKey := ⟨level.side, level.price⟩

/-- A level without its queue. -/
def Level.shell (level : Level c) : Level c :=
  { level with head := none, tail := none, totalQuantity := 0, orderCount := 0 }

namespace Ladder

variable {L L' : Ladder c} {side : Side} {S S' : Index c → Prop}

/-- Only the prices and positions of the levels on it matter to a ladder. -/
theorem Holds.congr (h : L.Holds side S) (hsize : L'.size = L.size) (hheap : L'.heap = L.heap)
    (hprice : ∀ i, S i → (L'.levels.get i).price = (L.levels.get i).price)
    (hpos : ∀ i, S i → L'.pos i = L.pos i) (hS : ∀ i, S' i ↔ S i) : L'.Holds side S' := by
  obtain rfl : S' = S := funext fun i => propext (hS i)
  have hrank : ∀ i < L.size, L'.rank side (L.heap.read i) = L.rank side (L.heap.read i) := by
    intro i hi
    rw [rank, rank, hprice _ (h.placed.mem i hi)]
  refine ⟨hsize ▸ h.size_le, ?_, ?_⟩
  · rw [hheap, hsize]
    exact h.placed.congr_pos hpos
  · rw [hheap, hsize]
    intro i hi hin
    rw [InOrder, hrank i hin, hrank _ (by omega)]
    exact h.ordered i hi hin

end Ladder

namespace OrderBook

variable {b b' b'' : OrderBook c} {free : List (Index c)}

/-- The levels of one side that are in use. -/
def ActiveOn (b : OrderBook c) (side : Side) (i : Index c) : Prop :=
  (b.levels.get i).active = true ∧ (b.levels.get i).side = side

/-- The level pool, its free list `free`, its index and its ladders agree. -/
structure LevelsOk (b : OrderBook c) (free : List (Index c)) : Prop where
  chain : Chain (fun i => (b.levels.get i).nextFree) b.freeLevel free
  nodup : free.Nodup
  free_iff : ∀ i, i ∈ free ↔ (b.levels.get i).active = false
  table : Valid (levelHome c) b.levelLookup
  maps_iff : ∀ key i, Maps b.levelLookup key i ↔
    (b.levels.get i).active = true ∧ (b.levels.get i).key = key
  ladder : ∀ side, (b.ladder side).Holds side (b.ActiveOn side)

/-- The orders are the same ones, and nothing but the levels differs. -/
structure SameOrders (b b' : OrderBook c) : Prop where
  orders : b'.orders = b.orders
  orderLookup : b'.orderLookup = b.orderLookup
  freeOrder : b'.freeOrder = b.freeOrder
  activeOrders : b'.activeOrders = b.activeOrders
  nextPriority : b'.nextPriority = b.nextPriority
  fillSequence : b'.fillSequence = b.fillSequence

/-- The levels, their index and ladders are the same but for the queues of the levels. -/
structure SameIndex (b b' : OrderBook c) : Prop where
  shell : ∀ i, (b'.levels.get i).shell = (b.levels.get i).shell
  levelLookup : b'.levelLookup = b.levelLookup
  freeLevel : b'.freeLevel = b.freeLevel
  bidHeap : b'.bidHeap = b.bidHeap
  askHeap : b'.askHeap = b.askHeap
  bidHeapSize : b'.bidHeapSize = b.bidHeapSize
  askHeapSize : b'.askHeapSize = b.askHeapSize

theorem SameOrders.refl (b : OrderBook c) : SameOrders b b := ⟨rfl, rfl, rfl, rfl, rfl, rfl⟩

theorem SameOrders.trans (h : SameOrders b b') (h' : SameOrders b' b'') : SameOrders b b'' :=
  ⟨h'.orders.trans h.orders, h'.orderLookup.trans h.orderLookup, h'.freeOrder.trans h.freeOrder,
    h'.activeOrders.trans h.activeOrders, h'.nextPriority.trans h.nextPriority,
    h'.fillSequence.trans h.fillSequence⟩

theorem SameIndex.active (h : SameIndex b b') (i : Index c) :
    (b'.levels.get i).active = (b.levels.get i).active :=
  (congrArg Level.active (h.shell i) :)

theorem SameIndex.side (h : SameIndex b b') (i : Index c) :
    (b'.levels.get i).side = (b.levels.get i).side :=
  (congrArg Level.side (h.shell i) :)

theorem SameIndex.price (h : SameIndex b b') (i : Index c) :
    (b'.levels.get i).price = (b.levels.get i).price :=
  (congrArg Level.price (h.shell i) :)

theorem SameIndex.key (h : SameIndex b b') (i : Index c) :
    (b'.levels.get i).key = (b.levels.get i).key :=
  (congrArg Level.key (h.shell i) :)

theorem SameIndex.activeOn (h : SameIndex b b') (side : Side) (i : Index c) :
    b'.ActiveOn side i ↔ b.ActiveOn side i := by
  rw [ActiveOn, ActiveOn, h.active, h.side]

/-- The queues of the levels are of no concern to the level pool. -/
theorem LevelsOk.congr (h : LevelsOk b free) (hs : SameIndex b b') : LevelsOk b' free where
  chain := by
    rw [hs.freeLevel]
    exact h.chain.congr fun i _ => (congrArg Level.nextFree (hs.shell i) :)
  nodup := h.nodup
  free_iff i := by rw [h.free_iff, hs.active]
  table := by
    rw [hs.levelLookup]
    exact h.table
  maps_iff key i := by rw [hs.levelLookup, h.maps_iff, hs.active, hs.key]
  ladder side := by
    refine (h.ladder side).congr ?_ ?_ ?_ ?_ (hs.activeOn side)
    · cases side
      · exact hs.bidHeapSize
      · exact hs.askHeapSize
    · cases side
      · exact hs.bidHeap
      · exact hs.askHeap
    · intro i _
      have := hs.price i
      cases side <;> exact this
    · intro i _
      have := congrArg Level.heapPos (hs.shell i)
      cases side <;> exact this

/-! ## Writing a ladder back -/

theorem ladder_levels (b : OrderBook c) (side : Side) : (b.ladder side).levels = b.levels := by
  cases side <;> rfl

theorem setLadder_levels (b : OrderBook c) (L : Ladder c) (side : Side) :
    (b.setLadder L side).levels = L.levels := by
  cases side <;> rfl

theorem setLadder_ladder (b : OrderBook c) (L : Ladder c) (side : Side) :
    (b.setLadder L side).ladder side = L := by
  cases side <;> rfl

theorem setLadder_ladder_of_ne (b : OrderBook c) (L : Ladder c) {side other : Side}
    (h : other ≠ side) :
    (b.setLadder L side).ladder other = { b.ladder other with levels := L.levels } := by
  cases side <;> cases other <;> first | rfl | exact absurd rfl h

theorem setLadder_sameOrders (b : OrderBook c) (L : Ladder c) (side : Side) :
    SameOrders b (b.setLadder L side) := by
  cases side <;> exact ⟨rfl, rfl, rfl, rfl, rfl, rfl⟩

theorem setLadder_levelLookup (b : OrderBook c) (L : Ladder c) (side : Side) :
    (b.setLadder L side).levelLookup = b.levelLookup := by
  cases side <;> rfl

theorem setLadder_freeLevel (b : OrderBook c) (L : Ladder c) (side : Side) :
    (b.setLadder L side).freeLevel = b.freeLevel := by
  cases side <;> rfl

/-! ## Releasing a level -/

theorem LevelsOk.not_mem_free (h : LevelsOk b free) {index : Index c}
    (ha : (b.levels.get index).active = true) : index ∉ free := by
  rw [h.free_iff, ha]
  simp

/-- Only one level in use has a given key. -/
theorem LevelsOk.key_inj (h : LevelsOk b free) {i j : Index c}
    (hi : (b.levels.get i).active = true) (hj : (b.levels.get j).active = true)
    (hk : (b.levels.get i).key = (b.levels.get j).key) : i = j :=
  h.table.maps_unique ((h.maps_iff _ i).mpr ⟨hi, hk⟩) ((h.maps_iff _ j).mpr ⟨hj, rfl⟩)

theorem releaseLevel_sameOrders (b : OrderBook c) (index : Index c) :
    SameOrders b (b.releaseLevel index) :=
  (setLadder_sameOrders b _ _).trans ⟨rfl, rfl, rfl, rfl, rfl, rfl⟩

section Release

variable {index : Index c}

theorem releaseLevel_levels (b : OrderBook c) (index : Index c) :
    (b.releaseLevel index).levels =
      ((b.ladder (b.levels.get index).side).remove (b.levels.get index).side index).levels.modify
        index fun level => { level with active := false, nextFree := b.freeLevel } := by
  simp only [releaseLevel, freeLevelSlot, ladderRemove, eraseLevelLookup, setLadder_levels,
    setLadder_freeLevel]

theorem releaseLevel_ladder (b : OrderBook c) (index : Index c) (side : Side) :
    (b.releaseLevel index).ladder side =
      { (b.setLadder ((b.ladder (b.levels.get index).side).remove
          (b.levels.get index).side index) (b.levels.get index).side).ladder side with
        levels := (b.releaseLevel index).levels } := by
  cases side <;> rfl

/-- A released level is free and the other levels keep everything but their heap positions. -/
theorem releaseLevel_frame (h : LevelsOk b free) (ha : (b.levels.get index).active = true) :
    ((b.releaseLevel index).levels.get index).active = false ∧
      ∀ j, j ≠ index →
        ((b.releaseLevel index).levels.get j).core = (b.levels.get j).core := by
  have hsame := ((h.ladder _).remove (i := index) ⟨ha, rfl⟩ fun _ => Iff.rfl).1
  rw [releaseLevel_levels]
  refine ⟨by rw [Pool.get_modify_self], fun j hj => ?_⟩
  rw [Pool.get_modify_of_ne _ _ hj, hsame.core]
  simp only [ladder_levels]

theorem releaseLevel_active (h : LevelsOk b free) (ha : (b.levels.get index).active = true)
    (j : Index c) : ((b.releaseLevel index).levels.get j).active = true ↔
      j ≠ index ∧ (b.levels.get j).active = true := by
  obtain ⟨hfree, hcore⟩ := releaseLevel_frame h ha
  by_cases hj : j = index
  · subst hj
    simp [hfree]
  · have hsame : ((b.releaseLevel index).levels.get j).active = (b.levels.get j).active :=
      (congrArg Level.active (hcore j hj) :)
    simp [hj, hsame]

theorem releaseLevel_activeOn (h : LevelsOk b free) (ha : (b.levels.get index).active = true)
    (side : Side) (j : Index c) :
    (b.releaseLevel index).ActiveOn side j ↔ j ≠ index ∧ b.ActiveOn side j := by
  obtain ⟨-, hcore⟩ := releaseLevel_frame h ha
  rw [ActiveOn, ActiveOn, releaseLevel_active h ha, and_assoc]
  apply and_congr_right
  intro hj
  have hsame : ((b.releaseLevel index).levels.get j).side = (b.levels.get j).side :=
    (congrArg Level.side (hcore j hj) :)
  rw [hsame]

/-- The level is off its own ladder, and the other ladder does not notice. -/
theorem releaseLevel_holds (h : LevelsOk b free) (ha : (b.levels.get index).active = true)
    (side : Side) :
    ((b.releaseLevel index).ladder side).Holds side ((b.releaseLevel index).ActiveOn side) := by
  obtain ⟨-, hcore⟩ := releaseLevel_frame h ha
  obtain ⟨hsame, hholds⟩ :=
    (h.ladder (b.levels.get index).side).remove (i := index) ⟨ha, rfl⟩ fun _ => Iff.rfl
  have hactiveOn := releaseLevel_activeOn h ha
  have hprice : ∀ j, ((b.releaseLevel index).levels.get j).price = (b.levels.get j).price := by
    intro j
    by_cases hj : j = index
    · subst hj
      rw [releaseLevel_levels, Pool.get_modify_self]
      simp only [hsame.price, ladder_levels]
    · exact (congrArg Level.price (hcore j hj) :)
  have hpos : ∀ j, ((b.releaseLevel index).levels.get j).heapPos =
      ((b.ladder (b.levels.get index).side).remove (b.levels.get index).side index).pos j := by
    intro j
    rw [releaseLevel_levels, Pool.get_modify]
    split <;> rfl
  rw [releaseLevel_ladder]
  by_cases hs : side = (b.levels.get index).side
  · subst hs
    rw [setLadder_ladder]
    refine hholds.congr rfl rfl (fun i _ => ?_) (fun i _ => hpos i) (hactiveOn _)
    simp only [hprice, hsame.price, ladder_levels]
  · rw [setLadder_ladder_of_ne _ _ hs]
    refine (h.ladder side).congr rfl rfl (fun i _ => ?_) (fun i hi => ?_) fun i => ?_
    · rw [hprice, ladder_levels]
    · refine (hpos i).trans ((hsame.pos i ?_).trans ?_)
      · exact fun hi' => hs (hi.2.symm.trans hi'.2)
      · simp only [Ladder.pos, ladder_levels]
    · rw [hactiveOn]
      refine ⟨fun hi => hi.2, fun hi => ⟨?_, hi⟩⟩
      rintro rfl
      exact hs hi.2.symm

theorem releaseLevel_lookup (b : OrderBook c) (index : Index c) :
    (b.releaseLevel index).levelLookup = ProbeTable.erase b.levelLookup
      (levelHome c (b.levels.get index).key) (b.levels.get index).key := by
  simp only [releaseLevel, freeLevelSlot, eraseLevelLookup, ladderRemove, setLadder_levelLookup]
  rfl

theorem releaseLevel_ok (h : LevelsOk b free) (ha : (b.levels.get index).active = true) :
    LevelsOk (b.releaseLevel index) (index :: free) := by
  obtain ⟨-, hcore⟩ := releaseLevel_frame h ha
  have hnot := h.not_mem_free ha
  have hactive := releaseLevel_active h ha
  have hkey : ∀ j, j ≠ index →
      ((b.releaseLevel index).levels.get j).key = (b.levels.get j).key :=
    fun j hj => (congrArg Level.key (hcore j hj) :)
  constructor
  · apply h.chain.push
    · rw [releaseLevel_levels, Pool.get_modify_self]
    · intro j hj
      exact (congrArg Level.nextFree (hcore j fun he => hnot (he ▸ hj)) :)
  · exact List.nodup_cons.mpr ⟨hnot, h.nodup⟩
  · intro i
    rw [List.mem_cons, h.free_iff, ← Bool.not_eq_true, ← Bool.not_eq_true, hactive]
    tauto
  · rw [releaseLevel_lookup]
    exact h.table.erase _
  · intro key i
    have hmaps : Maps (b.releaseLevel index).levelLookup key i ↔
        key ≠ (b.levels.get index).key ∧ Maps b.levelLookup key i := by
      rw [releaseLevel_lookup]
      exact h.table.maps_erase
    rw [hmaps, h.maps_iff, hactive]
    constructor
    · rintro ⟨hne, hi, rfl⟩
      have hij : i ≠ index := fun he => hne (by rw [he])
      exact ⟨⟨hij, hi⟩, hkey i hij⟩
    · rintro ⟨⟨hij, hi⟩, rfl⟩
      rw [hkey i hij]
      exact ⟨fun he => hij (h.key_inj hi ha he), hi, rfl⟩
  · exact releaseLevel_holds h ha

end Release

/-! ## Acquiring a level -/

theorem LevelsOk.find_eq_some_iff (h : LevelsOk b free) {side : Side} {price : Price}
    {i : Index c} : b.findLevelIndex side price = some i ↔
      (b.levels.get i).active = true ∧ (b.levels.get i).key = ⟨side, price⟩ := by
  rw [findLevelIndex, h.table.lookup_eq_some_iff, h.maps_iff]

theorem LevelsOk.find_eq_none_iff (h : LevelsOk b free) {side : Side} {price : Price} :
    b.findLevelIndex side price = none ↔
      ∀ i, (b.levels.get i).active = true → (b.levels.get i).key ≠ ⟨side, price⟩ := by
  simp only [findLevelIndex, h.table.lookup_eq_none_iff, h.maps_iff, not_and]

/-- The level a slot becomes when it is taken off the free list. -/
def Level.opened (side : Side) (price : Price) : Level c :=
  { price := price, side := side, active := true }

/-- What acquiring a level can do: find it, fail for want of a free slot, fail because the
level index refuses the key, or open a new one in the first free slot. -/
inductive Acquired (b : OrderBook c) (free : List (Index c)) (side : Side) (price : Price) :
    Option (Index c) → OrderBook c → Prop
  | found (i : Index c) (hactive : (b.levels.get i).active = true)
      (hkey : (b.levels.get i).key = ⟨side, price⟩) : Acquired b free side price (some i) b
  | exhausted (hfind : b.findLevelIndex side price = none) (hfree : free = []) :
      Acquired b free side price none b
  | refused (b' : OrderBook c) (hrefused : b.levelRefused side price = true)
      (hok : LevelsOk b' free) (horders : SameOrders b b')
      (hactive : ∀ i, (b'.levels.get i).active = (b.levels.get i).active)
      (hlevel : ∀ i, (b.levels.get i).active = true → b'.levels.get i = b.levels.get i) :
      Acquired b free side price none b'
  | opened (i : Index c) (rest : List (Index c)) (b' : OrderBook c)
      (hfind : b.findLevelIndex side price = none) (hrefused : b.levelRefused side price = false)
      (hfree : free = i :: rest) (hok : LevelsOk b' rest) (horders : SameOrders b b')
      (hopened : (b'.levels.get i).core = (Level.opened side price : Level c).core)
      (hlevel : ∀ j, j ≠ i → (b'.levels.get j).core = (b.levels.get j).core) :
      Acquired b free side price (some i) b'

section Take

variable {i : Index c} {rest : List (Index c)}

theorem LevelsOk.head_inactive (h : LevelsOk b (i :: rest)) : (b.levels.get i).active = false :=
  (h.free_iff i).mp List.mem_cons_self

theorem LevelsOk.ne_head (h : LevelsOk b (i :: rest)) {j : Index c}
    (hj : (b.levels.get j).active = true) : j ≠ i := by
  rintro rfl
  simp [h.head_inactive] at hj

theorem refused_active (h : LevelsOk b (i :: rest)) (side : Side) (price : Price) (j : Index c) :
    (((b.takeLevelSlot i side price).freeLevelSlot i).levels.get j).active =
      (b.levels.get j).active := by
  simp only [freeLevelSlot, takeLevelSlot, Pool.get_modify, Pool.get_set]
  split
  · next hj => rw [hj, h.head_inactive]
  · rfl

theorem refused_level (h : LevelsOk b (i :: rest)) (side : Side) (price : Price) (j : Index c)
    (hj : (b.levels.get j).active = true) :
    ((b.takeLevelSlot i side price).freeLevelSlot i).levels.get j = b.levels.get j := by
  simp only [freeLevelSlot, takeLevelSlot, Pool.get_modify_of_ne _ _ (h.ne_head hj),
    Pool.get_set_of_ne _ _ (h.ne_head hj)]

/-- A level slot that is taken and given back at once is free again. -/
theorem refused_ok (h : LevelsOk b (i :: rest)) (side : Side) (price : Price) :
    LevelsOk ((b.takeLevelSlot i side price).freeLevelSlot i) (i :: rest) := by
  have hactive := refused_active h side price
  have hlevel := refused_level h side price
  constructor
  · refine ⟨rfl, ?_⟩
    simp only [freeLevelSlot, takeLevelSlot, Pool.get_modify_self]
    apply h.chain.2.congr
    intro j hj
    have hne : j ≠ i := by
      rintro rfl
      exact (List.nodup_cons.mp h.nodup).1 hj
    simp only [Pool.get_modify_of_ne _ _ hne, Pool.get_set_of_ne _ _ hne]
  · exact h.nodup
  · intro j
    rw [h.free_iff, hactive]
  · exact h.table
  · intro key j
    rw [hactive]
    refine (h.maps_iff key j).trans (and_congr_right fun hj => ?_)
    rw [hlevel j hj]
  · intro s
    refine (h.ladder s).congr ?_ ?_ (fun j hj => ?_) (fun j hj => ?_) fun j => ?_
    · cases s <;> rfl
    · cases s <;> rfl
    · rw [ladder_levels, ladder_levels, hlevel j hj.1]
    · rw [Ladder.pos, Ladder.pos, ladder_levels, ladder_levels, hlevel j hj.1]
    · rw [ActiveOn, ActiveOn, hactive]
      apply and_congr_right
      intro hj
      rw [hlevel j hj]

/-- The level slot at `i`, opened and indexed but not yet on its ladder. -/
def indexed (b : OrderBook c) (i : Index c) (side : Side) (price : Price)
    (slot : Fin (tableSize c)) : OrderBook c :=
  { b.takeLevelSlot i side price with
    levelLookup := b.levelLookup.set slot (.occupied ⟨side, price⟩ i) }

/-- The ladders do not see a slot that is not on them. -/
theorem indexed_ladder (h : LevelsOk b (i :: rest)) (side : Side) (price : Price)
    (slot : Fin (tableSize c)) (s : Side) :
    ((b.indexed i side price slot).ladder s).Holds s (b.ActiveOn s) := by
  have hinactive := h.head_inactive
  have hlevel : ∀ j, b.ActiveOn s j →
      (b.indexed i side price slot).levels.get j = b.levels.get j := by
    intro j hj
    apply Pool.get_set_of_ne _ _
    rintro rfl
    simp [ActiveOn, hinactive] at hj
  refine (h.ladder s).congr ?_ ?_ (fun j hj => ?_) (fun j hj => ?_) fun j => Iff.rfl
  · cases s <;> rfl
  · cases s <;> rfl
  · rw [ladder_levels, ladder_levels, hlevel j hj]
  · rw [Ladder.pos, Ladder.pos, ladder_levels, ladder_levels, hlevel j hj]

theorem opened_frame (h : LevelsOk b (i :: rest)) (side : Side) (price : Price)
    (slot : Fin (tableSize c)) (j : Index c) :
    ((((b.indexed i side price slot).ladderPush side i).levels.get j).core =
      ((b.indexed i side price slot).levels.get j).core) := by
  have hinactive := h.head_inactive
  have hpush := (indexed_ladder h side price slot side).push (i := i)
    (by simp [ActiveOn, hinactive]) fun _ => Iff.rfl
  rw [ladderPush, setLadder_levels, hpush.1.core]
  simp only [ladder_levels]

/-- The opened level is new, and the others keep everything but their heap positions. -/
theorem opened_core (h : LevelsOk b (i :: rest)) (side : Side) (price : Price)
    (slot : Fin (tableSize c)) (j : Index c) :
    (((b.indexed i side price slot).ladderPush side i).levels.get j).core =
      if j = i then (Level.opened side price : Level c).core else (b.levels.get j).core := by
  rw [opened_frame h side price slot j]
  split_ifs with hj
  · subst hj
    simp [indexed, takeLevelSlot, Level.opened]
  · simp only [indexed, takeLevelSlot, Pool.get_set_of_ne _ _ hj]

theorem opened_active (h : LevelsOk b (i :: rest)) (side : Side) (price : Price)
    (slot : Fin (tableSize c)) (j : Index c) :
    (((b.indexed i side price slot).ladderPush side i).levels.get j).active = true ↔
      j = i ∨ (b.levels.get j).active = true := by
  have hcore := opened_core h side price slot j
  by_cases hj : j = i
  · rw [if_pos hj] at hcore
    have hactive := (congrArg Level.active hcore :)
    exact iff_of_true hactive (.inl hj)
  · rw [if_neg hj] at hcore
    have hactive : (((b.indexed i side price slot).ladderPush side i).levels.get j).active =
        (b.levels.get j).active := (congrArg Level.active hcore :)
    rw [hactive, or_iff_right hj]

theorem opened_activeOn (h : LevelsOk b (i :: rest)) (side : Side) (price : Price)
    (slot : Fin (tableSize c)) (s : Side) (j : Index c) :
    ((b.indexed i side price slot).ladderPush side i).ActiveOn s j ↔
      (j = i ∧ s = side) ∨ b.ActiveOn s j := by
  have hinactive := h.head_inactive
  have hcore := opened_core h side price slot j
  rw [ActiveOn, ActiveOn, opened_active h]
  by_cases hj : j = i
  · rw [if_pos hj] at hcore
    have hside : (((b.indexed i side price slot).ladderPush side i).levels.get j).side = side :=
      (congrArg Level.side hcore :)
    subst hj
    simp [hinactive, hside, eq_comm]
  · rw [if_neg hj] at hcore
    have hside : (((b.indexed i side price slot).ladderPush side i).levels.get j).side =
        (b.levels.get j).side := (congrArg Level.side hcore :)
    simp [hj, hside]

/-- The level is on its own ladder, and the other ladder does not notice. -/
theorem opened_holds (h : LevelsOk b (i :: rest)) (side : Side) (price : Price)
    (slot : Fin (tableSize c)) (s : Side) :
    (((b.indexed i side price slot).ladderPush side i).ladder s).Holds s
      (((b.indexed i side price slot).ladderPush side i).ActiveOn s) := by
  have hinactive := h.head_inactive
  have hladder := indexed_ladder h side price slot
  have hactiveOn := opened_activeOn h side price slot
  have hpush := (hladder side).push (i := i)
    (T := ((b.indexed i side price slot).ladderPush side i).ActiveOn side)
    (by simp [ActiveOn, hinactive]) fun j => by rw [hactiveOn]; simp
  by_cases hs : s = side
  · subst hs
    rw [ladderPush, setLadder_ladder]
    exact hpush.2
  · have hsame : ((b.indexed i side price slot).ladderPush side i).ladder s = _ :=
      setLadder_ladder_of_ne _ _ hs
    rw [hsame]
    refine (hladder s).congr rfl rfl (fun j hj => ?_) (fun j hj => ?_) fun j => ?_
    · simp only [hpush.1.price, ladder_levels]
    · refine (hpush.1.pos j ?_).trans ?_
      · rw [hactiveOn]
        rintro (⟨rfl, -⟩ | hj')
        · simp [ActiveOn, hinactive] at hj
        · exact hs (hj.2.symm.trans hj'.2)
      · simp only [Ladder.pos, ladder_levels]
    · rw [hactiveOn]
      simp [hs]

theorem opened_ok (h : LevelsOk b (i :: rest)) {side : Side} {price : Price}
    (hfind : b.findLevelIndex side price = none) {slot : Fin (tableSize c)}
    (hslot : Reachable (levelHome c) b.levelLookup ⟨side, price⟩ slot) :
    LevelsOk ((b.indexed i side price slot).ladderPush side i) rest := by
  obtain ⟨hi, hrest⟩ := List.nodup_cons.mp h.nodup
  have hinactive := h.head_inactive
  have hcore := opened_core h side price slot
  have hactive := opened_active h side price slot
  have hlookup : ((b.indexed i side price slot).ladderPush side i).levelLookup =
      b.levelLookup.set slot (.occupied ⟨side, price⟩ i) := by
    rw [ladderPush, setLadder_levelLookup]
    rfl
  constructor
  · have hfree : ((b.indexed i side price slot).ladderPush side i).freeLevel =
        (b.levels.get i).nextFree := by
      rw [ladderPush, setLadder_freeLevel]
      rfl
    rw [hfree]
    apply h.chain.2.congr
    intro j hj
    have hne : j ≠ i := fun he => hi (he ▸ hj)
    have hj' := hcore j
    rw [if_neg hne] at hj'
    exact (congrArg Level.nextFree hj' :)
  · exact hrest
  · intro j
    rw [← Bool.not_eq_true, hactive, not_or, Bool.not_eq_true, ← h.free_iff, List.mem_cons]
    constructor
    · intro hj
      refine ⟨?_, .inr hj⟩
      rintro rfl
      exact hi hj
    · exact fun hj => hj.2.resolve_left hj.1
  · rw [hlookup]
    apply h.table.set hslot
    intro w
    exact h.table.lookup_eq_none_iff.mp hfind w
  · intro key j
    have hj' := hcore j
    rw [hlookup, maps_set hslot.free, h.maps_iff, hactive]
    by_cases hj : j = i
    · rw [if_pos hj] at hj'
      have hkey : (((b.indexed i side price slot).ladderPush side i).levels.get j).key =
          ⟨side, price⟩ := (congrArg Level.key hj' :)
      subst hj
      simp [hinactive, hkey, eq_comm]
    · rw [if_neg hj] at hj'
      have hkey : (((b.indexed i side price slot).ladderPush side i).levels.get j).key =
          (b.levels.get j).key := (congrArg Level.key hj' :)
      simp [hj, hkey]
  · exact opened_holds h side price slot

end Take

theorem acquireLevel_acquired (h : LevelsOk b free) (side : Side) (price : Price) :
    Acquired b free side price (b.acquireLevel side price).1 (b.acquireLevel side price).2 := by
  unfold acquireLevel
  split
  · next i hi =>
    obtain ⟨hactive, hkey⟩ := h.find_eq_some_iff.mp hi
    exact .found i hactive hkey
  · next hfind =>
    split
    · next hnone =>
      have hchain := h.chain
      rw [hnone] at hchain
      exact .exhausted hfind hchain.eq_nil
    · next i hi =>
      have hchain := h.chain
      rw [hi] at hchain
      obtain ⟨rest, rfl, hrest⟩ := hchain.eq_cons
      cases hd : destination b.levelLookup (tableSize c) (levelHome c ⟨side, price⟩) none with
      | ok slot =>
        have hinsert : (b.takeLevelSlot i side price).insertLevelLookup side price i =
            (true, b.indexed i side price slot) := by
          simp only [insertLevelLookup, takeLevelSlot, hd, indexed]
        rw [hinsert]
        refine .opened i rest _ hfind ?_ rfl (opened_ok h hfind (reachable_of_ok hd)) ?_ ?_ ?_
        · rw [← Bool.not_eq_true, levelRefused_iff]
          rintro ⟨-, -, hfull⟩
          obtain ⟨u, hu⟩ := destination_ok_empty hd
          exact hfull u hu
        · have hindexed : SameOrders b (b.indexed i side price slot) :=
            ⟨rfl, rfl, rfl, rfl, rfl, rfl⟩
          exact hindexed.trans (setLadder_sameOrders _ _ _)
        · rw [opened_frame h]
          simp [indexed, takeLevelSlot, Level.opened]
        · intro j hj
          rw [opened_frame h]
          simp only [indexed, takeLevelSlot, Pool.get_set_of_ne _ _ hj]
      | error o =>
        have hinsert : (b.takeLevelSlot i side price).insertLevelLookup side price i =
            (false, b.takeLevelSlot i side price) := by
          simp only [insertLevelLookup, takeLevelSlot, hd]
        rw [hinsert]
        refine .refused _ ?_ (refused_ok h side price) ⟨rfl, rfl, rfl, rfl, rfl, rfl⟩
          (refused_active h side price) (refused_level h side price)
        rw [levelRefused_iff, hi]
        exact ⟨hfind, by simp, destination_error_full hd⟩

end OrderBook

end MarketEngine
