import MarketEngine.Kit.IndexHeap
import MarketEngine.Book.OrderBook
import Mathlib.Algebra.Order.Group.Int

/-! # The price ladder is a heap

The ladder of a side is an indexed heap of its active levels, ranked by price.
Pushing and removing keep it one, and its top is the best level. The ladder
functions touch no field of a level other than its heap position.
-/

namespace MarketEngine

open IndexHeap

variable {c : Capacity}

/-- A level without its heap position, which is all the ladder functions may change. -/
def Level.core (level : Level c) : Level c := { level with heapPos := 0 }

namespace Ladder

/-- The rank of a level on its side. -/
def rank (L : Ladder c) (side : Side) (index : Index c) : ℤ :=
  side.rank (L.levels.get index).price

theorem before_iff (L : Ladder c) (side : Side) (a b : Index c) :
    L.before side a b = true ↔ L.rank side a < L.rank side b := by
  cases side <;>
    simp only [before, rank, Side.rank, decide_eq_true_eq, gt_iff_lt, Int64.lt_iff_toInt_lt]
  · omega

/-- The back-pointers of the levels. -/
def pos (L : Ladder c) (index : Index c) : ℕ := (L.levels.get index).heapPos

/-- The ladder holds exactly the levels of `S`, in heap order. -/
structure Holds (L : Ladder c) (side : Side) (S : Index c → Prop) : Prop where
  size_le : L.size ≤ c.val
  placed : Placed L.heap.read L.pos L.size S
  ordered : Ordered (L.rank side) L.heap.read L.size

/-- Equal levels but for the back-pointers of the levels of `S`. -/
structure Same (S : Index c → Prop) (L L' : Ladder c) : Prop where
  size : L'.size = L.size
  core : ∀ index, (L'.levels.get index).core = (L.levels.get index).core
  pos : ∀ index, ¬ S index → L'.pos index = L.pos index

variable {S : Index c → Prop} {L L' L'' : Ladder c}

theorem Same.refl (L : Ladder c) : Same S L L := ⟨rfl, fun _ => rfl, fun _ _ => rfl⟩

theorem Same.trans (h : Same S L L') (h' : Same S L' L'') : Same S L L'' :=
  ⟨h'.size.trans h.size, fun index => (h'.core index).trans (h.core index),
    fun index hi => (h'.pos index hi).trans (h.pos index hi)⟩

theorem Same.mono (h : Same S L L') {S' : Index c → Prop} (hS : ∀ j, S j → S' j) :
    Same S' L L' :=
  ⟨h.size, h.core, fun index hi => h.pos index fun hj => hi (hS index hj)⟩

theorem Same.price (h : Same S L L') (index : Index c) :
    (L'.levels.get index).price = (L.levels.get index).price :=
  (congrArg Level.price (h.core index) :)

theorem Same.rank_eq (h : Same S L L') (side : Side) : L'.rank side = L.rank side := by
  funext index
  rw [rank, rank, h.price]

/-! ## One exchange -/

theorem core_modify_heapPos (levels : Pool (Level c) c.val) (i j : Index c) (p : ℕ) :
    ((levels.modify i fun level => { level with heapPos := p }).get j).core =
      (levels.get j).core := by
  rw [Pool.get_modify]
  split <;> rfl

theorem place_pos (L : Ladder c) (p : ℕ) (index j : Index c) :
    (L.place p index).pos j = if j = index then p else L.pos j := by
  simp only [pos, place, Pool.get_modify]
  split <;> rfl

theorem place_same (L : Ladder c) (p : ℕ) {index : Index c} (hi : S index) :
    Same S L (L.place p index) where
  size := rfl
  core j := core_modify_heapPos L.levels index j p
  pos j hj := by
    rw [place_pos, if_neg]
    rintro rfl
    exact hj hi

theorem forget_same (L : Ladder c) {index : Index c} (hi : S index) :
    Same S L (L.forget index) where
  size := rfl
  core j := core_modify_heapPos L.levels index j npos
  pos j hj := by
    have hne : j ≠ index := by
      rintro rfl
      exact hj hi
    simp only [Ladder.pos, forget, Pool.get_modify_of_ne _ _ hne]

theorem swap_same (L : Ladder c) {i j : ℕ} (hi : S (L.heap.read i)) (hj : S (L.heap.read j)) :
    Same S L (L.swap i j) :=
  (place_same L i hj).trans (place_same _ j hi)

theorem place_read (L : Ladder c) {p : ℕ} (hp : p < c.val) (index : Index c) :
    ∀ k < c.val, (L.place p index).heap.read k = if k = p then index else L.heap.read k :=
  fun _ hk => Pool.read_write _ hp hk _

theorem swap_swapped (L : Ladder c) {i j n : ℕ} (hn : n ≤ c.val) (hi : i < n) (hj : j < n) :
    Swapped L.heap.read (L.swap i j).heap.read n i j := by
  intro k hk
  rw [swap, place_read _ (by omega) _ k (by omega), place_read _ (by omega) _ k (by omega)]
  by_cases hki : k = i
  · subst hki
    by_cases hkj : k = j
    · rw [if_pos hkj, if_pos rfl, hkj]
    · rw [if_neg hkj, if_pos rfl, if_pos rfl]
  · rw [if_neg hki, if_neg hki]

theorem swap_placed {L : Ladder c} {S : Index c → Prop} {i j : ℕ} (hn : L.size ≤ c.val)
    (h : Placed L.heap.read L.pos L.size S) (hi : i < L.size) (hj : j < L.size) :
    Placed (L.swap i j).heap.read (L.swap i j).pos L.size S := by
  apply h.swap hi hj (swap_swapped L hn hi hj)
  · simp only [swap, place_pos, if_true]
  · simp only [swap, place_pos]
    split_ifs with he
    · exact h.at_inj hj hi he
    · rfl
  · intro x hxi hxj
    simp only [swap, place_pos, if_neg hxi, if_neg hxj]

/-! ## Sifting -/

theorem siftUp_holds (side : Side) {S : Index c → Prop} {f p : ℕ} {L : Ladder c}
    (hf : p ≤ f) (hn : L.size ≤ c.val) (hp : p < L.size)
    (hplaced : Placed L.heap.read L.pos L.size S)
    (hup : UpHole (L.rank side) L.heap.read L.size p) :
    Same S L (siftUp side f p L) ∧ (siftUp side f p L).Holds side S := by
  induction f generalizing p L with
  | zero =>
    obtain rfl : p = 0 := by omega
    exact ⟨.refl L, hn, hplaced, hup.stop fun h => by omega⟩
  | succ f ih =>
    unfold siftUp
    split
    · next h0 => exact ⟨.refl L, hn, hplaced, hup.stop fun h => by omega⟩
    · next h0 =>
      dsimp only
      split
      · next hb =>
        rw [before_iff] at hb
        have hsame := swap_same L (hplaced.mem p hp) (hplaced.mem ((p - 1) / 2) (by omega))
        have hrec := ih (p := (p - 1) / 2) (L := L.swap p ((p - 1) / 2)) (by omega)
          (by rw [hsame.size]; exact hn) (by rw [hsame.size]; omega)
          (by rw [hsame.size]; exact swap_placed hn hplaced hp (by omega))
          (by
            rw [hsame.size, hsame.rank_eq]
            exact hup.swap (by omega) hp hb (swap_swapped L hn hp (by omega)))
        exact ⟨hsame.trans hrec.1, hrec.2⟩
      · next hb =>
        rw [before_iff, not_lt] at hb
        exact ⟨.refl L, hn, hplaced, hup.stop fun _ => hb⟩

theorem pick_cases (L : Ladder c) (side : Side) (best child : ℕ) :
    (L.pick side best child = child ∧ child < L.size ∧
      L.rank side (L.heap.read child) < L.rank side (L.heap.read best)) ∨
    (L.pick side best child = best ∧ (child < L.size →
      L.rank side (L.heap.read best) ≤ L.rank side (L.heap.read child))) := by
  unfold pick
  simp only [before_iff]
  split_ifs with h
  · exact .inl ⟨rfl, h⟩
  · exact .inr ⟨rfl, fun hc => not_lt.mp fun hb => h ⟨hc, hb⟩⟩

/-- `bestOf` stays only when no child ranks before the position; otherwise it picks a first
one among the children. -/
theorem bestOf_cases (L : Ladder c) (side : Side) (p : ℕ) :
    (∀ i, 0 < i → i < L.size → (i - 1) / 2 = p →
      L.rank side (L.heap.read (L.bestOf side p)) ≤ L.rank side (L.heap.read i)) ∧
    (L.bestOf side p = p ∨
      (0 < L.bestOf side p ∧ L.bestOf side p < L.size ∧ (L.bestOf side p - 1) / 2 = p ∧
        L.rank side (L.heap.read (L.bestOf side p)) < L.rank side (L.heap.read p))) := by
  have hchild : ∀ i, 0 < i → (i - 1) / 2 = p → i = 2 * p + 1 ∨ i = 2 * p + 2 := by omega
  unfold bestOf
  dsimp only
  rcases L.pick_cases side p (2 * p + 1) with ⟨hl, hls, hlr⟩ | ⟨hl, hlr⟩ <;>
    rcases L.pick_cases side (L.pick side p (2 * p + 1)) (2 * p + 2) with
      ⟨hr, hrs, hrr⟩ | ⟨hr, hrr⟩ <;>
    rw [hl] at hr hrr ⊢ <;> rw [hr]
  · refine ⟨fun i hi hin hip => ?_, .inr ⟨by omega, hrs, by omega, hrr.trans hlr⟩⟩
    rcases hchild i hi hip with rfl | rfl
    · exact hrr.le
    · exact le_rfl
  · refine ⟨fun i hi hin hip => ?_, .inr ⟨by omega, hls, by omega, hlr⟩⟩
    rcases hchild i hi hip with rfl | rfl
    · exact le_rfl
    · exact hrr hin
  · refine ⟨fun i hi hin hip => ?_, .inr ⟨by omega, hrs, by omega, hrr⟩⟩
    rcases hchild i hi hip with rfl | rfl
    · exact hrr.le.trans (hlr hin)
    · exact le_rfl
  · refine ⟨fun i hi hin hip => ?_, .inl rfl⟩
    rcases hchild i hi hip with rfl | rfl
    · exact hlr hin
    · exact hrr hin

theorem siftDown_holds (side : Side) {S : Index c → Prop} {f p : ℕ} {L : Ladder c}
    (hf : L.size ≤ p + f) (hn : L.size ≤ c.val) (hp : p < L.size)
    (hplaced : Placed L.heap.read L.pos L.size S)
    (hdown : DownHole (L.rank side) L.heap.read L.size p) :
    Same S L (siftDown side f p L) ∧ (siftDown side f p L).Holds side S := by
  induction f generalizing p L with
  | zero => omega
  | succ f ih =>
    unfold siftDown
    dsimp only
    obtain ⟨hmin, hbest⟩ := L.bestOf_cases side p
    split
    · next he =>
      rw [he] at hmin
      exact ⟨.refl L, hn, hplaced, hdown.stop hmin⟩
    · next he =>
      obtain ⟨hpos, hlt, hparent, hrank⟩ := hbest.resolve_left he
      have hsame := swap_same L (hplaced.mem p hp) (hplaced.mem _ hlt)
      have hrec := ih (p := L.bestOf side p) (L := L.swap p (L.bestOf side p))
        (by rw [hsame.size]; omega) (by rw [hsame.size]; exact hn) (by rw [hsame.size]; exact hlt)
        (by rw [hsame.size]; exact swap_placed hn hplaced hp hlt)
        (by
          rw [hsame.size, hsame.rank_eq]
          exact hdown.swap hpos hlt hparent hrank hmin (swap_swapped L hn hp hlt))
      exact ⟨hsame.trans hrec.1, hrec.2⟩

/-- A position that ranks no later than its children stays put. -/
theorem siftDown_eq (side : Side) {fuel p : ℕ} {L : Ladder c}
    (h : ∀ i, 0 < i → i < L.size → (i - 1) / 2 = p →
      L.rank side (L.heap.read p) ≤ L.rank side (L.heap.read i)) :
    siftDown side fuel p L = L := by
  cases fuel with
  | zero => rfl
  | succ fuel =>
    obtain ⟨_, he | ⟨hpos, hlt, hparent, hrank⟩⟩ := L.bestOf_cases side p
    · simp [siftDown, he]
    · exact absurd (h _ hpos hlt hparent) (not_le.mpr hrank)

/-- Nothing moves up in an ordered heap. -/
theorem siftUp_eq (side : Side) {fuel p : ℕ} {L : Ladder c} (hp : p < L.size)
    (h : Ordered (L.rank side) L.heap.read L.size) : siftUp side fuel p L = L := by
  cases fuel with
  | zero => rfl
  | succ fuel =>
    unfold siftUp
    split
    · rfl
    · next h0 =>
      dsimp only
      rw [if_neg]
      rw [before_iff, not_lt]
      exact h p (by omega) hp

/-- Sifting a refilled hole down and then up restores the heap. -/
theorem sift_holds (side : Side) {S : Index c → Prop} {p : ℕ} {L : Ladder c}
    (hn : L.size ≤ c.val) (hp : p < L.size)
    (hplaced : Placed L.heap.read L.pos L.size S)
    (hhole : Hole (L.rank side) L.heap.read L.size p) :
    Same S L (siftUp side p p (siftDown side L.size p L)) ∧
      (siftUp side p p (siftDown side L.size p L)).Holds side S := by
  by_cases hup : 0 < p ∧ L.rank side (L.heap.read p) < L.rank side (L.heap.read ((p - 1) / 2))
  · rw [siftDown_eq side (hhole.le_child hup.1 hup.2)]
    exact siftUp_holds side le_rfl hn hp hplaced (hhole.up hup.1 hup.2)
  · have hd := siftDown_holds side (f := L.size) (by omega) hn hp hplaced
      (hhole.down fun h0 => not_lt.mp fun hlt => hup ⟨h0, hlt⟩)
    rw [siftUp_eq side (by rw [hd.1.size]; exact hp) hd.2.ordered]
    exact hd

/-! ## The operations -/

/-- A ladder that misses an item has room for it. -/
theorem Holds.size_lt {L : Ladder c} {side : Side} {S : Index c → Prop} (h : L.Holds side S)
    {index : Index c} (hi : ¬ S index) : L.size < c.val := by
  have hinj : Function.Injective fun i : Fin L.size => L.heap.read i.val := fun i j he =>
    Fin.ext (h.placed.at_inj i.isLt j.isLt he)
  have hns : ¬ Function.Surjective fun i : Fin L.size => L.heap.read i.val := by
    intro hs
    obtain ⟨i, rfl⟩ := hs index
    exact hi (h.placed.mem i i.isLt)
  have hcard := Fintype.card_lt_of_injective_not_surjective _ hinj hns
  simpa using hcard

theorem Holds.push {L : Ladder c} {side : Side} {S T : Index c → Prop} {i : Index c}
    (h : L.Holds side S) (hi : ¬ S i) (hS : ∀ j, T j ↔ j = i ∨ S j) :
    Same T { L with size := L.size + 1 } (L.push side i) ∧
      (L.push side i).Holds side T := by
  have hlt := h.size_lt hi
  let M : Ladder c := ({ L with size := L.size + 1 } : Ladder c).place L.size i
  have hread : ∀ k < c.val, M.heap.read k = if k = L.size then i else L.heap.read k :=
    place_read _ hlt i
  have hread' : ∀ k < L.size, M.heap.read k = L.heap.read k := fun k hk => by
    rw [hread k (by omega), if_neg (by omega)]
  have hpos : ∀ j, M.pos j = if j = i then L.size else L.pos j := place_pos _ _ _
  have hsame := place_same { L with size := L.size + 1 } L.size ((hS i).mpr (.inl rfl))
  have hrank : M.rank side = L.rank side := hsame.rank_eq side
  have hplaced : Placed M.heap.read M.pos (L.size + 1) T := by
    refine h.placed.push hi hS hread' ?_ ?_ fun j hj => by rw [hpos, if_neg hj]
    · rw [hread _ hlt, if_pos rfl]
    · rw [hpos, if_pos rfl]
  have hup := siftUp_holds side (S := T) (L := M) (f := L.size) (p := L.size) le_rfl
    (Nat.succ_le_of_lt hlt) (Nat.lt_succ_self _) hplaced
    (by rw [hrank]; exact h.ordered.upHole hread')
  exact ⟨hsame.trans hup.1, hup.2⟩

theorem Holds.remove {L : Ladder c} {side : Side} {S T : Index c → Prop} {i : Index c}
    (h : L.Holds side S) (hi : S i) (hS : ∀ j, T j ↔ j ≠ i ∧ S j) :
    Same S { L with size := L.size - 1 } (L.remove side i) ∧
      (L.remove side i).Holds side T := by
  have hlt := h.placed.pos_lt i hi
  have hat := h.placed.at_pos i hi
  have hn := h.size_le
  obtain ⟨n, hsize⟩ : ∃ n, L.size = n + 1 := ⟨L.size - 1, by omega⟩
  have hplaced := h.placed
  rw [hsize] at hplaced
  -- the ladder once the last item has filled the hole, if it was not in the last position
  have hmid : ∃ M : Ladder c, L.remove side i = M.forget i ∧
      Same S { L with size := L.size - 1 } M ∧ M.Holds side T := by
    by_cases hp : L.pos i = n
    · refine ⟨{ L with size := n }, ?_, ⟨by simp [hsize], fun _ => rfl, fun _ _ => rfl⟩,
        by show n ≤ c.val; omega, ?_, ?_⟩
      · simp only [Ladder.remove, hsize, Nat.add_sub_cancel]
        rw [if_pos (show (L.levels.get i).heapPos = n from hp)]
      · exact hplaced.pop hp hi hS fun _ _ => rfl
      · exact fun i h0 hin => h.ordered i h0 (by rw [hsize]; exact Nat.lt_succ_of_lt hin)
    · have hpn : L.pos i < n := by omega
      let M : Ladder c := ({ L with size := n } : Ladder c).place (L.pos i) (L.heap.read n)
      have hread : ∀ k < n, M.heap.read k = if k = L.pos i then L.heap.read n
          else L.heap.read k := fun k hk => place_read _ (by omega) _ k (by omega)
      have hpos : ∀ j, M.pos j = if j = L.heap.read n then L.pos i else L.pos j :=
        place_pos _ _ _
      have hsame := place_same (S := S) { L with size := n } (L.pos i)
        (h.placed.mem n (by omega))
      have hrank : M.rank side = L.rank side := hsame.rank_eq side
      have hM : Placed M.heap.read M.pos n T := by
        refine hplaced.refill rfl hpn hi hS hread ?_ fun j _ hj => by rw [hpos, if_neg hj]
        rw [hpos, if_pos rfl]
      have hsift := sift_holds side (S := T) (L := M) (p := L.pos i) (by show n ≤ c.val; omega)
        hpn hM (by
          rw [hrank]
          exact h.ordered.overwrite hlt (by rw [hsize]; exact Nat.le_succ n) hread)
      have hsub : Same S M _ := hsift.1.mono fun j hj => ((hS j).mp hj).2
      refine ⟨_, ?_, by rw [hsize, Nat.add_sub_cancel]; exact hsame.trans hsub, hsift.2⟩
      simp only [Ladder.remove, hsize, Nat.add_sub_cancel]
      rw [if_neg (show (L.levels.get i).heapPos ≠ n from hp)]
      rfl
  obtain ⟨M, hM, hsame, hholds⟩ := hmid
  rw [hM]
  refine ⟨hsame.trans (forget_same M hi), hholds.size_le, ?_, ?_⟩
  · apply hholds.placed.congr_pos
    intro j hj
    have hne := ((hS j).mp hj).1
    simp only [pos, forget, Pool.get_modify_of_ne _ _ hne]
  · rw [(forget_same (S := S) M hi).rank_eq]
    exact hholds.ordered

theorem Holds.top_eq_none_iff {L : Ladder c} {side : Side} {S : Index c → Prop}
    (h : L.Holds side S) :
    L.top = none ↔ ∀ index, ¬ S index := by
  unfold top
  split
  · next h0 =>
    simp only [true_iff]
    intro index hs
    have := h.placed.pos_lt index hs
    omega
  · next h0 =>
    simp only [reduceCtorEq, false_iff, not_forall, not_not]
    exact ⟨_, h.placed.mem 0 (by omega)⟩

/-- The top of the ladder is a level of the side that no other one beats. -/
theorem Holds.top_eq_some {L : Ladder c} {side : Side} {S : Index c → Prop} (h : L.Holds side S)
    {index : Index c} (ht : L.top = some index) :
    S index ∧ ∀ j, S j → L.rank side index ≤ L.rank side j := by
  unfold top at ht
  split at ht
  · cases ht
  · next h0 =>
    injection ht with ht
    subst ht
    refine ⟨h.placed.mem 0 (by omega), fun j hj => ?_⟩
    rw [← h.placed.at_pos j hj]
    exact h.ordered.root_le (h.placed.pos_lt j hj)

end Ladder

end MarketEngine
