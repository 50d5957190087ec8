import Mathlib.Data.List.Nodup
import Mathlib.Data.List.Range

/-! # Batches of numbered items

Batches may overlap and leave gaps. Tracked against the number that is expected
next, every number comes up once and in order, with its item or as lost.
-/

namespace Tracking

variable {α : Type*}

/-- Items with consecutive numbers. -/
structure Batch (α : Type*) where
  first : ℕ
  items : List α

/-- The number behind the last one of a batch. -/
def Batch.next (b : Batch α) : ℕ := b.first + b.items.length

inductive Slot (α : Type*)
  | fresh (number : ℕ) (item : α)
  | lost (number : ℕ)

def Slot.number : Slot α → ℕ
  | .fresh number _ => number
  | .lost number => number

def freshFrom (n : ℕ) : List α → List (Slot α)
  | [] => []
  | a :: items => .fresh n a :: freshFrom (n + 1) items

def lostFrom (n : ℕ) : ℕ → List (Slot α)
  | 0 => []
  | k + 1 => .lost n :: lostFrom (n + 1) k

/-- What comes up when `e` is expected: a gap in front of a batch is lost, and what was expected
before is skipped. -/
def track (e : ℕ) : List (Batch α) → List (Slot α)
  | [] => []
  | b :: bs =>
    lostFrom e (b.first - e) ++ (freshFrom (max e b.first) (b.items.drop (e - b.first)) ++
      track (max e b.next) bs)

/-- The number that is expected after some batches. -/
def reach (e : ℕ) (bs : List (Batch α)) : ℕ := bs.foldl (fun n b => max n b.next) e

theorem reach_cons (e : ℕ) (b : Batch α) (bs : List (Batch α)) :
    reach e (b :: bs) = reach (max e b.next) bs := rfl

theorem reach_le_iff {e s : ℕ} {bs : List (Batch α)} :
    reach e bs ≤ s ↔ e ≤ s ∧ ∀ b ∈ bs, b.next ≤ s := by
  induction bs generalizing e with
  | nil => exact ⟨fun h => ⟨h, fun _ hb => nomatch hb⟩, fun h => h.1⟩
  | cons b bs ih => rw [reach_cons, ih, Nat.max_le, List.forall_mem_cons, and_assoc]

theorem le_reach (e : ℕ) (bs : List (Batch α)) : e ≤ reach e bs :=
  (reach_le_iff.mp (Nat.le_refl _)).1

theorem lt_reach_iff {e s : ℕ} {bs : List (Batch α)} (h : e ≤ s) :
    s < reach e bs ↔ ∃ b ∈ bs, s < b.next := by
  rw [← Nat.not_le, reach_le_iff]
  constructor
  · intro hnot
    by_contra hall
    exact hnot ⟨h, fun b hb => Nat.not_lt.mp fun hlt => hall ⟨b, hb, hlt⟩⟩
  · rintro ⟨b, hb, hlt⟩ ⟨-, hall⟩
    exact absurd (hall b hb) (Nat.not_le.mpr hlt)

/-! ## Every number once -/

theorem map_number_freshFrom (n : ℕ) (items : List α) :
    (freshFrom n items).map Slot.number = List.range' n items.length := by
  induction items generalizing n with
  | nil => rfl
  | cons a items ih =>
    rw [freshFrom, List.map_cons, ih, List.length_cons, List.range'_succ]
    rfl

theorem map_number_lostFrom (n k : ℕ) :
    (lostFrom n k : List (Slot α)).map Slot.number = List.range' n k := by
  induction k generalizing n with
  | zero => rfl
  | succ k ih =>
    rw [lostFrom, List.map_cons, ih, List.range'_succ]
    rfl

/-- The numbers that come up are the ones from what is expected to what is reached. -/
theorem map_number_track (e : ℕ) (bs : List (Batch α)) :
    (track e bs).map Slot.number = List.range' e (reach e bs - e) := by
  induction bs generalizing e with
  | nil =>
    have : reach e ([] : List (Batch α)) - e = 0 := Nat.sub_self e
    rw [this]
    rfl
  | cons b bs ih =>
    have hle := le_reach (max e b.next) bs
    have hfirst : e + 1 * (b.first - e) = max e b.first := by omega
    have hnext : max e b.first + 1 * (b.items.length - (e - b.first)) = max e b.next := by
      rw [Batch.next]
      omega
    rw [track, List.map_append, List.map_append, map_number_lostFrom, map_number_freshFrom, ih,
      List.length_drop, reach_cons]
    generalize reach (max e b.next) bs = r at hle ⊢
    rw [← hnext, List.range'_append, ← hfirst, List.range'_append]
    congr 1
    omega

theorem track_pairwise (e : ℕ) (bs : List (Batch α)) :
    (track e bs).Pairwise fun a b => a.number < b.number := by
  rw [← List.pairwise_map (f := Slot.number) (R := (· < ·)), map_number_track]
  exact List.pairwise_lt_range'

theorem track_unique {e : ℕ} {bs : List (Batch α)} {a b : Slot α} (ha : a ∈ track e bs)
    (hb : b ∈ track e bs) (h : a.number = b.number) : a = b := by
  have hnodup : ((track e bs).map Slot.number).Nodup := by
    rw [map_number_track]
    exact List.nodup_range'
  exact List.inj_on_of_nodup_map hnodup ha hb h

/-- Exactly the numbers in between come up. -/
theorem exists_mem_track {e s : ℕ} {bs : List (Batch α)} :
    (∃ slot ∈ track e bs, slot.number = s) ↔ e ≤ s ∧ s < reach e bs := by
  have hle := le_reach e bs
  rw [← List.mem_map, map_number_track, List.mem_range'_1]
  omega

/-! ## Which ones are lost -/

theorem fresh_mem_freshFrom {n s : ℕ} {a : α} {items : List α} :
    .fresh s a ∈ freshFrom n items ↔ n ≤ s ∧ items[s - n]? = some a := by
  induction items generalizing n with
  | nil => exact ⟨fun h => (nomatch h), fun h => nomatch h.2⟩
  | cons b items ih =>
    rw [freshFrom, List.mem_cons, ih]
    constructor
    · rintro (h | ⟨hle, hget⟩)
      · cases h
        exact ⟨Nat.le_refl _, by rw [Nat.sub_self]; rfl⟩
      · refine ⟨by omega, ?_⟩
        have : s - n = (s - (n + 1)) + 1 := by omega
        rw [this]
        exact hget
    · rintro ⟨hle, hget⟩
      rcases Nat.eq_or_lt_of_le hle with rfl | hlt
      · rw [Nat.sub_self] at hget
        left
        rw [Option.some.inj hget]
      · have : s - n = (s - (n + 1)) + 1 := by omega
        rw [this] at hget
        exact .inr ⟨hlt, hget⟩

theorem lost_notMem_freshFrom {n s : ℕ} {items : List α} : Slot.lost s ∉ freshFrom n items := by
  induction items generalizing n with
  | nil => exact fun h => nomatch h
  | cons b items ih =>
    rw [freshFrom, List.mem_cons]
    rintro (h | h)
    · cases h
    · exact ih h

theorem lost_mem_lostFrom {n k s : ℕ} :
    (.lost s : Slot α) ∈ lostFrom n k ↔ n ≤ s ∧ s < n + k := by
  induction k generalizing n with
  | zero => exact ⟨fun h => (nomatch h), fun h => by omega⟩
  | succ k ih =>
    rw [lostFrom, List.mem_cons, ih]
    constructor
    · rintro (h | h)
      · cases h
        omega
      · omega
    · intro h
      rcases Nat.eq_or_lt_of_le h.1 with rfl | hlt
      · exact .inl rfl
      · exact .inr (by omega)

theorem fresh_notMem_lostFrom {n k s : ℕ} {a : α} : Slot.fresh s a ∉ lostFrom n k := by
  induction k generalizing n with
  | zero => exact fun h => nomatch h
  | succ k ih =>
    rw [lostFrom, List.mem_cons]
    rintro (h | h)
    · cases h
    · exact ih h

/-- A number is lost if a batch starts behind it before any has reached it. -/
theorem lost_mem_track {e s : ℕ} {bs : List (Batch α)} :
    .lost s ∈ track e bs ↔
      ∃ pre b post, bs = pre ++ b :: post ∧ reach e pre ≤ s ∧ s < b.first := by
  induction bs generalizing e with
  | nil => exact ⟨fun h => (nomatch h), fun ⟨pre, b, post, h, _⟩ => by simp at h⟩
  | cons c bs ih =>
    rw [track, List.mem_append, List.mem_append, lost_mem_lostFrom, ih]
    constructor
    · rintro (⟨hle, hlt⟩ | h | ⟨pre, b, post, rfl, hreach, hlt⟩)
      · exact ⟨[], c, bs, rfl, hle, by omega⟩
      · exact absurd h lost_notMem_freshFrom
      · exact ⟨c :: pre, b, post, rfl, hreach, hlt⟩
    · rintro ⟨pre, b, post, heq, hreach, hlt⟩
      cases pre with
      | nil =>
        cases heq
        have hle : e ≤ s := hreach
        exact .inl ⟨hle, by omega⟩
      | cons d pre =>
        cases heq
        exact .inr (.inr ⟨pre, b, post, rfl, hreach, hlt⟩)

/-- A number comes up with its item in the first batch that reaches it. -/
theorem fresh_mem_track {e s : ℕ} {a : α} {bs : List (Batch α)} :
    .fresh s a ∈ track e bs ↔
      ∃ pre b post, bs = pre ++ b :: post ∧ reach e pre ≤ s ∧ b.first ≤ s ∧
        b.items[s - b.first]? = some a := by
  induction bs generalizing e with
  | nil => exact ⟨fun h => (nomatch h), fun ⟨pre, b, post, h, _⟩ => by simp at h⟩
  | cons c bs ih =>
    have hitem : max e c.first ≤ s →
        (c.items.drop (e - c.first))[s - max e c.first]? = c.items[s - c.first]? := by
      intro hle
      rw [List.getElem?_drop]
      congr 1
      omega
    rw [track, List.mem_append, List.mem_append, fresh_mem_freshFrom, ih]
    constructor
    · rintro (h | ⟨hle, hget⟩ | ⟨pre, b, post, rfl, hreach, hle, hget⟩)
      · exact absurd h fresh_notMem_lostFrom
      · rw [hitem hle] at hget
        exact ⟨[], c, bs, rfl, Nat.le_trans (Nat.le_max_left ..) hle,
          Nat.le_trans (Nat.le_max_right ..) hle, hget⟩
      · exact ⟨c :: pre, b, post, rfl, hreach, hle, hget⟩
    · rintro ⟨pre, b, post, heq, hreach, hle, hget⟩
      cases pre with
      | nil =>
        cases heq
        have hmax : max e c.first ≤ s := Nat.max_le.mpr ⟨hreach, hle⟩
        exact .inr (.inl ⟨hmax, (hitem hmax).trans hget⟩)
      | cons d pre =>
        cases heq
        exact .inr (.inr ⟨pre, b, post, rfl, hreach, hle, hget⟩)

end Tracking
