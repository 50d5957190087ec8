import Mathlib.Algebra.BigOperators.Group.List.Basic
import Mathlib.Data.List.Sort
import Mathlib.Data.Prod.Lex

/-! # Sorting and grouping

`std::sort` takes a strict comparison. When the comparison is that of a rank in
a linear order and no two items share a rank, the sorted list is the only list
in rank order of the given items. Grouping a list by key rearranges it.
-/

/-- `std::sort` by a strict comparison. -/
def sortBy {α : Type*} (before : α → α → Bool) (l : List α) : List α :=
  l.insertionSort fun a b => before b a = false

namespace Sorting

variable {α γ : Type*} [LinearOrder γ] {before : α → α → Bool} {rank : α → γ} {l l' : List α}

theorem sortBy_perm (before : α → α → Bool) (l : List α) : (sortBy before l).Perm l :=
  List.perm_insertionSort _ l

/-- Two lists of the same items in strict rank order are equal. -/
theorem eq_of_ordered (hl : l.Pairwise fun a b => rank a < rank b)
    (hl' : l'.Pairwise fun a b => rank a < rank b) (h : l.Perm l') : l = l' :=
  h.eq_of_pairwise (fun _ _ _ _ hab hba => absurd hab hba.asymm) hl hl'

theorem sortBy_le (hb : ∀ a b, before a b = true ↔ rank a < rank b) (l : List α) :
    (sortBy before l).Pairwise fun a b => rank a ≤ rank b := by
  have hle : ∀ a b, before b a = false ↔ rank a ≤ rank b := by
    intro a b
    rw [← not_lt, ← hb, Bool.not_eq_true]
  have : Std.Total fun a b => before b a = false :=
    ⟨fun a b => by simpa only [hle] using le_total (rank a) (rank b)⟩
  have : IsTrans α fun a b => before b a = false :=
    ⟨fun a b c => by simpa only [hle] using le_trans⟩
  exact (List.pairwise_insertionSort _ l).imp fun {a b} h => (hle a b).mp h

theorem sortBy_ordered (hb : ∀ a b, before a b = true ↔ rank a < rank b)
    (hl : (l.map rank).Nodup) : (sortBy before l).Pairwise fun a b => rank a < rank b := by
  have hnodup : ((sortBy before l).map rank).Nodup :=
    ((sortBy_perm before l).map rank).nodup_iff.mpr hl
  rw [List.Nodup, List.pairwise_map] at hnodup
  exact (sortBy_le hb l).imp₂ (fun _ _ hle hne => lt_of_le_of_ne hle hne) hnodup

/-- Sorting gives the one ordered list of the items. -/
theorem sortBy_eq (hb : ∀ a b, before a b = true ↔ rank a < rank b) (h : l'.Perm l)
    (hl : l.Pairwise fun a b => rank a < rank b) : sortBy before l' = l := by
  have hnodup : (l.map rank).Nodup := by
    rw [List.Nodup, List.pairwise_map]
    exact hl.imp fun hab => hab.ne
  refine eq_of_ordered (sortBy_ordered hb ?_) hl ((sortBy_perm before l').trans h)
  exact (h.map rank).nodup_iff.mpr hnodup

/-- Sorting forgets the order of the given items. -/
theorem sortBy_congr (hb : ∀ a b, before a b = true ↔ rank a < rank b) (h : l'.Perm l)
    (hl : (l.map rank).Nodup) : sortBy before l' = sortBy before l :=
  sortBy_eq hb (h.trans (sortBy_perm before l).symm) (sortBy_ordered hb hl)

/-- Items ordered by a first rank, and by a second one among equals, are ordered by both. -/
theorem ordered_flatMap {β : Type*} {rank' : β → γ} {items : α → List β} {δ : Type*}
    [LinearOrder δ] {second : β → δ} (hl : l.Pairwise fun a b => rank a < rank b)
    (hfirst : ∀ a ∈ l, ∀ x ∈ items a, rank' x = rank a)
    (hsecond : ∀ a ∈ l, (items a).Pairwise fun x y => second x < second y) :
    (l.flatMap items).Pairwise fun x y =>
      toLex (rank' x, second x) < toLex (rank' y, second y) := by
  rw [List.pairwise_flatMap]
  constructor
  · intro a ha
    refine (hsecond a ha).imp_of_mem fun hx hy hxy => ?_
    rw [Prod.Lex.toLex_lt_toLex]
    exact .inr ⟨(hfirst a ha _ hx).trans (hfirst a ha _ hy).symm, hxy⟩
  · refine hl.imp_of_mem fun ha hb' hab x hx y hy => ?_
    rw [Prod.Lex.toLex_lt_toLex, hfirst _ ha x hx, hfirst _ hb' y hy]
    exact .inl hab

/-! ## Selection -/

/-- One step of a scan that keeps the first qualifying item of least rank. -/
structure Selects (p : α → Bool) (rank : α → γ) (step : Option α → α → Option α) : Prop where
  skip : ∀ best x, p x = false → step best x = best
  none : ∀ x, p x = true → step none x = some x
  lt : ∀ m x, p x = true → rank x < rank m → step (some m) x = some x
  le : ∀ m x, p x = true → rank m ≤ rank x → step (some m) x = some m

namespace Selects

variable {p : α → Bool} {step : Option α → α → Option α} {best : Option α} {m x : α}

theorem kept (h : Selects p rank step) (best : Option α) (hp : p x = true) :
    ∃ m, step best x = some m ∧ (m = x ∨ best = some m) ∧ rank m ≤ rank x ∧
      ∀ y ∈ best, rank m ≤ rank y := by
  cases best with
  | none => exact ⟨x, h.none x hp, .inl rfl, le_rfl, by simp⟩
  | some m =>
    rcases lt_or_ge (rank x) (rank m) with hlt | hle
    · exact ⟨x, h.lt m x hp hlt, .inl rfl, le_rfl, fun y hy => Option.some.inj hy ▸ hlt.le⟩
    · exact ⟨m, h.le m x hp hle, .inr rfl, hle, fun y hy => Option.some.inj hy ▸ le_rfl⟩

theorem foldl_eq_none (h : Selects p rank step) (hfold : l.foldl step best = Option.none) :
    best = Option.none ∧ ∀ x ∈ l, p x = false := by
  induction l generalizing best with
  | nil => exact ⟨hfold, by simp⟩
  | cons x l ih =>
    obtain ⟨hstep, hrest⟩ := ih hfold
    cases hp : p x with
    | true =>
      obtain ⟨m, hm, -⟩ := h.kept best hp
      rw [hm] at hstep
      cases hstep
    | false =>
      rw [h.skip best x hp] at hstep
      exact ⟨hstep, List.forall_mem_cons.mpr ⟨hp, hrest⟩⟩

/-- The item kept by a scan qualifies and has the least rank. -/
theorem foldl_eq_some (h : Selects p rank step) (hfold : l.foldl step best = some m) :
    (best = some m ∨ m ∈ l ∧ p m = true) ∧ (∀ x ∈ l, p x = true → rank m ≤ rank x) ∧
      ∀ x ∈ best, rank m ≤ rank x := by
  induction l generalizing best with
  | nil =>
    refine ⟨.inl hfold, by simp, fun x hx => ?_⟩
    rw [Option.some.inj (hfold.symm.trans hx)]
  | cons x l ih =>
    obtain ⟨hmem, hleast, hbest⟩ := ih hfold
    cases hp : p x with
    | false =>
      rw [h.skip best x hp] at hmem hbest
      refine ⟨hmem.imp_right fun hm => ⟨List.mem_cons_of_mem _ hm.1, hm.2⟩, ?_, hbest⟩
      exact List.forall_mem_cons.mpr ⟨fun hpx => absurd (hp.symm.trans hpx) (by simp), hleast⟩
    | true =>
      obtain ⟨m', hm', horigin, hx, hle⟩ := h.kept best hp
      have hmm' := hbest m' hm'
      refine ⟨?_, List.forall_mem_cons.mpr ⟨fun _ => hmm'.trans hx, hleast⟩,
        fun y hy => hmm'.trans (hle y hy)⟩
      rcases hmem with hmem | hmem
      · obtain rfl := Option.some.inj (hm'.symm.trans hmem)
        rcases horigin with rfl | horigin
        · exact .inr ⟨List.mem_cons_self, hp⟩
        · exact .inl horigin
      · exact .inr ⟨List.mem_cons_of_mem _ hmem.1, hmem.2⟩

end Selects

/-! ## Grouping -/

/-- The groups of distinct keys hold the items with one of these keys. -/
theorem flatMap_filter_perm {κ β : Type*} [DecidableEq κ] {keys : List κ} (hk : keys.Nodup)
    (key : β → κ) (items : List β) {p : β → Bool}
    (hp : ∀ x ∈ items, p x = true ↔ key x ∈ keys) :
    (keys.flatMap fun k => items.filter fun x => key x = k).Perm (items.filter p) := by
  induction keys generalizing p with
  | nil =>
    rw [List.filter_eq_nil_iff.mpr fun x hx hpx => by simpa using (hp x hx).mp hpx]
    simp
  | cons k keys ih =>
    obtain ⟨hnot, hk⟩ := List.nodup_cons.mp hk
    have hrest := ih hk (p := fun x => p x && !(key x = k)) fun x hx => by
      have := hp x hx
      by_cases hxk : key x = k <;> simp_all
    rw [List.flatMap_cons]
    apply (hrest.append_left _).trans
    refine List.Perm.trans ?_ (List.filter_append_perm (fun x => key x = k) _)
    rw [List.filter_filter, List.filter_filter]
    refine List.Perm.of_eq (congrArg₂ _ (List.filter_congr ?_) (List.filter_congr ?_))
    · intro x hx
      by_cases hxk : key x = k
      · simp [hxk, (hp x hx).mpr (by simp [hxk])]
      · simp [hxk]
    · intro x _
      by_cases hxk : key x = k <;> simp [hxk]

/-- Adding up under a condition. -/
theorem foldl_add_if {α β : Type*} [AddCommMonoid β] (p : α → Bool) (f : α → β) (l : List α)
    (s : β) :
    l.foldl (fun acc x => if p x then acc + f x else acc) s = s + ((l.filter p).map f).sum := by
  induction l generalizing s with
  | nil => simp
  | cons x l ih =>
    rw [List.foldl_cons, ih]
    by_cases hx : p x = true
    · simp [hx, add_assoc]
    · simp [hx]

/-- A sum over groups. -/
theorem sum_map_flatMap {α β γ : Type*} [AddCommMonoid γ] (l : List α) (items : α → List β)
    (f : β → γ) : ((l.flatMap items).map f).sum = (l.map fun a => ((items a).map f).sum).sum := by
  induction l with
  | nil => rfl
  | cons a l ih => simp [ih]

/-- The items below an item of an ordered list stand in front of it, those above it behind. -/
theorem countP_around {front behind : List γ} {x : γ}
    (h : (front ++ x :: behind).Pairwise (· ≤ ·)) :
    (front ++ x :: behind).countP (· < x) ≤ front.length ∧
      (front ++ x :: behind).countP (x < ·) ≤ behind.length := by
  obtain ⟨-, hbehind, hfront⟩ := List.pairwise_append.mp h
  have hnone : behind.countP (· < x) = 0 :=
    List.countP_eq_zero.mpr fun a ha => by simpa using List.rel_of_pairwise_cons hbehind ha
  have hnone' : front.countP (x < ·) = 0 :=
    List.countP_eq_zero.mpr fun a ha => by simpa using hfront a ha x List.mem_cons_self
  rw [List.countP_append, List.countP_append, List.countP_cons, List.countP_cons, hnone, hnone']
  constructor
  · simpa using List.countP_le_length
  · simpa using List.countP_le_length

end Sorting
