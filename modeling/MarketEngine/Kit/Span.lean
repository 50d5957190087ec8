import Mathlib.Data.List.Basic

/-! # Spans

A pointer with a length. A load answers only if the memory says that it may, and a
part of a span answers only inside the part.
-/

/-- What is behind a pointer, and how much of that belongs to the span. -/
structure Span (α : Type*) where
  load : ℕ → Option α
  length : ℕ

namespace Span

variable {α : Type*}

/-- A whole allocation. -/
def ofList (l : List α) : Span α := ⟨fun i => l[i]?, l.length⟩

/-- The pointer `offset` places in. -/
def pointer (s : Span α) (offset : ℕ) : ℕ → Option α := fun i => s.load (offset + i)

/-- The `count` places from `offset`. -/
def sub (s : Span α) (offset count : ℕ) : Span α :=
  ⟨fun i => if i < count then s.load (offset + i) else none, count⟩

/-- Load everything, from the front to the back. -/
def copy (s : Span α) : Option (List α) := (List.range s.length).mapM s.load

/-- Every place of the span can be loaded, and these are the values. -/
structure Holds (s : Span α) (l : List α) : Prop where
  length : s.length = l.length
  load : ∀ i, ∀ h : i < l.length, s.load i = some l[i]

variable {s : Span α} {l : List α}

theorem ofList_holds (l : List α) : (ofList l).Holds l where
  length := rfl
  load _ h := List.getElem?_eq_getElem h

theorem Holds.sub (h : s.Holds l) {offset count : ℕ} (hle : offset + count ≤ l.length) :
    (s.sub offset count).Holds ((l.drop offset).take count) where
  length := by
    have hcount : (s.sub offset count).length = count := rfl
    rw [hcount, List.length_take, List.length_drop]
    omega
  load i hi := by
    have hcount : i < count := by
      rw [List.length_take] at hi
      omega
    have hload : (s.sub offset count).load i = s.load (offset + i) := if_pos hcount
    rw [hload, h.load (offset + i) (by omega), List.getElem_take, List.getElem_drop]

theorem Holds.pointer (h : s.Holds l) {offset i : ℕ} (hlt : offset + i < l.length) :
    s.pointer offset i = (l.drop offset)[i]? := by
  rw [Span.pointer, h.load _ hlt, List.getElem?_drop, List.getElem?_eq_getElem hlt]

theorem mapM_range (n : ℕ) (f : ℕ → Option α) (hf : ∀ i, ∀ h : i < l.length, f i = some l[i])
    (hn : n ≤ l.length) : (List.range n).mapM f = some (l.take n) := by
  induction n with
  | zero => rfl
  | succ n ih =>
    rw [List.range_succ, List.mapM_append, ih (by omega), List.take_succ_eq_append_getElem hn]
    simp [hf n hn]

/-- A span is copied whole. -/
theorem Holds.copy (h : s.Holds l) : s.copy = some l := by
  rw [Span.copy, h.length, mapM_range l.length s.load h.load (Nat.le_refl _), List.take_length]

end Span
