import MarketEngine.Kit.Cyclic

/-! # Ring buffers with one slot left over

A window of the slots of a pool, from `tail` up to `head`, that holds a list of
values. One slot at least is never part of the window, so equal ends mean that
it is empty.
-/

namespace Ring

open Cyclic

variable {α : Type*} {n : ℕ} [NeZero n]

/-- The window from `tail` to `head` holds the values `xs`. -/
structure Holds (cells : Pool α n) (tail head : Fin n) (xs : List α) : Prop where
  length_lt : xs.length < n
  head : head = ahead tail xs.length
  get : ∀ i, (hi : i < xs.length) → cells.get (ahead tail i) = xs[i]

variable {cells : Pool α n} {tail head : Fin n} {xs : List α} {x : α}

theorem holds_nil (cells : Pool α n) (tail : Fin n) : Holds cells tail tail [] where
  length_lt := Nat.pos_of_ne_zero (NeZero.ne n)
  head := (ahead_zero tail).symm
  get i hi := absurd hi (Nat.not_lt_zero i)

theorem Holds.empty_iff (h : Holds cells tail head xs) : tail = head ↔ xs = [] := by
  rw [h.head, eq_comm, ahead_eq_self h.length_lt, List.length_eq_zero_iff]

theorem Holds.full_iff (h : Holds cells tail head xs) :
    head + 1 = tail ↔ xs.length + 1 = n := by
  have hlt := h.length_lt
  have hnext : head + 1 = ahead tail (xs.length + 1) := by
    rw [h.head, ahead_add_one]
  rw [hnext]
  constructor
  · intro heq
    by_contra hne
    have := (ahead_eq_self (s := tail) (by omega : xs.length + 1 < n)).mp heq
    omega
  · intro heq
    rw [heq, ahead_full]

/-- The slot at the head is outside the window. -/
theorem Holds.ne_head (h : Holds cells tail head xs) {i : ℕ} (hi : i < xs.length) :
    ahead tail i ≠ head := by
  have hlt := h.length_lt
  rw [h.head, ne_eq, ahead_inj (hi.trans hlt) hlt]
  exact hi.ne

/-- Writing the slot at the head changes nothing in the window. -/
theorem Holds.write (h : Holds cells tail head xs) (x : α) :
    Holds (cells.set head x) tail head xs where
  length_lt := h.length_lt
  head := h.head
  get i hi := by rw [Pool.get_set_of_ne _ _ (h.ne_head hi), h.get i hi]

/-- Moving the head takes in the slot it stood at. -/
theorem Holds.push (h : Holds cells tail head xs) (hroom : xs.length + 1 < n)
    (hx : cells.get head = x) : Holds cells tail (head + 1) (xs ++ [x]) where
  length_lt := by simpa using hroom
  head := by rw [h.head, ← ahead_add_one, List.length_append, List.length_singleton]
  get i hi := by
    rw [List.length_append, List.length_singleton] at hi
    rcases Nat.lt_succ_iff_lt_or_eq.mp hi with hlt | rfl
    · rw [List.getElem_append_left hlt, h.get i hlt]
    · rw [← h.head, hx]
      simp

theorem Holds.get_tail (h : Holds cells tail head (x :: xs)) : cells.get tail = x := by
  have := h.get 0 (by simp)
  simpa using this

/-- Moving the tail gives its slot up. -/
theorem Holds.pop (h : Holds cells tail head (x :: xs)) : Holds cells (tail + 1) head xs where
  length_lt := (Nat.lt_succ_self _).trans h.length_lt
  head := by rw [h.head, List.length_cons, ahead_succ]
  get i hi := by
    have := h.get (i + 1) (by simpa using hi)
    rw [ahead_succ, this]
    rfl

end Ring
