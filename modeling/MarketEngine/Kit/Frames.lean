import Mathlib.Data.List.Basic

/-! # Strings of frames

Frames written one after the other, and the string cut at some place: the frames
before the cut are whole, and what is left is part of the next one.
-/

namespace Frames

variable {α β : Type*} (encode : α → List β)

/-- The frames that lie before the cut as a whole. -/
def whole : ℕ → List α → List α
  | _, [] => []
  | cut, x :: xs =>
    if (encode x).length ≤ cut then x :: whole (cut - (encode x).length) xs else []

/-- A frame ends here, or none has begun. -/
def Boundary (xs : List α) (cut : ℕ) : Prop :=
  ∃ k ≤ xs.length, cut = ((xs.take k).flatMap encode).length

instance (xs : List α) (cut : ℕ) : Decidable (Boundary encode xs cut) :=
  inferInstanceAs (Decidable (∃ k ≤ xs.length, cut = _))

variable {encode} {cut : ℕ} {x : α} {xs : List α}

theorem whole_prefix (encode : α → List β) (cut : ℕ) (xs : List α) : whole encode cut xs <+: xs := by
  induction xs generalizing cut with
  | nil => exact List.prefix_rfl
  | cons x xs ih =>
    rw [whole]
    split
    · exact (List.prefix_cons_inj x).mpr (ih _)
    · exact List.nil_prefix

theorem boundary_cons : Boundary encode (x :: xs) cut ↔
    cut = 0 ∨ (encode x).length ≤ cut ∧ Boundary encode xs (cut - (encode x).length) := by
  constructor
  · rintro ⟨k, hk, rfl⟩
    cases k with
    | zero => exact .inl rfl
    | succ k =>
      simp only [List.take_succ_cons, List.flatMap_cons, List.length_append]
      exact .inr ⟨by omega, k, Nat.le_of_succ_le_succ hk, by omega⟩
  · rintro (rfl | ⟨hle, k, hk, hcut⟩)
    · exact ⟨0, Nat.zero_le _, rfl⟩
    · refine ⟨k + 1, Nat.succ_le_succ hk, ?_⟩
      simp only [List.take_succ_cons, List.flatMap_cons, List.length_append, ← hcut]
      omega

/-- A string that is cut: whole frames, and part of another one unless the cut is between two. -/
theorem take_flatMap (hpos : ∀ x ∈ xs, 0 < (encode x).length)
    (hcut : cut ≤ (xs.flatMap encode).length) :
    ∃ tail, (xs.flatMap encode).take cut = (whole encode cut xs).flatMap encode ++ tail ∧
      (tail = [] ↔ Boundary encode xs cut) ∧
      (tail ≠ [] → ∃ x ∈ xs, ∃ k < (encode x).length, tail = (encode x).take k) := by
  induction xs generalizing cut with
  | nil =>
    obtain rfl : cut = 0 := by simpa using hcut
    exact ⟨[], rfl, by simp [Boundary], by simp⟩
  | cons x xs ih =>
    obtain ⟨hx, hxs⟩ := List.forall_mem_cons.mp hpos
    rw [List.flatMap_cons, List.length_append] at hcut
    rw [List.flatMap_cons, whole, boundary_cons]
    by_cases hle : (encode x).length ≤ cut
    · have hrest : cut - (encode x).length ≤ (xs.flatMap encode).length := by omega
      obtain ⟨tail, htake, hboundary, hpart⟩ := ih hxs hrest
      refine ⟨tail, ?_, ?_, ?_⟩
      · rw [List.take_append, List.take_of_length_le hle, htake, if_pos hle, List.flatMap_cons,
          List.append_assoc]
      · rw [hboundary]
        simp [hle, show cut ≠ 0 by omega]
      · intro htail
        obtain ⟨y, hy, hk⟩ := hpart htail
        exact ⟨y, List.mem_cons_of_mem _ hy, hk⟩
    · refine ⟨(encode x).take cut, ?_, ?_, fun _ => ⟨x, List.mem_cons_self, cut, by omega, rfl⟩⟩
      · rw [if_neg hle, List.take_append_of_le_length (by omega)]
        rfl
      · simp [hle, List.take_eq_nil_iff, List.ne_nil_of_length_pos hx]

end Frames
