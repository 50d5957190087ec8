import Mathlib.Algebra.BigOperators.Group.List.Basic
import Mathlib.Algebra.BigOperators.Group.List.Lemmas
import Mathlib.Algebra.GroupWithZero.Nat
import Mathlib.Data.List.Nodup
import Mathlib.Data.List.Perm.Basic

/-! # Sums over records with keys

The total weight of the records in a list that satisfy a predicate, and how it
changes when a record is added, taken out or rewritten.
-/

namespace KeyedSum

variable {α κ : Type*} {weight : α → ℕ} {p : α → Prop} [DecidablePred p] {l l' : List α} {x : α}

/-- The total weight of the records that satisfy `p`. -/
def total (weight : α → ℕ) (p : α → Prop) [DecidablePred p] (l : List α) : ℕ :=
  ((l.filter p).map weight).sum

@[simp] theorem total_append :
    total weight p (l ++ l') = total weight p l + total weight p l' := by
  simp [total]

@[simp] theorem total_cons :
    total weight p (x :: l) = (if p x then weight x else 0) + total weight p l := by
  by_cases hx : p x <;> simp [total, hx]

theorem total_perm (h : l.Perm l') : total weight p l = total weight p l' :=
  ((h.filter _).map _).sum_eq

theorem total_congr {p' : α → Prop} [DecidablePred p'] (h : ∀ x ∈ l, p x ↔ p' x) :
    total weight p l = total weight p' l := by
  rw [total, total, List.filter_congr fun x hx => decide_eq_decide.mpr (h x hx)]

theorem total_eq_zero (h : ∀ x ∈ l, ¬ p x) : total weight p l = 0 := by
  rw [total, List.filter_eq_nil_iff.mpr (by simpa using h)]
  rfl

/-! ## Distinct keys -/

variable {key : α → κ}

/-- The other records have other keys. -/
theorem exists_split (hnodup : (l.map key).Nodup) (hx : x ∈ l) :
    ∃ l₁ l₂, l = l₁ ++ x :: l₂ ∧ (∀ y ∈ l₁, key y ≠ key x) ∧ ∀ y ∈ l₂, key y ≠ key x := by
  obtain ⟨l₁, l₂, rfl⟩ := List.append_of_mem hx
  rw [List.map_append, List.map_cons, List.nodup_append, List.nodup_cons] at hnodup
  refine ⟨l₁, l₂, rfl, fun y hy => ?_, fun y hy heq => ?_⟩
  · exact hnodup.2.2 _ (List.mem_map_of_mem hy) _ List.mem_cons_self
  · exact hnodup.2.1.1 (heq ▸ List.mem_map_of_mem hy)

variable [DecidableEq κ]

/-- A record that is taken out takes its weight along. -/
theorem total_erase (hnodup : (l.map key).Nodup) (hx : x ∈ l) :
    total weight p (l.filter fun y => key y ≠ key x) + (if p x then weight x else 0) =
      total weight p l := by
  obtain ⟨l₁, l₂, rfl, h₁, h₂⟩ := exists_split hnodup hx
  rw [List.filter_append, List.filter_cons_of_neg (by simp),
    List.filter_eq_self.mpr (by simpa using h₁), List.filter_eq_self.mpr (by simpa using h₂)]
  simp only [total_append, total_cons]
  omega

variable (weight) in
/-- A record that is rewritten changes the total by its own weight. -/
theorem total_rewrite (hnodup : (l.map key).Nodup) (hx : x ∈ l) {f : α → α} (hp : p (f x) ↔ p x) :
    total weight p (l.map fun y => if key y = key x then f y else y) +
        (if p x then weight x else 0) =
      total weight p l + if p x then weight (f x) else 0 := by
  obtain ⟨l₁, l₂, rfl, h₁, h₂⟩ := exists_split hnodup hx
  have hkept : ∀ l₀ : List α, (∀ y ∈ l₀, key y ≠ key x) →
      (l₀.map fun y => if key y = key x then f y else y) = l₀ := fun l₀ h =>
    (List.map_congr_left fun y hy => if_neg (h y hy)).trans (List.map_id' l₀)
  rw [List.map_append, List.map_cons, if_pos rfl, hkept l₁ h₁, hkept l₂ h₂]
  simp only [total_append, total_cons, hp]
  omega

/-- With distinct keys the records of a key are at most one. -/
theorem total_key (hnodup : (l.map key).Nodup) (k : κ) :
    total weight (fun x => key x = k) l = (l.find? fun x => key x = k).elim 0 weight := by
  cases hfind : l.find? fun x => key x = k with
  | none => exact total_eq_zero (by simpa using List.find?_eq_none.mp hfind)
  | some x =>
    obtain rfl : key x = k := by simpa using List.find?_some hfind
    obtain ⟨l₁, l₂, rfl, h₁, h₂⟩ := exists_split hnodup (List.mem_of_find?_eq_some hfind)
    rw [total_append, total_cons, total_eq_zero h₁, total_eq_zero h₂]
    simp

/-- A list is as long as its classes together, when the classes are listed once each. -/
theorem length_classes {g : α → κ} {keys : List κ} (hkeys : keys.Nodup)
    (hcover : ∀ x ∈ l, g x ∈ keys) :
    (keys.map fun k => (l.filter fun x => g x = k).length).sum = l.length := by
  induction l with
  | nil => simp
  | cons x l ih =>
    obtain ⟨hx, hl⟩ := List.forall_mem_cons.mp hcover
    have hone : (keys.map fun k => if g x = k then 1 else 0).sum = 1 := by
      rw [List.sum_map_eq_nsmul_single (g x) _ fun k hk _ => if_neg (Ne.symm hk),
        List.count_eq_one_of_mem hkeys hx]
      simp
    have hcons : ∀ k, ((x :: l).filter fun y => g y = k).length =
        (if g x = k then 1 else 0) + (l.filter fun y => g y = k).length := by
      intro k
      by_cases hk : g x = k <;> simp [hk, Nat.add_comm]
    simp only [hcons, List.sum_map_add, hone, ih hl, List.length_cons, Nat.add_comm]

end KeyedSum
