import MarketEngine.Kit.KeyedSum

/-! # Serving a demand from a queue

Offers stand in a queue, each with an amount. A demand takes from the first one,
then from the next, until it is met or nothing is left. Serving two demands one
after the other serves their sum.
-/

namespace Serving

variable {κ : Type*} {demand demand' n : ℕ} {k : κ} {offers parts : List (κ × ℕ)}

/-- What is offered in all. -/
def total (offers : List (κ × ℕ)) : ℕ := (offers.map Prod.snd).sum

/-- What the demand takes from each offer that it comes to. -/
def taken : ℕ → List (κ × ℕ) → List (κ × ℕ)
  | _, [] => []
  | demand, (k, amount) :: offers =>
    if demand = 0 then []
    else (k, min demand amount) :: taken (demand - amount) offers

/-- What the demand leaves. -/
def left : ℕ → List (κ × ℕ) → List (κ × ℕ)
  | _, [] => []
  | demand, (k, amount) :: offers =>
    if amount ≤ demand then left (demand - amount) offers
    else (k, amount - demand) :: offers

theorem taken_zero (offers : List (κ × ℕ)) : taken 0 offers = [] := by
  cases offers with
  | nil => rfl
  | cons offer offers => exact if_pos rfl

/-- Nobody gives more than was offered. -/
theorem mem_taken {part : κ × ℕ} (h : part ∈ taken demand offers) :
    ∃ amount, (part.1, amount) ∈ offers ∧ part.2 ≤ amount := by
  induction offers generalizing demand with
  | nil => cases h
  | cons offer offers ih =>
    obtain ⟨k, amount⟩ := offer
    unfold taken at h
    split at h
    · cases h
    · rcases List.mem_cons.mp h with rfl | h
      · exact ⟨amount, List.mem_cons_self, Nat.min_le_right _ _⟩
      · obtain ⟨amount', hmem, hle⟩ := ih h
        exact ⟨amount', List.mem_cons_of_mem _ hmem, hle⟩

/-! ## Names -/

/-- The same parts under other names. -/
def rename {κ' : Type*} (f : κ → κ') (parts : List (κ × ℕ)) : List (κ' × ℕ) :=
  parts.map (Prod.map f id)

section

variable {κ' : Type*} (f : κ → κ')

theorem total_rename (offers : List (κ × ℕ)) : total (rename f offers) = total offers := by
  rw [total, rename, List.map_map]
  rfl

theorem taken_rename (demand : ℕ) (offers : List (κ × ℕ)) :
    taken demand (rename f offers) = rename f (taken demand offers) := by
  induction offers generalizing demand with
  | nil => rfl
  | cons offer offers ih =>
    obtain ⟨k, amount⟩ := offer
    change taken demand ((f k, amount) :: rename f offers) = _
    rw [taken, taken, ih]
    split <;> rfl

theorem left_rename (demand : ℕ) (offers : List (κ × ℕ)) :
    left demand (rename f offers) = rename f (left demand offers) := by
  induction offers generalizing demand with
  | nil => rfl
  | cons offer offers ih =>
    obtain ⟨k, amount⟩ := offer
    change left demand ((f k, amount) :: rename f offers) = _
    rw [left, left, ih]
    split <;> rfl

end

/-! ## Volumes -/

section

variable {p : κ → Prop} [DecidablePred p]

/-- The amount at the offers that satisfy `p`. -/
def volume (p : κ → Prop) [DecidablePred p] (parts : List (κ × ℕ)) : ℕ :=
  KeyedSum.total Prod.snd (fun part => p part.1) parts

@[simp] theorem volume_cons :
    volume p ((k, n) :: parts) = (if p k then n else 0) + volume p parts :=
  KeyedSum.total_cons

end

/-! ## Two demands -/

variable (hpos : ∀ offer ∈ offers, 0 < offer.2)

include hpos

theorem left_zero : left 0 offers = offers := by
  cases offers with
  | nil => rfl
  | cons offer offers =>
    have := hpos offer List.mem_cons_self
    unfold left
    rw [if_neg (by omega)]
    rfl

end Serving
