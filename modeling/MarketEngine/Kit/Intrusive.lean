import Mathlib.Data.List.Basic
import Mathlib.Data.List.Nodup

/-! # Intrusive lists

Lists threaded through the slots of a pool by link fields. A chain follows one
link and is used as a stack; a doubly linked list has links both ways. Both are
related to the list of slots they hold.
-/

namespace Intrusive

variable {ι : Type*}

/-! ## Chains -/

/-- The slots reached from `head` by the link `next`, up to `none`, are exactly `l`. -/
def Chain (next : ι → Option ι) : Option ι → List ι → Prop
  | head, [] => head = none
  | head, i :: l => head = some i ∧ Chain next (next i) l

variable {next next' prev prev' : ι → Option ι} {head tail : Option ι} {l : List ι} {i : ι}

theorem Chain.congr (h : Chain next head l) (hn : ∀ j ∈ l, next' j = next j) :
    Chain next' head l := by
  induction l generalizing head with
  | nil => exact h
  | cons j l ih =>
    refine ⟨h.1, ?_⟩
    rw [hn j List.mem_cons_self]
    exact ih h.2 fun k hk => hn k (List.mem_cons_of_mem _ hk)

/-- Push a slot that is not on the chain. -/
theorem Chain.push (h : Chain next head l) (hi : next' i = head)
    (hn : ∀ j ∈ l, next' j = next j) : Chain next' (some i) (i :: l) :=
  ⟨rfl, hi ▸ h.congr hn⟩

theorem Chain.eq_nil (h : Chain next none l) : l = [] := by
  cases l with
  | nil => rfl
  | cons j l => cases h.1

theorem Chain.eq_cons (h : Chain next (some i) l) :
    ∃ rest, l = i :: rest ∧ Chain next (next i) rest := by
  cases l with
  | nil => cases h
  | cons j l =>
    obtain ⟨hj, hl⟩ := h
    injection hj with hj
    subst hj
    exact ⟨l, rfl, hl⟩

/-- The slots of a chain are determined by its head. -/
theorem Chain.unique {l' : List ι} (h : Chain next head l) (h' : Chain next head l') : l = l' := by
  induction l generalizing head l' with
  | nil =>
    obtain rfl : head = none := h
    exact h'.eq_nil.symm
  | cons i l ih =>
    obtain ⟨rfl, hl⟩ := h
    obtain ⟨rest, rfl, hrest⟩ := h'.eq_cons
    rw [ih hl hrest]

/-! ## Doubly linked lists -/

/-- The links of consecutive slots of `l` agree both ways; `before` and `after` are the
neighbours of the whole segment. -/
def Links (next prev : ι → Option ι) : Option ι → List ι → Option ι → Prop
  | _, [], _ => True
  | before, i :: l, after =>
    prev i = before ∧ next i = l.head?.or after ∧ Links next prev (some i) l after

/-- A doubly linked list with the given ends holds exactly `l`. -/
structure DList (next prev : ι → Option ι) (head tail : Option ι) (l : List ι) : Prop where
  head_eq : head = l.head?
  tail_eq : tail = l.getLast?
  links : Links next prev none l none

variable {before after : Option ι} {l₁ l₂ : List ι}

theorem links_append : Links next prev before (l₁ ++ l₂) after ↔
    Links next prev before l₁ (l₂.head?.or after) ∧
      Links next prev (l₁.getLast?.or before) l₂ after := by
  induction l₁ generalizing before with
  | nil => simp [Links]
  | cons i l₁ ih =>
    have hh : ((l₁ ++ l₂).head?.or after) = l₁.head?.or (l₂.head?.or after) := by
      cases l₁ <;> simp
    have hl : ((i :: l₁).getLast?.or before) = l₁.getLast?.or (some i) := by
      rw [List.getLast?_cons]
      cases l₁.getLast? <;> simp
    simp only [List.cons_append, Links, ih, hh, hl]
    tauto

theorem Links.congr (h : Links next prev before l after)
    (hn : ∀ j ∈ l, next' j = next j) (hp : ∀ j ∈ l, prev' j = prev j) :
    Links next' prev' before l after := by
  induction l generalizing before with
  | nil => trivial
  | cons j l ih =>
    refine ⟨?_, ?_, ih h.2.2 (fun k hk => hn k (List.mem_cons_of_mem _ hk))
      fun k hk => hp k (List.mem_cons_of_mem _ hk)⟩
    · rw [hp j List.mem_cons_self, h.1]
    · rw [hn j List.mem_cons_self, h.2.1]

theorem DList.congr (h : DList next prev head tail l)
    (hn : ∀ j ∈ l, next' j = next j) (hp : ∀ j ∈ l, prev' j = prev j) :
    DList next' prev' head tail l :=
  ⟨h.head_eq, h.tail_eq, h.links.congr hn hp⟩

/-- The neighbours of a slot on the list. -/
theorem DList.neighbours (h : DList next prev head tail (l₁ ++ i :: l₂)) :
    prev i = l₁.getLast? ∧ next i = l₂.head? := by
  have hl := (links_append.mp h.links).2
  simpa [Links] using And.intro hl.1 hl.2.1

theorem Links.chain (h : Links next prev before l none) : Chain next l.head? l := by
  induction l generalizing before with
  | nil => rfl
  | cons i l ih =>
    refine ⟨rfl, ?_⟩
    have hnext : next i = l.head? := by simpa using h.2.1
    rw [hnext]
    exact ih h.2.2

/-- Read forwards, a doubly linked list is a chain. -/
theorem DList.chain (h : DList next prev head tail l) : Chain next head l := by
  rw [h.head_eq]
  exact h.links.chain

section Relink

variable [DecidableEq ι]

/-- Retarget what precedes a segment. -/
theorem Links.setBefore (h : Links next prev before l after) (hl : l.Nodup)
    (hn : ∀ j ∈ l, next' j = next j)
    (hp : ∀ j ∈ l, prev' j = if l.head? = some j then head else prev j) :
    Links next' prev' head l after := by
  cases l with
  | nil => trivial
  | cons j l =>
    refine ⟨by rw [hp j List.mem_cons_self]; simp, by rw [hn j List.mem_cons_self, h.2.1], ?_⟩
    apply h.2.2.congr (fun k hk => hn k (List.mem_cons_of_mem _ hk))
    intro k hk
    rw [hp k (List.mem_cons_of_mem _ hk), if_neg]
    rintro he
    injection he with he
    exact (List.nodup_cons.mp hl).1 (he ▸ hk)

/-- Retarget what follows a segment. -/
theorem Links.setAfter (h : Links next prev before l after) (hl : l.Nodup)
    (hn : ∀ j ∈ l, next' j = if l.getLast? = some j then tail else next j)
    (hp : ∀ j ∈ l, prev' j = prev j) : Links next' prev' before l tail := by
  induction l generalizing before with
  | nil => trivial
  | cons j l ih =>
    have hlast : ∀ k ∈ l, (j :: l).getLast? = some k ↔ l.getLast? = some k := by
      intro k hk
      rw [List.getLast?_cons]
      cases hl' : l.getLast? with
      | none => rw [List.getLast?_eq_none_iff.mp hl'] at hk; cases hk
      | some a => simp
    refine ⟨by rw [hp j List.mem_cons_self, h.1], ?_, ih h.2.2 (List.nodup_cons.mp hl).2 ?_ ?_⟩
    · rw [hn j List.mem_cons_self]
      cases l with
      | nil => simp
      | cons k l =>
        rw [if_neg, h.2.1]
        · rfl
        · intro he
          have hm : j ∈ k :: l := by
            rw [List.getLast?_cons_cons] at he
            exact List.mem_of_getLast? he
          exact (List.nodup_cons.mp hl).1 hm
    · intro k hk
      rw [hn k (List.mem_cons_of_mem _ hk)]
      simp only [hlast k hk]
    · exact fun k hk => hp k (List.mem_cons_of_mem _ hk)

/-- Append a slot that is not on the list. -/
theorem DList.append (h : DList next prev head tail l) (hl : l.Nodup) (hi : i ∉ l)
    (hp : prev' i = tail) (hni : next' i = none)
    (hn : ∀ j ∈ l, next' j = if tail = some j then some i else next j)
    (hpj : ∀ j ∈ l, prev' j = prev j) :
    DList next' prev' (if tail = none then some i else head) (some i) (l ++ [i]) where
  head_eq := by
    rw [h.tail_eq, h.head_eq]
    cases l <;> simp
  tail_eq := by simp
  links := by
    rw [links_append]
    refine ⟨?_, ?_, ?_, trivial⟩
    · apply h.links.setAfter hl
      · intro j hj
        rw [hn j hj, h.tail_eq]
        simp
      · exact hpj
    · rw [hp, h.tail_eq]
      simp
    · simpa using hni

/-- Take a slot off the list by joining its neighbours. -/
theorem DList.unlink (h : DList next prev head tail (l₁ ++ i :: l₂))
    (hl : (l₁ ++ i :: l₂).Nodup)
    (hn : ∀ j, j ≠ i → next' j = if prev i = some j then next i else next j)
    (hp : ∀ j, j ≠ i → prev' j = if next i = some j then prev i else prev j) :
    DList next' prev' (if prev i = none then next i else head)
      (if next i = none then prev i else tail) (l₁ ++ l₂) := by
  obtain ⟨hpi, hni⟩ := h.neighbours
  obtain ⟨hl₁, hl₂⟩ := links_append.mp h.links
  obtain ⟨hd₁, hd₂, hdis⟩ := List.nodup_append.mp hl
  obtain ⟨hi₂, hd₂⟩ := List.nodup_cons.mp hd₂
  have hne₁ : ∀ j ∈ l₁, j ≠ i := fun j hj => hdis j hj i List.mem_cons_self
  have hne₂ : ∀ j ∈ l₂, j ≠ i := fun j hj he => hi₂ (he ▸ hj)
  have hdis₂ : ∀ j ∈ l₁, j ∉ l₂ := fun j hj hj' =>
    hdis j hj j (List.mem_cons_of_mem _ hj') rfl
  constructor
  · rw [hpi, hni, h.head_eq]
    cases l₁ <;> simp [List.getLast?_cons]
  · rw [hpi, hni, h.tail_eq]
    cases l₂ with
    | nil => simp
    | cons k l₂ => simp [List.getLast?_append, List.getLast?_cons]
  · rw [links_append]
    constructor
    · apply hl₁.setAfter hd₁
      · intro j hj
        rw [hn j (hne₁ j hj), hpi, hni]
        simp
      · intro j hj
        rw [hp j (hne₁ j hj), if_neg]
        rw [hni]
        exact fun he => hdis₂ j hj (List.mem_of_mem_head? he)
    · apply hl₂.2.2.setBefore hd₂
      · intro j hj
        rw [hn j (hne₂ j hj), if_neg]
        rw [hpi]
        exact fun he => hdis₂ j (List.mem_of_getLast? he) hj
      · intro j hj
        rw [hp j (hne₂ j hj), hpi, hni]
        simp

end Relink

end Intrusive
