import Mathlib.Data.Nat.Notation

/-! # Loops that end

A loop is a body that goes on with a new state or ends with a result, and a
measure that every pass that goes on makes smaller.
-/

/-- An endless loop with returns in its body, and why it is not endless. -/
structure Loop (σ ρ : Type*) where
  body : σ → σ ⊕ ρ
  measure : σ → ℕ
  decreases : ∀ s s', body s = .inl s' → measure s' < measure s

namespace Loop

variable {σ τ ρ υ : Type*}

/-- At most `n` passes. -/
def iterate (body : σ → σ ⊕ ρ) : ℕ → σ → Option ρ
  | 0, _ => none
  | n + 1, s =>
    match body s with
    | .inl s' => iterate body n s'
    | .inr r => some r

/-- What keeps its answer when it gets more fuel has one answer. -/
theorem answer_unique {f : ℕ → Option ρ}
    (hmono : ∀ {n n' : ℕ} {r : ρ}, f n = some r → n ≤ n' → f n' = some r) {n n' : ℕ} {r r' : ρ}
    (h : f n = some r) (h' : f n' = some r') : r = r' := by
  have hmax := hmono h (Nat.le_max_left n n')
  rw [hmono h' (Nat.le_max_right n n')] at hmax
  exact (Option.some.inj hmax).symm

variable (l : Loop σ ρ)

theorem isSome_iterate {n : ℕ} {s : σ} (h : l.measure s < n) :
    (iterate l.body n s).isSome = true := by
  induction n generalizing s with
  | zero => exact absurd h (Nat.not_lt_zero _)
  | succ n ih =>
    unfold iterate
    cases hbody : l.body s with
    | inl s' => exact ih (Nat.lt_of_lt_of_le (l.decreases s s' hbody) (Nat.le_of_lt_succ h))
    | inr r => rfl

/-- What the loop returns from a state. -/
def run (s : σ) : ρ :=
  (iterate l.body (l.measure s + 1) s).get (l.isSome_iterate (Nat.lt_succ_self _))

theorem iterate_eq {n : ℕ} {s : σ} (h : l.measure s < n) :
    iterate l.body n s = some (l.run s) := by
  rw [run, Option.some_get]
  generalize hm : l.measure s + 1 = m
  replace hm : l.measure s < m := hm ▸ Nat.lt_succ_self _
  induction n generalizing s m with
  | zero => exact absurd h (Nat.not_lt_zero _)
  | succ n ih =>
    cases m with
    | zero => exact absurd hm (Nat.not_lt_zero _)
    | succ m =>
      unfold iterate
      cases hbody : l.body s with
      | inl s' =>
        have hlt := l.decreases s s' hbody
        exact ih (Nat.lt_of_lt_of_le hlt (Nat.le_of_lt_succ h)) m
          (Nat.lt_of_lt_of_le hlt (Nat.le_of_lt_succ hm))
      | inr r => rfl

/-- A pass that goes on does not change what the loop returns. -/
theorem run_of_inl {s s' : σ} (h : l.body s = .inl s') : l.run s = l.run s' := by
  have hrun := l.iterate_eq (Nat.lt_succ_self (l.measure s))
  unfold iterate at hrun
  rw [h] at hrun
  exact Option.some.inj (hrun.symm.trans (l.iterate_eq (l.decreases s s' h)))

/-- A pass that returns decides what the loop returns. -/
theorem run_of_inr {s : σ} {r : ρ} (h : l.body s = .inr r) : l.run s = r := by
  have hrun := l.iterate_eq (Nat.lt_succ_self (l.measure s))
  unfold iterate at hrun
  rw [h] at hrun
  exact (Option.some.inj hrun).symm

/-- Induction over the passes of a run. -/
theorem run_induction {P : σ → Prop}
    (hstep : ∀ s s', l.body s = .inl s' → P s' → P s) (hstop : ∀ s r, l.body s = .inr r → P s)
    (s : σ) : P s := by
  generalize hn : l.measure s = n
  induction n using Nat.strongRecOn generalizing s with
  | ind n ih =>
    cases hbody : l.body s with
    | inl s' => exact hstep s s' hbody (ih _ (hn ▸ l.decreases s s' hbody) s' rfl)
    | inr r => exact hstop s r hbody

/-- What every pass keeps, and every return then gives, a run gives. -/
theorem run_invariant {I : σ → Prop} {Q : ρ → Prop}
    (hstep : ∀ s s', I s → l.body s = .inl s' → I s')
    (hstop : ∀ s r, I s → l.body s = .inr r → Q r) {s : σ} (hs : I s) : Q (l.run s) := by
  induction s using l.run_induction with
  | hstep s s' hbody ih =>
    rw [l.run_of_inl hbody]
    exact ih (hstep s s' hs hbody)
  | hstop s r hbody =>
    rw [l.run_of_inr hbody]
    exact hstop s r hs hbody

/-- At most `n` passes of a body that may fail. -/
def iterateChecked (body : σ → Option (σ ⊕ ρ)) : ℕ → σ → Option ρ
  | 0, _ => none
  | n + 1, s =>
    match body s with
    | none => none
    | some (.inl s') => iterateChecked body n s'
    | some (.inr r) => some r

/-- Enough passes end with this answer, and none of them fails. -/
def EndsWith (checked : σ → Option (σ ⊕ ρ)) (s : σ) (r : ρ) : Prop :=
  ∃ n, iterateChecked checked n s = some r

variable {checked : σ → Option (σ ⊕ ρ)} {I : σ → Prop}

/-- A body that fails nowhere on the way runs as the loop does. -/
theorem iterateChecked_eq (hbody : ∀ s, I s → checked s = some (l.body s))
    (hkeep : ∀ s s', I s → l.body s = .inl s' → I s') {n : ℕ} {s : σ} (hs : I s)
    (hn : l.measure s < n) : iterateChecked checked n s = some (l.run s) := by
  induction n generalizing s with
  | zero => exact absurd hn (Nat.not_lt_zero _)
  | succ n ih =>
    unfold iterateChecked
    rw [hbody s hs]
    cases hpass : l.body s with
    | inl s' =>
      have hlt := l.decreases s s' hpass
      rw [l.run_of_inl hpass]
      exact ih (hkeep s s' hs hpass) (Nat.lt_of_lt_of_le hlt (Nat.le_of_lt_succ hn))
    | inr r =>
      rw [l.run_of_inr hpass]

theorem endsWith_run (hbody : ∀ s, I s → checked s = some (l.body s))
    (hkeep : ∀ s s', I s → l.body s = .inl s' → I s') {s : σ} (hs : I s) :
    EndsWith checked s (l.run s) :=
  ⟨_, l.iterateChecked_eq hbody hkeep hs (Nat.lt_succ_self _)⟩

/-- Two loops that go on and return together return related results. -/
theorem run_related (l' : Loop τ υ) {R : σ → τ → Prop} {Q : ρ → υ → Prop}
    (h : ∀ s t, R s t → match l.body s, l'.body t with
      | .inl s', .inl t' => R s' t'
      | .inr r, .inr u => Q r u
      | _, _ => False) {s : σ} {t : τ} (hs : R s t) : Q (l.run s) (l'.run t) := by
  induction s using l.run_induction generalizing t with
  | hstep s s' hbody ih =>
    have hpass := h s t hs
    rw [hbody] at hpass
    cases hbody' : l'.body t with
    | inl t' =>
      rw [hbody'] at hpass
      rw [l.run_of_inl hbody, l'.run_of_inl hbody']
      exact ih hpass
    | inr u =>
      rw [hbody'] at hpass
      exact hpass.elim
  | hstop s r hbody =>
    have hpass := h s t hs
    rw [hbody] at hpass
    cases hbody' : l'.body t with
    | inl t' =>
      rw [hbody'] at hpass
      exact hpass.elim
    | inr u =>
      rw [hbody'] at hpass
      rw [l.run_of_inr hbody, l'.run_of_inr hbody']
      exact hpass

end Loop
