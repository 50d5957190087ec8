import Mathlib.Data.List.Basic
import MarketEngine.Kit.Loop

/-! # Feeds

A feed is asked for one value at a time and answers each call with a value or
with none. Its abstract form is the list of the answers still to come, after
which there are no more values.
-/

/-- A state that is called for values, each of which makes the measure smaller. -/
structure Feed (σ α : Type*) where
  next : σ → Option α × σ
  measure : σ → ℕ
  decreases : ∀ s a s', next s = (some a, s') → measure s' < measure s

namespace Feed

variable {σ α : Type*} (f : Feed σ α)

/-- The state after `n` calls. -/
def after : ℕ → σ → σ
  | 0, s => s
  | n + 1, s => after n (f.next s).2

/-- The answer to the call after `n` others. -/
def answer (n : ℕ) (s : σ) : Option α := (f.next (f.after n s)).1

/-- Once a call has got no value, no later call gets one or moves the count. -/
def StaysStopped (count : σ → ℕ) (s : σ) : Prop :=
  ∀ n m, f.answer n s = none → n < m →
    f.answer m s = none ∧ count (f.after (m + 1) s) = count (f.after m s)

/-- Call until there is no value. -/
def drainLoop : Loop (List α × σ) (List α × σ) where
  body := fun (values, s) =>
    match f.next s with
    | (some a, s') => .inl (values ++ [a], s')
    | (none, s') => .inr (values, s')
  measure := fun (_, s) => f.measure s
  decreases := by
    rintro ⟨values, s⟩ ⟨values', s'⟩ h
    dsimp only at h
    split at h
    · next a s'' hnext =>
      cases h
      exact f.decreases s a s' hnext
    · cases h

/-- The values of a state up to the first call that gets none, and the state after that call. -/
def drain (s : σ) : List α × σ := f.drainLoop.run ([], s)

variable {f}

theorem after_succ (n : ℕ) (s : σ) : f.after (n + 1) s = (f.next (f.after n s)).2 := by
  induction n generalizing s with
  | zero => rfl
  | succ n ih => exact ih (f.next s).2

/-- What every call with a value keeps, and the call without one then gives, draining gives. -/
theorem drain_invariant {I Q : σ → Prop}
    (hsome : ∀ s a, I s → (f.next s).1 = some a → I (f.next s).2)
    (hnone : ∀ s, I s → (f.next s).1 = none → Q (f.next s).2) {s : σ} (hs : I s) :
    Q (f.drain s).2 := by
  refine f.drainLoop.run_invariant (I := fun t => I t.2) (Q := fun r => Q r.2) ?_ ?_ hs
  · rintro ⟨values, s⟩ t hs hbody
    dsimp only [drainLoop] at hbody
    split at hbody
    · next a s' hnext =>
      cases hbody
      have := hsome s a hs (by rw [hnext])
      rwa [hnext] at this
    · cases hbody
  · rintro ⟨values, s⟩ r hs hbody
    dsimp only [drainLoop] at hbody
    split at hbody
    · cases hbody
    · next s' hnext =>
      cases hbody
      have := hnone s hs (by rw [hnext])
      rwa [hnext] at this

/-! ## Scripts -/

/-- The values before the first call that gets none. -/
def heard : List (Option α) → List α
  | some a :: script => a :: heard script
  | _ => []

/-- What the script has left after the first call that gets none. -/
def unheard : List (Option α) → List (Option α)
  | some _ :: script => unheard script
  | none :: script => script
  | [] => []

/-- A script that goes on brings the same values first. -/
theorem heard_prefix (script later : List (Option α)) : heard script <+: heard (script ++ later) := by
  induction script with
  | nil => exact List.nil_prefix
  | cons answer script ih =>
    cases answer with
    | none => exact List.prefix_rfl
    | some a => exact (List.prefix_cons_inj a).mpr ih

theorem heard_append_none (script : List (Option α)) : heard (script ++ [none]) = heard script := by
  induction script with
  | nil => rfl
  | cons answer script ih =>
    cases answer with
    | none => rfl
    | some a => exact congrArg (a :: ·) ih

/-- States related to a script answer the calls as it says, and with none when it is used up. -/
def Follows (f : Feed σ α) (R : List (Option α) → σ → Prop) : Prop :=
  ∀ script s, R script s → (f.next s).1 = script.head?.join ∧ R script.tail (f.next s).2

variable {R : List (Option α) → σ → Prop} {script : List (Option α)} {s : σ}

/-- A loop follows a script if its passes that go on keep it and its returns take one answer. -/
theorem follows_of_loop {l : Loop σ (Option α × σ)} (hf : ∀ s, f.next s = l.run s)
    (hgoes : ∀ script s s', R script s → l.body s = .inl s' → R script s')
    (hreturns : ∀ script s r, R script s → l.body s = .inr r →
      r.1 = script.head?.join ∧ R script.tail r.2) : f.Follows R := by
  intro script s hs
  rw [hf]
  exact l.run_invariant (hgoes script) (hreturns script) hs

theorem Follows.after (hf : f.Follows R) (hs : R script s) (n : ℕ) :
    R (script.drop n) (f.after n s) := by
  induction n generalizing script s with
  | zero => exact hs
  | succ n ih =>
    rw [← List.drop_tail]
    exact ih (hf script s hs).2

/-- The answers are those of the script. -/
theorem Follows.answer (hf : f.Follows R) (hs : R script s) (n : ℕ) :
    f.answer n s = script[n]?.join := by
  rw [Feed.answer, (hf _ _ (hf.after hs n)).1, List.head?_drop]

/-- A feed stays stopped when its script has no value behind an answer without one. -/
theorem Follows.staysStopped_iff (hf : f.Follows R) (hs : R script s) (count : σ → ℕ)
    (hcount : ∀ script s, R script s → (f.next s).1 = none → count (f.next s).2 = count s) :
    f.StaysStopped count s ↔ script.Pairwise fun a b => a = none → b = none := by
  rw [List.pairwise_iff_getElem]
  constructor
  · intro h i j hi hj hij hnone
    have hi' : f.answer i s = none := by
      rw [hf.answer hs, List.getElem?_eq_getElem hi, Option.join_some, hnone]
    have hj' := (h i j hi' hij).1
    rwa [hf.answer hs, List.getElem?_eq_getElem hj, Option.join_some] at hj'
  · intro h n m hn hlt
    have hm : f.answer m s = none := by
      rw [hf.answer hs] at hn ⊢
      rcases Nat.lt_or_ge m script.length with hm | hm
      · have hn' : n < script.length := Nat.lt_trans hlt hm
        rw [List.getElem?_eq_getElem hn', Option.join_some] at hn
        rw [List.getElem?_eq_getElem hm, Option.join_some]
        exact h n m hn' hm hlt hn
      · rw [List.getElem?_eq_none hm]
        rfl
    refine ⟨hm, ?_⟩
    rw [after_succ]
    exact hcount _ _ (hf.after hs m) hm

/-- Draining hears the script up to its first answer without a value. -/
theorem Follows.drain (hf : f.Follows R) (hs : R script s) :
    (f.drain s).1 = heard script ∧ R (unheard script) (f.drain s).2 := by
  have hrun := f.drainLoop.run_invariant
    (I := fun t => ∃ later, R later t.2 ∧ t.1 ++ heard later = heard script ∧
      unheard later = unheard script)
    (Q := fun r => r.1 = heard script ∧ R (unheard script) r.2) ?_ ?_
    (s := ([], s)) ⟨script, hs, rfl, rfl⟩
  · exact hrun
  · rintro ⟨values, s⟩ t ⟨later, hlater, hvalues, hrest⟩ hbody
    obtain ⟨hanswer, htail⟩ := hf later s hlater
    dsimp only [drainLoop] at hbody hvalues
    split at hbody
    · next a s' hnext =>
      cases hbody
      rw [hnext] at hanswer htail
      obtain ⟨later, rfl⟩ : ∃ rest, later = some a :: rest := by
        cases later with
        | nil => cases hanswer
        | cons answer rest => exact ⟨rest, by rw [show answer = some a from hanswer.symm]⟩
      exact ⟨later, htail, by simpa [heard] using hvalues, hrest⟩
    · cases hbody
  · rintro ⟨values, s⟩ r ⟨later, hlater, hvalues, hrest⟩ hbody
    obtain ⟨hanswer, htail⟩ := hf later s hlater
    dsimp only [drainLoop] at hbody hvalues
    split at hbody
    · cases hbody
    · next s' hnext =>
      cases hbody
      rw [hnext] at hanswer htail
      cases later with
      | nil => exact ⟨by simpa [heard] using hvalues, hrest ▸ htail⟩
      | cons answer rest =>
        obtain rfl : answer = none := hanswer.symm
        exact ⟨by simpa [heard] using hvalues, hrest ▸ htail⟩

/-! ## Consumers -/

variable {τ : Type*}

/-- Take up the values of a list until the work says to stop. -/
def foldUntil (work : τ → α → τ × Bool) : τ → List α → τ
  | t, [] => t
  | t, a :: values => if (work t a).2 then (work t a).1 else foldUntil work (work t a).1 values

theorem foldUntil_of_go (work : τ → α → τ × Bool) {t : τ} {a : α} (h : (work t a).2 = false)
    (values : List α) : foldUntil work t (a :: values) = foldUntil work (work t a).1 values := by
  simp [foldUntil, h]

/-- Values that the work passes over. -/
theorem foldUntil_filter (work : τ → α → τ × Bool) (p : α → Bool) (t : τ) (values : List α) :
    foldUntil (fun t a => if p a then work t a else (t, false)) t values =
      foldUntil work t (values.filter p) := by
  induction values generalizing t with
  | nil => rfl
  | cons a values ih =>
    cases hp : p a with
    | true => simp [foldUntil, hp, ih]
    | false => simp [foldUntil, hp, ih]

/-- The values up to a limit; no limit is zero. -/
def upTo (limit : ℕ) (values : List α) : List α := if limit = 0 then values else values.take limit

theorem upTo_prefix (limit : ℕ) (values : List α) : upTo limit values <+: values := by
  unfold upTo
  split_ifs
  · exact List.prefix_rfl
  · exact List.take_prefix _ _

/-- Work that counts its values and stops at a limit. -/
theorem foldUntil_limit {work : τ → α → τ} (count : τ → ℕ)
    (hcount : ∀ t a, count (work t a) = count t + 1) (limit : ℕ) {t : τ}
    (ht : limit ≠ 0 → count t < limit) (values : List α) :
    foldUntil (fun t a => (work t a, limit ≠ 0 && limit ≤ count (work t a))) t values =
      (if limit = 0 then values else values.take (limit - count t)).foldl work t := by
  induction values generalizing t with
  | nil => simp [foldUntil]
  | cons a values ih =>
    by_cases hlimit : limit = 0
    · simp only [foldUntil, hlimit, if_true, List.foldl_cons] at ih ⊢
      simpa using ih (t := work t a) (by simp)
    · obtain ⟨k, hk⟩ : ∃ k, limit - count t = k + 1 := ⟨limit - count t - 1, by
        have := ht hlimit
        omega⟩
      have hk' : limit - count (work t a) = k := by
        rw [hcount]
        omega
      simp only [foldUntil, if_neg hlimit, hk, List.take_succ_cons, List.foldl_cons]
      by_cases hstop : limit ≤ count (work t a)
      · obtain rfl : k = 0 := by omega
        simp [hlimit, hstop]
      · have hrest := ih (t := work t a) fun _ => Nat.lt_of_not_le hstop
        rw [if_neg hlimit, hk'] at hrest
        simpa [hlimit, hstop] using hrest

/-- Call for values and take each one up, until there is no value or the work says to stop. -/
def consumeLoop (f : Feed σ α) (work : τ → α → τ × Bool) : Loop (τ × σ) (τ × σ) where
  body := fun (t, s) =>
    match f.next s with
    | (some a, s') => if (work t a).2 then .inr ((work t a).1, s') else .inl ((work t a).1, s')
    | (none, s') => .inr (t, s')
  measure := fun (_, s) => f.measure s
  decreases := by
    rintro ⟨t, s⟩ ⟨t', s'⟩ h
    dsimp only at h
    split at h
    · next a s'' hnext =>
      split at h
      · cases h
      · cases h
        exact f.decreases s a s' hnext
    · cases h

def consume (f : Feed σ α) (work : τ → α → τ × Bool) (t : τ) (s : σ) : τ × σ :=
  (f.consumeLoop work).run (t, s)

/-- The values that are there already stay in front. -/
theorem drainLoop_run (values : List α) (s : σ) :
    f.drainLoop.run (values, s) = (values ++ (f.drain s).1, (f.drain s).2) := by
  induction hn : f.measure s using Nat.strongRecOn generalizing values s with
  | ind n ih =>
    subst hn
    cases hnext : f.next s with
    | mk answer s' =>
      cases answer with
      | none =>
        have hbody : ∀ values, f.drainLoop.body (values, s) = .inr (values, s') := fun values => by
          simp [drainLoop, hnext]
        rw [drain, f.drainLoop.run_of_inr (hbody values), f.drainLoop.run_of_inr (hbody [])]
        simp
      | some a =>
        have hbody : ∀ values, f.drainLoop.body (values, s) = .inl (values ++ [a], s') :=
          fun values => by simp [drainLoop, hnext]
        have hlt := f.decreases s a s' hnext
        rw [drain, f.drainLoop.run_of_inl (hbody values), f.drainLoop.run_of_inl (hbody []),
          ih _ hlt _ s' rfl, ih _ hlt _ s' rfl]
        simp

theorem drain_of_some {s s' : σ} {a : α} (h : f.next s = (some a, s')) :
    f.drain s = (a :: (f.drain s').1, (f.drain s').2) := by
  have hbody : f.drainLoop.body ([], s) = .inl ([a], s') := by simp [drainLoop, h]
  rw [drain, f.drainLoop.run_of_inl hbody, drainLoop_run]
  rfl

theorem drain_of_none {s s' : σ} (h : f.next s = (none, s')) : f.drain s = ([], s') :=
  f.drainLoop.run_of_inr (by simp [drainLoop, h])

/-- Consuming a feed is taking up what draining it brings. -/
theorem consume_eq (work : τ → α → τ × Bool) (t : τ) (s : σ) :
    (f.consume work t s).1 = foldUntil work t (f.drain s).1 := by
  unfold consume
  generalize hstart : (t, s) = start
  induction start using (f.consumeLoop work).run_induction generalizing t s with
  | hstep start next hbody ih =>
    subst hstart
    rw [(f.consumeLoop work).run_of_inl hbody]
    dsimp only [consumeLoop] at hbody
    split at hbody
    · next a s' hnext =>
      split at hbody
      · cases hbody
      · next hgo =>
        cases hbody
        rw [ih _ _ rfl, drain_of_some hnext, foldUntil_of_go work (Bool.eq_false_iff.mpr hgo)]
    · cases hbody
  | hstop start r hbody =>
    subst hstart
    rw [(f.consumeLoop work).run_of_inr hbody]
    dsimp only [consumeLoop] at hbody
    split at hbody
    · next a s' hnext =>
      split at hbody
      · next hstop =>
        cases hbody
        simp [drain_of_some hnext, foldUntil, hstop]
      · cases hbody
    · next s' hnext =>
      cases hbody
      simp [drain_of_none hnext, foldUntil]

/-- A list of values. -/
def list (α : Type*) : Feed (List α) α where
  next values := (values.head?, values.tail)
  measure := List.length
  decreases := by
    rintro values a _ h
    cases values with
    | nil => cases h
    | cons b values =>
      cases h
      exact Nat.lt_succ_self _

@[simp] theorem drain_list (values : List α) : ((list α).drain values).1 = values := by
  induction values with
  | nil => exact congrArg Prod.fst (drain_of_none (f := list α) rfl)
  | cons a values ih =>
    rw [drain_of_some (f := list α) rfl]
    exact congrArg (a :: ·) ih

end Feed
