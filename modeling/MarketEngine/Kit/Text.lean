import Mathlib.Algebra.Order.Ring.Int
import Mathlib.Data.List.TakeWhile

/-! # Separators and numerals

A text is cut at its first separator. A numeral is written in decimal digits,
with a minus in front where one is allowed, and a scan takes the longest numeral
that a text begins with.
-/

namespace Text

section Separators

variable {α : Type*} [DecidableEq α] {sep : α} {field text : List α}

/-- What is in front of the first separator and what is behind it. -/
def cut (sep : α) (text : List α) : List α × List α :=
  (text.takeWhile (· ≠ sep), (text.dropWhile (· ≠ sep)).tail)

theorem cut_append (h : sep ∉ field) (rest : List α) :
    cut sep (field ++ sep :: rest) = (field, rest) := by
  have hall : ∀ a ∈ field, decide (a ≠ sep) = true := by
    intro a ha
    exact decide_eq_true (ne_of_mem_of_not_mem ha h)
  rw [cut, List.takeWhile_append_of_pos hall, List.dropWhile_append_of_pos hall]
  simp

theorem cut_of_notMem (h : sep ∉ text) : cut sep text = (text, []) := by
  have hall : ∀ a ∈ text, decide (a ≠ sep) = true := by
    intro a ha
    exact decide_eq_true (ne_of_mem_of_not_mem ha h)
  rw [cut, List.takeWhile_eq_self_iff.mpr hall, List.dropWhile_eq_nil_iff.mpr hall]
  rfl

theorem length_cut_lt (h : text ≠ []) : (cut sep text).2.length < text.length := by
  have hle := List.length_dropWhile_le (· ≠ sep) text
  have hpos := List.length_pos_iff.mpr h
  simp only [cut, List.length_tail]
  omega

/-- A text has one field more than separators. -/
theorem length_splitOn (sep : α) (text : List α) :
    (text.splitOn sep).length = text.count sep + 1 := by
  induction text with
  | nil => rfl
  | cons a text ih =>
    rw [List.splitOn_cons_eq_if_modifyHead, List.count_cons]
    split_ifs with hsep
    · rw [List.length_cons, ih]
    · rw [List.length_modifyHead, ih]

omit [DecidableEq α] in
theorem mem_intercalate {fields : List (List α)} {a : α} (h : a ∈ [sep].intercalate fields) :
    a = sep ∨ ∃ field ∈ fields, a ∈ field := by
  induction fields with
  | nil => exact absurd h List.not_mem_nil
  | cons field fields ih =>
    cases fields with
    | nil =>
      rw [List.intercalate_singleton] at h
      exact .inr ⟨field, List.mem_cons_self, h⟩
    | cons field' fields =>
      rw [List.intercalate_cons_cons, List.append_assoc] at h
      rcases List.mem_append.mp h with hfield | hrest
      · exact .inr ⟨field, List.mem_cons_self, hfield⟩
      · rcases List.mem_cons.mp hrest with rfl | hrest
        · exact .inl rfl
        · obtain hsep | ⟨later, hlater, hmem⟩ := ih hrest
          · exact .inl hsep
          · exact .inr ⟨later, List.mem_cons_of_mem _ hlater, hmem⟩

end Separators

/-- A parser of two parts succeeds when both parts do. -/
theorem bind_eq_ok {ε α β : Type} {x : Except ε α} {f : α → Except ε β} {b : β} :
    x >>= f = .ok b ↔ ∃ a, x = .ok a ∧ f a = .ok b := by
  cases x with
  | error e =>
    constructor
    · intro h
      cases h
    · rintro ⟨a, h, -⟩
      cases h
  | ok a =>
    constructor
    · intro h
      exact ⟨a, rfl, h⟩
    · rintro ⟨a', h, h'⟩
      cases h
      exact h'

/-! ## Numerals -/

/-- A numeral and the integer that it stands for. -/
inductive Denotes (minus : Bool) : List Char → ℤ → Prop
  | plain {digits : List Char} : digits ≠ [] → (∀ a ∈ digits, a.isDigit) →
      Denotes minus digits (Nat.ofDigitChars 10 digits 0)
  | negated {digits : List Char} : minus = true → digits ≠ [] → (∀ a ∈ digits, a.isDigit) →
      Denotes minus ('-' :: digits) (-Nat.ofDigitChars 10 digits 0)

/-- The decimal digits of an integer. -/
def decimal : ℤ → List Char
  | .ofNat n => Nat.toDigits 10 n
  | .negSucc n => '-' :: Nat.toDigits 10 (n + 1)

/-- The digits in front of a text and what is behind them. -/
def scanDigits (text : List Char) : Option (ℕ × List Char) :=
  let digits := text.takeWhile Char.isDigit
  if digits = [] then none
  else some (Nat.ofDigitChars 10 digits 0, text.dropWhile Char.isDigit)

/-- The numeral in front of a text and what is behind it. -/
def scan (minus : Bool) (text : List Char) : Option (ℤ × List Char) :=
  if minus = true ∧ text.head? = some '-' then
    (scanDigits text.tail).map fun (n, rest) => (-n, rest)
  else (scanDigits text).map fun (n, rest) => (n, rest)

variable {minus : Bool} {text : List Char} {z : ℤ}

theorem toDigits_isDigit (n : ℕ) : ∀ a ∈ Nat.toDigits 10 n, a.isDigit := by
  intro a ha
  exact Nat.isDigit_of_mem_toDigits (by decide) (by decide) ha

theorem denotes_toDigits (minus : Bool) (n : ℕ) : Denotes minus (Nat.toDigits 10 n) n := by
  have h : Denotes minus _ _ := .plain Nat.toDigits_ne_nil (toDigits_isDigit n)
  rwa [Nat.ofDigitChars_ten_toDigits] at h

theorem denotes_decimal (z : ℤ) : Denotes true (decimal z) z := by
  cases z with
  | ofNat n => exact denotes_toDigits true n
  | negSucc n =>
    have h := Denotes.negated rfl Nat.toDigits_ne_nil (toDigits_isDigit (n + 1))
    rwa [Nat.ofDigitChars_ten_toDigits] at h

theorem scanDigits_eq_some {n : ℕ} : scanDigits text = some (n, []) ↔
    text ≠ [] ∧ (∀ a ∈ text, a.isDigit) ∧ n = Nat.ofDigitChars 10 text 0 := by
  simp only [scanDigits]
  constructor
  · intro h
    split_ifs at h with hnil
    obtain ⟨hvalue, hrest⟩ := Prod.mk.inj (Option.some.inj h)
    have hall := List.dropWhile_eq_nil_iff.mp hrest
    rw [List.takeWhile_eq_self_iff.mpr hall] at hnil hvalue
    exact ⟨hnil, hall, hvalue.symm⟩
  · rintro ⟨hne, hall, rfl⟩
    rw [List.takeWhile_eq_self_iff.mpr hall, List.dropWhile_eq_nil_iff.mpr hall, if_neg hne]

/-- A scan that leaves nothing has read a numeral, and it reads every numeral whole. -/
theorem scan_eq_some : scan minus text = some (z, []) ↔ Denotes minus text z := by
  constructor
  · intro h
    rw [scan] at h
    split_ifs at h with hminus
    · obtain ⟨text, rfl⟩ := List.head?_eq_some_iff.mp hminus.2
      obtain ⟨⟨n, rest⟩, hscan, hresult⟩ := Option.map_eq_some_iff.mp h
      obtain ⟨rfl, rfl⟩ := Prod.mk.inj hresult
      obtain ⟨hne, hall, rfl⟩ := scanDigits_eq_some.mp hscan
      exact .negated hminus.1 hne hall
    · obtain ⟨⟨n, rest⟩, hscan, hresult⟩ := Option.map_eq_some_iff.mp h
      obtain ⟨rfl, rfl⟩ := Prod.mk.inj hresult
      obtain ⟨hne, hall, rfl⟩ := scanDigits_eq_some.mp hscan
      exact .plain hne hall
  · rintro (⟨hne, hall⟩ | ⟨hminus, hne, hall⟩)
    · have hhead : ¬(minus = true ∧ text.head? = some '-') := by
        rintro ⟨-, hhead⟩
        exact absurd (hall '-' (List.mem_of_head? hhead)) (by decide)
      rw [scan, if_neg hhead, scanDigits_eq_some.mpr ⟨hne, hall, rfl⟩]
      rfl
    · rw [scan, if_pos ⟨hminus, rfl⟩, List.tail_cons, scanDigits_eq_some.mpr ⟨hne, hall, rfl⟩]
      rfl

/-- What is neither a digit nor a minus is not in a numeral. -/
theorem Denotes.notMem (h : Denotes minus text z) {a : Char} (hdigit : a.isDigit = false)
    (hminus : a ≠ '-') : a ∉ text := by
  have hnot {digits : List Char} (hall : ∀ a ∈ digits, a.isDigit) : a ∉ digits := by
    intro ha
    rw [hall a ha] at hdigit
    cases hdigit
  rcases h with ⟨-, hall⟩ | ⟨-, -, hall⟩
  · exact hnot hall
  · exact List.not_mem_cons_of_ne_of_not_mem hminus (hnot hall)

end Text
