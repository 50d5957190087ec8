import Mathlib.Data.Fin.Tuple.Basic
import MarketEngine.Kit.Feed
import MarketEngine.Kit.Text
import MarketEngine.Market.Event

/-! # CSV replay

A row has seven fields between six commas. The connector skips blank lines,
comments and header lines, and an error of a row names its line. A text is the
list of its characters, one for each byte.
-/

namespace MarketEngine

open Text (cut scan)

/-! ## Rows -/

/-- The fields of `splitRow` from one on, with `n` more behind it. -/
def splitFrom : (n : ℕ) → List Char → Except String (Fin (n + 1) → List Char)
  | 0, text => if ',' ∈ text then .error "too many CSV fields" else .ok fun _ => text
  | n + 1, text =>
    if ',' ∈ text then
      (splitFrom n (cut ',' text).2).map (Fin.cons (cut ',' text).1)
    else .error "too few CSV fields"

def splitRow (line : List Char) : Except String (Fin 7 → List Char) := splitFrom 6 line

/-- An integer type that a field is read as. -/
structure IntegerType (T : Type) where
  signed : Bool
  min : ℤ
  max : ℤ
  ofInt : ℤ → T
  toInt : T → ℤ
  ofInt_toInt : ∀ x, ofInt (toInt x) = x
  toInt_ofInt : ∀ z, min ≤ z → z ≤ max → toInt (ofInt z) = z
  min_le : ∀ x, min ≤ toInt x
  le_max : ∀ x, toInt x ≤ max

/-- The type of sequences, timestamps, order ids and quantities. -/
def uint64 : IntegerType UInt64 where
  signed := false
  min := 0
  max := 2 ^ 64 - 1
  ofInt z := UInt64.ofNat z.toNat
  toInt x := x.toNat
  ofInt_toInt x := by simp
  toInt_ofInt z h h' := by
    have hlt : z.toNat < UInt64.size := by
      rw [show UInt64.size = 2 ^ 64 from rfl]
      omega
    rw [UInt64.toNat_ofNat_of_lt' hlt]
    omega
  min_le x := by omega
  le_max x := by
    have := x.toNat_lt
    omega

/-- The type of prices. -/
def int64 : IntegerType Int64 where
  signed := true
  min := -2 ^ 63
  max := 2 ^ 63 - 1
  ofInt := Int64.ofInt
  toInt := Int64.toInt
  ofInt_toInt x := by simp
  toInt_ofInt z h h' := Int64.toInt_ofInt_of_le h (by omega)
  min_le x := x.le_toInt
  le_max x := by
    have := x.toInt_lt
    omega

inductive Errc | ok | invalidArgument | resultOutOfRange
  deriving DecidableEq, Repr

/-- `std::from_chars` in base ten: the value, what is left of the text and the error. -/
def fromChars {T : Type} (t : IntegerType T) (text : List Char) (value : T) :
    T × List Char × Errc :=
  match scan t.signed text with
  | none => (value, text, .invalidArgument)
  | some (z, rest) =>
    if t.min ≤ z ∧ z ≤ t.max then (t.ofInt z, rest, .ok) else (value, rest, .resultOutOfRange)

def parseInteger {T : Type} (t : IntegerType T) (value : List Char) : Except String T :=
  let (result, ptr, error) := fromChars t value (t.ofInt 0)
  if error ≠ .ok ∨ ptr ≠ [] then .error "invalid integer field" else .ok result

def parseType (value : List Char) : Except String EventType :=
  if value = "add".toList then .ok .add
  else if value = "modify".toList then .ok .modify
  else if value = "cancel".toList then .ok .cancel
  else if value = "trade".toList then .ok .trade
  else .error "invalid event type"

def parseSide (value : List Char) : Except String Side :=
  if value = "buy".toList then .ok .buy
  else if value = "sell".toList then .ok .sell
  else .error "invalid side"

def parseCsvEvent (line : List Char) : Except String MarketDataEvent := do
  let fields ← splitRow line
  let sequence ← parseInteger uint64 (fields 0)
  let exchangeTimestampNs ← parseInteger uint64 (fields 1)
  let type ← parseType (fields 2)
  let orderId ← parseInteger uint64 (fields 3)
  let side ← parseSide (fields 4)
  let priceTicks ← parseInteger int64 (fields 5)
  let quantity ← parseInteger uint64 (fields 6)
  return { sequence, exchangeTimestampNs, type, orderId, side, priceTicks, quantity }

/-! ## The connector -/

/-- The connector of a file that opens: what is left of the input, and the lines read. -/
structure CSVReplayConnector where
  input : List Char
  lineNumber : ℕ := 0
  deriving DecidableEq, Repr

/-- `std::getline`: a line and what is left behind its newline. At the end there is no line. -/
def getline (input : List Char) : Option (List Char × List Char) :=
  if input = [] then none else some (cut '\n' input)

/-- The lines that are not rows. -/
def Skipped (line : List Char) : Prop :=
  line = [] ∨ line.head? = some '#' ∨ "sequence,".toList <+: line

instance (line : List Char) : Decidable (Skipped line) := inferInstanceAs (Decidable (_ ∨ _))

namespace CSVReplayConnector

/-- The answer of `next`, or the text of what it throws, the output event and the connector. -/
abbrev Answer := Except String Bool × MarketDataEvent × CSVReplayConnector

/-- One line of the loop of `next`. -/
def nextPass (event : MarketDataEvent) (c : CSVReplayConnector) : CSVReplayConnector ⊕ Answer :=
  match getline c.input with
  | none => .inr (.ok false, event, c)
  | some (line, input) =>
    let c : CSVReplayConnector := ⟨input, c.lineNumber + 1⟩
    if Skipped line then .inl c
    else
      match parseCsvEvent line with
      | .ok event => .inr (.ok true, event, c)
      | .error what =>
        .inr (.error ("CSV line " ++ toString c.lineNumber ++ ": " ++ what), event, c)

theorem nextPass_none (event : MarketDataEvent) {c : CSVReplayConnector} (h : c.input = []) :
    nextPass event c = .inr (.ok false, event, c) := by
  rw [nextPass, getline, if_pos h]

/-- What a pass does with a line. -/
theorem nextPass_some (event : MarketDataEvent) {c : CSVReplayConnector} (h : c.input ≠ []) :
    let line := (cut '\n' c.input).1
    let c' : CSVReplayConnector := ⟨(cut '\n' c.input).2, c.lineNumber + 1⟩
    (Skipped line ∧ nextPass event c = .inl c') ∨
    (¬Skipped line ∧ ∃ event', parseCsvEvent line = .ok event' ∧
      nextPass event c = .inr (.ok true, event', c')) ∨
    (¬Skipped line ∧ ∃ what, parseCsvEvent line = .error what ∧
      nextPass event c =
        .inr (.error ("CSV line " ++ toString c'.lineNumber ++ ": " ++ what), event, c')) := by
  intro line c'
  have hline : getline c.input = some (cut '\n' c.input) := if_neg h
  rw [nextPass, hline]
  by_cases hskipped : Skipped line
  · exact .inl ⟨hskipped, if_pos hskipped⟩
  · refine .inr ?_
    dsimp only
    rw [if_neg hskipped]
    cases hparse : parseCsvEvent line with
    | ok event' => exact .inl ⟨hskipped, event', rfl, rfl⟩
    | error what => exact .inr ⟨hskipped, what, rfl, rfl⟩

def nextLoop (event : MarketDataEvent) : Loop CSVReplayConnector Answer where
  body := nextPass event
  measure c := c.input.length
  decreases c c' h := by
    by_cases hinput : c.input = []
    · rw [nextPass_none event hinput] at h
      cases h
    · obtain ⟨-, hpass⟩ | ⟨-, _, -, hpass⟩ | ⟨-, _, -, hpass⟩ := nextPass_some event hinput <;>
        cases hpass.symm.trans h
      exact Text.length_cut_lt hinput

def next (c : CSVReplayConnector) (event : MarketDataEvent) : Answer := (nextLoop event).run c

/-- A call that does not return false has read a line. -/
theorem length_next (event : MarketDataEvent) (c : CSVReplayConnector)
    (h : (c.next event).1 ≠ .ok false) :
    (c.next event).2.2.input.length < c.input.length := by
  revert h
  induction c using (nextLoop event).run_induction with
  | hstep c c' hbody ih =>
    rw [next, (nextLoop event).run_of_inl hbody]
    intro h
    exact Nat.lt_trans (ih h) ((nextLoop event).decreases c c' hbody)
  | hstop c answer hbody =>
    rw [next, (nextLoop event).run_of_inr hbody]
    intro h
    by_cases hinput : c.input = []
    · cases (nextPass_none event hinput).symm.trans hbody
      exact absurd rfl h
    · obtain ⟨-, hpass⟩ | ⟨-, _, -, hpass⟩ | ⟨-, _, -, hpass⟩ := nextPass_some event hinput <;>
        cases hpass.symm.trans hbody <;> exact Text.length_cut_lt hinput

/-- The calls of `next` with one output event, each of which delivers an event or throws until
one of them returns false. -/
def feed : Feed (CSVReplayConnector × MarketDataEvent) (Except String MarketDataEvent) where
  next s :=
    match s.1.next s.2 with
    | (.ok true, event, c) => (some (.ok event), c, event)
    | (.ok false, event, c) => (none, c, event)
    | (.error what, event, c) => (some (.error what), c, event)
  measure s := s.1.input.length
  decreases := by
    rintro ⟨c, event⟩ answer s h
    have hlt := c.length_next event
    dsimp only at h
    split at h <;> cases h <;> next hnext => simpa [hnext] using hlt

end CSVReplayConnector

end MarketEngine
