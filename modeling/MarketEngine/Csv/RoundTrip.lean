import MarketEngine.Csv.RowGrammar

/-! # What is written is read

A file of rows, with lines between them that are skipped, is read back as the
events of its rows. The first line that is neither skipped nor a row is an error
of that line, and leaves the output event as it was.
-/

namespace MarketEngine

open Text (cut decimal Denotes)

/-! ## Files -/

/-- An event that a row can have, with the keyword of its type. -/
structure CsvRow where
  event : MarketDataEvent
  keyword : List Char
  type : typeKeyword event.type = some keyword

namespace CsvRow

def fields (row : CsvRow) : List (List Char) :=
  [decimal row.event.sequence.toNat, decimal row.event.exchangeTimestampNs.toNat, row.keyword,
    decimal row.event.orderId.toNat, sideKeyword row.event.side,
    decimal row.event.priceTicks.toInt, decimal row.event.quantity.toNat]

def text (row : CsvRow) : List Char := [','].intercalate row.fields

/-- A row has no field for the symbol and the new order id. -/
def delivered (row : CsvRow) : MarketDataEvent := { row.event with symbol := 0, newOrderId := 0 }

end CsvRow

/-- A line that the connector skips. -/
structure SkippedLine where
  text : List Char
  skipped : Skipped text
  whole : '\n' ∉ text

def skippedText (skipped : List SkippedLine) : List Char :=
  skipped.flatMap fun line => line.text ++ ['\n']

inductive FileLine
  | skipped (line : SkippedLine)
  | row (row : CsvRow)

namespace FileLine

def text : FileLine → List Char
  | .skipped line => line.text
  | .row r => r.text

def delivered : FileLine → Option MarketDataEvent
  | .skipped _ => none
  | .row r => some r.delivered

end FileLine

/-- The lines of a file, with or without a newline behind the last one. -/
def fileText (newline : Bool) : List FileLine → List Char
  | [] => []
  | [line] => line.text ++ if newline then ['\n'] else []
  | line :: lines => line.text ++ '\n' :: fileText newline lines

/-! ## Rows -/

namespace CsvRow

variable (row : CsvRow)

/-- The fields are whole: no separator is in one. -/
theorem notMem_fields {a : Char} (ha : a = ',' ∨ a = '\n') : ∀ text ∈ row.fields, a ∉ text := by
  have hnumeral (z : ℤ) : a ∉ decimal z :=
    (Text.denotes_decimal z).notMem (by rcases ha with rfl | rfl <;> decide)
      (by rcases ha with rfl | rfl <;> decide)
  have htype : a ∉ row.keyword := by
    have hall : ∀ keyword ∈ typeKeyword row.event.type, ',' ∉ keyword ∧ '\n' ∉ keyword := by
      cases row.event.type <;> decide
    obtain ⟨hcomma, hnewline⟩ := hall row.keyword row.type
    rcases ha with rfl | rfl
    · exact hcomma
    · exact hnewline
  have hside : a ∉ sideKeyword row.event.side := by
    cases row.event.side <;> rcases ha with rfl | rfl <;> decide
  simp only [fields, List.forall_mem_cons, hnumeral, htype, hside, not_false_eq_true, true_and]
  simp

theorem splitOn_text : row.text.splitOn ',' = row.fields :=
  List.splitOn_intercalate ',' (row.notMem_fields (.inl rfl)) (by simp [fields])

/-- The text of a row is a row, and stands for what is delivered. -/
theorem rowOf : RowOf row.text row.delivered := by
  have hcount := Text.length_splitOn ',' row.text
  rw [splitOn_text] at hcount
  have hfield (i : ℕ) : rowField row.text i = row.fields.getD i [] := by
    rw [rowField, splitOn_text]
  constructor
  case commas => exact (Nat.succ.inj hcount).symm
  case symbol => rfl
  case newOrderId => rfl
  all_goals rw [hfield]
  case type => exact row.type
  case side => rfl
  case priceTicks => exact Text.denotes_decimal _
  all_goals exact Text.denotes_toDigits false _

theorem newline_notMem_text : '\n' ∉ row.text := by
  intro h
  obtain hcomma | ⟨text, htext, hmem⟩ := Text.mem_intercalate h
  · exact absurd hcomma (by decide)
  · exact row.notMem_fields (.inr rfl) text htext hmem

/-- A row begins with a digit, and no line that is skipped does. -/
theorem not_skipped : ¬Skipped row.text := by
  obtain ⟨first, rest, hdigits⟩ :=
    List.exists_cons_of_ne_nil (Nat.toDigits_ne_nil (n := row.event.sequence.toNat) (b := 10))
  have hdigit : first.isDigit = true :=
    Text.toDigits_isDigit row.event.sequence.toNat first (hdigits ▸ List.mem_cons_self)
  have htext : ∃ later, row.text = first :: later := by
    rw [text, fields, List.intercalate_cons_cons]
    change ∃ later, Nat.toDigits 10 _ ++ _ ++ _ = _
    rw [hdigits]
    exact ⟨_, rfl⟩
  obtain ⟨later, htext⟩ := htext
  rw [htext]
  rintro (hblank | hcomment | hheader)
  · cases hblank
  · cases hcomment
    exact absurd hdigit (by decide)
  · obtain ⟨heq, -⟩ := List.cons_prefix_cons.mp hheader
    rw [← heq] at hdigit
    exact absurd hdigit (by decide)

end CsvRow

/-! ## Lines -/

namespace FileLine

theorem newline_notMem_text (line : FileLine) : '\n' ∉ line.text := by
  cases line with
  | skipped line => exact line.whole
  | row row => exact row.newline_notMem_text

end FileLine

namespace CSVReplayConnector

variable {event : MarketDataEvent} {line rest : List Char} {n : ℕ}

theorem next_end (event : MarketDataEvent) (n : ℕ) :
    next ⟨[], n⟩ event = (.ok false, event, ⟨[], n⟩) :=
  (nextLoop event).run_of_inr (nextPass_none event (c := ⟨[], n⟩) rfl)

/-- A line that is skipped is counted. -/
theorem next_skipped (event : MarketDataEvent) (n : ℕ) {text : List Char} (htext : text ≠ [])
    (hline : cut '\n' text = (line, rest)) (h : Skipped line) :
    next ⟨text, n⟩ event = next ⟨rest, n + 1⟩ event := by
  apply (nextLoop event).run_of_inl
  obtain ⟨-, hpass⟩ | ⟨hnot, -⟩ | ⟨hnot, -⟩ :=
    nextPass_some event (c := ⟨text, n⟩) htext
  · exact hpass.trans (by rw [hline])
  · rw [hline] at hnot
    exact absurd h hnot
  · rw [hline] at hnot
    exact absurd h hnot

/-- A line that is not skipped is delivered, or an error of the line. -/
theorem next_line (event : MarketDataEvent) (n : ℕ) {text : List Char} (htext : text ≠ [])
    (hline : cut '\n' text = (line, rest)) (h : ¬Skipped line) :
    (∃ event', parseCsvEvent line = .ok event' ∧
      next ⟨text, n⟩ event = (.ok true, event', ⟨rest, n + 1⟩)) ∨
    (∃ what, parseCsvEvent line = .error what ∧
      next ⟨text, n⟩ event =
        (.error ("CSV line " ++ toString (n + 1) ++ ": " ++ what), event, ⟨rest, n + 1⟩)) := by
  obtain ⟨hskipped, -⟩ | ⟨-, event', hparse, hpass⟩ | ⟨-, what, hparse, hpass⟩ :=
    nextPass_some event (c := ⟨text, n⟩) htext
  · rw [hline] at hskipped
    exact absurd hskipped h
  · rw [hline] at hparse hpass
    exact .inl ⟨event', hparse, (nextLoop event).run_of_inr hpass⟩
  · rw [hline] at hparse hpass
    exact .inr ⟨what, hparse, (nextLoop event).run_of_inr hpass⟩

end CSVReplayConnector

/-- The first line of a file ends at its newline, or at the end of the file. -/
theorem cut_fileText (newline : Bool) (line : FileLine) (lines : List FileLine) :
    cut '\n' (fileText newline (line :: lines)) = (line.text, fileText newline lines) := by
  have hwhole := line.newline_notMem_text
  cases lines with
  | nil =>
    cases newline with
    | true => exact Text.cut_append hwhole []
    | false =>
      change cut '\n' (line.text ++ []) = _
      rw [List.append_nil, Text.cut_of_notMem hwhole]
      rfl
  | cons line' lines => exact Text.cut_append hwhole _

/-- Lines without a character are no row. -/
theorem delivered_of_fileText_nil {newline : Bool} {lines : List FileLine}
    (h : fileText newline lines = []) : lines.filterMap FileLine.delivered = [] := by
  cases lines with
  | nil => rfl
  | cons line lines =>
    cases lines with
    | nil =>
      obtain ⟨htext, -⟩ := List.append_eq_nil_iff.mp h
      cases line with
      | skipped line => rfl
      | row row => exact absurd (.inl htext) row.not_skipped
    | cons line' lines => exact absurd (List.append_eq_nil_iff.mp h).2 (List.cons_ne_nil _ _)

namespace CSVReplayConnector

/-- A call at some lines goes to the first row of them. -/
theorem next_fileText (newline : Bool) (event : MarketDataEvent) (lines : List FileLine) (n : ℕ) :
    match lines.filterMap FileLine.delivered with
    | [] => ∃ n', next ⟨fileText newline lines, n⟩ event = (.ok false, event, ⟨[], n'⟩)
    | delivered :: later => ∃ lines' n', lines'.filterMap FileLine.delivered = later ∧
        next ⟨fileText newline lines, n⟩ event =
          (.ok true, delivered, ⟨fileText newline lines', n'⟩) := by
  induction lines generalizing n with
  | nil => exact ⟨n, next_end event n⟩
  | cons line lines ih =>
    have hcut := cut_fileText newline line lines
    by_cases htext : fileText newline (line :: lines) = []
    · rw [delivered_of_fileText_nil htext, htext]
      exact ⟨n, next_end event n⟩
    · cases line with
      | skipped line =>
        rw [next_skipped event n htext hcut line.skipped]
        exact ih (n + 1)
      | row row =>
        have hrow := parseCsvEvent_eq_ok.mpr row.rowOf
        obtain ⟨event', hparse, hnext⟩ | ⟨what, hparse, -⟩ :=
          next_line event n htext hcut row.not_skipped
        · cases hrow.symm.trans hparse
          exact ⟨lines, n + 1, rfl, hnext⟩
        · cases hrow.symm.trans hparse

/-- The lines that are still to be read, and what the calls to come answer. -/
def Reads (newline : Bool) (script : List (Option (Except String MarketDataEvent)))
    (s : CSVReplayConnector × MarketDataEvent) : Prop :=
  ∃ lines n, s.1 = ⟨fileText newline lines, n⟩ ∧
    script = (lines.filterMap FileLine.delivered).map fun event => some (.ok event)

theorem follows_reads (newline : Bool) : feed.Follows (Reads newline) := by
  rintro script ⟨c, event⟩ ⟨lines, n, hc, rfl⟩
  have hnext := next_fileText newline event lines n
  cases hc
  cases hdelivered : lines.filterMap FileLine.delivered with
  | nil =>
    rw [hdelivered] at hnext
    obtain ⟨n', hnext⟩ := hnext
    dsimp only [feed]
    rw [hnext]
    exact ⟨rfl, [], n', rfl, rfl⟩
  | cons delivered later =>
    rw [hdelivered] at hnext
    obtain ⟨lines', n', hlater, hnext⟩ := hnext
    dsimp only [feed]
    rw [hnext]
    exact ⟨rfl, lines', n', rfl, by rw [hlater]; rfl⟩

/-- Lines that are skipped are counted. -/
theorem next_skippedText (event : MarketDataEvent) (skipped : List SkippedLine)
    (text : List Char) (n : ℕ) :
    next ⟨skippedText skipped ++ text, n⟩ event = next ⟨text, n + skipped.length⟩ event := by
  induction skipped generalizing n with
  | nil => rfl
  | cons line skipped ih =>
    have hcut := Text.cut_append line.whole (skippedText skipped ++ text)
    have htext : skippedText (line :: skipped) ++ text =
        line.text ++ '\n' :: (skippedText skipped ++ text) := by
      simp [skippedText]
    rw [htext, next_skipped event n (by simp) hcut line.skipped, ih, List.length_cons]
    congr 2
    omega

/-- A line that is neither skipped nor a row is an error of that line. -/
theorem next_malformed (skipped : List SkippedLine) {line rest : List Char} (n : ℕ)
    (event : MarketDataEvent) (hwhole : '\n' ∉ line) (hskipped : ¬Skipped line)
    (hrow : ¬∃ event, RowOf line event) (hrest : rest = [] ∨ rest.head? = some '\n') :
    ∃ what, next ⟨skippedText skipped ++ (line ++ rest), n⟩ event =
      (.error ("CSV line " ++ toString (n + skipped.length + 1) ++ ": " ++ what), event,
        ⟨rest.tail, n + skipped.length + 1⟩) := by
  have hcut : cut '\n' (line ++ rest) = (line, rest.tail) := by
    rcases hrest with rfl | hnewline
    · rw [List.append_nil, Text.cut_of_notMem hwhole]
      rfl
    · obtain ⟨rest, rfl⟩ := List.head?_eq_some_iff.mp hnewline
      exact Text.cut_append hwhole rest
  have htext : line ++ rest ≠ [] := by
    intro hnil
    exact hskipped (.inl (List.append_eq_nil_iff.mp hnil).1)
  rw [next_skippedText]
  obtain ⟨event', hparse, -⟩ | ⟨what, -, hnext⟩ := next_line event _ htext hcut hskipped
  · exact absurd ⟨event', parseCsvEvent_eq_ok.mp hparse⟩ hrow
  · exact ⟨what, hnext⟩

/-- Events that are written to a file, with lines between them that are skipped, are read back
from it, and nothing after them. A line is parsed exactly if it is a row, and the first line that
is neither skipped nor a row is an error that leaves the output event as it was. -/
theorem csv_round_trip :
    (∀ (newline : Bool) (lines : List FileLine) (event : MarketDataEvent) (n : ℕ),
      feed.answer n (⟨fileText newline lines, 0⟩, event) =
        ((lines.filterMap FileLine.delivered)[n]?).map .ok) ∧
    (∀ line : List Char,
      (∃ what, parseCsvEvent line = .error what) ↔ ¬∃ event, RowOf line event) ∧
    (∀ (skipped : List SkippedLine) (line rest : List Char) (n : ℕ) (event : MarketDataEvent),
      '\n' ∉ line → ¬Skipped line → (¬∃ event, RowOf line event) →
      rest = [] ∨ rest.head? = some '\n' →
      ∃ what, next ⟨skippedText skipped ++ (line ++ rest), n⟩ event =
        (.error ("CSV line " ++ toString (n + skipped.length + 1) ++ ": " ++ what), event,
          ⟨rest.tail, n + skipped.length + 1⟩)) := by
  refine ⟨?_, fun _ => parseCsvEvent_error_iff, ?_⟩
  · intro newline lines event n
    rw [(follows_reads newline).answer ⟨lines, 0, rfl, rfl⟩, List.getElem?_map]
    cases (lines.filterMap FileLine.delivered)[n]? <;> rfl
  · intro skipped line rest n event hwhole hskipped hrow hrest
    exact next_malformed skipped n event hwhole hskipped hrow hrest

/-- A row without its quantity is an error of its line, behind a comment. -/
theorem short_row_refused :
    ∃ what, next ⟨"# day one\n1,1000,add,7,buy,100\n".toList, 0⟩ {} =
      (.error ("CSV line " ++ toString 2 ++ ": " ++ what), {}, ⟨[], 2⟩) :=
  csv_round_trip.2.2 [⟨"# day one".toList, by decide, by decide⟩]
    "1,1000,add,7,buy,100".toList ['\n'] 0 {} (by decide) (by decide)
    (by
      rintro ⟨event, h⟩
      exact absurd h.commas (by decide))
    (.inr rfl)

end CSVReplayConnector

end MarketEngine
