import Mathlib.Algebra.Group.Int.Defs
import Mathlib.Algebra.Order.Group.Defs
import Mathlib.Data.List.ReduceOption
import MarketEngine.Kit.Stutter
import MarketEngine.Kit.Text
import MarketEngine.Research.FeatureStream

/-! # Order flow from a feature file

`signal_validity.py` reads the rows that `itch_features` has written and computes
the order flow between every two of them. The rows leave out the events that do
not change the top of the book, and these are the events without flow.
-/

namespace MarketEngine

open OrderBook Research Research.FeatureStream Stutter Text

variable {c : Capacity} {σ : Type} {F : Type}

/-! ## The file -/

namespace SignalValidity

def columnNames : List (List Char) :=
  ["sequence", "timestamp_ns", "bid_px", "bid_sz", "ask_px", "ask_sz", "two_sided"].map
    String.toList

def writeL1Header : List Char := [','].intercalate columnNames ++ ['\n']

def fields (r : L1Row) : List ℤ :=
  [r.sequence.toNat, r.timestampNs.toNat, r.bidPx.toInt, r.bidSz.toNat, r.askPx.toInt,
    r.askSz.toNat, if r.twoSided then 1 else 0]

def writeL1Row (r : L1Row) : List Char := [','].intercalate ((fields r).map decimal) ++ ['\n']

/-- What the tool has written once its rows are out. -/
def fileText (rows : List L1Row) : List Char := writeL1Header ++ rows.flatMap writeL1Row

/-! ## Reading it -/

/-- How `float` reads a numeral; a number may be rounded. -/
structure Converter (F : Type) [One F] where
  float : List Char → F
  number : ℤ → F
  float_numeral : ∀ {text : List Char} {z : ℤ}, Denotes true text z → float text = number z
  number_one : number 1 = 1
  number_zero : number 0 ≠ 1

/-- Named columns. -/
structure Table (F : Type) where
  names : List (List Char)
  rows : List (List F)

/-- The entry of a row in a column; none when there is no such column. -/
def Table.value (t : Table F) (row : List F) (name : String) : Option F :=
  row[t.names.idxOf name.toList]?

section Flow

variable [LinearOrder F] [AddGroup F]

end Flow

/-! ## What is read is what was written -/

variable {rows : List L1Row} {r : L1Row}

/-- The line of a row. -/
def line (r : L1Row) : List Char := [','].intercalate ((fields r).map decimal)

/-- What a row shows of the book. -/
def top (r : L1Row) : Price × Quantity × Price × Quantity := (r.bidPx, r.bidSz, r.askPx, r.askSz)

variable [LinearOrder F] [AddGroup F] [One F]

/-- Numerals without rounding. -/
def exact : Converter ℚ where
  float text := ((scan true text).map fun (z, _) => (z : ℚ)).getD 0
  number z := z
  float_numeral h := by rw [scan_eq_some.mpr h]; rfl
  number_one := Int.cast_one
  number_zero := by norm_num

end SignalValidity

end MarketEngine
