import MarketEngine.Csv.CSVReplayConnector

/-! # What a row is

A row is six commas between the numerals of an event and the keywords of its
type and side. The parser accepts exactly the rows, and with the event that they
stand for.
-/

namespace MarketEngine

open Text (cut scan Denotes)

/-! ## Fields -/

/-- The fields of a line, empty behind the last one. -/
def rowField (line : List Char) (i : ℕ) : List Char := (line.splitOn ',').getD i []

/-- The types of event that a row can have. -/
def typeKeyword : EventType → Option (List Char)
  | .add => some "add".toList
  | .modify => some "modify".toList
  | .cancel => some "cancel".toList
  | .trade => some "trade".toList
  | .reduce => none
  | .replace => none

def sideKeyword : Side → List Char
  | .buy => "buy".toList
  | .sell => "sell".toList

theorem splitFrom_eq_ok {n : ℕ} {text : List Char} {fields : Fin (n + 1) → List Char} :
    splitFrom n text = .ok fields ↔ text.splitOn ',' = List.ofFn fields := by
  induction n generalizing text with
  | zero =>
    rw [splitFrom]
    split_ifs with hcomma
    · obtain ⟨front, rest, rfl, hfront⟩ := List.eq_append_cons_of_mem hcomma
      rw [List.splitOn_append_cons_self_of_not_mem hfront]
      simp [List.splitOn_ne_nil]
    · rw [List.splitOn_eq_singleton hcomma]
      constructor
      · intro h
        cases h
        rfl
      · intro h
        have hfields : text = fields 0 := by simpa using h
        rw [hfields]
        refine congrArg Except.ok (funext fun i => ?_)
        rw [Fin.eq_zero i]
  | succ n ih =>
    rw [splitFrom]
    split_ifs with hcomma
    · obtain ⟨front, rest, rfl, hfront⟩ := List.eq_append_cons_of_mem hcomma
      rw [List.splitOn_append_cons_self_of_not_mem hfront, Text.cut_append hfront, List.ofFn_succ,
        List.cons.injEq, ← ih]
      constructor
      · intro h
        cases hrest : splitFrom n rest with
        | error what =>
          rw [hrest] at h
          cases h
        | ok later =>
          rw [hrest] at h
          cases h
          exact ⟨rfl, rfl⟩
      · rintro ⟨rfl, hrest⟩
        rw [hrest]
        exact congrArg Except.ok (Fin.cons_self_tail fields)
    · rw [List.splitOn_eq_singleton hcomma]
      simp

theorem splitRow_eq_ok {line : List Char} {fields : Fin 7 → List Char} :
    splitRow line = .ok fields ↔ line.count ',' = 6 ∧ ∀ i : Fin 7, fields i = rowField line i := by
  have hlength := Text.length_splitOn ',' line
  rw [splitRow, splitFrom_eq_ok]
  constructor
  · intro h
    rw [h, List.length_ofFn] at hlength
    refine ⟨by omega, ?_⟩
    intro i
    rw [rowField, h, List.getD_eq_getElem?_getD, List.getElem?_ofFn, dif_pos i.isLt]
    rfl
  · rintro ⟨hcount, hfields⟩
    apply List.ext_getElem
    · rw [hlength, hcount, List.length_ofFn]
    · intro i hi hi'
      rw [List.getElem_ofFn, hfields, rowField, List.getD_eq_getElem?_getD]
      simp [hi]

theorem parseInteger_eq_ok {T : Type} {t : IntegerType T} {text : List Char} {x : T} :
    parseInteger t text = .ok x ↔ Denotes t.signed text (t.toInt x) := by
  rw [← Text.scan_eq_some, parseInteger, fromChars]
  cases hscan : scan t.signed text with
  | none => simp
  | some result =>
    obtain ⟨z, rest⟩ := result
    dsimp only
    by_cases hrange : t.min ≤ z ∧ z ≤ t.max
    · rw [if_pos hrange]
      by_cases hrest : rest = []
      · rw [if_neg (by simp [hrest]), hrest]
        constructor
        · intro h
          cases h
          rw [t.toInt_ofInt z hrange.1 hrange.2]
        · intro h
          cases h
          rw [t.ofInt_toInt]
      · rw [if_pos (.inr hrest)]
        simp [hrest]
    · rw [if_neg hrange, if_pos (.inl Errc.noConfusion)]
      constructor
      · intro h
        cases h
      · intro h
        cases h
        exact absurd ⟨t.min_le x, t.le_max x⟩ hrange

example : parseInteger int64 "-09".toList = .ok (-9) := by rfl

theorem parseType_eq_ok {text : List Char} {type : EventType} :
    parseType text = .ok type ↔ typeKeyword type = some text := by
  constructor
  · rw [parseType]
    split_ifs with hadd hmodify hcancel htrade <;> intro h <;> cases h
    · rw [hadd, typeKeyword]
    · rw [hmodify, typeKeyword]
    · rw [hcancel, typeKeyword]
    · rw [htrade, typeKeyword]
  · cases type <;> intro h <;> cases h <;> rfl

theorem parseSide_eq_ok {text : List Char} {side : Side} :
    parseSide text = .ok side ↔ sideKeyword side = text := by
  constructor
  · rw [parseSide]
    split_ifs with hbuy hsell <;> intro h <;> cases h
    · rw [hbuy, sideKeyword]
    · rw [hsell, sideKeyword]
  · cases side <;> rintro rfl <;> rfl

/-! ## Rows -/

/-- A row and the event that it stands for. -/
structure RowOf (line : List Char) (event : MarketDataEvent) : Prop where
  commas : line.count ',' = 6
  sequence : Denotes false (rowField line 0) event.sequence.toNat
  exchangeTimestampNs : Denotes false (rowField line 1) event.exchangeTimestampNs.toNat
  type : typeKeyword event.type = some (rowField line 2)
  orderId : Denotes false (rowField line 3) event.orderId.toNat
  side : sideKeyword event.side = rowField line 4
  priceTicks : Denotes true (rowField line 5) event.priceTicks.toInt
  quantity : Denotes false (rowField line 6) event.quantity.toNat
  symbol : event.symbol = 0
  newOrderId : event.newOrderId = 0

theorem parseCsvEvent_eq_ok {line : List Char} {event : MarketDataEvent} :
    parseCsvEvent line = .ok event ↔ RowOf line event := by
  simp only [parseCsvEvent, Text.bind_eq_ok, splitRow_eq_ok, parseInteger_eq_ok, parseType_eq_ok,
    parseSide_eq_ok]
  constructor
  · rintro ⟨fields, ⟨hcommas, hfields⟩, sequence, hsequence, timestamp, htimestamp, type, htype,
      orderId, horderId, side, hside, price, hprice, quantity, hquantity, hevent⟩
    cases hevent
    rw [hfields] at hsequence htimestamp htype horderId hside hprice hquantity
    exact ⟨hcommas, hsequence, htimestamp, htype, horderId, hside, hprice, hquantity, rfl, rfl⟩
  · intro h
    refine ⟨fun i => rowField line i, ⟨h.commas, fun _ => rfl⟩, _, h.sequence, _,
      h.exchangeTimestampNs, _, h.type, _, h.orderId, _, h.side, _, h.priceTicks, _, h.quantity, ?_⟩
    have hsymbol := h.symbol
    have hnewOrderId := h.newOrderId
    cases event
    cases hsymbol
    cases hnewOrderId
    rfl

/-- Every line that is not a row is an error. -/
theorem parseCsvEvent_error_iff {line : List Char} :
    (∃ what, parseCsvEvent line = .error what) ↔ ¬∃ event, RowOf line event := by
  simp only [← parseCsvEvent_eq_ok]
  cases parseCsvEvent line with
  | ok event => simp
  | error what => simp

end MarketEngine
