import MarketEngine.Itch.ByteWindow
import MarketEngine.Itch.MoldUdp64
import MarketEngine.Kit.Span

/-! # Readers with checked loads

The decoder, the packet reader and the read window with every load checked against
the span that it is made in. On any bytes they answer what the unchecked ones do.
-/

namespace MarketEngine

/-! ## The decoder -/

def readBe16Checked (p : ℕ → Option UInt8) : Option UInt16 := do
  let first ← p 0
  let second ← p 1
  some ((first.toUInt16 <<< 8) ||| second.toUInt16)

def readBe32Checked (p : ℕ → Option UInt8) : Option UInt32 := do
  let first ← p 0
  let second ← p 1
  let third ← p 2
  let fourth ← p 3
  some ((first.toUInt32 <<< 24) ||| (second.toUInt32 <<< 16) ||| (third.toUInt32 <<< 8) |||
    fourth.toUInt32)

/-- The loop of the wider readers, over `n` bytes. -/
def readBeChecked (n : ℕ) (p : ℕ → Option UInt8) : Option UInt64 :=
  (List.range n).foldlM (fun value i => do
    let b ← p i
    some ((value <<< 8) ||| b.toUInt64)) 0

def readBe48Checked (p : ℕ → Option UInt8) : Option UInt64 := readBeChecked 6 p

def readBe64Checked (p : ℕ → Option UInt8) : Option UInt64 := readBeChecked 8 p

/-- The locate code, if the message is long enough for one. -/
def symbolChecked (data : Span UInt8) : Option SymbolId :=
  if 3 ≤ data.length then (readBe16Checked (data.pointer 1)).map UInt16.toUInt32 else some 0

def decodeMessageChecked (data : Span UInt8) : Option DecodeResult :=
  if data.length = 0 then some .malformed
  else do
    let type ← data.load 0
    let symbol ← symbolChecked data
    let event : MarketDataEvent := { symbol }
    match MessageType.ofByte? type with
    | some .addOrder | some .addOrderMpid =>
      if data.length < kLenAddOrder then some .malformed
      else do
        let exchangeTimestampNs ← readBe48Checked (data.pointer 5)
        let orderId ← readBe64Checked (data.pointer 11)
        match setSide (← data.load 19) with
        | none => some .malformed
        | some side => do
          let quantity ← readBe32Checked (data.pointer 20)
          let price ← readBe32Checked (data.pointer 32)
          some (.event { event with
            type := .add
            exchangeTimestampNs, orderId, side
            quantity := quantity.toUInt64
            priceTicks := price.toUInt64.toInt64 })
    | some .orderExecuted =>
      if data.length < kLenOrderExecuted then some .malformed
      else do
        let exchangeTimestampNs ← readBe48Checked (data.pointer 5)
        let orderId ← readBe64Checked (data.pointer 11)
        let quantity ← readBe32Checked (data.pointer 19)
        some (.event { event with
          type := .trade
          exchangeTimestampNs, orderId
          quantity := quantity.toUInt64 })
    | some .orderExecutedWithPrice =>
      if data.length < kLenOrderExecutedWithPrice then some .malformed
      else do
        let exchangeTimestampNs ← readBe48Checked (data.pointer 5)
        let orderId ← readBe64Checked (data.pointer 11)
        let quantity ← readBe32Checked (data.pointer 19)
        let price ← readBe32Checked (data.pointer 32)
        some (.event { event with
          type := .trade
          exchangeTimestampNs, orderId
          quantity := quantity.toUInt64
          priceTicks := price.toUInt64.toInt64 })
    | some .orderCancel =>
      if data.length < kLenOrderCancel then some .malformed
      else do
        let exchangeTimestampNs ← readBe48Checked (data.pointer 5)
        let orderId ← readBe64Checked (data.pointer 11)
        let quantity ← readBe32Checked (data.pointer 19)
        some (.event { event with
          type := .reduce
          exchangeTimestampNs, orderId
          quantity := quantity.toUInt64 })
    | some .orderDelete =>
      if data.length < kLenOrderDelete then some .malformed
      else do
        let exchangeTimestampNs ← readBe48Checked (data.pointer 5)
        let orderId ← readBe64Checked (data.pointer 11)
        some (.event { event with
          type := .cancel
          exchangeTimestampNs, orderId })
    | some .orderReplace =>
      if data.length < kLenOrderReplace then some .malformed
      else do
        let exchangeTimestampNs ← readBe48Checked (data.pointer 5)
        let orderId ← readBe64Checked (data.pointer 11)
        let newOrderId ← readBe64Checked (data.pointer 19)
        let quantity ← readBe32Checked (data.pointer 27)
        let price ← readBe32Checked (data.pointer 31)
        some (.event { event with
          type := .replace
          exchangeTimestampNs, orderId, newOrderId
          quantity := quantity.toUInt64
          priceTicks := price.toUInt64.toInt64 })
    | none => some .skipped

section Decoder

variable {data : Span UInt8} {l : Bytes} {offset n : ℕ}

theorem pointer_eq (h : data.Holds l) {i : ℕ} (hlt : offset + i < l.length) :
    data.pointer offset i = some (byteAt (l.drop offset) i) := by
  have hi : i < (l.drop offset).length := by
    rw [List.length_drop]
    omega
  rw [h.pointer hlt, List.getElem?_eq_getElem hi, byteAt_eq hi]

theorem readBe16Checked_eq (h : data.Holds l) (hle : offset + 2 ≤ l.length) :
    readBe16Checked (data.pointer offset) = some (readBe16 (l.drop offset)) := by
  rw [readBe16Checked, pointer_eq h (by omega), pointer_eq h (by omega)]
  rfl

theorem readBe32Checked_eq (h : data.Holds l) (hle : offset + 4 ≤ l.length) :
    readBe32Checked (data.pointer offset) = some (readBe32 (l.drop offset)) := by
  rw [readBe32Checked, pointer_eq h (by omega), pointer_eq h (by omega), pointer_eq h (by omega),
    pointer_eq h (by omega)]
  rfl

theorem readBeChecked_eq (h : data.Holds l) (hle : offset + n ≤ l.length) :
    readBeChecked n (data.pointer offset) = some (readBe n (l.drop offset)) := by
  induction n with
  | zero => rfl
  | succ n ih =>
    have ih := ih (by omega)
    rw [readBeChecked] at ih ⊢
    have hlast : data.pointer offset n = some (byteAt (l.drop offset) n) := pointer_eq h (by omega)
    rw [List.range_succ, List.foldlM_append, ih, readBe_succ]
    simp [hlast]

theorem readBe48Checked_eq (h : data.Holds l) (hle : offset + 6 ≤ l.length) :
    readBe48Checked (data.pointer offset) = some (readBe48 (l.drop offset)) :=
  readBeChecked_eq h hle

theorem readBe64Checked_eq (h : data.Holds l) (hle : offset + 8 ≤ l.length) :
    readBe64Checked (data.pointer offset) = some (readBe64 (l.drop offset)) :=
  readBeChecked_eq h hle

theorem load_eq (h : data.Holds l) {i : ℕ} (hlt : i < l.length) :
    data.load i = some (byteAt l i) := by
  rw [h.load i hlt, byteAt_eq hlt]

theorem symbolChecked_eq (h : data.Holds l) : symbolChecked data =
    some (if 3 ≤ l.length then (readBe16 (l.drop 1)).toUInt32 else 0) := by
  rw [symbolChecked, h.length]
  split_ifs with hlong
  · rw [readBe16Checked_eq h hlong]
    rfl
  · rfl

/-- Past the test of its length a message is long enough. -/
theorem length_tested {checked : Option DecodeResult} {result : DecodeResult}
    (h : n ≤ l.length → checked = some result) :
    (if l.length < n then some .malformed else checked) =
      some (if l.length < n then .malformed else result) := by
  split_ifs with hshort
  · rfl
  · exact h (Nat.le_of_not_lt hshort)

/-- The decoder stays inside its message, whatever the bytes say. -/
theorem decodeMessageChecked_eq (h : data.Holds l) :
    decodeMessageChecked data = some (decodeMessage l) := by
  unfold decodeMessageChecked decodeMessage
  rw [h.length]
  by_cases hempty : l.length = 0
  · rw [if_pos hempty, if_pos hempty]
  · rw [if_neg hempty, if_neg hempty, load_eq h (by omega), symbolChecked_eq h]
    dsimp only [bind, Option.bind]
    cases MessageType.ofByte? (byteAt l 0) with
    | none => rfl
    | some type =>
      cases type
      case addOrder | addOrderMpid =>
        apply length_tested
        intro hlong
        replace hlong : 36 ≤ l.length := hlong
        simp (disch := omega) only [readBe48Checked_eq h, readBe64Checked_eq h, load_eq h]
        cases setSide (byteAt l 19) with
        | none => rfl
        | some side => simp (disch := omega) only [readBe32Checked_eq h]
      case orderExecuted =>
        apply length_tested
        intro hlong
        replace hlong : 31 ≤ l.length := hlong
        simp (disch := omega) only [readBe48Checked_eq h, readBe64Checked_eq h,
          readBe32Checked_eq h]
      case orderExecutedWithPrice =>
        apply length_tested
        intro hlong
        replace hlong : 36 ≤ l.length := hlong
        simp (disch := omega) only [readBe48Checked_eq h, readBe64Checked_eq h,
          readBe32Checked_eq h]
      case orderCancel =>
        apply length_tested
        intro hlong
        replace hlong : 23 ≤ l.length := hlong
        simp (disch := omega) only [readBe48Checked_eq h, readBe64Checked_eq h,
          readBe32Checked_eq h]
      case orderDelete =>
        apply length_tested
        intro hlong
        replace hlong : 19 ≤ l.length := hlong
        simp (disch := omega) only [readBe48Checked_eq h, readBe64Checked_eq h]
      case orderReplace =>
        apply length_tested
        intro hlong
        replace hlong : 35 ≤ l.length := hlong
        simp (disch := omega) only [readBe48Checked_eq h, readBe64Checked_eq h,
          readBe32Checked_eq h]

end Decoder

/-! ## Packets -/

namespace MoldUdp64Packet

def parseChecked (datagram : Bytes) : Option (Option MoldUdp64Packet) :=
  let data := Span.ofList datagram
  if data.length < kMoldHeaderSize then some none
  else do
    let sequence ← readBe64Checked (data.pointer 10)
    let count ← readBe16Checked (data.pointer 18)
    some (some { data := datagram, sequence, count })

/-- The payload is a part of the datagram. -/
def readBlockChecked (packet : MoldUdp64Packet) (offset : ℕ) : Option (Option (Span UInt8 × ℕ)) :=
  let data := Span.ofList packet.data
  if data.length < offset + 2 then some none
  else do
    let length := (← readBe16Checked (data.pointer offset)).toNat
    if data.length < offset + 2 + length then some none
    else some (some (data.sub (offset + 2) length, offset + 2 + length))

theorem parseChecked_eq (datagram : Bytes) : parseChecked datagram = some (parse datagram) := by
  have h := Span.ofList_holds datagram
  unfold parseChecked parse
  dsimp only
  rw [h.length]
  split_ifs with hshort
  · rfl
  · have hlong : 20 ≤ datagram.length := Nat.le_of_not_lt hshort
    rw [readBe64Checked_eq h (by omega), readBe16Checked_eq h (by omega)]
    rfl

/-- A block is read inside the datagram, and its payload lies inside it. -/
theorem readBlockChecked_cases (packet : MoldUdp64Packet) (offset : ℕ) :
    (packet.readBlockChecked offset = some none ∧ packet.readBlock offset = none) ∨
    ∃ span payload offset', packet.readBlockChecked offset = some (some (span, offset')) ∧
      packet.readBlock offset = some (payload, offset') ∧ span.Holds payload := by
  have h := Span.ofList_holds packet.data
  unfold readBlockChecked readBlock
  dsimp only
  rw [h.length]
  by_cases hshort : packet.data.length < offset + 2
  · rw [if_pos hshort, if_pos hshort]
    exact .inl ⟨rfl, rfl⟩
  · rw [if_neg hshort, if_neg hshort, readBe16Checked_eq h (by omega)]
    dsimp only [bind, Option.bind]
    split_ifs with htorn
    · exact .inl ⟨rfl, rfl⟩
    · exact .inr ⟨_, _, _, rfl, rfl, h.sub (by omega)⟩

end MoldUdp64Packet

/-! ## The read window -/

namespace ByteWindow

variable {w : ByteWindow} {n : ℕ}

/-- Load from the buffer, of what is valid and not consumed. -/
def load (w : ByteWindow) (i : ℕ) : Option UInt8 :=
  if w.pos ≤ i ∧ i < w.buffer.length ∧ w.buffer.length ≤ w.capacity then w.buffer[i]? else none

/-- The bytes that have not been consumed. -/
def unconsumed (w : ByteWindow) : Span UInt8 :=
  ⟨fun i => w.load (w.pos + i), w.buffer.length - w.pos⟩

/-- Move what has not been consumed to the front. -/
def compactChecked (w : ByteWindow) : Option ByteWindow :=
  if 0 < w.pos then do
    let moved ← w.unconsumed.copy
    some { w with buffer := moved, pos := 0 }
  else some w

def ensureChecked (w : ByteWindow) (n : ℕ) : Option (Bool × ByteWindow) :=
  if n ≤ w.buffer.length - w.pos then some (true, w)
  else if w.eof then some (false, w)
  else do
    let w ← w.compactChecked
    let w := (refill n).run (w.reserve n)
    some (n ≤ w.buffer.length - w.pos, w)

/-- The head of both `next` loops; the frame is a part of the window. -/
def nextFrameChecked (w : ByteWindow) : Option (Except Bool (Span UInt8) × ByteWindow) := do
  let (ready, w) ← w.ensureChecked 2
  if ready = false then some (.error (w.buffer.length - w.pos ≠ 0), w)
  else do
    let length := (← readBe16Checked (w.unconsumed.pointer 0)).toNat
    if length = 0 then some (.error true, w)
    else do
      let (ready, w) ← w.ensureChecked (2 + length)
      if ready = false then some (.error true, w)
      else some (.ok (w.unconsumed.sub 2 length), { w with pos := w.pos + (2 + length) })

/-- What has not been consumed can be read. -/
theorem Ok.unconsumed_holds (h : w.Ok) : w.unconsumed.Holds w.window where
  length := (window_length w).symm
  load i hi := by
    rw [window_length] at hi
    have hvalid : w.pos ≤ w.pos + i ∧ w.pos + i < w.buffer.length ∧
        w.buffer.length ≤ w.capacity := ⟨by omega, by omega, h.size_le⟩
    have hload : w.unconsumed.load i = w.buffer[w.pos + i]? := if_pos hvalid
    rw [hload, List.getElem?_eq_getElem hvalid.2.1]
    simp only [window, List.getElem_drop]

theorem Ok.ensureChecked_eq (h : w.Ok) (n : ℕ) : w.ensureChecked n = some (w.ensure n) := by
  have hcompact : w.compactChecked = some w.compact := by
    unfold compactChecked compact
    rw [h.unconsumed_holds.copy]
    split_ifs <;> rfl
  unfold ByteWindow.ensureChecked ByteWindow.ensure
  rw [hcompact]
  split_ifs <;> rfl

/-- A frame is not empty, and all of it can be read. -/
inductive FrameHolds : Except Bool (Span UInt8) → Except Bool Bytes → Prop
  | error (broken : Bool) : FrameHolds (.error broken) (.error broken)
  | ok {span : Span UInt8} {frame : Bytes} (h : span.Holds frame) (hpos : 0 < frame.length) :
    FrameHolds (.ok span) (.ok frame)

theorem Ok.nextFrameChecked_eq (h : w.Ok) : ∃ frame,
    w.nextFrameChecked = some (frame, w.nextFrame.2) ∧ FrameHolds frame w.nextFrame.1 := by
  have hok := (h.ensure 2).1
  have hready := (w.ensure_unread 2).2
  unfold ByteWindow.nextFrameChecked ByteWindow.nextFrame
  rw [h.ensureChecked_eq]
  generalize w.ensure 2 = first at hok hready ⊢
  obtain ⟨ready, w₁⟩ := first
  dsimp only [bind, Option.bind] at hok hready ⊢
  cases ready with
  | false => exact ⟨_, rfl, .error _⟩
  | true =>
    have hlen := hready.mp rfl
    have hlength : readBe16Checked (w₁.unconsumed.pointer 0) =
        some (readBe16 (w₁.window.drop 0)) :=
      readBe16Checked_eq hok.unconsumed_holds (by omega)
    rw [if_neg (by simp), if_neg (by simp), hlength, List.drop_zero]
    dsimp only
    generalize (readBe16 w₁.window).toNat = length
    by_cases hzero : length = 0
    · rw [if_pos hzero, if_pos hzero]
      exact ⟨_, rfl, .error _⟩
    · rw [if_neg hzero, if_neg hzero, hok.ensureChecked_eq]
      have hok₂ := (hok.ensure (2 + length)).1
      have hready₂ := (w₁.ensure_unread (2 + length)).2
      generalize w₁.ensure (2 + length) = second at hok₂ hready₂ ⊢
      obtain ⟨ready, w₂⟩ := second
      dsimp only at hok₂ hready₂ ⊢
      cases ready with
      | false => exact ⟨_, rfl, .error _⟩
      | true =>
        have hlen₂ := hready₂.mp rfl
        refine ⟨_, rfl, .ok (hok₂.unconsumed_holds.sub hlen₂) ?_⟩
        rw [List.length_take, List.length_drop]
        omega

end ByteWindow

end MarketEngine
