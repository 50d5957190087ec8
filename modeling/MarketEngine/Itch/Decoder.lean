import MarketEngine.Kit.BigEndian
import MarketEngine.Market.Event

/-! # Decoding one ITCH message

The book-affecting subset of TotalView-ITCH 5.0. Fields are read at fixed
big-endian offsets from the type byte.
-/

namespace MarketEngine

abbrev Bytes := List UInt8

def byteAt (p : Bytes) (i : ℕ) : UInt8 := p.getD i 0

def readBe16 (p : Bytes) : UInt16 := ((byteAt p 0).toUInt16 <<< 8) ||| (byteAt p 1).toUInt16

def readBe32 (p : Bytes) : UInt32 :=
  ((byteAt p 0).toUInt32 <<< 24) ||| ((byteAt p 1).toUInt32 <<< 16) |||
    ((byteAt p 2).toUInt32 <<< 8) ||| (byteAt p 3).toUInt32

/-- The loop of the wider readers, over `n` bytes. -/
def readBe (n : ℕ) (p : Bytes) : UInt64 :=
  (List.range n).foldl (fun value i => (value <<< 8) ||| (byteAt p i).toUInt64) 0

def readBe48 (p : Bytes) : UInt64 := readBe 6 p

def readBe64 (p : Bytes) : UInt64 := readBe 8 p

inductive MessageType
  | addOrder | addOrderMpid | orderExecuted | orderExecutedWithPrice | orderCancel | orderDelete
  | orderReplace
  deriving DecidableEq, Repr

def MessageType.ofByte? (b : UInt8) : Option MessageType :=
  if b = 'A'.toUInt8 then some .addOrder
  else if b = 'F'.toUInt8 then some .addOrderMpid
  else if b = 'E'.toUInt8 then some .orderExecuted
  else if b = 'C'.toUInt8 then some .orderExecutedWithPrice
  else if b = 'X'.toUInt8 then some .orderCancel
  else if b = 'D'.toUInt8 then some .orderDelete
  else if b = 'U'.toUInt8 then some .orderReplace
  else none

inductive DecodeResult
  | event (event : MarketDataEvent)
  | skipped
  | malformed
  deriving DecidableEq, Repr

def kLenAddOrder : ℕ := 36
def kLenAddOrderMpid : ℕ := 40
def kLenOrderExecuted : ℕ := 31
def kLenOrderExecutedWithPrice : ℕ := 36
def kLenOrderCancel : ℕ := 23
def kLenOrderDelete : ℕ := 19
def kLenOrderReplace : ℕ := 35

def setSide (b : UInt8) : Option Side :=
  if b = 'B'.toUInt8 then some .buy
  else if b = 'S'.toUInt8 then some .sell
  else none

/-- Decode one message, from its type byte to its end. -/
def decodeMessage (data : Bytes) : DecodeResult :=
  if data.length = 0 then .malformed
  else
    let event : MarketDataEvent :=
      { symbol := if 3 ≤ data.length then (readBe16 (data.drop 1)).toUInt32 else 0 }
    match MessageType.ofByte? (byteAt data 0) with
    | some .addOrder | some .addOrderMpid =>
      if data.length < kLenAddOrder then .malformed
      else
        match setSide (byteAt data 19) with
        | none => .malformed
        | some side =>
          .event { event with
            type := .add
            exchangeTimestampNs := readBe48 (data.drop 5)
            orderId := readBe64 (data.drop 11)
            side
            quantity := (readBe32 (data.drop 20)).toUInt64
            priceTicks := (readBe32 (data.drop 32)).toUInt64.toInt64 }
    | some .orderExecuted =>
      if data.length < kLenOrderExecuted then .malformed
      else
        .event { event with
          type := .trade
          exchangeTimestampNs := readBe48 (data.drop 5)
          orderId := readBe64 (data.drop 11)
          quantity := (readBe32 (data.drop 19)).toUInt64 }
    | some .orderExecutedWithPrice =>
      if data.length < kLenOrderExecutedWithPrice then .malformed
      else
        .event { event with
          type := .trade
          exchangeTimestampNs := readBe48 (data.drop 5)
          orderId := readBe64 (data.drop 11)
          quantity := (readBe32 (data.drop 19)).toUInt64
          priceTicks := (readBe32 (data.drop 32)).toUInt64.toInt64 }
    | some .orderCancel =>
      if data.length < kLenOrderCancel then .malformed
      else
        .event { event with
          type := .reduce
          exchangeTimestampNs := readBe48 (data.drop 5)
          orderId := readBe64 (data.drop 11)
          quantity := (readBe32 (data.drop 19)).toUInt64 }
    | some .orderDelete =>
      if data.length < kLenOrderDelete then .malformed
      else
        .event { event with
          type := .cancel
          exchangeTimestampNs := readBe48 (data.drop 5)
          orderId := readBe64 (data.drop 11) }
    | some .orderReplace =>
      if data.length < kLenOrderReplace then .malformed
      else
        .event { event with
          type := .replace
          exchangeTimestampNs := readBe48 (data.drop 5)
          orderId := readBe64 (data.drop 11)
          newOrderId := readBe64 (data.drop 19)
          quantity := (readBe32 (data.drop 27)).toUInt64
          priceTicks := (readBe32 (data.drop 31)).toUInt64.toInt64 }
    | none => .skipped

/-! ## What the readers read -/

theorem readBe_succ (n : ℕ) (p : Bytes) :
    readBe (n + 1) p = (readBe n p <<< 8) ||| (byteAt p n).toUInt64 := by
  rw [readBe, List.range_succ, List.foldl_append]
  rfl

/-- A shift by one byte makes room for the next. -/
theorem toNat_shift_or {v : UInt64} (h : v.toNat < 2 ^ 56) (b : UInt8) :
    ((v <<< 8) ||| b.toUInt64).toNat = v.toNat * 256 + b.toNat := by
  have hb : b.toNat < 2 ^ 8 := b.toNat_lt
  have hshift : (v <<< 8).toNat = v.toNat <<< 8 := by
    rw [UInt64.toNat_shiftLeft]
    apply Nat.mod_eq_of_lt
    rw [Nat.shiftLeft_eq]
    have : (UInt64.toNat 8) % 64 = 8 := rfl
    rw [this]
    omega
  rw [UInt64.toNat_or, hshift, UInt8.toNat_toUInt64, ← Nat.shiftLeft_add_eq_or_of_lt hb,
    Nat.shiftLeft_eq]

theorem byteAt_eq {p : Bytes} {i : ℕ} (h : i < p.length) : byteAt p i = p[i] := by
  rw [byteAt, List.getD_eq_getElem?_getD, List.getElem?_eq_getElem h, Option.getD_some]

/-- The wide readers read big-endian numbers. -/
theorem readBe_toNat {n : ℕ} {p : Bytes} (hn : n ≤ 8) (hp : n ≤ p.length) :
    (readBe n p).toNat = BigEndian.value (p.take n) := by
  induction n with
  | zero => rfl
  | succ n ih =>
    have ih := ih (by omega) (by omega)
    have hlt := BigEndian.value_lt (p.take n)
    rw [List.length_take, Nat.min_eq_left (by omega), ← ih] at hlt
    have hle : 256 ^ n ≤ 256 ^ 7 := Nat.pow_le_pow_right (by decide) (by omega)
    have hpow : (256 : ℕ) ^ 7 = 2 ^ 56 := by decide
    rw [readBe_succ, toNat_shift_or (by omega), List.take_succ_eq_append_getElem (by omega),
      BigEndian.value_append, ih, byteAt_eq (by omega)]

theorem readBe16_toNat (p : Bytes) :
    (readBe16 p).toNat = (byteAt p 0).toNat * 256 + (byteAt p 1).toNat := by
  have h0 : (byteAt p 0).toNat < 2 ^ 8 := (byteAt p 0).toNat_lt
  have h1 : (byteAt p 1).toNat < 2 ^ 8 := (byteAt p 1).toNat_lt
  have hshift : ((byteAt p 0).toUInt16 <<< 8).toNat = (byteAt p 0).toNat <<< 8 := by
    rw [UInt16.toNat_shiftLeft, UInt8.toNat_toUInt16]
    apply Nat.mod_eq_of_lt
    have : (UInt16.toNat 8) % 16 = 8 := rfl
    rw [this, Nat.shiftLeft_eq]
    omega
  rw [readBe16, UInt16.toNat_or, hshift, UInt8.toNat_toUInt16,
    ← Nat.shiftLeft_add_eq_or_of_lt h1, Nat.shiftLeft_eq]

theorem toNat_shift (b : UInt8) {k : ℕ} (hk : k ≤ 24) :
    (b.toUInt32 <<< UInt32.ofNat k).toNat = 2 ^ k * b.toNat := by
  have hb : b.toNat < 2 ^ 8 := b.toNat_lt
  have hmod : (UInt32.ofNat k).toNat % 32 = k := by
    rw [UInt32.toNat_ofNat']
    omega
  rw [UInt32.toNat_shiftLeft, UInt8.toNat_toUInt32, hmod, Nat.shiftLeft_eq, Nat.mul_comm]
  apply Nat.mod_eq_of_lt
  calc 2 ^ k * b.toNat < 2 ^ k * 2 ^ 8 := Nat.mul_lt_mul_of_pos_left hb (Nat.two_pow_pos k)
    _ ≤ 2 ^ 24 * 2 ^ 8 := Nat.mul_le_mul_right _ (Nat.pow_le_pow_right (by decide) hk)
    _ = 2 ^ 32 := by decide

theorem readBe32_toNat (p : Bytes) :
    (readBe32 p).toNat =
      (((byteAt p 0).toNat * 256 + (byteAt p 1).toNat) * 256 + (byteAt p 2).toNat) * 256 +
        (byteAt p 3).toNat := by
  have h1 : (byteAt p 1).toNat < 2 ^ 8 := (byteAt p 1).toNat_lt
  have h2 : (byteAt p 2).toNat < 2 ^ 8 := (byteAt p 2).toNat_lt
  have h3 : (byteAt p 3).toNat < 2 ^ 8 := (byteAt p 3).toNat_lt
  have hfirst : ((byteAt p 0).toUInt32 <<< 24).toNat = 2 ^ 24 * (byteAt p 0).toNat :=
    toNat_shift (byteAt p 0) (k := 24) (by decide)
  have hsecond : ((byteAt p 1).toUInt32 <<< 16).toNat = 2 ^ 16 * (byteAt p 1).toNat :=
    toNat_shift (byteAt p 1) (k := 16) (by decide)
  have hthird : ((byteAt p 2).toUInt32 <<< 8).toNat = 2 ^ 8 * (byteAt p 2).toNat :=
    toNat_shift (byteAt p 2) (k := 8) (by decide)
  rw [readBe32, UInt32.toNat_or, UInt32.toNat_or, UInt32.toNat_or, hfirst, hsecond, hthird,
    UInt8.toNat_toUInt32, ← Nat.two_pow_add_eq_or_of_lt (by omega)]
  -- each byte fits below the ones that are there
  have htwo : 2 ^ 24 * (byteAt p 0).toNat + 2 ^ 16 * (byteAt p 1).toNat =
      2 ^ 16 * (2 ^ 8 * (byteAt p 0).toNat + (byteAt p 1).toNat) := by omega
  rw [htwo, ← Nat.two_pow_add_eq_or_of_lt (by omega)]
  have hthree : 2 ^ 16 * (2 ^ 8 * (byteAt p 0).toNat + (byteAt p 1).toNat) +
      2 ^ 8 * (byteAt p 2).toNat = 2 ^ 8 * (2 ^ 8 * (2 ^ 8 * (byteAt p 0).toNat +
        (byteAt p 1).toNat) + (byteAt p 2).toNat) := by omega
  rw [hthree, ← Nat.two_pow_add_eq_or_of_lt h3]
  omega

/-- A written length is read back. -/
theorem readBe16_bytes {v : ℕ} (hv : v < 2 ^ 16) (rest : Bytes) :
    (readBe16 (BigEndian.bytes 2 v ++ rest)).toNat = v := by
  have h0 : byteAt (BigEndian.bytes 2 v ++ rest) 0 = UInt8.ofNat (v / 256) := rfl
  have h1 : byteAt (BigEndian.bytes 2 v ++ rest) 1 = UInt8.ofNat v := rfl
  rw [readBe16_toNat, h0, h1, UInt8.toNat_ofNat', UInt8.toNat_ofNat']
  omega

/-- A written sequence number is read back. -/
theorem readBe64_bytes {v : ℕ} (hv : v < 2 ^ 64) (rest : Bytes) :
    (readBe64 (BigEndian.bytes 8 v ++ rest)).toNat = v := by
  rw [readBe64, readBe_toNat (Nat.le_refl 8) (by simp), List.take_append_of_le_length (by simp),
    List.take_of_length_le (by simp), BigEndian.value_bytes hv]

/-- A message behind its length. -/
def block (message : Bytes) : Bytes := BigEndian.bytes 2 message.length ++ message

theorem length_block (message : Bytes) : (block message).length = 2 + message.length := by
  rw [block, List.length_append, BigEndian.length_bytes]

theorem readBe16_block {message : Bytes} (h : message.length < 2 ^ 16) (rest : Bytes) :
    (readBe16 (block message ++ rest)).toNat = message.length := by
  rw [block, List.append_assoc, readBe16_bytes h]

end MarketEngine
