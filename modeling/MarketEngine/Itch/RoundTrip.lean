import MarketEngine.Itch.Grammar
import MarketEngine.Itch.Truncation

/-! # Encoding and reading back

The encoder of the tests writes an event as the ITCH message that carries it.
A file of such messages is read back event by event.
-/

namespace MarketEngine

open BigEndian

/-- The low `bytes` bytes of a value, most significant first. -/
def putBe (value : UInt64) (bytes : ℕ) : Bytes :=
  (List.range bytes).reverse.map fun i => ((value >>> UInt64.ofNat (8 * i)) &&& 0xFF).toUInt8

/-- The fields that every message starts with; the tests leave the stock locate at 0. -/
def itchHeader (event : MarketDataEvent) (type : UInt8) : Bytes :=
  type :: (putBe event.symbol.toUInt64 2 ++ (putBe 0 2 ++ putBe event.exchangeTimestampNs 6))

def sideByte : Side → UInt8
  | .buy => 'B'.toUInt8
  | .sell => 'S'.toUInt8

/-- The message of an event. There is none for a modify. -/
def itchMessage (event : MarketDataEvent) : Bytes :=
  match event.type with
  | .add =>
    itchHeader event 'A'.toUInt8 ++ putBe event.orderId 8 ++ [sideByte event.side] ++
      putBe event.quantity 4 ++ List.replicate 8 ' '.toUInt8 ++ putBe event.priceTicks.toUInt64 4
  | .trade =>
    if event.priceTicks ≠ 0 then
      itchHeader event 'C'.toUInt8 ++ putBe event.orderId 8 ++ putBe event.quantity 4 ++
        putBe 0 8 ++ ['Y'.toUInt8] ++ putBe event.priceTicks.toUInt64 4
    else
      itchHeader event 'E'.toUInt8 ++ putBe event.orderId 8 ++ putBe event.quantity 4 ++ putBe 0 8
  | .reduce => itchHeader event 'X'.toUInt8 ++ putBe event.orderId 8 ++ putBe event.quantity 4
  | .cancel => itchHeader event 'D'.toUInt8 ++ putBe event.orderId 8
  | .replace =>
    itchHeader event 'U'.toUInt8 ++ putBe event.orderId 8 ++ putBe event.newOrderId 8 ++
      putBe event.quantity 4 ++ putBe event.priceTicks.toUInt64 4
  | .modify => []

/-- The message behind its length. -/
def itchEncode (event : MarketDataEvent) : Bytes :=
  let msg := itchMessage event
  putBe (UInt64.ofNat msg.length) 2 ++ msg

/-- What an ITCH message can say of an event. -/
structure Encodable (event : MarketDataEvent) : Prop where
  type : event.type ≠ .modify
  symbol : event.symbol.toNat < 2 ^ 16
  time : event.exchangeTimestampNs.toNat < 2 ^ 48
  quantity : event.quantity.toNat < 2 ^ 32
  price_nonneg : 0 ≤ event.priceTicks.toInt
  price_lt : event.priceTicks.toInt < 2 ^ 32

/-- The fields that the message of an event carries, with the others at their defaults. -/
def carried (event : MarketDataEvent) : MarketDataEvent :=
  let common : MarketDataEvent :=
    { symbol := event.symbol, type := event.type, orderId := event.orderId
      exchangeTimestampNs := event.exchangeTimestampNs }
  match event.type with
  | .add =>
    { common with side := event.side, quantity := event.quantity, priceTicks := event.priceTicks }
  | .trade => { common with quantity := event.quantity, priceTicks := event.priceTicks }
  | .reduce => { common with quantity := event.quantity }
  | .cancel => common
  | .replace =>
    { common with
      newOrderId := event.newOrderId, quantity := event.quantity, priceTicks := event.priceTicks }
  | .modify => common

variable {event : MarketDataEvent}

/-! ## Fields of a message -/

theorem putBe_eq (value : UInt64) {n : ℕ} (hn : n ≤ 8) : putBe value n = bytes n value.toNat := by
  rw [putBe, bytes_eq_map]
  apply List.map_congr_left
  intro i hi
  have hi : i < n := by simpa using hi
  have hshift : (UInt64.ofNat (8 * i)).toNat % 64 = 8 * i := by
    rw [UInt64.toNat_ofNat']
    omega
  have hmask : (0xFF : UInt64).toNat = 2 ^ 8 - 1 := rfl
  apply UInt8.toNat_inj.mp
  rw [UInt64.toNat_toUInt8, UInt64.toNat_and, UInt64.toNat_shiftRight, hshift, UInt8.toNat_ofNat',
    Nat.shiftRight_eq_div_pow, Nat.pow_mul, hmask, Nat.and_two_pow_sub_one_eq_mod, Nat.mod_mod]

@[simp] theorem length_putBe (value : UInt64) (n : ℕ) : (putBe value n).length = n := by
  simp [putBe]

@[simp] theorem length_itchHeader (event : MarketDataEvent) (type : UInt8) :
    (itchHeader event type).length = 11 := by
  simp [itchHeader]

theorem field_putBe {value : UInt64} {n : ℕ} (hn : n ≤ 8) (h : value.toNat < 256 ^ n)
    (rest : Bytes) : field 0 n (putBe value n ++ rest) = value.toNat := by
  rw [putBe_eq value hn, field_bytes h]

theorem field_symbol (h : event.symbol.toNat < 2 ^ 16) (type : UInt8) (rest : Bytes) :
    field 1 2 (itchHeader event type ++ rest) = event.symbol.toNat := by
  have hvalue : event.symbol.toUInt64.toNat = event.symbol.toNat := rfl
  have hmessage : itchHeader event type ++ rest =
      [type] ++ (putBe event.symbol.toUInt64 2 ++
        ((putBe 0 2 ++ putBe event.exchangeTimestampNs 6) ++ rest)) := by
    simp [itchHeader]
  rw [hmessage, field_skip (by simp)]
  exact field_putBe (by decide) (by rw [hvalue]; exact h) _

theorem field_time (h : event.exchangeTimestampNs.toNat < 2 ^ 48) (type : UInt8) (rest : Bytes) :
    field 5 6 (itchHeader event type ++ rest) = event.exchangeTimestampNs.toNat := by
  have hmessage : itchHeader event type ++ rest =
      (type :: (putBe event.symbol.toUInt64 2 ++ putBe 0 2)) ++
        (putBe event.exchangeTimestampNs 6 ++ rest) := by
    simp [itchHeader]
  have hlength : (type :: (putBe event.symbol.toUInt64 2 ++ putBe 0 2)).length = 5 := by simp
  rw [hmessage, field_skip (by simp), hlength]
  exact field_putBe (by decide) h _

theorem field_only {value : UInt64} {n : ℕ} (hn : n ≤ 8) (h : value.toNat < 256 ^ n) :
    field 0 n (putBe value n) = value.toNat := by
  have hfield := field_putBe hn h []
  rwa [List.append_nil] at hfield

theorem byteAt_skip {l : Bytes} {i : ℕ} (h : l.length ≤ i) (rest : Bytes) :
    byteAt (l ++ rest) i = byteAt rest (i - l.length) := by
  rw [byteAt, byteAt, List.getD_eq_getElem?_getD, List.getD_eq_getElem?_getD,
    List.getElem?_append_right h]

theorem sideByte_eq (side : Side) :
    (sideByte side = 'B'.toUInt8 ∨ sideByte side = 'S'.toUInt8) ∧
      (if sideByte side = 'S'.toUInt8 then Side.sell else Side.buy) = side := by
  cases side <;> decide

/-- A price is a 32-bit number. -/
theorem Encodable.price (h : Encodable event) :
    event.priceTicks.toUInt64.toNat < 256 ^ 4 ∧
      Int64.ofInt event.priceTicks.toUInt64.toNat = event.priceTicks := by
  have hvalue := SignedWord.toNat_toUInt64 h.price_nonneg
  have hlt := h.price_lt
  refine ⟨by omega, ?_⟩
  rw [hvalue, Int64.ofInt_toInt]

/-! ## Messages -/

/-- Every message starts with its header and the id of its order. -/
def itchFront (event : MarketDataEvent) (type : MessageType) : Bytes :=
  itchHeader event type.tag ++ putBe event.orderId 8

@[simp] theorem length_itchFront (event : MarketDataEvent) (type : MessageType) :
    (itchFront event type).length = 19 := by
  simp [itchFront]

/-- The fields that every message carries are those of the event. -/
theorem decode_front (h : Encodable event) (type : MessageType) {rest : Bytes}
    (hlength : type.testedLength ≤ 19 + rest.length)
    (hside : type.layout.SideOk (itchFront event type ++ rest)) :
    decodeMessage (itchFront event type ++ rest) = .event
      { type.layout.event (itchFront event type ++ rest) with
        symbol := event.symbol
        exchangeTimestampNs := event.exchangeTimestampNs
        orderId := event.orderId } := by
  have htag : byteAt (itchFront event type ++ rest) 0 = type.tag := rfl
  have hsymbol : field 1 2 (itchFront event type ++ rest) = event.symbol.toNat := by
    rw [itchFront, List.append_assoc, field_symbol h.symbol]
  have htime : field 5 6 (itchFront event type ++ rest) = event.exchangeTimestampNs.toNat := by
    rw [itchFront, List.append_assoc, field_time h.time]
  have hid : field 11 8 (itchFront event type ++ rest) = event.orderId.toNat := by
    rw [itchFront, List.append_assoc, field_skip (by simp), length_itchHeader]
    exact field_putBe (by decide) event.orderId.toNat_lt rest
  rw [decode_event htag (by simpa using hlength) hside, Layout.event, hid, hsymbol, htime,
    UInt32.ofNat_toNat, UInt64.ofNat_toNat, UInt64.ofNat_toNat]

theorem decode_add (h : Encodable event) (htype : event.type = .add) :
    decodeMessage (itchMessage event) = .event (carried event) := by
  obtain ⟨hprice, hticks⟩ := h.price
  obtain ⟨hsides, hsame⟩ := sideByte_eq event.side
  have hmessage : itchMessage event = itchFront event .addOrder ++
      ([sideByte event.side] ++ (putBe event.quantity 4 ++
        (List.replicate 8 ' '.toUInt8 ++ putBe event.priceTicks.toUInt64 4))) := by
    rw [itchMessage, htype]
    simp [itchFront, MessageType.tag]
  have hside : byteAt (itchMessage event) 19 = sideByte event.side := by
    rw [hmessage, byteAt_skip (by simp), length_itchFront]
    rfl
  have hquantity : field 20 4 (itchMessage event) = event.quantity.toNat := by
    rw [hmessage, field_skip (by simp), length_itchFront, field_skip (by simp)]
    exact field_putBe (by decide) h.quantity _
  have hpriceField : field 32 4 (itchMessage event) = event.priceTicks.toUInt64.toNat := by
    rw [hmessage, field_skip (by simp), length_itchFront, field_skip (by simp),
      field_skip (by simp), field_skip (by simp)]
    exact field_only (by decide) hprice
  have hsideOk : MessageType.addOrder.layout.SideOk (itchMessage event) := by
    rintro offset ⟨⟩
    rwa [hside]
  have hlength : MessageType.addOrder.testedLength ≤ (itchMessage event).length := by
    simp [hmessage, MessageType.testedLength, MessageType.layout, kLenAddOrder]
  rw [hmessage] at hside hquantity hpriceField hsideOk hlength ⊢
  rw [decode_front h .addOrder (by simpa using hlength) hsideOk, carried, htype]
  simp only [MessageType.layout, Layout.event, Option.map_some, Option.map_none, Option.getD_some,
    Option.getD_none, hside, hsame, hquantity, hpriceField, hticks, UInt64.ofNat_toNat]

theorem decode_trade (h : Encodable event) (htype : event.type = .trade) :
    decodeMessage (itchMessage event) = .event (carried event) := by
  have hquantity : event.quantity.toNat < 256 ^ 4 := h.quantity
  obtain ⟨hprice, hticks⟩ := h.price
  by_cases hzero : event.priceTicks = 0
  · have hmessage : itchMessage event = itchFront event .orderExecuted ++
        (putBe event.quantity 4 ++ putBe 0 8) := by
      rw [itchMessage, htype]
      simp [itchFront, MessageType.tag, hzero]
    rw [hmessage, decode_front h .orderExecuted
      (by simp [MessageType.testedLength, MessageType.layout, kLenOrderExecuted])
      (Layout.sideOk_of_none rfl), carried, htype]
    simp (disch := first | assumption | simp)
      [MessageType.layout, Layout.event, field_skip, field_putBe, hzero]
  · have hmessage : itchMessage event = itchFront event .orderExecutedWithPrice ++
        (putBe event.quantity 4 ++ (putBe 0 8 ++
          (['Y'.toUInt8] ++ putBe event.priceTicks.toUInt64 4))) := by
      rw [itchMessage, htype]
      simp [itchFront, MessageType.tag, hzero]
    have hpriceField : field 32 4 (itchMessage event) = event.priceTicks.toUInt64.toNat := by
      rw [hmessage, field_skip (by simp), length_itchFront, field_skip (by simp),
        field_skip (by simp), field_skip (by simp)]
      exact field_only (by decide) hprice
    rw [hmessage] at hpriceField ⊢
    rw [decode_front h .orderExecutedWithPrice
      (by simp [MessageType.testedLength, MessageType.layout, kLenOrderExecutedWithPrice])
      (Layout.sideOk_of_none rfl), carried, htype]
    simp (disch := first | assumption | simp) only
      [MessageType.layout, Layout.event, Option.map_some, Option.map_none, Option.getD_some,
        Option.getD_none, hpriceField, hticks, field_skip, length_itchFront, Nat.reduceSub,
        field_putBe, UInt64.ofNat_toNat]

theorem decode_reduce (h : Encodable event) (htype : event.type = .reduce) :
    decodeMessage (itchMessage event) = .event (carried event) := by
  have hquantity : event.quantity.toNat < 256 ^ 4 := h.quantity
  have hmessage : itchMessage event =
      itchFront event .orderCancel ++ putBe event.quantity 4 := by
    rw [itchMessage, htype]
    simp [itchFront, MessageType.tag]
  rw [hmessage, decode_front h .orderCancel
    (by simp [MessageType.testedLength, MessageType.layout, kLenOrderCancel])
    (Layout.sideOk_of_none rfl), carried, htype]
  simp (disch := first | assumption | simp)
    [MessageType.layout, Layout.event, field_skip, field_only]

theorem decode_cancel (h : Encodable event) (htype : event.type = .cancel) :
    decodeMessage (itchMessage event) = .event (carried event) := by
  have hmessage : itchMessage event = itchFront event .orderDelete ++ [] := by
    rw [itchMessage, htype]
    simp [itchFront, MessageType.tag]
  rw [hmessage, decode_front h .orderDelete
    (by simp [MessageType.testedLength, MessageType.layout, kLenOrderDelete])
    (Layout.sideOk_of_none rfl), carried, htype]
  rfl

theorem decode_replace (h : Encodable event) (htype : event.type = .replace) :
    decodeMessage (itchMessage event) = .event (carried event) := by
  have hnewId : event.newOrderId.toNat < 256 ^ 8 := event.newOrderId.toNat_lt
  have hquantity : event.quantity.toNat < 256 ^ 4 := h.quantity
  obtain ⟨hprice, hticks⟩ := h.price
  have hmessage : itchMessage event = itchFront event .orderReplace ++
      (putBe event.newOrderId 8 ++ (putBe event.quantity 4 ++
        putBe event.priceTicks.toUInt64 4)) := by
    rw [itchMessage, htype]
    simp [itchFront, MessageType.tag]
  rw [hmessage, decode_front h .orderReplace
    (by simp [MessageType.testedLength, MessageType.layout, kLenOrderReplace])
    (Layout.sideOk_of_none rfl), carried, htype]
  simp (disch := first | assumption | simp)
    [MessageType.layout, Layout.event, field_skip, field_putBe, field_only, hticks]

/-- The message of an event is decoded to the fields that it carries. -/
theorem decode_itchMessage (h : Encodable event) :
    decodeMessage (itchMessage event) = .event (carried event) := by
  cases htype : event.type with
  | add => exact decode_add h htype
  | trade => exact decode_trade h htype
  | reduce => exact decode_reduce h htype
  | cancel => exact decode_cancel h htype
  | replace => exact decode_replace h htype
  | modify => exact absurd htype h.type

/-! ## Streams -/

theorem length_itchMessage (h : Encodable event) :
    1 ≤ (itchMessage event).length ∧ (itchMessage event).length < 2 ^ 16 := by
  rw [itchMessage]
  cases htype : event.type with
  | modify => exact absurd htype h.type
  | trade => split_ifs <;> simp
  | _ => simp

theorem itchEncode_eq (h : Encodable event) : itchEncode event = block (itchMessage event) := by
  have hlt := (length_itchMessage h).2
  have hvalue : (UInt64.ofNat (itchMessage event).length).toNat = (itchMessage event).length := by
    rw [UInt64.toNat_ofNat', Nat.mod_eq_of_lt (by omega)]
  rw [itchEncode, putBe_eq _ (by decide), hvalue]
  rfl

/-- The frames of an encoded stream are the messages of its events. -/
theorem frames_itchEncode {events : List MarketDataEvent} (h : ∀ event ∈ events, Encodable event) :
    ByteWindow.frames (events.flatMap itchEncode) = events.map itchMessage ∧
      ByteWindow.broken (events.flatMap itchEncode) = false := by
  have hstream : events.flatMap itchEncode = (events.map itchMessage).flatMap block := by
    rw [List.flatMap_map]
    exact List.flatMap_congr fun event hmem => itchEncode_eq (h event hmem)
  rw [hstream]
  apply ByteWindow.frames_flatMap
  intro message hmem
  obtain ⟨event, hevent, rfl⟩ := List.mem_map.mp hmem
  exact length_itchMessage (h event hevent)

theorem bookEvents_itchMessage {events : List MarketDataEvent}
    (h : ∀ event ∈ events, Encodable event) :
    bookEvents (events.map itchMessage) = events.map carried := by
  rw [bookEvents, List.filterMap_map, ← List.filterMap_eq_map]
  apply List.filterMap_congr
  intro event hmem
  simp only [Function.comp_apply, bookEvent?, decode_itchMessage (h event hmem)]

/-- Events that are encoded into a file are read back from it. -/
theorem itch_round_trip {events : List MarketDataEvent} (h : ∀ event ∈ events, Encodable event)
    {file : ItchFileConnector} (hfile : file.Opened {} (events.flatMap itchEncode)) :
    let fileEnd := ItchFileConnector.feed.drain file
    fileEnd.1 = numberedFrom 0 (events.map carried) ∧
      fileEnd.2.bytesConsumed = (events.flatMap itchEncode).length ∧
      fileEnd.2.failed = false := by
  obtain ⟨hframes, hbroken⟩ := frames_itchEncode h
  have hwhole : ∀ message ∈ ByteWindow.frames (events.flatMap itchEncode),
      decodeMessage message ≠ .malformed := by
    rw [hframes]
    intro message hmem
    obtain ⟨event, hevent, rfl⟩ := List.mem_map.mp hmem
    rw [decode_itchMessage (h event hevent)]
    exact fun heq => nomatch heq
  obtain ⟨hevents, -, hbytes, hfailed⟩ := ItchFileConnector.drain_frames hfile hwhole
  rw [hframes] at hevents hbytes
  rw [bookEvents_itchMessage h] at hevents
  refine ⟨hevents, hbytes.trans ?_, hfailed.trans hbroken⟩
  rw [List.flatMap_map]
  exact congrArg List.length
    (List.flatMap_congr fun event hmem => (itchEncode_eq (h event hmem)).symm)

/-- A buy order, and a trade of a part of it at its price. -/
def tradedStream : List MarketDataEvent :=
  [{ type := .add, symbol := 7, orderId := 1, quantity := 300, priceTicks := 100500,
     exchangeTimestampNs := 5 },
   { type := .trade, symbol := 7, orderId := 1, quantity := 100, priceTicks := 100500,
     exchangeTimestampNs := 6 }]

theorem tradedStream_read_back :
    (ItchFileConnector.feed.drain (.ofBytes (tradedStream.flatMap itchEncode))).2.failed = false :=
  (itch_round_trip
    (fun event hmem => by
      rcases List.mem_pair.mp hmem with rfl | rfl <;>
        exact ⟨by decide, by decide, by decide, by decide, by decide, by decide⟩)
    (.inl rfl)).2.2

end MarketEngine
