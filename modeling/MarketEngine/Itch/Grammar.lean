import MarketEngine.Itch.Decoder
import MarketEngine.Kit.SignedWord

/-! # The declared grammar of a message

Every message type has a tag, a least length and the offsets of its fields. The
decoder follows this grammar except that it takes the least length of an Add for
that of an Add with MPID too.
-/

namespace MarketEngine

open BigEndian

/-- The byte that a message type starts with. -/
def MessageType.tag : MessageType → UInt8
  | .addOrder => 'A'.toUInt8
  | .addOrderMpid => 'F'.toUInt8
  | .orderExecuted => 'E'.toUInt8
  | .orderExecutedWithPrice => 'C'.toUInt8
  | .orderCancel => 'X'.toUInt8
  | .orderDelete => 'D'.toUInt8
  | .orderReplace => 'U'.toUInt8

/-- The event of a message, its least length, and the offsets of the fields that not every message
carries. -/
structure Layout where
  type : EventType
  minLength : ℕ
  newOrderId : Option ℕ := none
  side : Option ℕ := none
  quantity : Option ℕ := none
  price : Option ℕ := none

def MessageType.layout : MessageType → Layout
  | .addOrder =>
    { type := .add, minLength := kLenAddOrder, side := some 19, quantity := some 20,
      price := some 32 }
  | .addOrderMpid =>
    { type := .add, minLength := kLenAddOrderMpid, side := some 19, quantity := some 20,
      price := some 32 }
  | .orderExecuted => { type := .trade, minLength := kLenOrderExecuted, quantity := some 19 }
  | .orderExecutedWithPrice =>
    { type := .trade, minLength := kLenOrderExecutedWithPrice, quantity := some 19,
      price := some 32 }
  | .orderCancel => { type := .reduce, minLength := kLenOrderCancel, quantity := some 19 }
  | .orderDelete => { type := .cancel, minLength := kLenOrderDelete }
  | .orderReplace =>
    { type := .replace, minLength := kLenOrderReplace, newOrderId := some 19,
      quantity := some 27, price := some 31 }

namespace Layout

/-- A message that carries a side says buy or sell. -/
def SideOk (layout : Layout) (data : Bytes) : Prop :=
  ∀ offset, layout.side = some offset →
    byteAt data offset = 'B'.toUInt8 ∨ byteAt data offset = 'S'.toUInt8

/-- The event that the fields of a message make; a field that is not carried is 0. -/
def event (layout : Layout) (data : Bytes) : MarketDataEvent where
  symbol := UInt32.ofNat (field 1 2 data)
  type := layout.type
  exchangeTimestampNs := UInt64.ofNat (field 5 6 data)
  orderId := UInt64.ofNat (field 11 8 data)
  newOrderId := (layout.newOrderId.map fun offset => UInt64.ofNat (field offset 8 data)).getD 0
  side :=
    (layout.side.map fun offset =>
      if byteAt data offset = 'S'.toUInt8 then Side.sell else .buy).getD .buy
  quantity := (layout.quantity.map fun offset => UInt64.ofNat (field offset 4 data)).getD 0
  priceTicks := (layout.price.map fun offset => Int64.ofInt (field offset 4 data)).getD 0

end Layout

/-- The message is one of the type, as declared. -/
structure MessageType.Declared (type : MessageType) (data : Bytes) : Prop where
  tag : byteAt data 0 = type.tag
  length : type.layout.minLength ≤ data.length
  side : type.layout.SideOk data

/-- The decoder does with the message what the grammar says. -/
structure DecodesAsDeclared (data : Bytes) : Prop where
  event : ∀ event, decodeMessage data = .event event ↔
    ∃ type : MessageType, type.Declared data ∧ event = type.layout.event data
  skipped : decodeMessage data = .skipped ↔
    1 ≤ data.length ∧ ∀ type : MessageType, byteAt data 0 ≠ type.tag
  malformed : decodeMessage data = .malformed ↔
    (¬ ∃ type : MessageType, type.Declared data) ∧
      ¬ (1 ≤ data.length ∧ ∀ type : MessageType, byteAt data 0 ≠ type.tag)

/-- An Add with MPID that is long enough for an Add only. -/
def ShortMpid (data : Bytes) : Prop :=
  byteAt data 0 = MessageType.addOrderMpid.tag ∧ kLenAddOrder ≤ data.length ∧
    data.length < kLenAddOrderMpid ∧ MessageType.addOrderMpid.layout.SideOk data

/-! ## Fields -/

theorem value_two {p : Bytes} (h : 2 ≤ p.length) :
    value (p.take 2) = (byteAt p 0).toNat * 256 + (byteAt p 1).toNat := by
  match p, h with
  | _ :: _ :: _, _ => simp [value, byteAt]

theorem value_four {p : Bytes} (h : 4 ≤ p.length) :
    value (p.take 4) =
      (((byteAt p 0).toNat * 256 + (byteAt p 1).toNat) * 256 + (byteAt p 2).toNat) * 256 +
        (byteAt p 3).toNat := by
  match p, h with
  | _ :: _ :: _ :: _ :: _, _ => simp [value, byteAt]

theorem readBe16_field {data : Bytes} {offset : ℕ} (h : offset + 2 ≤ data.length) :
    (readBe16 (data.drop offset)).toUInt32 = UInt32.ofNat (field offset 2 data) := by
  have hvalue := value_two (p := data.drop offset) (by rw [List.length_drop]; omega)
  have hlt := field_lt offset 2 data
  apply UInt32.toNat_inj.mp
  rw [UInt16.toNat_toUInt32, readBe16_toNat, ← hvalue, UInt32.toNat_ofNat', field,
    Nat.mod_eq_of_lt]
  exact Nat.lt_of_lt_of_le hlt (by decide)

theorem readBe32_field {data : Bytes} {offset : ℕ} (h : offset + 4 ≤ data.length) :
    (readBe32 (data.drop offset)).toUInt64 = UInt64.ofNat (field offset 4 data) := by
  have hvalue := value_four (p := data.drop offset) (by rw [List.length_drop]; omega)
  have hlt := field_lt offset 4 data
  apply UInt64.toNat_inj.mp
  rw [UInt32.toNat_toUInt64, readBe32_toNat, ← hvalue, UInt64.toNat_ofNat', field,
    Nat.mod_eq_of_lt]
  exact Nat.lt_of_lt_of_le hlt (by decide)

theorem readBe_field {data : Bytes} {offset n : ℕ} (hn : n ≤ 8) (h : offset + n ≤ data.length) :
    readBe n (data.drop offset) = UInt64.ofNat (field offset n data) := by
  have hlt := field_lt offset n data
  have hpow : 256 ^ n ≤ 256 ^ 8 := Nat.pow_le_pow_right (by decide) hn
  apply UInt64.toNat_inj.mp
  rw [readBe_toNat hn (by rw [List.length_drop]; omega), UInt64.toNat_ofNat', field,
    Nat.mod_eq_of_lt]
  exact Nat.lt_of_lt_of_le hlt (Nat.le_trans hpow (by decide))

theorem price_field {data : Bytes} {offset : ℕ} (h : offset + 4 ≤ data.length) :
    (readBe32 (data.drop offset)).toUInt64.toInt64 = Int64.ofInt (field offset 4 data) := by
  have hlt := field_lt offset 4 data
  rw [readBe32_field h, SignedWord.toInt64_eq_ofInt, UInt64.toNat_ofNat', Nat.mod_eq_of_lt]
  exact Nat.lt_of_lt_of_le hlt (by decide)

/-! ## The three results -/

variable {data : Bytes} {type : MessageType}

/-- The least length that the decoder tests for. -/
def MessageType.testedLength : MessageType → ℕ
  | .addOrderMpid => kLenAddOrder
  | type => type.layout.minLength

theorem MessageType.ofByte_tag (type : MessageType) : MessageType.ofByte? type.tag = some type := by
  cases type <;> decide

theorem MessageType.tag_of_ofByte {b : UInt8} (h : MessageType.ofByte? b = some type) :
    b = type.tag := by
  unfold MessageType.ofByte? at h
  split_ifs at h with ha hf he hc hx hd hu <;> cases h <;> assumption

theorem MessageType.tag_injective {type' : MessageType} (h : type.tag = type'.tag) :
    type = type' := by
  have hsome := type.ofByte_tag
  rw [h, type'.ofByte_tag] at hsome
  exact (Option.some.inj hsome).symm

theorem setSide_eq {b : UInt8} (h : b = 'B'.toUInt8 ∨ b = 'S'.toUInt8) :
    setSide b = some (if b = 'S'.toUInt8 then Side.sell else .buy) := by
  rcases h with rfl | rfl <;> decide

theorem setSide_none {b : UInt8} (h : ¬ (b = 'B'.toUInt8 ∨ b = 'S'.toUInt8)) :
    setSide b = none := by
  rw [not_or] at h
  rw [setSide, if_neg h.1, if_neg h.2]

/-- A message of a known type is an event if it passes the test of its length and of its side. -/
theorem decode_event (htag : byteAt data 0 = type.tag) (hlength : type.testedLength ≤ data.length)
    (hside : type.layout.SideOk data) : decodeMessage data = .event (type.layout.event data) := by
  have hbyte : MessageType.ofByte? (byteAt data 0) = some type := htag ▸ type.ofByte_tag
  have hleast : 19 ≤ type.testedLength := by cases type <;> decide
  have hlocate : (readBe16 (data.drop 1)).toUInt32 = _ := readBe16_field (by omega)
  have htime : readBe48 (data.drop 5) = _ := readBe_field (by decide) (by omega)
  have hid : readBe64 (data.drop 11) = _ := readBe_field (by decide) (by omega)
  unfold decodeMessage
  rw [if_neg (by omega), if_pos (by omega), hbyte, hlocate, htime, hid]
  cases type with
  | addOrder | addOrderMpid =>
    have hlast : 36 ≤ data.length := hlength
    have hlong : ¬ data.length < kLenAddOrder := Nat.not_lt.mpr hlength
    dsimp only
    rw [if_neg hlong, setSide_eq (hside 19 rfl), price_field (by omega),
      readBe32_field (by omega)]
    rfl
  | orderExecuted =>
    have hlast : 31 ≤ data.length := hlength
    have hlong : ¬ data.length < kLenOrderExecuted := Nat.not_lt.mpr hlength
    dsimp only
    rw [if_neg hlong, readBe32_field (by omega)]
    rfl
  | orderExecutedWithPrice =>
    have hlast : 36 ≤ data.length := hlength
    have hlong : ¬ data.length < kLenOrderExecutedWithPrice := Nat.not_lt.mpr hlength
    dsimp only
    rw [if_neg hlong, price_field (by omega), readBe32_field (by omega)]
    rfl
  | orderCancel =>
    have hlast : 23 ≤ data.length := hlength
    have hlong : ¬ data.length < kLenOrderCancel := Nat.not_lt.mpr hlength
    dsimp only
    rw [if_neg hlong, readBe32_field (by omega)]
    rfl
  | orderDelete =>
    have hlong : ¬ data.length < kLenOrderDelete := Nat.not_lt.mpr hlength
    dsimp only
    rw [if_neg hlong]
    rfl
  | orderReplace =>
    have hlast : 35 ≤ data.length := hlength
    have hnew : readBe64 (data.drop 19) = _ := readBe_field (by decide) (by omega)
    have hlong : ¬ data.length < kLenOrderReplace := Nat.not_lt.mpr hlength
    dsimp only
    rw [if_neg hlong, hnew, price_field (by omega), readBe32_field (by omega)]
    rfl

theorem Layout.sideOk_of_none (hnone : type.layout.side = none) : type.layout.SideOk data := by
  intro offset hoffset
  rw [hnone] at hoffset
  cases hoffset

theorem setSide_of_not_sideOk {offset : ℕ} (hsome : type.layout.side = some offset)
    (hbad : ¬ type.layout.SideOk data) : setSide (byteAt data offset) = none := by
  refine setSide_none fun hgood => hbad fun other hother => ?_
  rw [hsome] at hother
  obtain rfl := Option.some.inj hother
  exact hgood

/-- A message of a known type that fails a test is malformed. -/
theorem decode_malformed (htag : byteAt data 0 = type.tag)
    (h : ¬ (type.testedLength ≤ data.length ∧ type.layout.SideOk data)) :
    decodeMessage data = .malformed := by
  have hbyte : MessageType.ofByte? (byteAt data 0) = some type := htag ▸ type.ofByte_tag
  unfold decodeMessage
  by_cases hzero : data.length = 0
  · rw [if_pos hzero]
  rw [if_neg hzero, hbyte]
  by_cases hshort : data.length < type.testedLength
  · cases type <;> exact if_pos hshort
  · have hbad : ¬ type.layout.SideOk data := fun hgood => h ⟨Nat.not_lt.mp hshort, hgood⟩
    cases type with
    | addOrder =>
      have hlong : ¬ data.length < kLenAddOrder := hshort
      dsimp only
      rw [if_neg hlong, setSide_of_not_sideOk rfl hbad]
    | addOrderMpid =>
      have hlong : ¬ data.length < kLenAddOrder := hshort
      dsimp only
      rw [if_neg hlong, setSide_of_not_sideOk rfl hbad]
    | _ => exact absurd (Layout.sideOk_of_none rfl) hbad

/-- A message of another type is skipped. -/
theorem decode_skipped (hlength : 1 ≤ data.length)
    (hother : ∀ type : MessageType, byteAt data 0 ≠ type.tag) : decodeMessage data = .skipped := by
  have hbyte : MessageType.ofByte? (byteAt data 0) = none := by
    rw [Option.eq_none_iff_forall_ne_some]
    exact fun type hsome => hother type (MessageType.tag_of_ofByte hsome)
  unfold decodeMessage
  rw [if_neg (by omega), hbyte]

/-- Whether a message is declared depends on its type alone. -/
theorem declared_iff (htag : byteAt data 0 = type.tag) :
    (∃ type : MessageType, type.Declared data) ↔ type.Declared data := by
  refine ⟨?_, fun h => ⟨type, h⟩⟩
  rintro ⟨type', h⟩
  rwa [MessageType.tag_injective (htag.symm.trans h.tag)]

/-- A known type with the two tests of the decoder in the place of the declaration. -/
theorem decodesAsDeclared_iff_of_tag (htag : byteAt data 0 = type.tag) :
    DecodesAsDeclared data ↔
      (type.testedLength ≤ data.length → type.layout.SideOk data →
        type.layout.minLength ≤ data.length) := by
  have hknown : ¬ (1 ≤ data.length ∧ ∀ type : MessageType, byteAt data 0 ≠ type.tag) :=
    fun h => h.2 type htag
  constructor
  · intro h hlength hside
    obtain ⟨type', hdeclared, -⟩ := (h.event _).mp (decode_event htag hlength hside)
    rw [MessageType.tag_injective (htag.symm.trans hdeclared.tag)]
    exact hdeclared.length
  · intro h
    by_cases hpass : type.testedLength ≤ data.length ∧ type.layout.SideOk data
    · have hdecode := decode_event htag hpass.1 hpass.2
      have hdeclared : type.Declared data := ⟨htag, h hpass.1 hpass.2, hpass.2⟩
      refine ⟨fun event => ?_, ?_, ?_⟩
      · rw [hdecode]
        constructor
        · rintro ⟨rfl⟩
          exact ⟨type, hdeclared, rfl⟩
        · rintro ⟨type', hdeclared', rfl⟩
          rw [MessageType.tag_injective (htag.symm.trans hdeclared'.tag)]
      · rw [hdecode]
        exact iff_of_false (fun h => nomatch h) hknown
      · rw [hdecode]
        exact iff_of_false (fun h => nomatch h) fun h => h.1 ⟨type, hdeclared⟩
    · have hdecode := decode_malformed htag hpass
      have hnot : ¬ type.Declared data := by
        intro hdeclared
        refine hpass ⟨Nat.le_trans ?_ hdeclared.length, hdeclared.side⟩
        cases type <;> decide
      refine ⟨fun event => ?_, ?_, ?_⟩
      · rw [hdecode]
        apply iff_of_false (fun h => nomatch h)
        rintro ⟨type', hdeclared, -⟩
        exact hnot ((declared_iff htag).mp ⟨type', hdeclared⟩)
      · rw [hdecode]
        exact iff_of_false (fun h => nomatch h) hknown
      · rw [hdecode, declared_iff htag]
        exact iff_of_true rfl ⟨hnot, hknown⟩

/-- Without a known type only the length matters. -/
theorem decodesAsDeclared_of_other (hother : ∀ type : MessageType, byteAt data 0 ≠ type.tag) :
    DecodesAsDeclared data := by
  have hnot : ¬ ∃ type : MessageType, type.Declared data := fun ⟨type, h⟩ => hother type h.tag
  have hnone : ∀ event : MarketDataEvent,
      ¬ ∃ type : MessageType, type.Declared data ∧ event = type.layout.event data :=
    fun event ⟨type, h, _⟩ => hother type h.tag
  by_cases hlength : 1 ≤ data.length
  · have hdecode := decode_skipped hlength hother
    refine ⟨fun event => ?_, ?_, ?_⟩
    · rw [hdecode]
      exact iff_of_false (fun h => nomatch h) (hnone event)
    · rw [hdecode]
      exact iff_of_true rfl ⟨hlength, hother⟩
    · rw [hdecode]
      exact iff_of_false (fun h => nomatch h) fun h => h.2 ⟨hlength, hother⟩
  · have hdecode : decodeMessage data = .malformed := if_pos (by omega)
    refine ⟨fun event => ?_, ?_, ?_⟩
    · rw [hdecode]
      exact iff_of_false (fun h => nomatch h) (hnone event)
    · rw [hdecode]
      exact iff_of_false (fun h => nomatch h) fun h => hlength h.1
    · rw [hdecode]
      exact iff_of_true rfl ⟨hnot, fun h => hlength h.1⟩

/-- The decoder follows the grammar, except on an Add with MPID of the length of an Add. -/
theorem decodesAsDeclared_iff (data : Bytes) : DecodesAsDeclared data ↔ ¬ ShortMpid data := by
  by_cases hknown : ∃ type : MessageType, byteAt data 0 = type.tag
  · obtain ⟨type, htag⟩ := hknown
    rw [decodesAsDeclared_iff_of_tag htag]
    by_cases hmpid : type = .addOrderMpid
    · subst hmpid
      constructor
      · rintro h ⟨-, hlong, hshort, hside⟩
        exact absurd (h hlong hside) (Nat.not_le.mpr hshort)
      · intro h hlong hside
        by_contra hshort
        exact h ⟨htag, hlong, Nat.not_le.mp hshort, hside⟩
    · have hsame : type.testedLength = type.layout.minLength := by
        cases type <;> first | rfl | exact absurd rfl hmpid
      refine iff_of_true (fun hlong _ => hsame ▸ hlong) fun h => hmpid ?_
      exact MessageType.tag_injective (htag.symm.trans h.1)
  · rw [not_exists] at hknown
    exact iff_of_true (decodesAsDeclared_of_other hknown) fun h => hknown _ h.1

/-- An Add with MPID that stops before the MPID. -/
def shortMpid : Bytes := 'F'.toUInt8 :: List.replicate 18 0 ++ 'B'.toUInt8 :: List.replicate 16 0

theorem short_mpid_accepted :
    decodeMessage shortMpid ≠ .malformed ∧ ¬ DecodesAsDeclared shortMpid := by
  refine ⟨by decide, fun h => ?_⟩
  have htag : byteAt shortMpid 0 = MessageType.addOrderMpid.tag := rfl
  rw [decodesAsDeclared_iff_of_tag htag] at h
  have hside : MessageType.addOrderMpid.layout.SideOk shortMpid := by
    rintro offset ⟨⟩
    exact .inl rfl
  exact absurd (h (by decide) hside) (by decide)

end MarketEngine
