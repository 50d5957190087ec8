import MarketEngine.Itch.Decoder

/-! # MoldUDP64 packets

A datagram carries a header of twenty bytes (session, sequence number of the
first message, message count) and the messages as blocks with their lengths.
-/

namespace MarketEngine

def kMoldHeaderSize : ℕ := 20

def kMoldEndOfSession : UInt16 := 0xFFFF

/-- A reader over one packet. -/
structure MoldUdp64Packet where
  data : Bytes := []
  sequence : UInt64 := 0
  count : UInt16 := 0
  deriving DecidableEq, Repr

namespace MoldUdp64Packet

def parse (datagram : Bytes) : Option MoldUdp64Packet :=
  if datagram.length < kMoldHeaderSize then none
  else
    some
      { data := datagram
        sequence := readBe64 (datagram.drop 10)
        count := readBe16 (datagram.drop 18) }

def messageCount (packet : MoldUdp64Packet) : ℕ := packet.count.toNat

def endOfSession (packet : MoldUdp64Packet) : Bool := packet.count = kMoldEndOfSession

def heartbeat (packet : MoldUdp64Packet) : Bool := packet.count = 0

/-- The payload of the block at `offset` and the offset behind it. -/
def readBlock (packet : MoldUdp64Packet) (offset : ℕ) : Option (Bytes × ℕ) :=
  if packet.data.length < offset + 2 then none
  else
    let length := (readBe16 (packet.data.drop offset)).toNat
    if packet.data.length < offset + 2 + length then none
    else some ((packet.data.drop (offset + 2)).take length, offset + 2 + length)

/-- The payloads that can be read of the next `n` blocks. -/
def blocksFrom (packet : MoldUdp64Packet) : ℕ → ℕ → List Bytes
  | 0, _ => []
  | n + 1, offset =>
    match packet.readBlock offset with
    | none => []
    | some (payload, offset) => payload :: packet.blocksFrom n offset

def blocks (packet : MoldUdp64Packet) : List Bytes :=
  packet.blocksFrom packet.messageCount kMoldHeaderSize

variable {packet : MoldUdp64Packet}

theorem length_blocksFrom_le (n offset : ℕ) : (packet.blocksFrom n offset).length ≤ n := by
  induction n generalizing offset with
  | zero => exact Nat.le_refl _
  | succ n ih =>
    unfold blocksFrom
    split
    · exact Nat.zero_le _
    · exact Nat.succ_le_succ (ih _)

end MoldUdp64Packet

/-- What a datagram says, as far as it can be read. -/
inductive Received
  | short
  | endOfSession
  | heartbeat
  | data (sequence : UInt64) (payloads : List Bytes) (complete : Bool)
  deriving DecidableEq, Repr

def Received.ofBytes (datagram : Bytes) : Received :=
  match MoldUdp64Packet.parse datagram with
  | none => .short
  | some packet =>
    if packet.endOfSession then .endOfSession
    else if packet.heartbeat then .heartbeat
    else .data packet.sequence packet.blocks (packet.blocks.length = packet.messageCount)

/-! ## The wire format -/

abbrev SessionName := { name : Bytes // name.length = 10 }

def moldHeader (session : SessionName) (sequence : UInt64) (count : ℕ) : Bytes :=
  session.1 ++ BigEndian.bytes 8 sequence.toNat ++ BigEndian.bytes 2 count

/-- A packet with messages, of which there are some and not too many. -/
structure DataPacket where
  session : SessionName
  sequence : UInt64
  payloads : List Bytes
  pos : 0 < payloads.length
  le : payloads.length ≤ 65534
  fits : ∀ payload ∈ payloads, payload.length < 2 ^ 16

/-- A well-formed datagram. -/
inductive Datagram
  | data (packet : DataPacket)
  | heartbeat (session : SessionName) (sequence : UInt64)
  | endOfSession (session : SessionName) (sequence : UInt64)

namespace Datagram

def encode : Datagram → Bytes
  | .data packet =>
    moldHeader packet.session packet.sequence packet.payloads.length ++
      packet.payloads.flatMap block
  | .heartbeat session sequence => moldHeader session sequence 0
  | .endOfSession session sequence => moldHeader session sequence 0xFFFF

def received : Datagram → Received
  | .data packet => .data packet.sequence packet.payloads true
  | .heartbeat .. => .heartbeat
  | .endOfSession .. => .endOfSession

end Datagram

variable (session : SessionName) (sequence : UInt64) {count : ℕ}

theorem length_moldHeader (count : ℕ) :
    (moldHeader session sequence count).length = kMoldHeaderSize := by
  rw [moldHeader, List.length_append, List.length_append, session.2, BigEndian.length_bytes,
    BigEndian.length_bytes, kMoldHeaderSize]

theorem toNat_count (hcount : count < 2 ^ 16) : (UInt16.ofNat count).toNat = count :=
  UInt16.toNat_ofNat_of_lt' hcount

/-- A written header is read back. -/
theorem parse_moldHeader (hcount : count < 2 ^ 16) (rest : Bytes) :
    MoldUdp64Packet.parse (moldHeader session sequence count ++ rest) =
      some ⟨moldHeader session sequence count ++ rest, sequence, UInt16.ofNat count⟩ := by
  have hlen : ¬ (moldHeader session sequence count ++ rest).length < kMoldHeaderSize := by
    rw [List.length_append, length_moldHeader]
    omega
  have hsequence : readBe64 ((moldHeader session sequence count ++ rest).drop 10) = sequence := by
    apply UInt64.toNat_inj.mp
    rw [moldHeader, List.append_assoc, List.append_assoc, List.drop_left' session.2,
      readBe64_bytes sequence.toNat_lt]
  have hread : readBe16 ((moldHeader session sequence count ++ rest).drop 18) =
      UInt16.ofNat count := by
    have hfront : (session.1 ++ BigEndian.bytes 8 sequence.toNat).length = 18 := by
      rw [List.length_append, session.2, BigEndian.length_bytes]
    apply UInt16.toNat_inj.mp
    rw [moldHeader, List.append_assoc, List.drop_left' hfront, readBe16_bytes hcount,
      toNat_count hcount]
  rw [MoldUdp64Packet.parse, if_neg hlen, hsequence, hread]

/-- A written block is read back, wherever it stands. -/
theorem readBlock_block {packet : MoldUdp64Packet} {front payload rest : Bytes}
    (hdata : packet.data = front ++ (block payload ++ rest)) (h : payload.length < 2 ^ 16) :
    packet.readBlock front.length = some (payload, (front ++ block payload).length) := by
  have hlen : packet.data.length = front.length + (2 + payload.length + rest.length) := by
    rw [hdata, List.length_append, List.length_append, length_block]
  have hread : (readBe16 (packet.data.drop front.length)).toNat = payload.length := by
    rw [hdata, List.drop_left, readBe16_block h]
  have hpayload : (packet.data.drop (front.length + 2)).take payload.length = payload := by
    have hcut : packet.data = (front ++ BigEndian.bytes 2 payload.length) ++ (payload ++ rest) := by
      rw [hdata, block]
      simp only [List.append_assoc]
    have hfront : (front ++ BigEndian.bytes 2 payload.length).length = front.length + 2 := by
      rw [List.length_append, BigEndian.length_bytes]
    rw [hcut, ← hfront, List.drop_left, List.take_left]
  rw [MoldUdp64Packet.readBlock, if_neg (by omega), hread]
  dsimp only
  rw [if_neg (by omega), hpayload, List.length_append, length_block, Nat.add_assoc]

theorem blocksFrom_flatMap {packet : MoldUdp64Packet} {front : Bytes} {payloads : List Bytes}
    (hdata : packet.data = front ++ payloads.flatMap block)
    (h : ∀ payload ∈ payloads, payload.length < 2 ^ 16) :
    packet.blocksFrom payloads.length front.length = payloads := by
  induction payloads generalizing front with
  | nil => rfl
  | cons payload payloads ih =>
    rw [List.flatMap_cons] at hdata
    have hread := readBlock_block hdata (h payload (List.mem_cons_self ..))
    rw [← List.append_assoc] at hdata
    rw [List.length_cons, MoldUdp64Packet.blocksFrom, hread]
    exact congrArg (payload :: ·) (ih hdata fun p hp => h p (List.mem_cons_of_mem _ hp))

/-- What is written is what is received. -/
theorem Datagram.received_encode (d : Datagram) : Received.ofBytes d.encode = d.received := by
  cases d with
  | data packet =>
    have hle := packet.le
    have hpos := packet.pos
    have hcount := toNat_count (show packet.payloads.length < 2 ^ 16 by omega)
    have hend : ¬ UInt16.ofNat packet.payloads.length = kMoldEndOfSession := by
      intro heq
      have := congrArg UInt16.toNat heq
      rw [hcount, kMoldEndOfSession] at this
      have : packet.payloads.length = 65535 := this
      omega
    have hbeat : ¬ UInt16.ofNat packet.payloads.length = 0 := by
      intro heq
      have := congrArg UInt16.toNat heq
      rw [hcount] at this
      have : packet.payloads.length = 0 := this
      omega
    have hparse := parse_moldHeader packet.session packet.sequence
      (show packet.payloads.length < 2 ^ 16 by omega) (packet.payloads.flatMap block)
    generalize hread : MoldUdp64Packet.mk _ _ _ = read at hparse
    have hblocks : read.blocks = packet.payloads := by
      rw [MoldUdp64Packet.blocks, MoldUdp64Packet.messageCount, ← hread, hcount,
        ← length_moldHeader packet.session packet.sequence packet.payloads.length]
      exact blocksFrom_flatMap rfl packet.fits
    have hlength : read.messageCount = packet.payloads.length := by
      rw [MoldUdp64Packet.messageCount, ← hread, hcount]
    rw [Received.ofBytes, encode, hparse]
    simp only [MoldUdp64Packet.endOfSession, MoldUdp64Packet.heartbeat, decide_eq_true_eq,
      hblocks, hlength, decide_true, received]
    rw [← hread, if_neg hend, if_neg hbeat]
  | heartbeat session sequence =>
    rw [Received.ofBytes, encode, ← List.append_nil (moldHeader _ _ _),
      parse_moldHeader _ _ (by decide)]
    rfl
  | endOfSession session sequence =>
    rw [Received.ofBytes, encode, ← List.append_nil (moldHeader _ _ _),
      parse_moldHeader _ _ (by decide)]
    rfl

end MarketEngine
