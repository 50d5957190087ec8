import MarketEngine.Itch.Framed

/-! # The SoupBinTCP connector

Every packet has a two-byte length and a type in front of its payload.
Sequenced data packets carry the messages, and end of session stops the stream.
-/

namespace MarketEngine

structure SoupBinTcpState where
  sequence : UInt64 := 0
  messagesDecoded : ℕ := 0
  failed : Bool := false
  endOfSession : Bool := false
  deriving DecidableEq, Repr

abbrev SoupBinTcpConnector := Framed SoupBinTcpState

namespace SoupBinTcpConnector

/-- The held-whole constructor. -/
def ofBytes (data : Bytes) : SoupBinTcpConnector := ⟨.ofBytes data, {}⟩

/-- The constructor from a path whose file opens. -/
def ofStream (input : ByteStream) : SoupBinTcpConnector := ⟨.ofStream input, {}⟩

def handler : FrameHandler SoupBinTcpState where
  onFrame s packet :=
    let type := byteAt packet 0
    let payload := packet.drop 1
    if type = 'Z'.toUInt8 then ({ s with endOfSession := true }, some none)
    else if type = 'S'.toUInt8 then
      let sequence := s.sequence + 1
      let s := { s with sequence }
      match decodeMessage payload with
      | .malformed => ({ s with failed := true }, some none)
      | .event event =>
        ({ s with messagesDecoded := s.messagesDecoded + 1 }, some (some { event with sequence }))
      | .skipped => (s, none)
    else (s, none)
  onBreak s := { s with failed := true }

def next (c : SoupBinTcpConnector) : Option MarketDataEvent × SoupBinTcpConnector := handler.next c

def failed (c : SoupBinTcpConnector) : Bool := c.state.failed

def endOfSession (c : SoupBinTcpConnector) : Bool := c.state.endOfSession

def messagesDecoded (c : SoupBinTcpConnector) : ℕ := c.state.messagesDecoded

/-- The calls of `next`. -/
def feed : Feed SoupBinTcpConnector MarketDataEvent := handler.feed

end SoupBinTcpConnector

end MarketEngine
