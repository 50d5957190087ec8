import MarketEngine.Itch.Framed

/-! # The BinaryFILE connector

Every message has a two-byte length in front of it. What is left behind a frame
that stops the stream is still there for the next call.
-/

namespace MarketEngine

structure ItchFileState where
  sequence : UInt64 := 0
  messagesDecoded : ℕ := 0
  bytesConsumed : ℕ := 0
  failed : Bool := false
  deriving DecidableEq, Repr

abbrev ItchFileConnector := Framed ItchFileState

namespace ItchFileConnector

/-- The held-whole constructor. -/
def ofBytes (data : Bytes) : ItchFileConnector := ⟨.ofBytes data, {}⟩

/-- The constructor from a path whose file opens. -/
def ofStream (input : ByteStream) : ItchFileConnector := ⟨.ofStream input, {}⟩

def handler : FrameHandler ItchFileState where
  onFrame s message :=
    let s := { s with bytesConsumed := s.bytesConsumed + (2 + message.length) }
    match decodeMessage message with
    | .malformed => ({ s with failed := true }, some none)
    | .event event =>
      let sequence := s.sequence + 1
      ({ s with sequence, messagesDecoded := s.messagesDecoded + 1 },
        some (some { event with sequence }))
    | .skipped => (s, none)
  onBreak s := { s with failed := true }

def next (c : ItchFileConnector) : Option MarketDataEvent × ItchFileConnector := handler.next c

def failed (c : ItchFileConnector) : Bool := c.state.failed

def messagesDecoded (c : ItchFileConnector) : ℕ := c.state.messagesDecoded

def bytesConsumed (c : ItchFileConnector) : ℕ := c.state.bytesConsumed

/-- The calls of `next`. -/
def feed : Feed ItchFileConnector MarketDataEvent := handler.feed

end ItchFileConnector

end MarketEngine
