import MarketEngine.Itch.CheckedReads
import MarketEngine.Itch.ItchFileConnector
import MarketEngine.Itch.MoldUdp64Connector
import MarketEngine.Itch.SoupBinTcpConnector

/-! # Hostile input stays inside the window

The loops of the connectors with every load checked. Whatever the bytes, their
chopping, the datagrams and the retransmitted payloads are, each call ends with the
answer of the unchecked one.
-/

namespace MarketEngine

/-! ## Connectors of framed byte streams -/

/-- A handler that reads a frame through its span. -/
structure CheckedHandler {σ : Type} (h : FrameHandler σ) where
  onFrame : σ → Span UInt8 → Option (σ × Option (Option MarketDataEvent))
  onFrame_eq : ∀ (state : σ) {span : Span UInt8} {frame : Bytes}, span.Holds frame →
    0 < frame.length → onFrame state span = some (h.onFrame state frame)

namespace CheckedHandler

variable {σ : Type} {h : FrameHandler σ} (checked : CheckedHandler h)

/-- One pass of the loop in `next`. -/
def pass (s : Framed σ) : Option (Framed σ ⊕ (Option MarketDataEvent × Framed σ)) := do
  match ← s.window.nextFrameChecked with
  | (.error broken, window) =>
    some (.inr (none, ⟨window, if broken then h.onBreak s.state else s.state⟩))
  | (.ok frame, window) => do
    match ← checked.onFrame s.state frame with
    | (state, none) => some (.inl ⟨window, state⟩)
    | (state, some answer) => some (.inr (answer, ⟨window, state⟩))

theorem pass_eq {s : Framed σ} (hs : s.window.Ok) : checked.pass s = some (h.pass s) := by
  obtain ⟨frame, hnext, hframe⟩ := hs.nextFrameChecked_eq
  rw [pass, hnext]
  generalize hbytes : s.window.nextFrame.1 = bytes at hframe
  cases hframe with
  | error broken =>
    rw [h.pass_error hbytes]
    rfl
  | @ok span frame hspan hpos =>
    rw [h.pass_ok hbytes]
    dsimp only [bind, Option.bind]
    rw [checked.onFrame_eq s.state hspan hpos]
    rcases h.onFrame s.state frame with ⟨state, _ | answer⟩ <;> rfl

/-- A call ends, and without a load outside the window. -/
theorem next_endsWith {s : Framed σ} (hs : s.window.Ok) :
    Loop.EndsWith checked.pass s (h.next s) := by
  refine h.nextLoop.endsWith_run (I := fun t => t.window.Ok) (fun t ht => ?_) ?_ hs
  · exact checked.pass_eq ht
  · intro t t' ht hpass
    cases h.pass_cases ht with
    | ends window flag hok hcut hends => cases hends.symm.trans hpass
    | goes window frame state hok hcut hframe hgoes =>
      cases hgoes.symm.trans hpass
      exact hok
    | returns window frame state answer hok hcut hframe hreturns =>
      cases hreturns.symm.trans hpass

/-- So does every call of a run. -/
theorem after_endsWith {s : Framed σ} (hs : s.window.Ok) (n : ℕ) :
    Loop.EndsWith checked.pass (h.feed.after n s) (h.next (h.feed.after n s)) :=
  checked.next_endsWith (h.feed_follows.after ⟨hs, rfl⟩ n).1

end CheckedHandler

namespace ItchFileConnector

def checkedHandler : CheckedHandler handler where
  onFrame s frame := do
    let s := { s with bytesConsumed := s.bytesConsumed + (2 + frame.length) }
    match ← decodeMessageChecked frame with
    | .malformed => some ({ s with failed := true }, some none)
    | .event event =>
      let sequence := s.sequence + 1
      some ({ s with sequence, messagesDecoded := s.messagesDecoded + 1 },
        some (some { event with sequence }))
    | .skipped => some (s, none)
  onFrame_eq state span frame hspan _ := by
    rw [decodeMessageChecked_eq hspan, hspan.length]
    dsimp only [handler, bind, Option.bind]
    cases decodeMessage frame <;> rfl

end ItchFileConnector

namespace SoupBinTcpConnector

/-- The payload is decoded when `pos` is past the packet, which does not move its bytes. -/
def checkedHandler : CheckedHandler handler where
  onFrame s packet := do
    let type ← packet.load 0
    let payload := packet.sub 1 (packet.length - 1)
    if type = 'Z'.toUInt8 then some ({ s with endOfSession := true }, some none)
    else if type = 'S'.toUInt8 then do
      let sequence := s.sequence + 1
      let s := { s with sequence }
      match ← decodeMessageChecked payload with
      | .malformed => some ({ s with failed := true }, some none)
      | .event event =>
        some ({ s with messagesDecoded := s.messagesDecoded + 1 },
          some (some { event with sequence }))
      | .skipped => some (s, none)
    else some (s, none)
  onFrame_eq state span packet hspan hpos := by
    have hlength : 1 + (packet.length - 1) ≤ packet.length := by omega
    have hpayload : (span.sub 1 (span.length - 1)).Holds (packet.drop 1) := by
      have hsub := hspan.sub hlength
      rwa [← List.length_drop, List.take_length, List.length_drop, ← hspan.length] at hsub
    rw [load_eq hspan hpos]
    dsimp only [handler, bind, Option.bind]
    rw [decodeMessageChecked_eq hpayload]
    split_ifs
    · rfl
    · cases decodeMessage (packet.drop 1) <;> rfl
    · rfl

end SoupBinTcpConnector

/-! ## MoldUDP64 -/

/-- The loop of an overlap. -/
def MoldUdp64Packet.skipSeenChecked (packet : MoldUdp64Packet) :
    ℕ → ℕ → ℕ → Option (Bool × ℕ × ℕ)
  | 0, offset, localIndex => some (true, offset, localIndex)
  | alreadySeen + 1, offset, localIndex =>
    if localIndex < packet.messageCount then do
      match ← packet.readBlockChecked offset with
      | none => some (false, offset, localIndex)
      | some (_, offset) => packet.skipSeenChecked alreadySeen offset (localIndex + 1)
    else some (true, offset, localIndex)

theorem MoldUdp64Packet.skipSeenChecked_eq (packet : MoldUdp64Packet)
    (alreadySeen offset localIndex : ℕ) : packet.skipSeenChecked alreadySeen offset localIndex =
      some (packet.skipSeen alreadySeen offset localIndex) := by
  induction alreadySeen generalizing offset localIndex with
  | zero => rfl
  | succ alreadySeen ih =>
    unfold skipSeenChecked skipSeen
    split_ifs
    · rcases packet.readBlockChecked_cases offset with
        ⟨hchecked, hread⟩ | ⟨span, payload, offset', hchecked, hread, -⟩ <;> rw [hchecked, hread]
      · rfl
      · exact ih offset' (localIndex + 1)
    · rfl

namespace MoldUdp64Connector

def skipOverlapChecked (c : MoldUdp64Connector) : Option (Bool × MoldUdp64Connector) := do
  let (whole, offset, localIndex) ←
    c.packet.skipSeenChecked (c.expected - c.packet.sequence).toNat c.offset c.localIndex
  some (whole, { c with offset, localIndex })

def placeChecked (c : MoldUdp64Connector) :
    Option (MoldUdp64Connector ⊕ (Bool × MoldUdp64Connector)) :=
  let seq := c.packet.sequence
  let c := c.start
  if c.expected < seq then some (.inr (true, { c.enterGap with havePacket := true }))
  else if seq < c.expected then do
    let (whole, c) ← c.skipOverlapChecked
    if whole = false then some (.inr (false, { c with failed := true }))
    else if c.packet.messageCount ≤ c.localIndex then some (.inl c)
    else some (.inr (true, { c with havePacket := true }))
  else some (.inr (true, { c with havePacket := true }))

def loadPassChecked (c : MoldUdp64Connector) :
    Option (MoldUdp64Connector ⊕ (Bool × MoldUdp64Connector)) :=
  match c.source.rest with
  | [] => some (.inr (false, if c.source.failed then { c with failed := true } else c))
  | datagram :: rest => do
    let c := { c with source := { c.source with rest } }
    match ← MoldUdp64Packet.parseChecked datagram with
    | none => some (.inr (false, { c with failed := true }))
    | some packet =>
      let c := { c with packet, offset := kMoldHeaderSize, localIndex := 0 }
      if packet.endOfSession then some (.inl { c with endOfSession := true })
      else if packet.heartbeat then some (.inl c)
      else c.placeChecked

/-- The fuel is one pass for each datagram and one for their end. -/
def loadNextPacketChecked (c : MoldUdp64Connector) : Option (Bool × MoldUdp64Connector) :=
  Loop.iterateChecked loadPassChecked (c.source.rest.length + 1) c

def deliverChecked (c : MoldUdp64Connector) (sequence : UInt64) (payload : Span UInt8) :
    Option (MoldUdp64Connector ⊕ (Option MarketDataEvent × MoldUdp64Connector)) := do
  match ← decodeMessageChecked payload with
  | .malformed => some (.inr (none, { c with failed := true }))
  | .event event =>
    some (.inr (some { event with sequence },
      { c with lastSequence := sequence, messagesDecoded := c.messagesDecoded + 1 }))
  | .skipped => some (.inl c)

def passChecked (c : MoldUdp64Connector) :
    Option (MoldUdp64Connector ⊕ (Option MarketDataEvent × MoldUdp64Connector)) :=
  if c.Recovering then
    match c.recover c.recoverNext with
    | none => some (.inl { c.pastRecovered with messagesMissed := c.messagesMissed + 1 })
    | some payload => c.pastRecovered.deliverChecked c.recoverNext (.ofList payload)
  else
    let c := { c with recovering := false }
    if c.Drained then do
      match ← ({ c with havePacket := false } : MoldUdp64Connector).loadNextPacketChecked with
      | (false, c) => some (.inr (none, c))
      | (true, c) => some (.inl c)
    else do
      match ← c.packet.readBlockChecked c.offset with
      | none => some (.inr (none, { c with failed := true }))
      | some (payload, offset) => (c.pastMessage offset).deliverChecked c.messageSequence payload

theorem placeChecked_eq (c : MoldUdp64Connector) : c.placeChecked = some c.place := by
  unfold placeChecked place skipOverlapChecked skipOverlap
  dsimp only
  rw [MoldUdp64Packet.skipSeenChecked_eq]
  dsimp only [bind, Option.bind]
  split_ifs <;> rfl

theorem loadPassChecked_eq (c : MoldUdp64Connector) : c.loadPassChecked = some c.loadPass := by
  unfold loadPassChecked loadPass
  cases c.source.rest with
  | nil => rfl
  | cons datagram rest =>
    dsimp only
    rw [MoldUdp64Packet.parseChecked_eq]
    dsimp only [bind, Option.bind]
    cases MoldUdp64Packet.parse datagram with
    | none => rfl
    | some packet =>
      dsimp only
      rw [placeChecked_eq]
      split_ifs <;> rfl

theorem loadNextPacketChecked_eq (c : MoldUdp64Connector) :
    c.loadNextPacketChecked = some c.loadNextPacket :=
  loadLoop.iterateChecked_eq (I := fun _ => True) (fun c _ => c.loadPassChecked_eq)
    (fun _ _ _ _ => trivial) trivial (Nat.lt_succ_self _)

theorem deliverChecked_eq (c : MoldUdp64Connector) (sequence : UInt64) {span : Span UInt8}
    {payload : Bytes} (h : span.Holds payload) :
    c.deliverChecked sequence span = some (c.deliver sequence payload) := by
  rw [deliverChecked, decodeMessageChecked_eq h, deliver]
  dsimp only [bind, Option.bind]
  cases decodeMessage payload <;> rfl

theorem passChecked_eq (c : MoldUdp64Connector) : c.passChecked = some c.pass := by
  unfold passChecked pass
  by_cases hgap : c.Recovering
  · rw [if_pos hgap, if_pos hgap]
    cases c.recover c.recoverNext with
    | none => rfl
    | some payload => exact deliverChecked_eq _ _ (Span.ofList_holds payload)
  · rw [if_neg hgap, if_neg hgap]
    dsimp only
    split_ifs
    · rw [loadNextPacketChecked_eq]
      dsimp only [bind, Option.bind]
      rcases loadNextPacket _ with ⟨_ | _, c'⟩ <;> rfl
    · rcases c.packet.readBlockChecked_cases c.offset with
        ⟨hchecked, hread⟩ | ⟨span, payload, offset, hchecked, hread, hspan⟩ <;> rw [hchecked, hread]
      · rfl
      · exact deliverChecked_eq _ _ hspan

theorem next_endsWith (c : MoldUdp64Connector) : Loop.EndsWith passChecked c c.next :=
  nextLoop.endsWith_run (I := fun _ => True) (fun c _ => c.passChecked_eq)
    (fun _ _ _ _ => trivial) trivial

end MoldUdp64Connector

/-! ## The readers -/

/-- On any input, no reader loads outside of what it was given or has read, and every call of every
connector ends. -/
theorem hostile_input_contained :
    (∀ data : Bytes, decodeMessageChecked (.ofList data) = some (decodeMessage data)) ∧
    (∀ datagram : Bytes,
      MoldUdp64Packet.parseChecked datagram = some (MoldUdp64Packet.parse datagram)) ∧
    (∀ (packet : MoldUdp64Packet) (offset : ℕ),
      (packet.readBlockChecked offset).map (Option.map Prod.snd) =
        some ((packet.readBlock offset).map Prod.snd)) ∧
    (∀ (data : Bytes) (n : ℕ),
      let c := ItchFileConnector.feed.after n (.ofBytes data)
      Loop.EndsWith ItchFileConnector.checkedHandler.pass c c.next) ∧
    (∀ (input : ByteStream) (n : ℕ),
      let c := ItchFileConnector.feed.after n (.ofStream input)
      Loop.EndsWith ItchFileConnector.checkedHandler.pass c c.next) ∧
    (∀ (data : Bytes) (n : ℕ),
      let c := SoupBinTcpConnector.feed.after n (.ofBytes data)
      Loop.EndsWith SoupBinTcpConnector.checkedHandler.pass c c.next) ∧
    (∀ (input : ByteStream) (n : ℕ),
      let c := SoupBinTcpConnector.feed.after n (.ofStream input)
      Loop.EndsWith SoupBinTcpConnector.checkedHandler.pass c c.next) ∧
    (∀ (source : DatagramSource) (retransmit : Option RetransmitSource) (n : ℕ),
      let c := MoldUdp64Connector.feed.after n (.ofSource source retransmit)
      Loop.EndsWith MoldUdp64Connector.passChecked c c.next) := by
  refine ⟨fun data => decodeMessageChecked_eq (Span.ofList_holds data),
    MoldUdp64Packet.parseChecked_eq, ?_, ?_, ?_, ?_, ?_, ?_⟩
  · intro packet offset
    rcases packet.readBlockChecked_cases offset with
      ⟨hchecked, hread⟩ | ⟨span, payload, offset', hchecked, hread, -⟩ <;> rw [hchecked, hread] <;>
      rfl
  · exact fun data n =>
      ItchFileConnector.checkedHandler.after_endsWith (ByteWindow.ofBytes_ok data) n
  · exact fun input n =>
      ItchFileConnector.checkedHandler.after_endsWith (ByteWindow.ofStream_ok input) n
  · exact fun data n =>
      SoupBinTcpConnector.checkedHandler.after_endsWith (ByteWindow.ofBytes_ok data) n
  · exact fun input n =>
      SoupBinTcpConnector.checkedHandler.after_endsWith (ByteWindow.ofStream_ok input) n
  · exact fun source retransmit n => MoldUdp64Connector.next_endsWith _

end MarketEngine
