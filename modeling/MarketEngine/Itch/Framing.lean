import MarketEngine.Itch.Stopping

/-! # One list of messages in three framings

The connectors agree on every list of messages, however it is framed: as a
BinaryFILE, as sequenced SoupBinTCP packets among others, or as MoldUDP64
packets of any sizes.
-/

namespace MarketEngine

/-- The book events of messages that are numbered from `n`, with their numbers. -/
def indexedEvents (n : ℕ) : List Bytes → List MarketDataEvent
  | [] => []
  | message :: messages =>
    match decodeMessage message with
    | .event event => { event with sequence := UInt64.ofNat n } :: indexedEvents (n + 1) messages
    | _ => indexedEvents (n + 1) messages

def MarketDataEvent.eraseSequence (event : MarketDataEvent) : MarketDataEvent :=
  { event with sequence := 0 }

/-- A SoupBinTCP packet that does not end the session. -/
structure SoupPacket where
  type : UInt8
  payload : Bytes
  continues : type ≠ 'Z'.toUInt8
  fits : payload.length ≤ 65534

namespace SoupPacket

def encode (packet : SoupPacket) : Bytes := block (packet.type :: packet.payload)

/-- The message of a sequenced data packet. -/
def message? (packet : SoupPacket) : Option Bytes :=
  if packet.type = 'S'.toUInt8 then some packet.payload else none

end SoupPacket

namespace Datagram

def payloads : Datagram → List Bytes
  | .data packet => packet.payloads
  | .heartbeat .. => []
  | .endOfSession .. => []

/-- The packets are numbered one after the other. -/
def NumberedFrom : ℕ → List Datagram → Prop
  | _, [] => True
  | n, .data packet :: rest =>
    packet.sequence = UInt64.ofNat n ∧ NumberedFrom (n + packet.payloads.length) rest
  | n, .heartbeat .. :: rest => NumberedFrom n rest
  | n, .endOfSession .. :: rest => NumberedFrom n rest

end Datagram

/-! ## BinaryFILE -/

namespace ItchFileConnector

/-- Whole messages are delivered as they are, and counted. -/
theorem script_indexed {messages : List Bytes}
    (h : ∀ message ∈ messages, decodeMessage message ≠ .malformed) (state : ItchFileState) (n : ℕ) :
    (Feed.heard (handler.script state messages)).map MarketDataEvent.eraseSequence =
        (indexedEvents n messages).map MarketDataEvent.eraseSequence ∧
      (handler.final state messages false).messagesDecoded =
        state.messagesDecoded + (indexedEvents n messages).length ∧
      (handler.final state messages false).failed = state.failed := by
  induction messages generalizing state n with
  | nil => exact ⟨rfl, rfl, rfl⟩
  | cons message messages ih =>
    have hfirst := h message (List.mem_cons_self ..)
    have ih := ih fun m hm => h m (List.mem_cons_of_mem _ hm)
    rw [FrameHandler.script, FrameHandler.final, indexedEvents]
    dsimp only [handler]
    cases hdecode : decodeMessage message with
    | malformed => exact absurd hdecode hfirst
    | skipped => exact ih _ _
    | event event =>
      obtain ⟨hevents, hcount, hfailed⟩ := ih
        { state with
          sequence := state.sequence + 1
          messagesDecoded := state.messagesDecoded + 1
          bytesConsumed := state.bytesConsumed + (2 + message.length) } (n + 1)
      exact ⟨congrArg (event.eraseSequence :: ·) hevents,
        hcount.trans (Nat.add_right_comm _ 1 _), hfailed⟩

end ItchFileConnector

/-! ## SoupBinTCP -/

namespace SoupBinTcpConnector

/-- Sequenced messages are delivered with their numbers, and counted. -/
theorem script_indexed {packets : List SoupPacket}
    (h : ∀ message ∈ packets.filterMap SoupPacket.message?, decodeMessage message ≠ .malformed)
    (state : SoupBinTcpState) {n : ℕ} (hsequence : state.sequence + 1 = UInt64.ofNat n) :
    let frames := packets.map fun packet => packet.type :: packet.payload
    let messages := packets.filterMap SoupPacket.message?
    Feed.heard (handler.script state frames) = indexedEvents n messages ∧
      (handler.final state frames false).messagesDecoded =
        state.messagesDecoded + (indexedEvents n messages).length ∧
      (handler.final state frames false).failed = state.failed := by
  induction packets generalizing state n with
  | nil => exact ⟨rfl, rfl, rfl⟩
  | cons packet packets ih =>
    have htype : byteAt (packet.type :: packet.payload) 0 = packet.type := rfl
    have hpayload : (packet.type :: packet.payload).drop 1 = packet.payload := rfl
    dsimp only at ih ⊢
    rw [List.map_cons, FrameHandler.script, FrameHandler.final]
    dsimp only [handler] at ih ⊢
    rw [htype, hpayload, if_neg packet.continues]
    by_cases hs : packet.type = 'S'.toUInt8
    · have hmessage : packet.message? = some packet.payload := if_pos hs
      rw [List.filterMap_cons_some hmessage] at h ⊢
      have hfirst := h packet.payload (List.mem_cons_self ..)
      have ih := fun state n => ih (fun m hm => h m (List.mem_cons_of_mem _ hm)) state (n := n)
      have hnext : UInt64.ofNat n + 1 = UInt64.ofNat (n + 1) := (UInt64.ofNat_add n 1).symm
      rw [if_pos hs, indexedEvents]
      cases hdecode : decodeMessage packet.payload with
      | malformed => exact absurd hdecode hfirst
      | skipped =>
        exact ih { state with sequence := state.sequence + 1 } (n + 1) (hsequence ▸ hnext)
      | event event =>
        obtain ⟨hevents, hcount, hfailed⟩ := ih
          { state with
            sequence := state.sequence + 1
            messagesDecoded := state.messagesDecoded + 1 } (n + 1) (hsequence ▸ hnext)
        rw [← hsequence]
        exact ⟨congrArg _ hevents, hcount.trans (Nat.add_right_comm _ 1 _), hfailed⟩
    · have hmessage : packet.message? = none := if_neg hs
      rw [List.filterMap_cons_none hmessage] at h ⊢
      rw [if_neg hs]
      exact ih h state hsequence

end SoupBinTcpConnector

/-! ## MoldUDP64 -/

namespace Session

theorem messages_append (n : ℕ) (payloads later : List Bytes) :
    messages (UInt64.ofNat n) (payloads ++ later) =
      messages (UInt64.ofNat n) payloads ++
        messages (UInt64.ofNat (n + payloads.length)) later := by
  induction payloads generalizing n with
  | nil => rfl
  | cons payload payloads ih =>
    have hnext : UInt64.ofNat n + 1 = UInt64.ofNat (n + 1) := (UInt64.ofNat_add n 1).symm
    rw [List.cons_append, messages, messages, hnext, ih, List.length_cons, List.cons_append,
      Nat.add_assoc, Nat.add_comm 1]

/-- Packets numbered one after the other have neither gaps nor overlaps. -/
theorem content_numbered (recover : UInt64 → Option Bytes) {datagrams : List Datagram} {n : ℕ}
    {cursor : Option UInt64} (hcursor : cursor = none ∨ cursor = some (UInt64.ofNat n))
    (h : Datagram.NumberedFrom n datagrams) :
    content (entries recover false cursor (datagrams.map Datagram.received)) =
      messages (UInt64.ofNat n) (datagrams.flatMap Datagram.payloads) := by
  induction datagrams generalizing n cursor with
  | nil => rfl
  | cons datagram datagrams ih =>
    cases datagram with
    | data packet =>
      obtain ⟨hsequence, hrest⟩ := h
      have hexpected : cursor.getD packet.sequence = packet.sequence := by
        rcases hcursor with rfl | rfl
        · rfl
        · exact hsequence.symm
      have hne : true = true → packet.payloads ≠ [] :=
        fun _ => List.ne_nil_of_length_pos packet.pos
      have hnext : UInt64.ofNat n + UInt64.ofNat packet.payloads.length =
          UInt64.ofNat (n + packet.payloads.length) := (UInt64.ofNat_add ..).symm
      rw [List.map_cons, Datagram.received, entries_ahead hexpected (Nat.le_refl _) hne,
        Nat.sub_self, gap, List.nil_append, live, if_pos rfl, content_append, content_messages,
        hsequence, hnext, ih (.inr rfl) hrest, List.flatMap_cons, Datagram.payloads,
        messages_append]
    | heartbeat session sequence => exact ih hcursor h
    | endOfSession session sequence => exact ih hcursor h

theorem messages_indexed {payloads : List Bytes}
    (h : ∀ payload ∈ payloads, decodeMessage payload ≠ .malformed) (n : ℕ) :
    Unbroken (messages (UInt64.ofNat n) payloads) ∧
      events (messages (UInt64.ofNat n) payloads) = indexedEvents n payloads := by
  induction payloads generalizing n with
  | nil => exact ⟨fun _ h => absurd h List.not_mem_nil, rfl⟩
  | cons message payloads ih =>
    have hfirst := h message (List.mem_cons_self ..)
    have hnext : UInt64.ofNat n + 1 = UInt64.ofNat (n + 1) := (UInt64.ofNat_add n 1).symm
    obtain ⟨hgoes, hevents⟩ := ih (fun m hm => h m (List.mem_cons_of_mem _ hm)) (n + 1)
    rw [messages, hnext, indexedEvents]
    constructor
    · intro entry hmem
      rcases List.mem_cons.mp hmem with rfl | hmem
      · rw [Entry.answer]
        cases hdecode : decodeMessage message with
        | malformed => exact absurd hdecode hfirst
        | event event => simp
        | skipped => simp
      · exact hgoes entry hmem
    · rw [← hevents, events, events, List.filterMap_cons, Entry.answer]
      cases hdecode : decodeMessage message with
      | malformed => exact absurd hdecode hfirst
      | event event => rfl
      | skipped => rfl

end Session

namespace ItchFileConnector

theorem drain_indexed {messages : List Bytes} {c : ItchFileConnector}
    (hlength : ∀ message ∈ messages, 1 ≤ message.length ∧ message.length ≤ 65534)
    (hdecode : ∀ message ∈ messages, decodeMessage message ≠ .malformed)
    (hc : c.Opened {} (messages.flatMap block)) :
    (feed.drain c).1.map MarketDataEvent.eraseSequence =
        (indexedEvents 1 messages).map MarketDataEvent.eraseSequence ∧
      (feed.drain c).2.messagesDecoded = (indexedEvents 1 messages).length ∧
      (feed.drain c).2.failed = false := by
  obtain ⟨hok, hunread, hstate⟩ := hc.unread
  obtain ⟨hevents, hfinal⟩ := handler.drain_eq hok
  obtain ⟨hframes, hbroken⟩ := ByteWindow.frames_flatMap fun message hmem =>
    ⟨(hlength message hmem).1, Nat.lt_of_le_of_lt (hlength message hmem).2 (by decide)⟩
  rw [FrameHandler.answers, hunread, hframes, hstate] at hevents
  rw [FrameHandler.finally_, hunread, hframes, hbroken, hstate] at hfinal
  obtain ⟨hindexed, hcount, hfailed⟩ := script_indexed hdecode {} 1
  refine ⟨?_, ?_, ?_⟩
  · rw [← hindexed, ← hevents]
    rfl
  · rw [messagesDecoded, show (feed.drain c).2.state = _ from hfinal, hcount]
    exact Nat.zero_add _
  · rw [failed, show (feed.drain c).2.state = _ from hfinal, hfailed]

end ItchFileConnector

namespace SoupBinTcpConnector

theorem drain_indexed {packets : List SoupPacket} {c : SoupBinTcpConnector}
    (hdecode : ∀ message ∈ packets.filterMap SoupPacket.message?,
      decodeMessage message ≠ .malformed)
    (hc : c.Opened {} (packets.flatMap SoupPacket.encode)) :
    (feed.drain c).1 = indexedEvents 1 (packets.filterMap SoupPacket.message?) ∧
      (feed.drain c).2.messagesDecoded =
        (indexedEvents 1 (packets.filterMap SoupPacket.message?)).length ∧
      (feed.drain c).2.failed = false := by
  obtain ⟨hok, hunread, hstate⟩ := hc.unread
  obtain ⟨hevents, hfinal⟩ := handler.drain_eq hok
  have hdata : packets.flatMap SoupPacket.encode =
      (packets.map fun packet => packet.type :: packet.payload).flatMap block := by
    rw [List.flatMap_map]
    rfl
  have hfits : ∀ frame ∈ packets.map fun packet => packet.type :: packet.payload,
      0 < frame.length ∧ frame.length < 2 ^ 16 := by
    intro frame hmem
    obtain ⟨packet, -, rfl⟩ := List.mem_map.mp hmem
    have := packet.fits
    rw [List.length_cons]
    omega
  obtain ⟨hframes, hbroken⟩ := ByteWindow.frames_flatMap hfits
  rw [FrameHandler.answers, hunread, hdata, hframes, hstate] at hevents
  rw [FrameHandler.finally_, hunread, hdata, hframes, hbroken, hstate] at hfinal
  obtain ⟨hindexed, hcount, hfailed⟩ := script_indexed hdecode {} (n := 1) rfl
  refine ⟨hevents.trans hindexed, ?_, ?_⟩
  · rw [messagesDecoded, show (feed.drain c).2.state = _ from hfinal, hcount]
    exact Nat.zero_add _
  · rw [failed, show (feed.drain c).2.state = _ from hfinal, hfailed]

end SoupBinTcpConnector

namespace MoldUdp64Connector

theorem drain_indexed {datagrams : List Datagram} (hnumbered : Datagram.NumberedFrom 1 datagrams)
    (hdecode : ∀ message ∈ datagrams.flatMap Datagram.payloads, decodeMessage message ≠ .malformed)
    (retransmit : Option RetransmitSource) :
    let c := ofSource ⟨datagrams.map Datagram.encode, false⟩ retransmit
    (feed.drain c).1 = indexedEvents 1 (datagrams.flatMap Datagram.payloads) ∧
      (feed.drain c).2.messagesDecoded =
        (indexedEvents 1 (datagrams.flatMap Datagram.payloads)).length ∧
      (feed.drain c).2.failed = false := by
  obtain ⟨hgoes, hindexed⟩ := Session.messages_indexed hdecode 1
  have hcontent := Session.content_numbered (recoverFrom retransmit) (.inl rfl) hnumbered
  rw [← hcontent, unbroken_content, ← session_encode] at hgoes
  rw [← hcontent, events_content, ← session_encode] at hindexed
  obtain ⟨hevents, hcount, hfailed, -⟩ := drain_unbroken hgoes
  refine ⟨hevents.trans hindexed, ?_, hfailed⟩
  rw [hcount, hindexed]

end MoldUdp64Connector

/-- The events of a list of messages do not depend on how they are framed. -/
theorem framing_independent (messages : List Bytes) (packets : List SoupPacket)
    (datagrams : List Datagram) (retransmit : Option RetransmitSource)
    (hlength : ∀ message ∈ messages, 1 ≤ message.length ∧ message.length ≤ 65534)
    (hdecode : ∀ message ∈ messages, decodeMessage message ≠ .malformed)
    {file : ItchFileConnector} (hfile : file.Opened {} (messages.flatMap block))
    (hpackets : packets.filterMap SoupPacket.message? = messages)
    {soup : SoupBinTcpConnector} (hsoup : soup.Opened {} (packets.flatMap SoupPacket.encode))
    (hdatagrams : datagrams.flatMap Datagram.payloads = messages)
    (hnumbered : Datagram.NumberedFrom 1 datagrams) :
    let mold := MoldUdp64Connector.ofSource ⟨datagrams.map Datagram.encode, false⟩ retransmit
    let fileEnd := ItchFileConnector.feed.drain file
    let soupEnd := SoupBinTcpConnector.feed.drain soup
    let moldEnd := MoldUdp64Connector.feed.drain mold
    (fileEnd.1.map MarketDataEvent.eraseSequence =
        (indexedEvents 1 messages).map MarketDataEvent.eraseSequence ∧
      soupEnd.1 = indexedEvents 1 messages ∧ moldEnd.1 = indexedEvents 1 messages) ∧
    (fileEnd.2.messagesDecoded = (indexedEvents 1 messages).length ∧
      soupEnd.2.messagesDecoded = (indexedEvents 1 messages).length ∧
      moldEnd.2.messagesDecoded = (indexedEvents 1 messages).length) ∧
    fileEnd.2.failed = false ∧ soupEnd.2.failed = false ∧ moldEnd.2.failed = false := by
  subst hpackets
  obtain ⟨hf, hfcount, hffailed⟩ := ItchFileConnector.drain_indexed hlength hdecode hfile
  obtain ⟨hs, hscount, hsfailed⟩ := SoupBinTcpConnector.drain_indexed hdecode hsoup
  rw [← hdatagrams] at hdecode
  obtain ⟨hm, hmcount, hmfailed⟩ :=
    MoldUdp64Connector.drain_indexed hnumbered hdecode retransmit
  rw [hdatagrams] at hm hmcount
  exact ⟨⟨hf, hs, hm⟩, ⟨hfcount, hscount, hmcount⟩, hffailed, hsfailed, hmfailed⟩

def heartbeatPacket : SoupPacket := ⟨'H'.toUInt8, [], by decide, by decide⟩

def sequencedDelete : SoupPacket := ⟨'S'.toUInt8, deleteMessage, by decide, by decide⟩

/-- A packet of one delete message. -/
def deletePacket (sequence : UInt64) : DataPacket :=
  ⟨⟨List.replicate 10 0, rfl⟩, sequence, [deleteMessage], by decide, by decide, by decide⟩

def deleteDatagram : Datagram := .data (deletePacket 1)

theorem delete_framed_two_ways :
    (SoupBinTcpConnector.feed.drain
        (.ofBytes ([heartbeatPacket, sequencedDelete].flatMap SoupPacket.encode))).1 =
      (MoldUdp64Connector.feed.drain
        (.ofSource ⟨[deleteDatagram].map Datagram.encode, false⟩ none)).1 := by
  have h := framing_independent [deleteMessage] [heartbeatPacket, sequencedDelete]
    [deleteDatagram] none (by decide) (by decide) (.inl rfl) rfl (.inl rfl) rfl ⟨rfl, trivial⟩
  exact h.1.2.1.trans h.1.2.2.symm

end MarketEngine
