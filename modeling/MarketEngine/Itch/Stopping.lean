import MarketEngine.Itch.SessionRuns
import MarketEngine.Itch.Streaming

/-! # After the stream has stopped

A call that returns without an event may leave frames behind it. The next call
takes them up, so the stream stays stopped only if they hold no event.
-/

namespace MarketEngine

/-- Whether `next` returns an event for a message, if it returns. -/
def DecodeResult.returns : DecodeResult → Option Bool
  | .event _ => some true
  | .skipped => none
  | .malformed => some false

/-- Whether `next` returns an event for a frame, if it returns. -/
def ItchFileConnector.returns (message : Bytes) : Option Bool := (decodeMessage message).returns

/-- Whether `next` returns an event for a packet, if it returns. -/
def SoupBinTcpConnector.returns (packet : Bytes) : Option Bool :=
  if byteAt packet 0 = 'Z'.toUInt8 then some false
  else if byteAt packet 0 = 'S'.toUInt8 then (decodeMessage (packet.drop 1)).returns
  else none

/-- No event comes after a frame that `next` returns without an event for. -/
def Orderly (returns : Bytes → Option Bool) (data : Bytes) : Prop :=
  (ByteWindow.frames data).Pairwise fun a b => returns a = some false → returns b ≠ some true

instance (returns : Bytes → Option Bool) (data : Bytes) : Decidable (Orderly returns data) := by
  unfold Orderly
  infer_instance

namespace ItchFileConnector

theorem staysStopped_iff {c : ItchFileConnector} (hc : c.window.Ok) :
    feed.StaysStopped messagesDecoded c ↔ Orderly returns c.window.unread := by
  refine handler.staysStopped_iff returns ItchFileState.messagesDecoded ?_ ?_ ?_ hc
  · intro state message
    rw [returns]
    dsimp only [handler]
    cases decodeMessage message <;> rfl
  · exact fun _ => rfl
  · intro state message hnot
    rw [returns] at hnot
    dsimp only [handler]
    cases hdecode : decodeMessage message with
    | event event =>
      rw [hdecode] at hnot
      exact absurd rfl hnot
    | skipped => rfl
    | malformed => rfl

end ItchFileConnector

namespace SoupBinTcpConnector

theorem staysStopped_iff {c : SoupBinTcpConnector} (hc : c.window.Ok) :
    feed.StaysStopped messagesDecoded c ↔ Orderly returns c.window.unread := by
  refine handler.staysStopped_iff returns SoupBinTcpState.messagesDecoded ?_ ?_ ?_ hc
  · intro state packet
    rw [returns]
    dsimp only [handler]
    split_ifs
    · rfl
    · cases decodeMessage (packet.drop 1) <;> rfl
    · rfl
  · exact fun _ => rfl
  · intro state packet hnot
    rw [returns] at hnot
    dsimp only [handler]
    split_ifs at hnot ⊢
    · rfl
    · cases hdecode : decodeMessage (packet.drop 1) with
      | event event =>
        rw [hdecode] at hnot
        exact absurd rfl hnot
      | skipped => rfl
      | malformed => rfl
    · rfl

end SoupBinTcpConnector

namespace MoldUdp64Connector

/-- Entries without an event leave the count as it is. -/
theorem foldl_note_eventless (r : Report) {taken : List Entry}
    (h : ∀ entry ∈ taken, ∀ event, entry.answer ≠ some (some event)) :
    (taken.foldl Report.note r).messagesDecoded = r.messagesDecoded := by
  rw [foldl_note_decoded, events_eq_nil h]
  rfl

/-- A call without an event leaves the count as it is. -/
theorem next_none_decoded {c : MoldUdp64Connector} {entries : List Entry} (h : Tells entries c)
    (hnone : c.next.1 = none) : c.next.2.messagesDecoded = c.messagesDecoded := by
  revert hnone
  refine nextLoop.run_invariant
    (I := fun t => (∃ entries, Tells entries t) ∧ t.messagesDecoded = c.messagesDecoded)
    (Q := fun r => r.1 = none → r.2.messagesDecoded = c.messagesDecoded) ?_ ?_ ⟨⟨entries, h⟩, rfl⟩
  · rintro t t' ⟨⟨entries, htells⟩, hcount⟩ hbody
    have htakes := htells.pass
    rw [show t.pass = .inl t' from hbody] at htakes
    cases htakes with
    | goes hentries htells' hreport hsilent hvisit =>
      have hsame := foldl_note_eventless t.report fun entry hmem event heq =>
        nomatch (hsilent entry hmem).symm.trans heq
      rw [← hreport] at hsame
      exact ⟨⟨_, htells'⟩, hsame.trans hcount⟩
  · rintro t r ⟨⟨entries, htells⟩, hcount⟩ hbody hnone
    have htakes := htells.pass
    rw [show t.pass = .inr r from hbody] at htakes
    cases htakes with
    | returns hentries htells' hreport hsilent hanswer hvisit =>
      have hsame := foldl_note_eventless t.report fun entry hmem event heq => by
        rcases List.mem_append.mp hmem with hmem | hmem
        · exact nomatch (hsilent entry hmem).symm.trans heq
        · rw [List.mem_singleton.mp hmem, hanswer, Option.some.injEq] at heq
          exact nomatch hnone.symm.trans heq
      rw [← hreport] at hsame
      exact hsame.trans hcount
    | ends htells' hreport hsilent hvisit =>
      have hsame := foldl_note_eventless t.report fun entry hmem event heq =>
        nomatch (hsilent entry hmem).symm.trans heq
      rw [← hreport] at hsame
      exact hsame.trans hcount

theorem staysStopped_iff {c : MoldUdp64Connector} {entries : List Entry} (h : Tells entries c) :
    feed.StaysStopped messagesDecoded c ↔ entries.Pairwise fun a b =>
      a.answer = some none → ∀ event, b.answer ≠ some (some event) := by
  have hstays := feed_follows.staysStopped_iff ⟨entries, h, rfl⟩ messagesDecoded
    fun _ c ⟨_, htells, _⟩ hnone => next_none_decoded htells hnone
  rw [hstays, List.pairwise_filterMap]
  refine List.Pairwise.iff fun a b => ⟨fun h ha event hb => ?_, fun h x hx y hy hnone => ?_⟩
  · cases h none ha (some event) hb rfl
  · subst hnone
    cases y with
    | none => rfl
    | some event => exact absurd hy (h hx event)

end MoldUdp64Connector

/-- The three connectors stay stopped when there is no event behind what stopped them. -/
theorem stays_stopped_iff (data : Bytes) (chopping : Chopping) (source : DatagramSource)
    (retransmit : Option RetransmitSource) :
    (ItchFileConnector.feed.StaysStopped ItchFileConnector.messagesDecoded (.ofBytes data) ↔
      Orderly ItchFileConnector.returns data) ∧
    (ItchFileConnector.feed.StaysStopped ItchFileConnector.messagesDecoded
        (.ofStream ⟨data, chopping⟩) ↔
      Orderly ItchFileConnector.returns data) ∧
    (SoupBinTcpConnector.feed.StaysStopped SoupBinTcpConnector.messagesDecoded (.ofBytes data) ↔
      Orderly SoupBinTcpConnector.returns data) ∧
    (SoupBinTcpConnector.feed.StaysStopped SoupBinTcpConnector.messagesDecoded
        (.ofStream ⟨data, chopping⟩) ↔
      Orderly SoupBinTcpConnector.returns data) ∧
    (MoldUdp64Connector.feed.StaysStopped MoldUdp64Connector.messagesDecoded
        (.ofSource source retransmit) ↔
      (MoldUdp64Connector.session source retransmit).Pairwise fun a b =>
        a.answer = some none → ∀ event, b.answer ≠ some (some event)) := by
  refine ⟨?_, ?_, ?_, ?_, ?_⟩
  · have h := ItchFileConnector.staysStopped_iff (c := .ofBytes data) (ByteWindow.ofBytes_ok data)
    rwa [show (ItchFileConnector.ofBytes data).window.unread = data from
      ByteWindow.ofBytes_unread data] at h
  · exact ItchFileConnector.staysStopped_iff (ByteWindow.ofStream_ok _)
  · have h := SoupBinTcpConnector.staysStopped_iff (c := .ofBytes data) (ByteWindow.ofBytes_ok data)
    rwa [show (SoupBinTcpConnector.ofBytes data).window.unread = data from
      ByteWindow.ofBytes_unread data] at h
  · exact SoupBinTcpConnector.staysStopped_iff (ByteWindow.ofStream_ok _)
  · exact MoldUdp64Connector.staysStopped_iff (MoldUdp64Connector.tells_ofSource _ _)

/-- A delete of order 7. -/
def deleteMessage : Bytes := ['D'.toUInt8, 0, 1, 0, 0, 0, 0, 0, 0, 0, 0, 0, 0, 0, 0, 0, 0, 0, 7]

/-- An add that is too short stops the stream, and the next call delivers the delete behind it. -/
theorem delivered_after_stop :
    ¬ ItchFileConnector.feed.StaysStopped ItchFileConnector.messagesDecoded
      (.ofBytes (block ['A'.toUInt8] ++ block deleteMessage)) := by
  intro h
  have h' := (ItchFileConnector.staysStopped_iff (ByteWindow.ofBytes_ok _)).mp h
  rw [show (ItchFileConnector.ofBytes _).window.unread = _ from ByteWindow.ofBytes_unread _] at h'
  revert h'
  decide

end MarketEngine
