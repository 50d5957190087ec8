import MarketEngine.Itch.ItchFileConnector
import MarketEngine.Itch.SoupBinTcpConnector

/-! # Reading from a file

Whatever the sizes of the reads, a connector on a file answers every call as the
connector that holds the whole file does.
-/

namespace MarketEngine

namespace FrameHandler

variable {σ : Type*} (h : FrameHandler σ)

/-- The sizes of the reads do not matter to any number of calls. -/
theorem stream_alike (state : σ) (data : Bytes) (chopping : Chopping) (n : ℕ) :
    Alike (h.feed.after n ⟨.ofStream ⟨data, chopping⟩, state⟩)
      (h.feed.after n ⟨.ofBytes data, state⟩) := by
  induction n with
  | zero =>
    exact ⟨ByteWindow.ofStream_ok _, ByteWindow.ofBytes_ok _,
      (ByteWindow.ofBytes_unread data).symm, rfl⟩
  | succ n ih =>
    rw [Feed.after_succ, Feed.after_succ]
    exact ih.next.2

/-- The answers and the counters after any number of calls. -/
theorem stream_same (state : σ) (data : Bytes) (chopping : Chopping) (n : ℕ) :
    h.feed.answer n ⟨.ofStream ⟨data, chopping⟩, state⟩ = h.feed.answer n ⟨.ofBytes data, state⟩ ∧
      (h.feed.after n ⟨.ofStream ⟨data, chopping⟩, state⟩).state =
        (h.feed.after n ⟨.ofBytes data, state⟩).state := by
  have halike := h.stream_alike state data chopping n
  exact ⟨halike.next.1, halike.state⟩

end FrameHandler

/-- Both connectors on a file, against the same bytes held whole. -/
theorem streaming_eq_in_memory (data : Bytes) (chopping : Chopping) (n : ℕ) :
    (let file := ItchFileConnector.ofStream ⟨data, chopping⟩
     let memory := ItchFileConnector.ofBytes data
     ItchFileConnector.feed.answer n file = ItchFileConnector.feed.answer n memory ∧
     (ItchFileConnector.feed.after n file).failed = (ItchFileConnector.feed.after n memory).failed ∧
     (ItchFileConnector.feed.after n file).messagesDecoded =
       (ItchFileConnector.feed.after n memory).messagesDecoded ∧
     (ItchFileConnector.feed.after n file).bytesConsumed =
       (ItchFileConnector.feed.after n memory).bytesConsumed) ∧
    (let file := SoupBinTcpConnector.ofStream ⟨data, chopping⟩
     let memory := SoupBinTcpConnector.ofBytes data
     SoupBinTcpConnector.feed.answer n file = SoupBinTcpConnector.feed.answer n memory ∧
     (SoupBinTcpConnector.feed.after n file).failed =
       (SoupBinTcpConnector.feed.after n memory).failed ∧
     (SoupBinTcpConnector.feed.after n file).messagesDecoded =
       (SoupBinTcpConnector.feed.after n memory).messagesDecoded ∧
     (SoupBinTcpConnector.feed.after n file).endOfSession =
       (SoupBinTcpConnector.feed.after n memory).endOfSession) := by
  constructor
  · obtain ⟨hanswer, hstate⟩ := ItchFileConnector.handler.stream_same {} data chopping n
    exact ⟨hanswer, congrArg ItchFileState.failed hstate,
      congrArg ItchFileState.messagesDecoded hstate, congrArg ItchFileState.bytesConsumed hstate⟩
  · obtain ⟨hanswer, hstate⟩ := SoupBinTcpConnector.handler.stream_same {} data chopping n
    exact ⟨hanswer, congrArg SoupBinTcpState.failed hstate,
      congrArg SoupBinTcpState.messagesDecoded hstate,
      congrArg SoupBinTcpState.endOfSession hstate⟩

end MarketEngine
