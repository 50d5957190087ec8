import Mathlib.Order.Bounds.Defs
import MarketEngine.Itch.ItchFileConnector

/-! # A BinaryFILE that is cut short

A whole file is delivered frame by frame. Of a file that is cut at some byte the
frames before the cut are delivered, and the cut is noticed unless it falls
between two frames.
-/

namespace MarketEngine

open ByteWindow

/-- The event of a message that is for the book. -/
def bookEvent? (message : Bytes) : Option MarketDataEvent :=
  match decodeMessage message with
  | .event event => some event
  | _ => none

def bookEvents (messages : List Bytes) : List MarketDataEvent := messages.filterMap bookEvent?

/-- Events with the numbers behind `n`. -/
def numberedFrom (n : ℕ) (events : List MarketDataEvent) : List MarketDataEvent :=
  events.mapIdx fun i event => { event with sequence := UInt64.ofNat (n + i + 1) }

/-- A frame ends at this byte of the file, or none has begun. -/
def IsBoundary (messages : List Bytes) (cut : ℕ) : Prop :=
  ∃ k ≤ messages.length, cut = ((messages.take k).flatMap block).length

instance (messages : List Bytes) (cut : ℕ) : Decidable (IsBoundary messages cut) :=
  inferInstanceAs (Decidable (∃ k ≤ messages.length, cut = _))

/-- The frames that lie before the cut as a whole. -/
def wholeBefore : ℕ → List Bytes → List Bytes
  | _, [] => []
  | cut, message :: messages =>
    if (block message).length ≤ cut then
      message :: wholeBefore (cut - (block message).length) messages
    else []

/-! ## Whole files -/

theorem numberedFrom_cons (n : ℕ) (event : MarketDataEvent) (events : List MarketDataEvent) :
    numberedFrom n (event :: events) =
      { event with sequence := UInt64.ofNat (n + 1) } :: numberedFrom (n + 1) events := by
  rw [numberedFrom, List.mapIdx_cons, numberedFrom]
  simp only [Nat.add_zero, Nat.add_right_comm n 1, Nat.add_assoc]

namespace ItchFileConnector

variable {messages : List Bytes} {file : ItchFileConnector} {data : Bytes}

/-- Frames are counted in bytes, and those for the book in events. -/
theorem script_numbered (h : ∀ message ∈ messages, decodeMessage message ≠ .malformed)
    (state : ItchFileState) {n : ℕ} (hsequence : state.sequence = UInt64.ofNat n) (flag : Bool) :
    Feed.heard (handler.script state messages) = numberedFrom n (bookEvents messages) ∧
      (handler.final state messages flag).messagesDecoded =
        state.messagesDecoded + (bookEvents messages).length ∧
      (handler.final state messages flag).bytesConsumed =
        state.bytesConsumed + (messages.flatMap block).length ∧
      (handler.final state messages flag).failed = (state.failed || flag) := by
  induction messages generalizing state n with
  | nil => cases flag <;> simp [FrameHandler.script, FrameHandler.final, Feed.heard, bookEvents,
      numberedFrom, handler]
  | cons message messages ih =>
    have hfirst := h message (List.mem_cons_self ..)
    have ih := ih fun m hm => h m (List.mem_cons_of_mem _ hm)
    have hlength : ((message :: messages).flatMap block).length =
        2 + message.length + (messages.flatMap block).length := by
      rw [List.flatMap_cons, List.length_append, length_block]
    rw [FrameHandler.script, FrameHandler.final, hlength, bookEvents, List.filterMap_cons,
      bookEvent?]
    dsimp only [handler]
    cases hdecode : decodeMessage message with
    | malformed => exact absurd hdecode hfirst
    | skipped =>
      obtain ⟨hevents, hcount, hbytes, hfailed⟩ := ih
        { state with bytesConsumed := state.bytesConsumed + (2 + message.length) } hsequence
      exact ⟨hevents, hcount, hbytes.trans (Nat.add_assoc _ _ _), hfailed⟩
    | event event =>
      have hnext : state.sequence + 1 = UInt64.ofNat (n + 1) := by
        rw [hsequence, UInt64.ofNat_add]
        rfl
      obtain ⟨hevents, hcount, hbytes, hfailed⟩ := ih
        { state with
          sequence := state.sequence + 1
          messagesDecoded := state.messagesDecoded + 1
          bytesConsumed := state.bytesConsumed + (2 + message.length) } hnext
      refine ⟨?_, ?_, hbytes.trans (Nat.add_assoc _ _ _), hfailed⟩
      · rw [numberedFrom_cons, ← hnext]
        exact congrArg (_ :: ·) hevents
      · exact hcount.trans (by rw [List.length_cons, bookEvents]; dsimp only; omega)

/-- What draining a file delivers, by its frames. -/
theorem drain_frames (hfile : file.Opened {} data)
    (h : ∀ message ∈ frames data, decodeMessage message ≠ .malformed) :
    (feed.drain file).1 = numberedFrom 0 (bookEvents (frames data)) ∧
      (feed.drain file).2.messagesDecoded = (bookEvents (frames data)).length ∧
      (feed.drain file).2.bytesConsumed = ((frames data).flatMap block).length ∧
      (feed.drain file).2.failed = broken data := by
  obtain ⟨hok, hunread, hstate⟩ := hfile.unread
  obtain ⟨hevents, hfinal⟩ := handler.drain_eq hok
  obtain ⟨hnumbered, hcount, hbytes, hfailed⟩ :=
    script_numbered h {} (n := 0) rfl (broken data)
  rw [FrameHandler.answers, hunread, hstate] at hevents
  rw [FrameHandler.finally_, hunread, hstate] at hfinal
  refine ⟨hevents.trans hnumbered, ?_, ?_, ?_⟩
  · exact (congrArg ItchFileState.messagesDecoded hfinal).trans (hcount.trans (Nat.zero_add _))
  · exact (congrArg ItchFileState.bytesConsumed hfinal).trans (hbytes.trans (Nat.zero_add _))
  · exact (congrArg ItchFileState.failed hfinal).trans hfailed

end ItchFileConnector

/-! ## Cuts -/

variable {messages : List Bytes} {message : Bytes} {cut : ℕ}

theorem isBoundary_cons : IsBoundary (message :: messages) cut ↔
    cut = 0 ∨ ((block message).length ≤ cut ∧
      IsBoundary messages (cut - (block message).length)) := by
  constructor
  · rintro ⟨k, hk, rfl⟩
    cases k with
    | zero => exact .inl rfl
    | succ k =>
      rw [List.take_succ_cons, List.flatMap_cons, List.length_append]
      exact .inr ⟨Nat.le_add_right _ _, k, Nat.le_of_succ_le_succ hk, Nat.add_sub_cancel_left ..⟩
  · rintro (rfl | ⟨hle, k, hk, hcut⟩)
    · exact ⟨0, Nat.zero_le _, rfl⟩
    · refine ⟨k + 1, Nat.succ_le_succ hk, ?_⟩
      rw [List.take_succ_cons, List.flatMap_cons, List.length_append, ← hcut]
      omega

theorem wholeBefore_subset (cut : ℕ) (messages : List Bytes) :
    ∀ m ∈ wholeBefore cut messages, m ∈ messages := by
  induction messages generalizing cut with
  | nil => exact fun m hm => hm
  | cons message messages ih =>
    intro m hm
    rw [wholeBefore] at hm
    split_ifs at hm with hle
    · rcases List.mem_cons.mp hm with rfl | hm
      · exact List.mem_cons_self ..
      · exact List.mem_cons_of_mem _ (ih _ m hm)
    · exact absurd hm List.not_mem_nil

/-- A frame without its end is no frame. -/
theorem cutFrame_take (hlt : message.length < 2 ^ 16) (hcut : cut < (block message).length)
    (rest : Bytes) : (cutFrame ((block message ++ rest).take cut)).1 = .error (cut ≠ 0) := by
  have hlength : ((block message ++ rest).take cut).length = cut := by
    rw [List.length_take, List.length_append]
    omega
  have hnil : ((block message ++ rest).take cut ≠ []) = (cut ≠ 0) := by
    rw [← List.length_pos_iff, hlength, Nat.pos_iff_ne_zero]
  unfold cutFrame
  dsimp only
  by_cases hshort : cut < 2
  · rw [if_pos (by omega)]
    simp only [hnil]
  · have hprefix : readBe16 ((block message ++ rest).take cut) =
        readBe16 (block message ++ rest) := by
      rw [← readBe16_append (by omega) ((block message ++ rest).drop cut), List.take_append_drop]
    rw [length_block] at hcut
    rw [if_neg (by omega), hprefix, readBe16_block hlt, if_pos (.inr (by omega))]
    simp only [show cut ≠ 0 by omega, ne_eq, not_false_eq_true, decide_true]

/-- The frames of a file that is cut, and whether the cut is noticed. -/
theorem frames_take (h : ∀ message ∈ messages, 1 ≤ message.length ∧ message.length < 2 ^ 16)
    (hcut : cut ≤ (messages.flatMap block).length) :
    frames ((messages.flatMap block).take cut) = wholeBefore cut messages ∧
      (broken ((messages.flatMap block).take cut) = true ↔ ¬ IsBoundary messages cut) := by
  induction messages generalizing cut with
  | nil =>
    obtain rfl : cut = 0 := Nat.le_zero.mp hcut
    exact ⟨rfl, iff_of_false (by decide) (not_not.mpr ⟨0, Nat.le_refl _, rfl⟩)⟩
  | cons message messages ih =>
    obtain ⟨hpos, hlt⟩ := h message (List.mem_cons_self ..)
    rw [List.flatMap_cons] at hcut ⊢
    rw [wholeBefore, isBoundary_cons]
    by_cases hle : (block message).length ≤ cut
    · have htake : (block message ++ messages.flatMap block).take cut =
          block message ++ (messages.flatMap block).take (cut - (block message).length) := by
        rw [List.take_append, List.take_of_length_le hle]
      have hcutRest : cut - (block message).length ≤ (messages.flatMap block).length := by
        rw [List.length_append] at hcut
        omega
      obtain ⟨hframes, hbroken⟩ := ih (fun m hm => h m (List.mem_cons_of_mem _ hm)) hcutRest
      obtain ⟨hfirst, hrest⟩ := frames_of_ok (cutFrame_block hpos hlt
        ((messages.flatMap block).take (cut - (block message).length)))
      have hzero : cut ≠ 0 := by
        rw [length_block] at hle
        omega
      rw [htake, hfirst, hrest, hframes, hbroken, if_pos hle]
      exact ⟨rfl, by simp [hzero, hle]⟩
    · have hcutFrame := cutFrame_take hlt (Nat.not_le.mp hle) (messages.flatMap block)
      obtain ⟨hframes, hbroken⟩ := frames_of_error (Prod.ext hcutFrame rfl)
      rw [hframes, hbroken, if_neg hle]
      exact ⟨rfl, by simp [hle]⟩

/-- The frames before the cut reach to the last boundary before it. -/
theorem wholeBefore_isGreatest (cut : ℕ) (messages : List Bytes) :
    IsGreatest {b | IsBoundary messages b ∧ b ≤ cut}
      ((wholeBefore cut messages).flatMap block).length := by
  induction messages generalizing cut with
  | nil =>
    refine ⟨⟨⟨0, Nat.le_refl _, rfl⟩, Nat.zero_le _⟩, ?_⟩
    rintro b ⟨⟨k, -, rfl⟩, -⟩
    simp
  | cons message messages ih =>
    rw [wholeBefore]
    by_cases hle : (block message).length ≤ cut
    · obtain ⟨⟨hboundary, hcut⟩, hgreatest⟩ := ih (cut - (block message).length)
      rw [if_pos hle, List.flatMap_cons, List.length_append]
      refine ⟨⟨isBoundary_cons.mpr (.inr ⟨Nat.le_add_right _ _, ?_⟩), by omega⟩, ?_⟩
      · rwa [Nat.add_sub_cancel_left]
      · rintro b ⟨hb, hbcut⟩
        rcases isBoundary_cons.mp hb with rfl | ⟨hbegun, hb⟩
        · exact Nat.zero_le _
        · have := hgreatest ⟨hb, Nat.sub_le_sub_right hbcut _⟩
          omega
    · rw [if_neg hle]
      refine ⟨⟨⟨0, Nat.zero_le _, rfl⟩, Nat.zero_le _⟩, ?_⟩
      rintro b ⟨hb, hbcut⟩
      rcases isBoundary_cons.mp hb with rfl | ⟨hbegun, -⟩
      · exact Nat.le_refl _
      · exact absurd (Nat.le_trans hbegun hbcut) hle

/-- A cut loses the tail only, and is noticed unless it is between two frames. -/
theorem truncation_detected (messages : List Bytes)
    (hlength : ∀ message ∈ messages, 1 ≤ message.length ∧ message.length ≤ 65535)
    (hdecode : ∀ message ∈ messages, decodeMessage message ≠ .malformed) {cut : ℕ}
    (hcut : cut ≤ (messages.flatMap block).length) {file : ItchFileConnector}
    (hfile : file.Opened {} ((messages.flatMap block).take cut)) :
    let fileEnd := ItchFileConnector.feed.drain file
    fileEnd.1 = numberedFrom 0 (bookEvents (wholeBefore cut messages)) ∧
      (fileEnd.2.failed = true ↔ ¬ IsBoundary messages cut) ∧
      IsGreatest {b | IsBoundary messages b ∧ b ≤ cut} fileEnd.2.bytesConsumed := by
  obtain ⟨hframes, hbroken⟩ := frames_take
    (fun message hm => ⟨(hlength message hm).1, by have := (hlength message hm).2; omega⟩) hcut
  have hwhole : ∀ message ∈ frames ((messages.flatMap block).take cut),
      decodeMessage message ≠ .malformed := by
    rw [hframes]
    exact fun message hm => hdecode message (wholeBefore_subset cut messages message hm)
  obtain ⟨hevents, -, hbytes, hfailed⟩ := ItchFileConnector.drain_frames hfile hwhole
  rw [hframes] at hevents hbytes
  rw [← hfailed] at hbroken
  refine ⟨hevents, hbroken, ?_⟩
  have hgreatest := wholeBefore_isGreatest cut messages
  rwa [← hbytes] at hgreatest

/-- An order delete of order 0. -/
def cancelMessage : Bytes := 'D'.toUInt8 :: List.replicate 18 0

/-- The cut falls into the length of the second frame. -/
theorem second_cancel_cut_off : (ItchFileConnector.feed.drain
    (.ofBytes (([cancelMessage, cancelMessage].flatMap block).take 22))).2.failed = true :=
  (truncation_detected [cancelMessage, cancelMessage] (by decide) (by decide) (by decide)
    (.inl rfl)).2.1.mpr (by decide)

end MarketEngine
