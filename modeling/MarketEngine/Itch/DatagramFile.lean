import MarketEngine.Itch.Framing
import MarketEngine.Kit.Frames

/-! # Datagrams in a file

A capture file holds each datagram behind a four-byte length. Of a file that is cut
the datagrams before the cut are read, and the MoldUDP64 connector delivers from
them what it would deliver of the whole, as far as they go.
-/

namespace MarketEngine

/-- `good` is what the stream says of itself: no read has gone past the end of the file. -/
structure LengthPrefixedDatagramFileSource where
  input : Bytes
  good : Bool := true
  failed : Bool := false
  deriving DecidableEq

/-- A datagram behind its length. -/
def prefixed (datagram : Bytes) : Bytes := BigEndian.bytes 4 datagram.length ++ datagram

theorem length_prefixed (datagram : Bytes) : (prefixed datagram).length = 4 + datagram.length := by
  simp [prefixed]

/-- A written length is read back, from the four bytes alone. -/
theorem readBe32_bytes {v : ℕ} (hv : v < 2 ^ 32) : (readBe32 (BigEndian.bytes 4 v)).toNat = v := by
  have h0 : byteAt (BigEndian.bytes 4 v) 0 = UInt8.ofNat (v / 256 / 256 / 256) := rfl
  have h1 : byteAt (BigEndian.bytes 4 v) 1 = UInt8.ofNat (v / 256 / 256) := rfl
  have h2 : byteAt (BigEndian.bytes 4 v) 2 = UInt8.ofNat (v / 256) := rfl
  have h3 : byteAt (BigEndian.bytes 4 v) 3 = UInt8.ofNat v := rfl
  rw [readBe32_toNat, h0, h1, h2, h3]
  simp only [UInt8.toNat_ofNat']
  omega

namespace LengthPrefixedDatagramFileSource

/-- A file that has been opened, or that cannot be. -/
def ofPath : Option Bytes → LengthPrefixedDatagramFileSource
  | some data => { input := data }
  | none => { input := [], good := false, failed := true }

/-- `input_.read`: the bytes asked for, or what is left of the file. -/
def read (s : LengthPrefixedDatagramFileSource) (n : ℕ) :
    Bytes × LengthPrefixedDatagramFileSource :=
  (s.input.take n,
    { s with input := s.input.drop n, good := s.good && decide (n ≤ s.input.length) })

def nextDatagram (s : LengthPrefixedDatagramFileSource) :
    Option Bytes × LengthPrefixedDatagramFileSource :=
  if s.failed || !s.good then (none, s)
  else
    let (header, s) := s.read 4
    if header.length = 0 then (none, s)
    else if header.length ≠ 4 then (none, { s with failed := true })
    else
      let length := (readBe32 header).toNat
      if 0 < length then
        let (buffer, s) := s.read length
        if buffer.length ≠ length then (none, { s with failed := true }) else (some buffer, s)
      else (some [], s)

variable {datagram tail : Bytes} {datagrams : List Bytes}

/-- A datagram that is there is read. -/
theorem nextDatagram_prefixed (h : datagram.length < 2 ^ 32) (rest : Bytes) :
    nextDatagram { input := prefixed datagram ++ rest } = (some datagram, { input := rest }) := by
  have hheader : (prefixed datagram ++ rest).take 4 = BigEndian.bytes 4 datagram.length := by
    simp [prefixed]
  have hrest : (prefixed datagram ++ rest).drop 4 = datagram ++ rest := by
    simp [prefixed]
  have hfits : 4 ≤ (prefixed datagram).length + rest.length := by
    rw [length_prefixed]
    omega
  simp only [nextDatagram, read, hheader, hrest, readBe32_bytes h]
  cases datagram <;> simp [hfits]

/-- Of a datagram that is not there in full nothing is read, and this is an error unless nothing
of it is there. -/
theorem nextDatagram_cut (h : datagram.length < 2 ^ 32) {k : ℕ}
    (hk : k < (prefixed datagram).length) :
    nextDatagram { input := (prefixed datagram).take k } =
      (none, { input := [], good := false, failed := decide (k ≠ 0) }) := by
  rw [length_prefixed] at hk
  rcases Nat.lt_or_ge k 4 with hlt | hge
  · have hlength : ((prefixed datagram).take k).length = k := by
      rw [List.length_take, length_prefixed]
      omega
    have htake : ((prefixed datagram).take k).take 4 = (prefixed datagram).take k :=
      List.take_of_length_le (by omega)
    have hdrop : ((prefixed datagram).take k).drop 4 = [] := List.drop_eq_nil_of_le (by omega)
    simp only [nextDatagram, read, htake, hdrop, hlength]
    by_cases hzero : k = 0
    · simp [hzero]
    · simp [hzero, show k ≠ 4 by omega, show ¬ 4 ≤ k by omega]
  · have hheader : ((prefixed datagram).take k).take 4 = BigEndian.bytes 4 datagram.length := by
      rw [List.take_take, Nat.min_eq_left hge]
      simp [prefixed]
    have hrest : ((prefixed datagram).take k).drop 4 = datagram.take (k - 4) := by
      simp [prefixed, List.drop_take]
    have hlength : ((prefixed datagram).take k).length = k := by
      rw [List.length_take, length_prefixed]
      omega
    have hpart : (datagram.take (k - 4)).length = k - 4 := by
      rw [List.length_take]
      omega
    have hbuffer : (datagram.take (k - 4)).take datagram.length = datagram.take (k - 4) :=
      List.take_of_length_le (by omega)
    have hgone : (datagram.take (k - 4)).drop datagram.length = [] :=
      List.drop_eq_nil_of_le (by omega)
    simp only [nextDatagram, read, hheader, hrest, hlength, hbuffer, hgone, hpart, readBe32_bytes h]
    simp [show 0 < datagram.length by omega, show k ≠ 0 by omega, hge,
      show k - 4 ≠ datagram.length by omega, show ¬ datagram.length ≤ k - 4 by omega]

theorem nextDatagram_stopped {s : LengthPrefixedDatagramFileSource}
    (h : s.failed = true ∨ s.good = false) : nextDatagram s = (none, s) := by
  rw [nextDatagram, if_pos]
  rcases h with h | h <;> simp [h]

theorem input_lt_of_some {s s' : LengthPrefixedDatagramFileSource}
    (h : nextDatagram s = (some datagram, s')) : s'.input.length < s.input.length := by
  unfold nextDatagram read at h
  dsimp only at h
  split_ifs at h
  all_goals cases h
  -- a datagram was read, so there was a header
  all_goals
    simp only [List.length_take, List.length_drop] at *
    omega

/-- A source as a feed of datagrams. -/
def feed : Feed LengthPrefixedDatagramFileSource Bytes where
  next := nextDatagram
  measure s := s.input.length
  decreases _ _ _ := input_lt_of_some

/-- What is left of a file behind its whole datagrams. -/
def Remainder (tail : Bytes) : Prop :=
  ∃ datagram k, datagram.length < 2 ^ 32 ∧ k < (prefixed datagram).length ∧
    tail = (prefixed datagram).take k

/-- The source when it has read a file to the end. -/
def ended (tail : Bytes) : LengthPrefixedDatagramFileSource where
  input := []
  good := false
  failed := decide (tail ≠ [])

theorem Remainder.nextDatagram (h : Remainder tail) :
    LengthPrefixedDatagramFileSource.nextDatagram { input := tail } = (none, ended tail) := by
  obtain ⟨datagram, k, hfits, hk, rfl⟩ := h
  rw [nextDatagram_cut hfits hk, ended]
  have hnil : (prefixed datagram).take k ≠ [] ↔ k ≠ 0 := by
    rw [ne_eq, List.take_eq_nil_iff, ← List.length_eq_zero_iff]
    omega
  simp only [hnil]

theorem after_ended (n : ℕ) : feed.after n (ended tail) = ended tail := by
  induction n with
  | zero => rfl
  | succ n ih =>
    rw [Feed.after]
    change feed.after n (nextDatagram (ended tail)).2 = _
    rwa [nextDatagram_stopped (.inr rfl)]

/-- The source after some calls: as many datagrams further, or at the end. -/
theorem after_calls (hfits : ∀ datagram ∈ datagrams, datagram.length < 2 ^ 32)
    (htail : Remainder tail) (n : ℕ) :
    feed.after n { input := datagrams.flatMap prefixed ++ tail } =
      if n ≤ datagrams.length then { input := (datagrams.drop n).flatMap prefixed ++ tail }
      else ended tail := by
  induction datagrams generalizing n with
  | nil =>
    cases n with
    | zero => rfl
    | succ n =>
      rw [Feed.after]
      change feed.after n (nextDatagram { input := tail }).2 = _
      rw [htail.nextDatagram, after_ended]
      rfl
  | cons datagram datagrams ih =>
    obtain ⟨hfirst, hrest⟩ := List.forall_mem_cons.mp hfits
    cases n with
    | zero => rfl
    | succ n =>
      rw [Feed.after, List.flatMap_cons, List.append_assoc]
      change feed.after n (nextDatagram _).2 = _
      rw [nextDatagram_prefixed hfirst, ih hrest]
      simp

/-- The answer of the source to any call. -/
theorem answer_calls (hfits : ∀ datagram ∈ datagrams, datagram.length < 2 ^ 32)
    (htail : Remainder tail) (n : ℕ) :
    feed.answer n { input := datagrams.flatMap prefixed ++ tail } = datagrams[n]? := by
  rw [Feed.answer, after_calls hfits htail]
  change (nextDatagram _).1 = _
  rcases Nat.lt_trichotomy n datagrams.length with hlt | rfl | hgt
  · rw [if_pos (Nat.le_of_lt hlt), List.drop_eq_getElem_cons hlt, List.flatMap_cons,
      List.append_assoc, nextDatagram_prefixed (hfits _ (List.getElem_mem hlt)),
      List.getElem?_eq_getElem hlt]
  · simp [htail.nextDatagram]
  · rw [if_neg (by omega), nextDatagram_stopped (.inr rfl),
      List.getElem?_eq_none (Nat.le_of_lt hgt)]

/-- A file that is cut holds the datagrams before the cut. -/
theorem take_datagrams (hfits : ∀ datagram ∈ datagrams, datagram.length < 2 ^ 32) {cut : ℕ}
    (hcut : cut ≤ (datagrams.flatMap prefixed).length) :
    ∃ tail, Remainder tail ∧ (tail = [] ↔ Frames.Boundary prefixed datagrams cut) ∧
      (datagrams.flatMap prefixed).take cut =
        (Frames.whole prefixed cut datagrams).flatMap prefixed ++ tail := by
  obtain ⟨tail, htake, hboundary, hpart⟩ :=
    Frames.take_flatMap (fun datagram _ => by rw [length_prefixed]; omega) hcut
  refine ⟨tail, ?_, hboundary, htake⟩
  by_cases htail : tail = []
  · exact ⟨[], 0, by simp, by decide, htail⟩
  · obtain ⟨datagram, hmem, k, hk, rfl⟩ := hpart htail
    exact ⟨datagram, k, hfits _ hmem, hk, rfl⟩

/-- Call by call, a capture file that is cut gives the datagrams before the cut, and then none.
It is found to be cut by the first call without a datagram, unless the cut is between two. -/
theorem cut_capture (hfits : ∀ datagram ∈ datagrams, datagram.length < 2 ^ 32) {cut : ℕ}
    (hcut : cut ≤ (datagrams.flatMap prefixed).length) (n : ℕ) :
    let file := ofPath (some ((datagrams.flatMap prefixed).take cut))
    let whole := Frames.whole prefixed cut datagrams
    feed.answer n file = whole[n]? ∧
      ((feed.after n file).failed = true ↔
        whole.length < n ∧ ¬ Frames.Boundary prefixed datagrams cut) := by
  intro file whole
  obtain ⟨tail, htail, hboundary, htake⟩ := take_datagrams hfits hcut
  have hfile : file = { input := whole.flatMap prefixed ++ tail } := by
    simp only [file, ofPath, htake, whole]
  have hwhole : ∀ datagram ∈ whole, datagram.length < 2 ^ 32 := fun datagram hmem =>
    hfits _ ((Frames.whole_prefix prefixed cut datagrams).subset hmem)
  rw [hfile, after_calls hwhole htail, ← hboundary]
  refine ⟨answer_calls hwhole htail n, ?_⟩
  split
  · simp only [Bool.false_eq_true, false_iff]
    omega
  · next hlt =>
    simp only [ended, decide_eq_true_eq]
    exact ⟨fun htail => ⟨Nat.lt_of_not_le hlt, htail⟩, fun h => h.2⟩

/-- The second of two datagrams is cut in its length. -/
theorem second_datagram_cut_off :
    let datagrams : List Bytes := [[1, 2], [3]]
    let file := ofPath (some ((datagrams.flatMap prefixed).take 8))
    feed.answer 1 file = (Frames.whole prefixed 8 datagrams)[1]? ∧
      ((feed.after 2 file).failed = true ↔ (Frames.whole prefixed 8 datagrams).length < 2 ∧
        ¬ Frames.Boundary prefixed datagrams 8) := by
  intro datagrams file
  have hfits : ∀ datagram ∈ datagrams, datagram.length < 2 ^ 32 := by decide
  exact ⟨(cut_capture hfits (by decide) 1).1, (cut_capture hfits (by decide) 2).2⟩

/-- What a connector that drains the source gets from it. -/
def captured (s : LengthPrefixedDatagramFileSource) : DatagramSource where
  rest := (feed.drain s).1
  failed := (feed.drain s).2.failed

/-- The source has yet to read these datagrams and the remainder. -/
def Unread (tail : Bytes) (datagrams : List Bytes) (s : LengthPrefixedDatagramFileSource) : Prop :=
  (∀ datagram ∈ datagrams, datagram.length < 2 ^ 32) ∧
    s = { input := datagrams.flatMap prefixed ++ tail }

theorem Unread.next_nil {s : LengthPrefixedDatagramFileSource} (h : Unread tail [] s)
    (htail : Remainder tail) : feed.next s = (none, ended tail) := by
  obtain ⟨-, rfl⟩ := h
  exact htail.nextDatagram

theorem Unread.next_cons {s : LengthPrefixedDatagramFileSource}
    (h : Unread tail (datagram :: datagrams) s) :
    (feed.next s).1 = some datagram ∧ Unread tail datagrams (feed.next s).2 := by
  obtain ⟨hfits, rfl⟩ := h
  obtain ⟨hfirst, hrest⟩ := List.forall_mem_cons.mp hfits
  have hnext := nextDatagram_prefixed hfirst (datagrams.flatMap prefixed ++ tail)
  rw [← List.append_assoc] at hnext
  exact ⟨congrArg Prod.fst hnext, hrest, congrArg Prod.snd hnext⟩

theorem captured_eq (hfits : ∀ datagram ∈ datagrams, datagram.length < 2 ^ 32)
    (htail : Remainder tail) :
    captured { input := datagrams.flatMap prefixed ++ tail } =
      ⟨datagrams, decide (tail ≠ [])⟩ := by
  have hfollows : feed.Follows fun script s =>
      (∃ datagrams, Unread tail datagrams s ∧ script = datagrams.map some) ∨
        s = ended tail ∧ script = [] := by
    rintro script s (⟨datagrams, h, rfl⟩ | ⟨rfl, rfl⟩)
    · cases datagrams with
      | nil =>
        rw [h.next_nil htail]
        exact ⟨rfl, .inr ⟨rfl, rfl⟩⟩
      | cons datagram datagrams =>
        obtain ⟨hanswer, hrest⟩ := h.next_cons
        exact ⟨hanswer, .inl ⟨datagrams, hrest, rfl⟩⟩
    · have hnext : feed.next (ended tail) = _ := nextDatagram_stopped (.inr rfl)
      exact ⟨congrArg Prod.fst hnext, .inr ⟨congrArg Prod.snd hnext, rfl⟩⟩
  have hdrain := (hfollows.drain (.inl ⟨datagrams, ⟨hfits, rfl⟩, rfl⟩)).1
  have hheard : Feed.heard (datagrams.map some) = datagrams := by
    clear hdrain hfits
    induction datagrams with
    | nil => rfl
    | cons datagram datagrams ih => exact congrArg (datagram :: ·) ih
  have hfailed := Feed.drain_invariant (f := feed)
    (I := fun s => ∃ datagrams, Unread tail datagrams s)
    (Q := fun s => s.failed = decide (tail ≠ [])) ?_ ?_ ⟨datagrams, hfits, rfl⟩
  · rw [captured, hdrain, hheard, hfailed]
  · rintro s datagram ⟨datagrams, h⟩ hsome
    cases datagrams with
    | nil =>
      rw [h.next_nil htail] at hsome
      cases hsome
    | cons datagram datagrams => exact ⟨datagrams, h.next_cons.2⟩
  · rintro s ⟨datagrams, h⟩ hnone
    cases datagrams with
    | nil => rw [h.next_nil htail, ended]
    | cons datagram datagrams =>
      rw [h.next_cons.1] at hnone
      cases hnone

theorem captured_take (hfits : ∀ datagram ∈ datagrams, datagram.length < 2 ^ 32) {cut : ℕ}
    (hcut : cut ≤ (datagrams.flatMap prefixed).length) :
    captured (ofPath (some ((datagrams.flatMap prefixed).take cut))) =
      ⟨Frames.whole prefixed cut datagrams, !decide (Frames.Boundary prefixed datagrams cut)⟩ := by
  obtain ⟨tail, htail, hboundary, htake⟩ := take_datagrams hfits hcut
  have hwhole : ∀ datagram ∈ Frames.whole prefixed cut datagrams, datagram.length < 2 ^ 32 :=
    fun datagram hmem => hfits _ ((Frames.whole_prefix prefixed cut datagrams).subset hmem)
  simp only [htake, ofPath, captured_eq hwhole htail, ← hboundary, ne_eq, decide_not]

end LengthPrefixedDatagramFileSource

/-! ## Sessions from a file -/

namespace Session

/-- All entries are those taken and then those of later datagrams, unless the session stops before
these. -/
def Continues (recover : UInt64 → Option Bytes) (fails : Bool) (later : List Received)
    (taken all : List Entry) : Prop :=
  (∃ cursor, all = taken ++ entries recover fails cursor later) ∨ all = taken ∧ ¬ Unbroken taken

variable {recover : UInt64 → Option Bytes} {fails : Bool} {later : List Received}
  {taken all : List Entry}

theorem Continues.prepend (h : Continues recover fails later taken all) (before : List Entry) :
    Continues recover fails later (before ++ taken) (before ++ all) := by
  rcases h with ⟨cursor, rfl⟩ | ⟨rfl, hbroken⟩
  · exact .inl ⟨cursor, (List.append_assoc ..).symm⟩
  · refine .inr ⟨rfl, fun hgoes => hbroken fun entry hmem => ?_⟩
    exact hgoes entry (List.mem_append_right _ hmem)

theorem entries_continue (recover : UInt64 → Option Bytes) (fails : Bool) (cursor : Option UInt64)
    (received later : List Received) :
    Continues recover fails later (entries recover false cursor received)
      (entries recover fails cursor (received ++ later)) := by
  induction received generalizing cursor with
  | nil => exact .inl ⟨cursor, rfl⟩
  | cons first received ih =>
    cases first with
    | short => exact (ih cursor).prepend [.broken]
    | endOfSession => exact (ih cursor).prepend [.ended]
    | heartbeat => exact ih cursor
    | data sequence payloads complete =>
      rw [List.cons_append, entries, entries]
      refine Continues.prepend ?_ _
      split_ifs with hseen htorn
      · exact ih _
      · exact (ih _).prepend [.broken]
      · cases complete with
        | true => exact (ih _).prepend _
        | false =>
          -- the packet ends within a message, and nothing is read behind it
          refine .inr ⟨rfl, fun hgoes => hgoes .broken ?_ rfl⟩
          exact List.mem_append_right _ (List.mem_singleton_self _)

/-- A failure of the source comes after everything else. -/
theorem entries_fails (recover : UInt64 → Option Bytes) (cursor : Option UInt64)
    (received : List Received) :
    entries recover true cursor received = entries recover false cursor received ++ [.broken] ∨
      entries recover true cursor received = entries recover false cursor received ∧
        ¬ Unbroken (entries recover false cursor received) := by
  rcases entries_continue recover true cursor received [] with ⟨next, h⟩ | h
  · rw [List.append_nil] at h
    exact .inl h
  · rw [List.append_nil] at h
    exact .inr h

end Session

/-- What comes after a stop is not heard of. -/
theorem untilStop_cut {taken : List Entry} (h : ¬ Unbroken taken) (later : List Entry) :
    untilStop (taken ++ later) = untilStop taken := by
  induction taken with
  | nil => exact absurd (fun _ hmem => nomatch hmem) h
  | cons entry taken ih =>
    rw [List.cons_append, untilStop, untilStop]
    split_ifs with hstop
    · rfl
    · rw [ih fun hgoes => h (List.forall_mem_cons.mpr ⟨hstop, hgoes⟩)]

namespace MoldUdp64Connector

open LengthPrefixedDatagramFileSource

variable {datagrams : List Bytes}

/-- A source that fails behind its datagrams only makes the connector fail. -/
theorem drain_fails (datagrams : List Bytes) (retransmit : Option RetransmitSource) :
    (feed.drain (ofSource ⟨datagrams, true⟩ retransmit)).1 =
        (feed.drain (ofSource ⟨datagrams, false⟩ retransmit)).1 ∧
      (feed.drain (ofSource ⟨datagrams, true⟩ retransmit)).2.report =
        { (feed.drain (ofSource ⟨datagrams, false⟩ retransmit)).2.report with failed := true } := by
  obtain ⟨htorn, htornReport⟩ := drain_eq (tells_ofSource ⟨datagrams, true⟩ retransmit)
  obtain ⟨hsound, hsoundReport⟩ := drain_eq (tells_ofSource ⟨datagrams, false⟩ retransmit)
  have hfails := Session.entries_fails (recoverFrom retransmit) none
    (datagrams.map Received.ofBytes)
  have hstart : (ofSource ⟨datagrams, true⟩ retransmit).report =
      (ofSource ⟨datagrams, false⟩ retransmit).report := rfl
  rw [htorn, htornReport, hsound, hsoundReport, hstart, session, session]
  dsimp only
  generalize Session.entries (recoverFrom retransmit) false none
    (datagrams.map Received.ofBytes) = entries at hfails
  generalize (ofSource ⟨datagrams, false⟩ retransmit).report = r
  by_cases hgoes : Unbroken entries
  · rcases hfails with h | ⟨-, hbroken⟩
    · rw [h, List.filterMap_append, hgoes.untilStop, untilStop_append hgoes, List.foldl_append]
      exact ⟨Feed.heard_append_none _, rfl⟩
    · exact absurd hgoes hbroken
  · have hreport := foldl_untilStop_failed r hgoes
    rcases hfails with h | ⟨h, -⟩
    · rw [h, List.filterMap_append, untilStop_cut hgoes, ← hreport]
      exact ⟨Feed.heard_append_none _, rfl⟩
    · rw [h, ← hreport]
      exact ⟨rfl, rfl⟩

/-- Later datagrams do not change what was delivered before them. -/
theorem drain_prefix (datagrams later : List Bytes) (retransmit : Option RetransmitSource) :
    (feed.drain (ofSource ⟨datagrams, false⟩ retransmit)).1 <+:
      (feed.drain (ofSource ⟨datagrams ++ later, false⟩ retransmit)).1 := by
  rw [(drain_eq (tells_ofSource ⟨datagrams, false⟩ retransmit)).1,
    (drain_eq (tells_ofSource ⟨datagrams ++ later, false⟩ retransmit)).1, session, session,
    List.map_append]
  rcases Session.entries_continue (recoverFrom retransmit) false none
    (datagrams.map Received.ofBytes) (later.map Received.ofBytes) with ⟨cursor, h⟩ | ⟨h, -⟩
  · rw [h, List.filterMap_append]
    exact Feed.heard_prefix _ _
  · simp [h]

theorem drain_torn (datagrams : List Bytes) (fails : Bool) (retransmit : Option RetransmitSource) :
    (feed.drain (ofSource ⟨datagrams, fails⟩ retransmit)).1 =
        (feed.drain (ofSource ⟨datagrams, false⟩ retransmit)).1 ∧
      (feed.drain (ofSource ⟨datagrams, fails⟩ retransmit)).2.report =
        { (feed.drain (ofSource ⟨datagrams, false⟩ retransmit)).2.report with
          failed := (feed.drain (ofSource ⟨datagrams, false⟩ retransmit)).2.report.failed ||
            fails } := by
  cases fails with
  | false =>
    rw [Bool.or_false]
    generalize (feed.drain (ofSource ⟨datagrams, false⟩ retransmit)).2.report = r
    cases r
    exact ⟨rfl, rfl⟩
  | true =>
    rw [Bool.or_true]
    exact drain_fails datagrams retransmit

/-- A session from a capture file that is cut is the session of the datagrams before the cut, and
the connector fails unless the cut is between two datagrams. -/
theorem cut_session (hfits : ∀ datagram ∈ datagrams, datagram.length < 2 ^ 32) {cut : ℕ}
    (hcut : cut ≤ (datagrams.flatMap prefixed).length) (retransmit : Option RetransmitSource) :
    let file := captured (ofPath (some ((datagrams.flatMap prefixed).take cut)))
    let whole : DatagramSource := ⟨Frames.whole prefixed cut datagrams, false⟩
    (feed.drain (ofSource file retransmit)).1 = (feed.drain (ofSource whole retransmit)).1 ∧
      (feed.drain (ofSource file retransmit)).1 <+:
        (feed.drain (ofSource ⟨datagrams, false⟩ retransmit)).1 ∧
      (feed.drain (ofSource file retransmit)).2.report =
        { (feed.drain (ofSource whole retransmit)).2.report with
          failed := (feed.drain (ofSource whole retransmit)).2.report.failed ||
            !decide (Frames.Boundary prefixed datagrams cut) } := by
  intro file whole
  obtain ⟨later, hlater⟩ := Frames.whole_prefix prefixed cut datagrams
  have hprefix := drain_prefix (Frames.whole prefixed cut datagrams) later retransmit
  rw [hlater] at hprefix
  have hfile : file = ⟨_, _⟩ := captured_take hfits hcut
  obtain ⟨hevents, hreport⟩ := drain_torn (Frames.whole prefixed cut datagrams)
    (!decide (Frames.Boundary prefixed datagrams cut)) retransmit
  rw [hfile, hevents, hreport]
  exact ⟨rfl, hprefix, rfl⟩

/-- The heartbeat behind a packet is cut. -/
theorem heartbeat_cut_off :
    let datagrams := [deleteDatagram.encode, (Datagram.heartbeat (deletePacket 1).session 2).encode]
    let file := captured (ofPath (some ((datagrams.flatMap prefixed).take 50)))
    let whole : DatagramSource := ⟨Frames.whole prefixed 50 datagrams, false⟩
    (feed.drain (ofSource file none)).1 = (feed.drain (ofSource whole none)).1 ∧
      (feed.drain (ofSource file none)).1 <+: (feed.drain (ofSource ⟨datagrams, false⟩ none)).1 ∧
      (feed.drain (ofSource file none)).2.report =
        { (feed.drain (ofSource whole none)).2.report with
          failed := (feed.drain (ofSource whole none)).2.report.failed ||
            !decide (Frames.Boundary prefixed datagrams 50) } :=
  cut_session (by decide) (by decide) none

end MoldUdp64Connector

end MarketEngine
