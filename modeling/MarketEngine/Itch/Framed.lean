import MarketEngine.Itch.ByteWindow
import MarketEngine.Kit.Feed

/-! # Connectors of framed byte streams

The BinaryFILE and SoupBinTCP connectors run the same loop and differ in what
they make of a frame. What they deliver depends on the bytes of the stream
only, not on the window they are read through.
-/

namespace MarketEngine

/-- What a connector makes of a frame: its counters, and what `next` returns unless the loop goes
on; and its counters when there is no frame where one should be. -/
structure FrameHandler (σ : Type*) where
  onFrame : σ → Bytes → σ × Option (Option MarketDataEvent)
  onBreak : σ → σ

structure Framed (σ : Type*) where
  window : ByteWindow
  state : σ

/-- A connector on some bytes, held whole or read from a file. -/
def Framed.Opened {σ : Type*} (s : Framed σ) (state : σ) (data : Bytes) : Prop :=
  s = ⟨.ofBytes data, state⟩ ∨ ∃ chopping, s = ⟨.ofStream ⟨data, chopping⟩, state⟩

theorem Framed.Opened.unread {σ : Type*} {s : Framed σ} {state : σ} {data : Bytes}
    (h : s.Opened state data) : s.window.Ok ∧ s.window.unread = data ∧ s.state = state := by
  rcases h with rfl | ⟨chopping, rfl⟩
  · exact ⟨ByteWindow.ofBytes_ok data, ByteWindow.ofBytes_unread data, rfl⟩
  · exact ⟨ByteWindow.ofStream_ok _, rfl, rfl⟩

namespace FrameHandler

variable {σ : Type*} (h : FrameHandler σ)

/-- One pass of the loop in `next`. -/
def pass (s : Framed σ) : Framed σ ⊕ (Option MarketDataEvent × Framed σ) :=
  match s.window.nextFrame with
  | (.error broken, window) => .inr (none, ⟨window, if broken then h.onBreak s.state else s.state⟩)
  | (.ok frame, window) =>
    match h.onFrame s.state frame with
    | (state, none) => .inl ⟨window, state⟩
    | (state, some answer) => .inr (answer, ⟨window, state⟩)

theorem pass_error {s : Framed σ} {broken : Bool} (hframe : s.window.nextFrame.1 = .error broken) :
    h.pass s =
      .inr (none, ⟨s.window.nextFrame.2, if broken then h.onBreak s.state else s.state⟩) := by
  rw [pass]
  split
  · next b _ hnext =>
    rw [hnext] at hframe ⊢
    cases hframe
    rfl
  · next hnext =>
    rw [hnext] at hframe
    cases hframe

theorem pass_ok {s : Framed σ} {frame : Bytes} (hframe : s.window.nextFrame.1 = .ok frame) :
    h.pass s =
      match h.onFrame s.state frame with
      | (state, none) => .inl ⟨s.window.nextFrame.2, state⟩
      | (state, some answer) => .inr (answer, ⟨s.window.nextFrame.2, state⟩) := by
  rw [pass]
  split
  · next hnext =>
    rw [hnext] at hframe
    cases hframe
  · next hnext =>
    rw [hnext] at hframe ⊢
    cases hframe
    rfl

/-- A pass that goes on, or that returns an event, has taken a frame. -/
theorem pass_lt {s : Framed σ} :
    match h.pass s with
    | .inl s' => s'.window.unread.length < s.window.unread.length
    | .inr (none, _) => True
    | .inr (some _, s') => s'.window.unread.length < s.window.unread.length := by
  cases hframe : s.window.nextFrame.1 with
  | error broken =>
    rw [h.pass_error hframe]
    trivial
  | ok frame =>
    have hlt := ByteWindow.unread_lt_of_nextFrame hframe
    rw [h.pass_ok hframe]
    rcases h.onFrame s.state frame with ⟨state, _ | _ | event⟩
    · exact hlt
    · trivial
    · exact hlt

def nextLoop : Loop (Framed σ) (Option MarketDataEvent × Framed σ) where
  body := h.pass
  measure s := s.window.unread.length
  decreases s s' hpass := by
    have := h.pass_lt (s := s)
    rw [hpass] at this
    exact this

def next (s : Framed σ) : Option MarketDataEvent × Framed σ := h.nextLoop.run s

theorem next_lt {s : Framed σ} (hsome : (h.next s).1.isSome = true) :
    (h.next s).2.window.unread.length < s.window.unread.length := by
  revert hsome
  refine h.nextLoop.run_invariant (I := fun t => t.window.unread.length ≤ s.window.unread.length)
    (Q := fun r => r.1.isSome = true → r.2.window.unread.length < s.window.unread.length)
    ?_ ?_ (Nat.le_refl _)
  · intro t t' hle hpass
    have hlt := h.pass_lt (s := t)
    rw [show h.pass t = .inl t' from hpass] at hlt
    dsimp only at hlt
    omega
  · rintro t ⟨_ | event, t'⟩ hle hpass
    · exact fun hsome => nomatch hsome
    · have hlt := h.pass_lt (s := t)
      rw [show h.pass t = .inr (some event, t') from hpass] at hlt
      exact fun _ => Nat.lt_of_lt_of_le hlt hle

/-- The connector as a feed of events. -/
def feed : Feed (Framed σ) MarketDataEvent where
  next := h.next
  measure s := s.window.unread.length
  decreases s event s' hnext := by
    have hlt := h.next_lt (s := s)
    rw [hnext] at hlt
    exact hlt rfl

end FrameHandler

/-! ## The frames of a string of bytes -/

namespace ByteWindow

/-- At most `n` frames off the front, and whether the end of them is a failure. -/
def cutFrames : ℕ → Bytes → List Bytes × Bool
  | 0, _ => ([], false)
  | n + 1, u =>
    match cutFrame u with
    | (.error broken, _) => ([], broken)
    | (.ok frame, rest) => (frame :: (cutFrames n rest).1, (cutFrames n rest).2)

/-- The whole frames, up to where the framing ends or breaks. -/
def frames (u : Bytes) : List Bytes := (cutFrames (u.length + 1) u).1

/-- The framing breaks before the end. -/
def broken (u : Bytes) : Bool := (cutFrames (u.length + 1) u).2

theorem cutFrame_lt {u rest frame : Bytes} (h : cutFrame u = (.ok frame, rest)) :
    rest.length < u.length := by
  unfold cutFrame at h
  dsimp only at h
  split_ifs at h <;> cases h
  rw [List.length_drop]
  omega

theorem cutFrame_error {u rest : Bytes} {flag : Bool} (h : cutFrame u = (.error flag, rest)) :
    rest = u := by
  unfold cutFrame at h
  dsimp only at h
  split_ifs at h <;> cases h <;> rfl

theorem cutFrames_eq {n : ℕ} {u : Bytes} (hn : u.length < n) :
    cutFrames n u = (frames u, broken u) := by
  show _ = cutFrames (u.length + 1) u
  generalize hm : u.length + 1 = m
  replace hm : u.length < m := by omega
  induction n generalizing u m with
  | zero => exact absurd hn (Nat.not_lt_zero _)
  | succ n ih =>
    cases m with
    | zero => exact absurd hm (Nat.not_lt_zero _)
    | succ m =>
      unfold cutFrames
      split
      · rfl
      · next frame rest hcut =>
        have hlt := cutFrame_lt hcut
        rw [ih (by omega) m (by omega)]

theorem frames_of_error {u rest : Bytes} {flag : Bool} (h : cutFrame u = (.error flag, rest)) :
    frames u = [] ∧ broken u = flag := by
  unfold frames broken cutFrames
  rw [h]
  exact ⟨rfl, rfl⟩

theorem frames_of_ok {u rest frame : Bytes} (h : cutFrame u = (.ok frame, rest)) :
    frames u = frame :: frames rest ∧ broken u = broken rest := by
  have hrest := cutFrames_eq (cutFrame_lt h)
  rw [frames, broken, cutFrames, h]
  dsimp only
  rw [hrest]
  exact ⟨rfl, rfl⟩

/-- A framed message is cut off whole. -/
theorem cutFrame_block {message : Bytes} (hpos : 0 < message.length) (hlt : message.length < 2 ^ 16)
    (rest : Bytes) : cutFrame (block message ++ rest) = (.ok message, rest) := by
  have hlength : (block message ++ rest).length = 2 + message.length + rest.length := by
    rw [List.length_append, length_block]
  have hdrop : (block message ++ rest).drop (2 + message.length) = rest :=
    List.drop_left' (length_block message)
  have hmessage : ((block message ++ rest).drop 2).take message.length = message := by
    rw [block, List.append_assoc, List.drop_left' (BigEndian.length_bytes _ _), List.take_left]
  unfold cutFrame
  dsimp only
  rw [if_neg (by omega), readBe16_block hlt, if_neg (by omega), hmessage, hdrop]

/-- Framed messages are read back. -/
theorem frames_flatMap {messages : List Bytes}
    (h : ∀ message ∈ messages, 0 < message.length ∧ message.length < 2 ^ 16) :
    frames (messages.flatMap block) = messages ∧ broken (messages.flatMap block) = false := by
  induction messages with
  | nil => exact ⟨rfl, rfl⟩
  | cons message messages ih =>
    obtain ⟨hpos, hlt⟩ := h message (List.mem_cons_self ..)
    obtain ⟨hframes, hbroken⟩ := ih fun m hm => h m (List.mem_cons_of_mem _ hm)
    have hcut := frames_of_ok (cutFrame_block hpos hlt (messages.flatMap block))
    rw [List.flatMap_cons, hcut.1, hcut.2, hframes, hbroken]
    exact ⟨rfl, rfl⟩

end ByteWindow

namespace FrameHandler

open ByteWindow

variable {σ : Type*} {h : FrameHandler σ}

/-- The answers a handler gives for a list of frames. -/
def script (h : FrameHandler σ) (state : σ) : List Bytes → List (Option MarketDataEvent)
  | [] => []
  | frame :: frames =>
    match h.onFrame state frame with
    | (state, none) => script h state frames
    | (state, some answer) => answer :: script h state frames

/-- The counters when the first answer without an event is given. -/
def final (h : FrameHandler σ) (state : σ) : List Bytes → Bool → σ
  | [], broken => if broken then h.onBreak state else state
  | frame :: frames, broken =>
    match h.onFrame state frame with
    | (state, none) => final h state frames broken
    | (state, some none) => state
    | (state, some (some _)) => final h state frames broken

variable {s s' : Framed σ}

/-- The answers still to come. -/
def answers (h : FrameHandler σ) (s : Framed σ) : List (Option MarketDataEvent) :=
  h.script s.state (frames s.window.unread)

/-- The counters once the first answer without an event is given. -/
def finally_ (h : FrameHandler σ) (s : Framed σ) : σ :=
  h.final s.state (frames s.window.unread) (broken s.window.unread)

/-- A pass finds no frame, or takes one and goes on, or takes one and returns. -/
inductive PassCase (h : FrameHandler σ) (s : Framed σ) : Prop
  | ends (window : ByteWindow) (flag : Bool) (hok : window.Ok)
      (hcut : cutFrame s.window.unread = (.error flag, window.unread))
      (hpass : h.pass s = .inr (none, ⟨window, if flag then h.onBreak s.state else s.state⟩))
  | goes (window : ByteWindow) (frame : Bytes) (state : σ) (hok : window.Ok)
      (hcut : cutFrame s.window.unread = (.ok frame, window.unread))
      (hframe : h.onFrame s.state frame = (state, none)) (hpass : h.pass s = .inl ⟨window, state⟩)
  | returns (window : ByteWindow) (frame : Bytes) (state : σ) (answer : Option MarketDataEvent)
      (hok : window.Ok) (hcut : cutFrame s.window.unread = (.ok frame, window.unread))
      (hframe : h.onFrame s.state frame = (state, some answer))
      (hpass : h.pass s = .inr (answer, ⟨window, state⟩))

theorem pass_cases (h : FrameHandler σ) (hs : s.window.Ok) : h.PassCase s := by
  obtain ⟨hok, hcut, hunread⟩ := hs.nextFrame
  cases hframe : s.window.nextFrame.1 with
  | error flag =>
    refine .ends _ flag hok ?_ (h.pass_error hframe)
    rw [hunread, ← hframe, hcut]
  | ok frame =>
    have hpass := h.pass_ok hframe
    have hcut : cutFrame s.window.unread = (.ok frame, s.window.nextFrame.2.unread) := by
      rw [hunread, ← hframe, hcut]
    rcases hon : h.onFrame s.state frame with ⟨state, _ | answer⟩
    · rw [hon] at hpass
      exact .goes _ frame state hok hcut hon hpass
    · rw [hon] at hpass
      exact .returns _ frame state answer hok hcut hon hpass

/-- A connector that is to give these answers. -/
def Tells (h : FrameHandler σ) (answers : List (Option MarketDataEvent)) (s : Framed σ) : Prop :=
  s.window.Ok ∧ answers = h.answers s

theorem answers_of_error {window : ByteWindow} {flag : Bool} (state : σ)
    (hcut : cutFrame s.window.unread = (.error flag, window.unread)) :
    h.answers s = [] ∧ h.answers ⟨window, state⟩ = [] := by
  have hsame := cutFrame_error hcut
  unfold answers
  rw [hsame, (frames_of_error hcut).1]
  exact ⟨rfl, rfl⟩

/-- The calls of `next` are answered frame by frame. -/
theorem feed_follows (h : FrameHandler σ) : h.feed.Follows h.Tells := by
  refine Feed.follows_of_loop (l := h.nextLoop) (fun _ => rfl) ?_ ?_
  · rintro _ s s' ⟨hs, rfl⟩ hbody
    cases h.pass_cases hs with
    | ends window flag hok hcut hpass => cases hpass.symm.trans hbody
    | goes window frame state hok hcut hframe hpass =>
      cases hpass.symm.trans hbody
      refine ⟨hok, ?_⟩
      rw [answers, (frames_of_ok hcut).1, script, hframe]
      rfl
    | returns window frame state answer hok hcut hframe hpass => cases hpass.symm.trans hbody
  · rintro _ s r ⟨hs, rfl⟩ hbody
    cases h.pass_cases hs with
    | ends window flag hok hcut hpass =>
      cases hpass.symm.trans hbody
      obtain ⟨hthis, hnext⟩ := h.answers_of_error _ hcut
      rw [hthis]
      exact ⟨rfl, hok, hnext.symm⟩
    | goes window frame state hok hcut hframe hpass => cases hpass.symm.trans hbody
    | returns window frame state answer hok hcut hframe hpass =>
      cases hpass.symm.trans hbody
      rw [answers, (frames_of_ok hcut).1, script, hframe]
      exact ⟨rfl, hok, rfl⟩

/-- An event leaves the end of the draining as it was; no event is the end of it. -/
theorem next_final (h : FrameHandler σ) (hs : s.window.Ok) :
    ((h.next s).1 ≠ none → (h.next s).2.window.Ok ∧ h.finally_ (h.next s).2 = h.finally_ s) ∧
      ((h.next s).1 = none → (h.next s).2.state = h.finally_ s) := by
  refine h.nextLoop.run_invariant (I := fun t => t.window.Ok ∧ h.finally_ t = h.finally_ s)
    (Q := fun r => (r.1 ≠ none → r.2.window.Ok ∧ h.finally_ r.2 = h.finally_ s) ∧
      (r.1 = none → r.2.state = h.finally_ s)) ?_ ?_ ⟨hs, rfl⟩
  · rintro t t' ⟨ht, hfinal⟩ hbody
    cases h.pass_cases ht with
    | ends window flag hok hcut hpass => cases hpass.symm.trans hbody
    | goes window frame state hok hcut hframe hpass =>
      cases hpass.symm.trans hbody
      refine ⟨hok, ?_⟩
      rw [← hfinal, finally_, finally_, (frames_of_ok hcut).1, (frames_of_ok hcut).2, final, hframe]
    | returns window frame state answer hok hcut hframe hpass => cases hpass.symm.trans hbody
  · rintro t r ⟨ht, hfinal⟩ hbody
    rw [← hfinal]
    cases h.pass_cases ht with
    | ends window flag hok hcut hpass =>
      cases hpass.symm.trans hbody
      refine ⟨fun hne => absurd rfl hne, fun _ => ?_⟩
      unfold finally_
      rw [(frames_of_error hcut).1, (frames_of_error hcut).2]
      rfl
    | goes window frame state hok hcut hframe hpass => cases hpass.symm.trans hbody
    | returns window frame state answer hok hcut hframe hpass =>
      cases hpass.symm.trans hbody
      unfold finally_
      rw [(frames_of_ok hcut).1, (frames_of_ok hcut).2]
      cases answer with
      | none =>
        refine ⟨fun hne => absurd rfl hne, fun _ => ?_⟩
        rw [final, hframe]
      | some event =>
        refine ⟨fun _ => ⟨hok, ?_⟩, fun hnone => nomatch hnone⟩
        rw [final, hframe]

/-- Draining delivers the events of the frames, and ends with the counters they lead to. -/
theorem drain_eq (h : FrameHandler σ) (hs : s.window.Ok) :
    (h.feed.drain s).1 = Feed.heard (h.answers s) ∧ (h.feed.drain s).2.state = h.finally_ s := by
  refine ⟨(h.feed_follows.drain ⟨hs, rfl⟩).1, ?_⟩
  refine Feed.drain_invariant (I := fun t => t.window.Ok ∧ h.finally_ t = h.finally_ s)
    (Q := fun t => t.state = h.finally_ s) ?_ ?_ ⟨hs, rfl⟩
  · rintro t event ⟨ht, hfinal⟩ hnext
    rw [← hfinal]
    exact (h.next_final ht).1 fun hnone => nomatch hnext.symm.trans hnone
  · rintro t ⟨ht, hfinal⟩ hnext
    rw [← hfinal]
    exact (h.next_final ht).2 hnext

/-- A counter that only events move is left alone by a call without one. -/
theorem next_none_keeps (h : FrameHandler σ) (count : σ → ℕ)
    (hbreak : ∀ state, count (h.onBreak state) = count state)
    (hkeeps : ∀ state frame, (∀ event, (h.onFrame state frame).2 ≠ some (some event)) →
      count (h.onFrame state frame).1 = count state) (s : Framed σ)
    (hnone : (h.next s).1 = none) : count (h.next s).2.state = count s.state := by
  revert hnone
  refine h.nextLoop.run_invariant (I := fun t => count t.state = count s.state)
    (Q := fun r => r.1 = none → count r.2.state = count s.state) ?_ ?_ rfl
  · intro t t' hcount hbody
    replace hbody : h.pass t = .inl t' := hbody
    cases hframe : t.window.nextFrame.1 with
    | error flag =>
      cases (h.pass_error hframe).symm.trans hbody
    | ok frame =>
      have hpass := h.pass_ok hframe
      have hkeep := hkeeps t.state frame
      rcases hon : h.onFrame t.state frame with ⟨state, _ | answer⟩
      · rw [hon] at hpass hkeep
        cases hpass.symm.trans hbody
        exact (hkeep fun event heq => nomatch heq).trans hcount
      · rw [hon] at hpass
        cases hpass.symm.trans hbody
  · intro t r hcount hbody hnone
    replace hbody : h.pass t = .inr r := hbody
    cases hframe : t.window.nextFrame.1 with
    | error flag =>
      cases (h.pass_error hframe).symm.trans hbody
      cases flag
      · exact hcount
      · exact (hbreak _).trans hcount
    | ok frame =>
      have hpass := h.pass_ok hframe
      have hkeep := hkeeps t.state frame
      rcases hon : h.onFrame t.state frame with ⟨state, _ | _ | event⟩
      · rw [hon] at hpass
        cases hpass.symm.trans hbody
      · rw [hon] at hpass hkeep
        cases hpass.symm.trans hbody
        exact (hkeep fun event heq => nomatch heq).trans hcount
      · rw [hon] at hpass
        cases hpass.symm.trans hbody
        cases hnone

/-- The answers of a list of frames, when it depends on the frame alone whether there is one and
whether it is an event. -/
theorem script_isSome (h : FrameHandler σ) {kind : Bytes → Option Bool}
    (hkind : ∀ state frame, (h.onFrame state frame).2.map Option.isSome = kind frame)
    (state : σ) (frames : List Bytes) :
    (h.script state frames).map Option.isSome = frames.filterMap kind := by
  induction frames generalizing state with
  | nil => rfl
  | cons frame frames ih =>
    have hframe := hkind state frame
    rw [script]
    rcases hon : h.onFrame state frame with ⟨state', _ | answer⟩
    · rw [hon, Option.map_none] at hframe
      rw [List.filterMap_cons_none hframe.symm]
      exact ih state'
    · rw [hon, Option.map_some] at hframe
      rw [List.filterMap_cons_some hframe.symm, List.map_cons, ih state']

/-- A framed connector stays stopped when no frame with an event comes after one that stops it. -/
theorem staysStopped_iff (h : FrameHandler σ) (kind : Bytes → Option Bool) (count : σ → ℕ)
    (hkind : ∀ state frame, (h.onFrame state frame).2.map Option.isSome = kind frame)
    (hbreak : ∀ state, count (h.onBreak state) = count state)
    (hkeeps : ∀ state frame, kind frame ≠ some true → count (h.onFrame state frame).1 = count state)
    (hs : s.window.Ok) :
    h.feed.StaysStopped (fun s => count s.state) s ↔
      (frames s.window.unread).Pairwise fun a b => kind a = some false → kind b ≠ some true := by
  have hquiet : ∀ state frame, (∀ event, (h.onFrame state frame).2 ≠ some (some event)) →
      count (h.onFrame state frame).1 = count state := by
    intro state frame hnone
    apply hkeeps state frame
    intro htrue
    rw [← hkind state frame] at htrue
    rcases hon : (h.onFrame state frame).2 with _ | _ | event
    · rw [hon] at htrue
      cases htrue
    · rw [hon] at htrue
      cases htrue
    · exact hnone event hon
  have hstays := h.feed_follows.staysStopped_iff ⟨hs, rfl⟩ (fun s => count s.state)
    fun _ s _ hnone => h.next_none_keeps count hbreak hquiet s hnone
  have hscript := h.script_isSome hkind s.state (frames s.window.unread)
  have hmap : (h.answers s).Pairwise (fun a b => a = none → b = none) ↔
      ((h.answers s).map Option.isSome).Pairwise fun a b => a = false → b = false := by
    rw [List.pairwise_map]
    simp only [Option.isSome_eq_false_iff, Option.isNone_iff_eq_none]
  rw [hstays, hmap, answers, hscript, List.pairwise_filterMap]
  refine List.Pairwise.iff fun a b => ⟨fun h ha hb => ?_, fun h x hx y hy hfalse => ?_⟩
  · cases h false ha true hb rfl
  · subst hfalse
    cases y with
    | false => rfl
    | true => exact absurd hy (h hx)

/-- Two connectors in the same state with the same bytes to come. -/
structure Alike (s t : Framed σ) : Prop where
  left : s.window.Ok
  right : t.window.Ok
  unread : s.window.unread = t.window.unread
  state : s.state = t.state

theorem Alike.next {t : Framed σ} (hst : Alike s t) :
    (h.next s).1 = (h.next t).1 ∧ Alike (h.next s).2 (h.next t).2 := by
  refine h.nextLoop.run_related h.nextLoop (R := Alike)
    (Q := fun r u => r.1 = u.1 ∧ Alike r.2 u.2) ?_ hst
  rintro s t ⟨hs, ht, hunread, hstate⟩
  dsimp only [nextLoop]
  cases h.pass_cases hs with
  | ends w flag hok hcut hpass =>
    rw [hunread] at hcut
    rw [hstate] at hpass
    cases h.pass_cases ht with
    | ends w' flag' hok' hcut' hpass' =>
      obtain ⟨rfl, hrest⟩ := Prod.mk.inj (hcut.symm.trans hcut') |>.imp_left Except.error.inj
      rw [hpass, hpass']
      exact ⟨rfl, hok, hok', hrest, rfl⟩
    | goes w' frame' state' hok' hcut' hframe' hpass' => cases hcut.symm.trans hcut'
    | returns w' frame' state' answer' hok' hcut' hframe' hpass' => cases hcut.symm.trans hcut'
  | goes w frame state hok hcut hframe hpass =>
    rw [hunread] at hcut
    rw [hstate] at hframe
    cases h.pass_cases ht with
    | ends w' flag' hok' hcut' hpass' => cases hcut.symm.trans hcut'
    | goes w' frame' state' hok' hcut' hframe' hpass' =>
      obtain ⟨rfl, hrest⟩ := Prod.mk.inj (hcut.symm.trans hcut') |>.imp_left Except.ok.inj
      cases hframe.symm.trans hframe'
      rw [hpass, hpass']
      exact ⟨hok, hok', hrest, rfl⟩
    | returns w' frame' state' answer' hok' hcut' hframe' hpass' =>
      obtain ⟨rfl, hrest⟩ := Prod.mk.inj (hcut.symm.trans hcut') |>.imp_left Except.ok.inj
      cases hframe.symm.trans hframe'
  | returns w frame state answer hok hcut hframe hpass =>
    rw [hunread] at hcut
    rw [hstate] at hframe
    cases h.pass_cases ht with
    | ends w' flag' hok' hcut' hpass' => cases hcut.symm.trans hcut'
    | goes w' frame' state' hok' hcut' hframe' hpass' =>
      obtain ⟨rfl, hrest⟩ := Prod.mk.inj (hcut.symm.trans hcut') |>.imp_left Except.ok.inj
      cases hframe.symm.trans hframe'
    | returns w' frame' state' answer' hok' hcut' hframe' hpass' =>
      obtain ⟨rfl, hrest⟩ := Prod.mk.inj (hcut.symm.trans hcut') |>.imp_left Except.ok.inj
      cases hframe.symm.trans hframe'
      rw [hpass, hpass']
      exact ⟨rfl, hok, hok', hrest, rfl⟩

end FrameHandler

end MarketEngine
