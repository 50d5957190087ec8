import MarketEngine.Itch.Decoder
import MarketEngine.Kit.Loop

/-! # The read window of a byte stream

The BinaryFILE and SoupBinTCP connectors hold a window of the bytes read so far
and refill it from a stream when a frame is not in it whole. In memory the
window is the whole stream.
-/

namespace MarketEngine

/-- How many bytes a stream with `rest` bytes left hands out when asked for some: at least one, if
one is there and one is asked for. -/
structure Chopping where
  size : (rest requested : ℕ) → ℕ
  le_rest : ∀ rest requested, size rest requested ≤ rest
  le_requested : ∀ rest requested, size rest requested ≤ requested
  pos : ∀ rest requested, 0 < rest → 0 < requested → 0 < size rest requested

/-- As many bytes as possible. -/
def Chopping.whole : Chopping where
  size rest requested := min rest requested
  le_rest := Nat.min_le_left
  le_requested := Nat.min_le_right
  pos _ _ hrest hrequested := Nat.lt_min.mpr ⟨hrest, hrequested⟩

structure ByteStream where
  rest : Bytes
  chopping : Chopping

def ByteStream.read (input : ByteStream) (requested : ℕ) : Bytes × ByteStream :=
  let size := input.chopping.size input.rest.length requested
  (input.rest.take size, { input with rest := input.rest.drop size })

def kStreamBufferSize : ℕ := 65536

/-- `buffer` holds the valid bytes, `capacity` is the allocated size. -/
structure ByteWindow where
  buffer : Bytes
  capacity : ℕ
  pos : ℕ
  input : ByteStream
  eof : Bool

namespace ByteWindow

/-- The whole stream is in memory and there is nothing to read. -/
def ofBytes (data : Bytes) : ByteWindow where
  buffer := data
  capacity := data.length
  pos := 0
  input := ⟨[], .whole⟩
  eof := true

/-- A window on a file. -/
def ofStream (input : ByteStream) : ByteWindow where
  buffer := []
  capacity := kStreamBufferSize
  pos := 0
  input := input
  eof := false

/-- The bytes of the window that have not been consumed. -/
def window (w : ByteWindow) : Bytes := w.buffer.drop w.pos

/-- The bytes that have not been consumed, read or not. -/
def unread (w : ByteWindow) : Bytes := w.window ++ w.input.rest

/-- Move what has not been consumed to the front. -/
def compact (w : ByteWindow) : ByteWindow :=
  if 0 < w.pos then { w with buffer := w.window, pos := 0 } else w

/-- Allocate for a frame that exceeds the window. -/
def reserve (w : ByteWindow) (n : ℕ) : ByteWindow :=
  if w.capacity < n then { w with capacity := n } else w

/-- Double a buffer that is full. -/
def grow (w : ByteWindow) : ByteWindow :=
  if w.buffer.length = w.capacity then { w with capacity := w.capacity * 2 } else w

/-- One read into the free part of the buffer; reading nothing means the end of the stream. -/
def fill (w : ByteWindow) : Bool × ByteWindow :=
  let (got, input) := w.input.read (w.capacity - w.buffer.length)
  if got.length = 0 then (false, { w with input, eof := true })
  else (true, { w with buffer := w.buffer ++ got, input })

theorem grow_input (w : ByteWindow) : w.grow.input = w.input := by
  unfold grow
  split <;> rfl

theorem rest_lt_of_fill {w w' : ByteWindow} (h : w.fill = (true, w')) :
    w'.input.rest.length < w.input.rest.length := by
  unfold fill at h
  dsimp only [ByteStream.read] at h
  rw [List.length_take] at h
  split at h
  · cases h
  · next hgot =>
    cases h
    dsimp only
    rw [List.length_drop]
    omega

/-- Read until `n` bytes are there or the stream is at its end. -/
def refill (n : ℕ) : Loop ByteWindow ByteWindow where
  body w :=
    if w.buffer.length < n ∧ w.eof = false then
      match w.grow.fill with
      | (true, w) => .inl w
      | (false, w) => .inr w
    else .inr w
  measure w := w.input.rest.length
  decreases := by
    intro w w' h
    split at h
    · split at h
      · next hfill =>
        cases h
        rw [← grow_input w]
        exact rest_lt_of_fill hfill
      · cases h
    · cases h

/-- Make `n` unconsumed bytes available, or say that the stream does not have that many. -/
def ensure (w : ByteWindow) (n : ℕ) : Bool × ByteWindow :=
  if n ≤ w.buffer.length - w.pos then (true, w)
  else if w.eof then (false, w)
  else
    let w := (refill n).run (w.compact.reserve n)
    (n ≤ w.buffer.length - w.pos, w)

/-- The head of both `next` loops: one frame behind its two-byte length, or whether the lack of
one is a failure. -/
def nextFrame (w : ByteWindow) : Except Bool Bytes × ByteWindow :=
  let (ready, w) := w.ensure 2
  if ready = false then (.error (w.buffer.length - w.pos ≠ 0), w)
  else
    let length := (readBe16 w.window).toNat
    if length = 0 then (.error true, w)
    else
      let (ready, w) := w.ensure (2 + length)
      if ready = false then (.error true, w)
      else (.ok ((w.window.drop 2).take length), { w with pos := w.pos + (2 + length) })

/-! ## What is read -/

/-- Consumed, valid and allocated bytes, and nothing left once the end was met. -/
structure Ok (w : ByteWindow) : Prop where
  pos_le : w.pos ≤ w.buffer.length
  size_le : w.buffer.length ≤ w.capacity
  eof : w.eof = true → w.input.rest = []

variable {w : ByteWindow} {n : ℕ}

theorem ofBytes_ok (data : Bytes) : (ofBytes data).Ok where
  pos_le := Nat.zero_le _
  size_le := Nat.le_refl _
  eof _ := rfl

theorem ofStream_ok (input : ByteStream) : (ofStream input).Ok where
  pos_le := Nat.zero_le _
  size_le := Nat.zero_le _
  eof h := nomatch h

theorem ofBytes_unread (data : Bytes) : (ofBytes data).unread = data := List.append_nil _

theorem compact_window (w : ByteWindow) : w.compact.window = w.window := by
  unfold compact
  split <;> rfl

theorem compact_pos (w : ByteWindow) : w.compact.pos = 0 := by
  unfold compact
  split
  · rfl
  · omega

theorem read_append (input : ByteStream) (requested : ℕ) :
    (input.read requested).1 ++ (input.read requested).2.rest = input.rest :=
  List.take_append_drop _ _

/-- Reading moves bytes from the stream to the window. -/
theorem fill_unread (hpos : w.pos = 0) : w.fill.2.pos = 0 ∧ w.fill.2.unread = w.unread := by
  have hread := read_append w.input (w.capacity - w.buffer.length)
  unfold fill
  dsimp only
  split
  · next hgot =>
    rw [List.eq_nil_of_length_eq_zero hgot, List.nil_append] at hread
    exact ⟨hpos, congrArg (w.window ++ ·) hread⟩
  · refine ⟨hpos, ?_⟩
    rw [unread, unread, window, window, ← hread]
    dsimp only
    rw [hpos, List.drop_zero, List.drop_zero, List.append_assoc]

theorem grow_unread (w : ByteWindow) : w.grow.pos = w.pos ∧ w.grow.unread = w.unread := by
  unfold grow
  split <;> exact ⟨rfl, rfl⟩

theorem refill_unread (hpos : w.pos = 0) :
    ((refill n).run w).pos = 0 ∧ ((refill n).run w).unread = w.unread := by
  have hread : ∀ w' : ByteWindow, w'.pos = 0 ∧ w'.unread = w.unread →
      w'.grow.fill.2.pos = 0 ∧ w'.grow.fill.2.unread = w.unread := by
    rintro w' ⟨hpos', hunread⟩
    have hgrow := w'.grow_unread
    have hfill := fill_unread (hgrow.1.trans hpos')
    exact ⟨hfill.1, hfill.2.trans (hgrow.2.trans hunread)⟩
  refine (refill n).run_invariant (I := fun w' => w'.pos = 0 ∧ w'.unread = w.unread)
    (Q := fun w' => w'.pos = 0 ∧ w'.unread = w.unread) ?_ ?_ ⟨hpos, rfl⟩
  · intro w₁ w₂ hw hbody
    dsimp only [refill] at hbody
    split at hbody
    · split at hbody
      · next hfill =>
        cases hbody
        simpa [hfill] using hread w₁ hw
      · cases hbody
    · cases hbody
  · intro w₁ w₂ hw hbody
    dsimp only [refill] at hbody
    split at hbody
    · split at hbody
      · cases hbody
      · next hfill =>
        cases hbody
        simpa [hfill] using hread w₁ hw
    · cases hbody
      exact hw

theorem reserve_unread (w : ByteWindow) (n : ℕ) :
    (w.reserve n).pos = w.pos ∧ (w.reserve n).unread = w.unread := by
  unfold reserve
  split <;> exact ⟨rfl, rfl⟩

theorem compact_unread (w : ByteWindow) : w.compact.unread = w.unread := by
  rw [unread, compact_window]
  unfold compact
  split <;> rfl

theorem window_length (w : ByteWindow) : w.window.length = w.buffer.length - w.pos :=
  List.length_drop

/-- `ensure` consumes nothing, and the bytes it promises are in the window. -/
theorem ensure_unread (w : ByteWindow) (n : ℕ) :
    (w.ensure n).2.unread = w.unread ∧
      ((w.ensure n).1 = true ↔ n ≤ (w.ensure n).2.window.length) := by
  unfold ensure
  split_ifs with hready heof
  · exact ⟨rfl, iff_of_true rfl ((window_length w).symm ▸ hready)⟩
  · exact ⟨rfl, iff_of_false (fun h => nomatch h) ((window_length w).symm ▸ hready)⟩
  · have hreserve := w.compact.reserve_unread n
    have hrefill := refill_unread (n := n) (hreserve.1.trans w.compact_pos)
    refine ⟨hrefill.2.trans (hreserve.2.trans w.compact_unread), ?_⟩
    rw [window_length]
    exact decide_eq_true_iff

/-- Within a refill: the bytes asked for fit, and the end was met only with nothing left. -/
structure Refilling (n : ℕ) (w : ByteWindow) : Prop where
  pos : w.pos = 0
  size_le : w.buffer.length ≤ w.capacity
  fits : n ≤ w.capacity
  eof : w.eof = true → w.input.rest = []

/-- Nothing is read only when nothing is left. -/
theorem rest_of_read_nil {input : ByteStream} {requested : ℕ} (hrequested : 0 < requested)
    (h : (input.read requested).1.length = 0) : (input.read requested).2.rest = [] := by
  have happend := read_append input requested
  rw [List.eq_nil_of_length_eq_zero h, List.nil_append] at happend
  rw [happend]
  by_contra hne
  have hpos := input.chopping.pos input.rest.length requested (List.length_pos_iff.mpr hne)
    hrequested
  have hle := input.chopping.le_rest input.rest.length requested
  rw [ByteStream.read, List.length_take] at h
  omega

theorem read_length_le (input : ByteStream) (requested : ℕ) :
    (input.read requested).1.length ≤ requested := by
  have hle := input.chopping.le_requested input.rest.length requested
  rw [ByteStream.read, List.length_take]
  omega

theorem Refilling.fill {w' : ByteWindow} (h : Refilling n w) (hlt : w.buffer.length < n)
    {more : Bool} (hfill : w.grow.fill = (more, w')) : Refilling n w' := by
  have hfull : w.grow = w := if_neg (by have := h.fits; omega)
  have hrequested : 0 < w.capacity - w.buffer.length := by
    have := h.fits
    omega
  rw [hfull] at hfill
  unfold ByteWindow.fill at hfill
  dsimp only at hfill
  split at hfill
  · next hgot =>
    cases hfill
    exact ⟨h.pos, h.size_le, h.fits, fun _ => rest_of_read_nil hrequested hgot⟩
  · cases hfill
    refine ⟨h.pos, ?_, h.fits, fun heof => ?_⟩
    · have := read_length_le w.input (w.capacity - w.buffer.length)
      have := h.size_le
      dsimp only
      rw [List.length_append]
      omega
    · exact List.eq_nil_of_suffix_nil (h.eof heof ▸ List.drop_suffix _ _)

/-- A refill that ends short of `n` bytes has met the end of the stream. -/
theorem Refilling.refill (h : Refilling n w) :
    Refilling n ((ByteWindow.refill n).run w) ∧
      (((ByteWindow.refill n).run w).buffer.length < n →
        ((ByteWindow.refill n).run w).input.rest = []) := by
  refine (ByteWindow.refill n).run_invariant (I := Refilling n)
    (Q := fun w' => Refilling n w' ∧ (w'.buffer.length < n → w'.input.rest = [])) ?_ ?_ h
  · intro w₁ w₂ hw hbody
    dsimp only [ByteWindow.refill] at hbody
    split at hbody
    · next hlt =>
      split at hbody
      · next hfill =>
        cases hbody
        exact hw.fill hlt.1 hfill
      · cases hbody
    · cases hbody
  · intro w₁ w₂ hw hbody
    dsimp only [ByteWindow.refill] at hbody
    split at hbody
    · next hlt =>
      split at hbody
      · cases hbody
      · next hfill =>
        cases hbody
        have hw₂ := hw.fill hlt.1 hfill
        refine ⟨hw₂, fun _ => hw₂.eof ?_⟩
        unfold ByteWindow.fill at hfill
        dsimp only at hfill
        split at hfill <;> cases hfill
        rfl
    · next hnot =>
      cases hbody
      refine ⟨hw, fun hlt => hw.eof ?_⟩
      simpa [hlt] using hnot

/-- A window that cannot give `n` bytes holds all that is unread. -/
theorem Ok.ensure (h : w.Ok) (n : ℕ) :
    (w.ensure n).2.Ok ∧ ((w.ensure n).1 = false → (w.ensure n).2.input.rest = []) := by
  unfold ByteWindow.ensure
  split_ifs with hready heof
  · exact ⟨h, fun h => nomatch h⟩
  · exact ⟨h, fun _ => h.eof heof⟩
  · have hcompact : w.compact.buffer.length ≤ w.compact.capacity := by
      have := h.size_le
      unfold compact
      split
      · dsimp only
        rw [window_length]
        omega
      · exact this
    have hopen : w.compact.eof = w.eof := by
      unfold compact
      split <;> rfl
    have hstart : Refilling n (w.compact.reserve n) := by
      unfold reserve
      split
      · next hlt =>
        exact ⟨w.compact_pos, Nat.le_trans hcompact (Nat.le_of_lt hlt), Nat.le_refl n,
          fun he => absurd (hopen.symm.trans he) heof⟩
      · next hge =>
        exact ⟨w.compact_pos, hcompact, Nat.not_lt.mp hge,
          fun he => absurd (hopen.symm.trans he) heof⟩
    obtain ⟨hend, hshort⟩ := hstart.refill
    refine ⟨⟨hend.pos ▸ Nat.zero_le _, hend.size_le, hend.eof⟩, fun hnot => hshort ?_⟩
    have hlt := of_decide_eq_false hnot
    rw [hend.pos] at hlt
    omega

/-! ## Frames -/

/-- What a frame at the front of some bytes looks like: the frame and the bytes behind it, or
whether the lack of one is a failure. -/
def cutFrame (u : Bytes) : Except Bool Bytes × Bytes :=
  let length := (readBe16 u).toNat
  if u.length < 2 then (.error (u ≠ []), u)
  else if length = 0 ∨ u.length < 2 + length then (.error true, u)
  else (.ok ((u.drop 2).take length), u.drop (2 + length))

/-- Reading the length does not depend on what comes after it. -/
theorem readBe16_append {p : Bytes} (hp : 2 ≤ p.length) (rest : Bytes) :
    readBe16 (p ++ rest) = readBe16 p := by
  match p, hp with
  | _ :: _ :: _, _ => rfl

/-- What is missing from the window of a stopped `ensure` is missing from the stream. -/
theorem Ok.window_eq (h : w.Ok) (hnot : (w.ensure n).1 = false) :
    (w.ensure n).2.window = w.unread ∧ w.unread.length < n := by
  obtain ⟨hunread, hready⟩ := w.ensure_unread n
  have hrest := (h.ensure n).2 hnot
  rw [unread, hrest, List.append_nil] at hunread
  refine ⟨hunread, ?_⟩
  rw [hnot, hunread] at hready
  simpa using hready

/-- The window only decides where the bytes are read from. -/
theorem Ok.nextFrame (h : w.Ok) :
    w.nextFrame.2.Ok ∧ w.nextFrame.1 = (cutFrame w.unread).1 ∧
      w.nextFrame.2.unread = (cutFrame w.unread).2 := by
  have hok := (h.ensure 2).1
  have hshort := h.window_eq (n := 2)
  obtain ⟨hunread, hready⟩ := w.ensure_unread 2
  unfold ByteWindow.nextFrame cutFrame
  generalize w.ensure 2 = first at hok hshort hunread hready ⊢
  obtain ⟨ready, w₁⟩ := first
  dsimp only at hok hshort hunread hready ⊢
  rw [← hunread] at hshort ⊢
  cases ready with
  | false =>
    obtain ⟨hwindow, hlt⟩ := hshort rfl
    rw [if_pos rfl, if_pos hlt]
    refine ⟨hok, ?_, rfl⟩
    rw [← window_length, hwindow]
    simp
  | true =>
    have hlen := hready.mp rfl
    have hread : readBe16 w₁.unread = readBe16 w₁.window := readBe16_append hlen _
    have hge : ¬ w₁.unread.length < 2 := by
      rw [unread, List.length_append]
      omega
    rw [if_neg (by simp), if_neg hge, hread]
    generalize (readBe16 w₁.window).toNat = length
    by_cases hzero : length = 0
    · rw [if_pos hzero, if_pos (.inl hzero)]
      exact ⟨hok, rfl, rfl⟩
    · rw [if_neg hzero]
      have hok₂ := (hok.ensure (2 + length)).1
      have hshort₂ := hok.window_eq (n := 2 + length)
      obtain ⟨hunread₂, hready₂⟩ := w₁.ensure_unread (2 + length)
      generalize w₁.ensure (2 + length) = second at hok₂ hshort₂ hunread₂ hready₂ ⊢
      obtain ⟨ready, w₂⟩ := second
      dsimp only at hok₂ hshort₂ hunread₂ hready₂ ⊢
      rw [← hunread₂] at hshort₂ ⊢
      cases ready with
      | false =>
        rw [if_pos rfl, if_pos (.inr (hshort₂ rfl).2)]
        exact ⟨hok₂, rfl, rfl⟩
      | true =>
        have hlen₂ := hready₂.mp rfl
        have hle : 2 + length ≤ w₂.buffer.length - w₂.pos := window_length w₂ ▸ hlen₂
        have hge₂ : ¬ (length = 0 ∨ w₂.unread.length < 2 + length) := by
          rw [unread, List.length_append]
          omega
        rw [if_neg (by simp), if_neg hge₂]
        refine ⟨⟨?_, hok₂.size_le, hok₂.eof⟩, ?_, ?_⟩
        · dsimp only
          omega
        · have hdrop : length ≤ (w₂.window.drop 2).length := by
            rw [List.length_drop]
            omega
          rw [unread, List.drop_append_of_le_length (by omega),
            List.take_append_of_le_length hdrop]
        · have hwindow : w₂.buffer.drop (w₂.pos + (2 + length)) = w₂.window.drop (2 + length) :=
            List.drop_drop.symm
          rw [unread, unread, List.drop_append_of_le_length hlen₂, ← hwindow]
          rfl

/-- A frame is taken off the bytes that are unread. -/
theorem unread_lt_of_nextFrame {message : Bytes} (h : w.nextFrame.1 = .ok message) :
    w.nextFrame.2.unread.length < w.unread.length := by
  have hunread := (w.ensure_unread 2).1
  unfold nextFrame at h ⊢
  dsimp only at h ⊢
  rw [← hunread]
  generalize (w.ensure 2).2 = w₁ at h ⊢
  split_ifs at h ⊢ with hready hzero hready₂
  have hready₂ := (w₁.ensure_unread (2 + (readBe16 w₁.window).toNat)).2.mp (by simpa using hready₂)
  rw [← (w₁.ensure_unread (2 + (readBe16 w₁.window).toNat)).1]
  generalize (w₁.ensure (2 + (readBe16 w₁.window).toNat)).2 = w₂ at hready₂ ⊢
  rw [window_length] at hready₂
  rw [unread, unread, List.length_append, List.length_append, window_length, window_length]
  dsimp only
  omega

end ByteWindow

end MarketEngine
