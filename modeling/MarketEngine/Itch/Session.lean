import MarketEngine.Itch.MoldUdp64
import MarketEngine.Kit.Feed

/-! # Sessions over datagrams

What comes up when datagrams are gone through in order: messages, missed
sequence numbers, ends of session, and places where a call of `next` stops.
-/

namespace MarketEngine

/-- One thing that comes up in a session. -/
inductive Entry
  | message (sequence : UInt64) (payload : Bytes)
  | missed
  | ended
  | broken
  deriving DecidableEq, Repr

namespace Entry

/-- What `next` returns for an entry, unless it goes on. -/
def answer : Entry → Option (Option MarketDataEvent)
  | .message sequence payload =>
    match decodeMessage payload with
    | .malformed => some none
    | .event event => some (some { event with sequence })
    | .skipped => none
  | .missed => none
  | .ended => none
  | .broken => some none

/-- The message of an entry. -/
def visit : Entry → Option (UInt64 × Bytes)
  | .message sequence payload => some (sequence, payload)
  | _ => none

end Entry

/-- What a connector reports besides its events. -/
structure Report where
  failed : Bool
  endOfSession : Bool
  messagesMissed : UInt64
  messagesDecoded : ℕ
  deriving DecidableEq, Repr

def Report.note (r : Report) : Entry → Report
  | .message _ payload =>
    match decodeMessage payload with
    | .malformed => { r with failed := true }
    | .event _ => { r with messagesDecoded := r.messagesDecoded + 1 }
    | .skipped => r
  | .missed => { r with messagesMissed := r.messagesMissed + 1 }
  | .ended => { r with endOfSession := true }
  | .broken => { r with failed := true }

/-! ## The entries of a list of datagrams -/

namespace Session

/-- The next `n` sequence numbers are in a gap. -/
def gap (recover : UInt64 → Option Bytes) (first : UInt64) : ℕ → List Entry
  | 0 => []
  | n + 1 =>
    (match recover first with
      | none => .missed
      | some payload => .message first payload) :: gap recover (first + 1) n

/-- Messages with consecutive sequence numbers. -/
def messages (first : UInt64) : List Bytes → List Entry
  | [] => []
  | payload :: payloads => .message first payload :: messages (first + 1) payloads

/-- The messages that can be read of a packet, and what comes after it. -/
def live (first : UInt64) (payloads : List Bytes) (complete : Bool) (later : UInt64 → List Entry) :
    List Entry :=
  messages first payloads ++
    if complete then later (first + UInt64.ofNat payloads.length) else [.broken]

/-- Go through datagrams, given the sequence number that is expected if there is one. -/
def entries (recover : UInt64 → Option Bytes) (fails : Bool) : Option UInt64 → List Received →
    List Entry
  | _, [] => if fails then [.broken] else []
  | cursor, .short :: rest => .broken :: entries recover fails cursor rest
  | cursor, .endOfSession :: rest => .ended :: entries recover fails cursor rest
  | cursor, .heartbeat :: rest => entries recover fails cursor rest
  | cursor, .data sequence payloads complete :: rest =>
    let expected := cursor.getD sequence
    let seen := expected.toNat - sequence.toNat
    gap recover expected (sequence.toNat - expected.toNat) ++
      if complete = true ∧ payloads.length ≤ seen then entries recover fails (some expected) rest
      else if complete = false ∧ payloads.length < seen then
        .broken :: entries recover fails (some expected) rest
      else
        live (sequence + UInt64.ofNat seen) (payloads.drop seen) complete
          fun next => entries recover fails (some next) rest

variable {recover : UInt64 → Option Bytes} {fails : Bool} {cursor : Option UInt64}
variable {sequence expected : UInt64} {payloads : List Bytes} {complete : Bool}
variable {rest : List Received}

theorem live_cons (first : UInt64) (payload : Bytes) (payloads : List Bytes) (complete : Bool)
    (later : UInt64 → List Entry) :
    live first (payload :: payloads) complete later =
      .message first payload :: live (first + 1) payloads complete later := by
  have hnext : first + UInt64.ofNat (payload :: payloads).length =
      first + 1 + UInt64.ofNat payloads.length := by
    rw [List.length_cons, UInt64.ofNat_add, UInt64.add_assoc, UInt64.add_comm (UInt64.ofNat _)]
    rfl
  rw [live, live, hnext, messages, List.cons_append]

/-- A packet that is not behind is delivered whole. -/
theorem entries_ahead (hcursor : cursor.getD sequence = expected)
    (hle : expected.toNat ≤ sequence.toNat) (hne : complete = true → payloads ≠ []) :
    entries recover fails cursor (.data sequence payloads complete :: rest) =
      gap recover expected (sequence.toNat - expected.toNat) ++
        live sequence payloads complete fun next => entries recover fails (some next) rest := by
  have hseen : expected.toNat - sequence.toNat = 0 := by omega
  have hfirst : ¬ (complete = true ∧ payloads.length ≤ 0) := by
    rintro ⟨hcomplete, hlength⟩
    exact hne hcomplete (List.eq_nil_of_length_eq_zero (Nat.le_zero.mp hlength))
  have hzero : sequence + UInt64.ofNat 0 = sequence := UInt64.add_zero _
  rw [entries, hcursor, hseen, if_neg hfirst, if_neg (fun h => Nat.not_lt_zero _ h.2), hzero,
    List.drop_zero]

/-- A packet that is behind is skipped as far as it was delivered. -/
theorem entries_behind (hcursor : cursor.getD sequence = expected) {seen : ℕ}
    (hseen : expected.toNat - sequence.toNat = seen) (hpos : 0 < seen) :
    entries recover fails cursor (.data sequence payloads complete :: rest) =
      if complete = true ∧ payloads.length ≤ seen then entries recover fails (some expected) rest
      else if complete = false ∧ payloads.length < seen then
        .broken :: entries recover fails (some expected) rest
      else
        live (sequence + UInt64.ofNat seen) (payloads.drop seen) complete
          fun next => entries recover fails (some next) rest := by
  have hgap : sequence.toNat - expected.toNat = 0 := by omega
  rw [entries, hcursor, hseen, hgap, gap, List.nil_append]

end Session

/-- The entries as far as the first stop. -/
def untilStop : List Entry → List Entry
  | [] => []
  | entry :: entries =>
    if entry.answer = some none then [entry] else entry :: untilStop entries

/-! ## Quiet entries -/

/-- Entries that no call returns at. -/
def Silent (taken : List Entry) : Prop := ∀ entry ∈ taken, entry.answer = none

theorem Silent.nil : Silent [] := fun _ h => nomatch h

theorem Silent.answers {taken : List Entry} (h : Silent taken) :
    taken.filterMap Entry.answer = [] := List.filterMap_eq_nil_iff.mpr h

theorem untilStop_append {taken later : List Entry}
    (h : ∀ entry ∈ taken, entry.answer ≠ some none) :
    untilStop (taken ++ later) = taken ++ untilStop later := by
  induction taken with
  | nil => rfl
  | cons entry taken ih =>
    have hfirst := h entry (List.mem_cons_self ..)
    rw [List.cons_append, untilStop, if_neg hfirst, ih fun e he => h e (List.mem_cons_of_mem _ he),
      List.cons_append]

theorem untilStop_stop {entry : Entry} {later : List Entry} (h : entry.answer = some none) :
    untilStop (entry :: later) = [entry] := if_pos h

theorem Silent.untilStop {taken later : List Entry} (h : Silent taken) :
    untilStop (taken ++ later) = taken ++ untilStop later :=
  untilStop_append fun entry hmem hstop => nomatch (h entry hmem).symm.trans hstop

/-- Entries without a message and without a stop. -/
def Quiet (taken : List Entry) : Prop := ∀ entry ∈ taken, entry = .missed ∨ entry = .ended

namespace Quiet

variable {taken taken' : List Entry}

theorem nil : Quiet [] := fun _ h => nomatch h

theorem single_missed : Quiet [.missed] := fun _ h => .inl (List.mem_singleton.mp h)

theorem single_ended : Quiet [.ended] := fun _ h => .inr (List.mem_singleton.mp h)

theorem replicate_missed (n : ℕ) : Quiet (List.replicate n .missed) :=
  fun _ h => .inl (List.eq_of_mem_replicate h)

theorem append (h : Quiet taken) (h' : Quiet taken') : Quiet (taken ++ taken') := by
  intro entry hmem
  rcases List.mem_append.mp hmem with hmem | hmem
  · exact h entry hmem
  · exact h' entry hmem

theorem silent (h : Quiet taken) : Silent taken := by
  intro entry hmem
  rcases h entry hmem with rfl | rfl <;> rfl

theorem visits (h : Quiet taken) : taken.filterMap Entry.visit = [] := by
  rw [List.filterMap_eq_nil_iff]
  intro entry hmem
  rcases h entry hmem with rfl | rfl <;> rfl

end Quiet

/-! ## Sessions without a stop -/

/-- No entry stops the session. -/
def Unbroken (entries : List Entry) : Prop := ∀ entry ∈ entries, entry.answer ≠ some none

/-- The events of some entries. -/
def events (entries : List Entry) : List MarketDataEvent :=
  entries.filterMap fun entry => entry.answer.join

/-- The entries that say something about a sequence number. -/
def content (entries : List Entry) : List Entry := entries.filter (· ≠ .ended)

variable {entries : List Entry}

theorem Unbroken.untilStop (h : Unbroken entries) : untilStop entries = entries := by
  have h' : MarketEngine.untilStop (entries ++ []) = entries ++ MarketEngine.untilStop [] :=
    untilStop_append h
  rwa [List.append_nil, MarketEngine.untilStop, List.append_nil] at h'

theorem Unbroken.heard (h : Unbroken entries) :
    Feed.heard (entries.filterMap Entry.answer) = events entries := by
  induction entries with
  | nil => rfl
  | cons entry entries ih =>
    have ih := ih fun e he => h e (List.mem_cons_of_mem _ he)
    have hfirst := h entry (List.mem_cons_self ..)
    rw [events] at ih ⊢
    rcases hanswer : entry.answer with _ | _ | event
    · rw [List.filterMap_cons_none hanswer, List.filterMap_cons_none (by rw [hanswer]; rfl), ih]
    · exact absurd hanswer hfirst
    · rw [List.filterMap_cons_some hanswer, List.filterMap_cons_some (by rw [hanswer]; rfl),
        Feed.heard, ih]

theorem events_eq_nil (h : ∀ entry ∈ entries, ∀ event, entry.answer ≠ some (some event)) :
    events entries = [] := by
  rw [events, List.filterMap_eq_nil_iff]
  intro entry hmem
  rcases hanswer : entry.answer with _ | _ | event
  · rfl
  · rfl
  · exact absurd hanswer (h entry hmem event)

theorem events_content (entries : List Entry) : events (content entries) = events entries := by
  rw [events, content, List.filterMap_filter]
  apply List.filterMap_congr
  intro entry _
  cases entry <;> rfl

theorem unbroken_content : Unbroken (content entries) ↔ Unbroken entries := by
  constructor
  · intro h entry hmem
    by_cases hended : entry = .ended
    · rw [hended]
      exact fun h => nomatch h
    · exact h entry (List.mem_filter.mpr ⟨hmem, decide_eq_true hended⟩)
  · exact fun h entry hmem => h entry (List.mem_filter.mp hmem).1

theorem foldl_note_failed (r : Report) (h : Unbroken entries) :
    (entries.foldl Report.note r).failed = r.failed := by
  induction entries generalizing r with
  | nil => rfl
  | cons entry entries ih =>
    have hfirst : (r.note entry).failed = r.failed := by
      have hgoes := h entry (List.mem_cons_self ..)
      cases entry with
      | message sequence payload =>
        rw [Entry.answer] at hgoes
        rw [Report.note]
        cases hdecode : decodeMessage payload with
        | malformed =>
          rw [hdecode] at hgoes
          exact absurd rfl hgoes
        | event event => rfl
        | skipped => rfl
      | missed => rfl
      | ended => rfl
      | broken => exact absurd rfl hgoes
    rw [List.foldl_cons, ih _ fun e he => h e (List.mem_cons_of_mem _ he), hfirst]

theorem foldl_note_decoded (r : Report) (entries : List Entry) :
    (entries.foldl Report.note r).messagesDecoded =
      r.messagesDecoded + (events entries).length := by
  induction entries generalizing r with
  | nil => rfl
  | cons entry entries ih =>
    rw [List.foldl_cons, ih, events, events, List.filterMap_cons]
    cases entry with
    | message sequence payload =>
      rw [Report.note, Entry.answer]
      cases decodeMessage payload with
      | malformed => rfl
      | event event =>
        change r.messagesDecoded + 1 + _ = r.messagesDecoded + (_ + 1)
        omega
      | skipped => rfl
    | missed => rfl
    | ended => rfl
    | broken => rfl

theorem foldl_note_missed (r : Report) (entries : List Entry) :
    (entries.foldl Report.note r).messagesMissed =
      r.messagesMissed + UInt64.ofNat ((content entries).count .missed) := by
  induction entries generalizing r with
  | nil => exact (UInt64.add_zero _).symm
  | cons entry entries ih =>
    rw [List.foldl_cons, ih]
    cases entry with
    | message sequence payload =>
      have hcontent : content (.message sequence payload :: entries) =
          .message sequence payload :: content entries := rfl
      rw [hcontent, List.count_cons_of_ne (by exact Entry.noConfusion), Report.note]
      cases decodeMessage payload <;> rfl
    | missed =>
      have hcontent : content (.missed :: entries) = .missed :: content entries := rfl
      rw [hcontent, List.count_cons_self, Report.note, UInt64.ofNat_add, UInt64.add_assoc,
        UInt64.add_comm 1]
      rfl
    | ended => rfl
    | broken => rfl

/-- A stop is a failure. -/
theorem note_stop (r : Report) {entry : Entry} (h : entry.answer = some none) :
    (r.note entry).failed = true := by
  cases entry with
  | message sequence payload =>
    rw [Entry.answer] at h
    rw [Report.note]
    cases hdecode : decodeMessage payload with
    | malformed => rfl
    | event event =>
      rw [hdecode] at h
      cases h
    | skipped =>
      rw [hdecode] at h
      cases h
  | missed => cases h
  | ended => cases h
  | broken => rfl

theorem foldl_untilStop_failed (r : Report) (h : ¬ Unbroken entries) :
    ((untilStop entries).foldl Report.note r).failed = true := by
  induction entries generalizing r with
  | nil => exact absurd (fun _ hmem => nomatch hmem) h
  | cons entry entries ih =>
    rw [untilStop]
    split_ifs with hstop
    · exact note_stop r hstop
    · refine ih (r.note entry) fun hgoes => h fun e he => ?_
      rcases List.mem_cons.mp he with rfl | he
      · exact hstop
      · exact hgoes e he

theorem note_ended {r : Report} (h : r.endOfSession = true) (entry : Entry) :
    (r.note entry).endOfSession = true := by
  cases entry with
  | message sequence payload =>
    rw [Report.note]
    cases decodeMessage payload <;> exact h
  | missed => exact h
  | ended => rfl
  | broken => exact h

theorem foldl_note_ended (r : Report) (h : .ended ∈ entries) :
    (entries.foldl Report.note r).endOfSession = true := by
  have hkeeps : ∀ (later : List Entry) (r : Report), r.endOfSession = true →
      (later.foldl Report.note r).endOfSession = true := by
    intro later
    induction later with
    | nil => exact fun _ h => h
    | cons entry later ih => exact fun r h => ih _ (note_ended h entry)
  obtain ⟨pre, post, rfl⟩ := List.mem_iff_append.mp h
  rw [List.foldl_append, List.foldl_cons]
  exact hkeeps post _ rfl

namespace Session

theorem content_append (entries later : List Entry) :
    content (entries ++ later) = content entries ++ content later := List.filter_append ..

theorem content_messages (first : UInt64) (payloads : List Bytes) :
    content (messages first payloads) = messages first payloads := by
  induction payloads generalizing first with
  | nil => rfl
  | cons payload payloads ih => exact congrArg (Entry.message first payload :: ·) (ih (first + 1))

end Session

end MarketEngine
