import MarketEngine.Book.Runs
import MarketEngine.Queue.Spsc

/-! # The two threads of `market_replay`

The producer pushes the events of the connector and then sets `producerDone`.
The consumer applies what it pops, and on an empty queue looks at the flag.
-/

namespace MarketEngine

open Transition

/-- Where the consumer stands in its loop. -/
inductive ReplayConsumer where
  | polling
  | sawEmpty
  | exited
  deriving DecidableEq, Repr

structure Replay (c : Capacity) (n : QueueSlots) where
  /-- The events the connector has yet to return. -/
  remaining : List MarketDataEvent
  queue : SpscQueue MarketDataEvent n
  producerDone : Bool := false
  consumer : ReplayConsumer := .polling
  book : OrderBook c := OrderBook.fresh c
  applied : ℕ := 0
  rejected : ℕ := 0

/-- `push` and `pop` are the calls that succeed; a push that fails is tried again. -/
inductive ReplayStep where
  | push (event : MarketDataEvent)
  | pushFails
  | storeDone
  | pop (event : MarketDataEvent)
  | popFails
  | loadDone (producerDone : Bool)

namespace Replay

variable {c : Capacity} {n : QueueSlots}

def start (storage : Pool MarketDataEvent n.val) (events : List MarketDataEvent) : Replay c n where
  remaining := events
  queue := { storage }

/-- The consumer's work on one event. -/
def apply (s : Replay c n) (event : MarketDataEvent) (queue : SpscQueue MarketDataEvent n) :
    Replay c n :=
  let (result, book) := s.book.processEvent event
  if result = .applied then { s with queue, book, applied := s.applied + 1 }
  else { s with queue, book, rejected := s.rejected + 1 }

inductive Step : Replay c n → ReplayStep → Replay c n → Prop
  | push {s : Replay c n} {event : MarketDataEvent} {rest : List MarketDataEvent}
      {queue : SpscQueue MarketDataEvent n} (h : s.remaining = event :: rest)
      (hpush : s.queue.tryPush event = some queue) :
      Step s (.push event) { s with remaining := rest, queue }
  | pushFails {s : Replay c n} {event : MarketDataEvent} {rest : List MarketDataEvent}
      (h : s.remaining = event :: rest) (hpush : s.queue.tryPush event = none) :
      Step s .pushFails s
  | storeDone {s : Replay c n} (h : s.remaining = []) :
      Step s .storeDone { s with producerDone := true }
  | pop {s : Replay c n} {event : MarketDataEvent} {queue : SpscQueue MarketDataEvent n}
      (h : s.consumer = .polling) (hpop : s.queue.tryPop = some (event, queue)) :
      Step s (.pop event) (s.apply event queue)
  | popFails {s : Replay c n} (h : s.consumer = .polling) (hpop : s.queue.tryPop = none) :
      Step s .popFails { s with consumer := .sawEmpty }
  | loadDone {s : Replay c n} (h : s.consumer = .sawEmpty) :
      Step s (.loadDone s.producerDone)
        { s with consumer := if s.producerDone then .exited else .polling }

/-- The events given to the book, in order. -/
def taken (labels : List ReplayStep) : List MarketDataEvent :=
  labels.filterMap fun | .pop event => some event | _ => none

def lateAfter (late : List MarketDataEvent) : ReplayStep → List MarketDataEvent
  | .push event => late ++ [event]
  | .pop _ | .popFails => []
  | _ => late

/-- The events pushed since the consumer last called `tryPop`. -/
def sinceLastPop (labels : List ReplayStep) : List MarketDataEvent := labels.foldl lateAfter []

theorem sinceLastPop_append (labels : List ReplayStep) (a : ReplayStep) :
    sinceLastPop (labels ++ [a]) = lateAfter (sinceLastPop labels) a := by
  rw [sinceLastPop, List.foldl_append]
  rfl

theorem taken_append (labels labels' : List ReplayStep) :
    taken (labels ++ labels') = taken labels ++ taken labels' :=
  List.filterMap_append

/-- After the labels, with these items in the queue: every event is applied, queued or still to
come, and once the consumer has seen an empty queue it holds the later events. -/
structure Consistent (events : List MarketDataEvent) (labels : List ReplayStep)
    (s : Replay c n) (pending : List MarketDataEvent) : Prop where
  queue : s.queue.Pending pending
  events : events = taken labels ++ pending ++ s.remaining
  book : s.book = (OrderBook.fresh c).processAll (taken labels)
  counted : s.applied + s.rejected = (taken labels).length
  finished : s.producerDone = true → s.remaining = []
  late : s.consumer ≠ .polling → pending = sinceLastPop labels
  exited : s.consumer = .exited → s.producerDone = true

variable {s s' : Replay c n} {events pending : List MarketDataEvent} {labels : List ReplayStep}
  {storage : Pool MarketDataEvent n.val}

theorem apply_fields (s : Replay c n) (event : MarketDataEvent)
    (queue : SpscQueue MarketDataEvent n) :
    (s.apply event queue).queue = queue ∧
    (s.apply event queue).remaining = s.remaining ∧
    (s.apply event queue).book = (s.book.processEvent event).2 ∧
    (s.apply event queue).applied + (s.apply event queue).rejected = s.applied + s.rejected + 1 ∧
    (s.apply event queue).producerDone = s.producerDone ∧
    (s.apply event queue).consumer = s.consumer := by
  unfold apply
  dsimp only
  split_ifs
  · exact ⟨rfl, rfl, rfl, by dsimp only; omega, rfl, rfl⟩
  · exact ⟨rfl, rfl, rfl, by dsimp only; omega, rfl, rfl⟩

/-- A label that neither pushes nor looks at the queue. -/
theorem Consistent.quiet {a : ReplayStep} (h : Consistent events labels s pending)
    (htaken : taken [a] = []) (hlate : ∀ late, lateAfter late a = late) :
    Consistent events (labels ++ [a]) s pending := by
  have hlate : sinceLastPop (labels ++ [a]) = sinceLastPop labels := by
    rw [sinceLastPop_append, hlate]
  have htaken : taken (labels ++ [a]) = taken labels := by
    rw [taken_append, htaken, List.append_nil]
  exact ⟨h.queue, by rw [htaken]; exact h.events, by rw [htaken]; exact h.book,
    by rw [htaken]; exact h.counted, h.finished, by rw [hlate]; exact h.late, h.exited⟩

theorem Consistent.step {a : ReplayStep} (h : Consistent events labels s pending)
    (hstep : Step s a s') : ∃ pending', Consistent events (labels ++ [a]) s' pending' := by
  cases hstep with
  | @push event rest queue hremaining hpush =>
    have hqueue := h.queue.tryPush hpush
    refine ⟨pending ++ [event], hqueue, ?_, ?_, ?_, ?_, ?_, h.exited⟩
    · rw [taken_append, h.events, hremaining]
      simp [taken]
    · rw [taken_append, h.book]
      simp [taken]
    · rw [taken_append, h.counted]
      simp [taken]
    · intro hdone
      have := h.finished hdone
      rw [hremaining] at this
      cases this
    · intro hconsumer
      rw [h.late hconsumer, sinceLastPop_append]
      rfl
  | pushFails _ _ => exact ⟨pending, h.quiet rfl fun _ => rfl⟩
  | storeDone hremaining =>
    have hquiet := h.quiet (a := .storeDone) rfl fun _ => rfl
    exact ⟨pending, { hquiet with finished := fun _ => hremaining, exited := fun _ => rfl }⟩
  | @pop event queue hconsumer hpop =>
    obtain ⟨hq, hremaining, hbook, hcounted, hdone, hconsumer'⟩ := s.apply_fields event queue
    obtain ⟨rest, rfl, hqueue⟩ := h.queue.tryPop hpop
    have htaken : taken (labels ++ [.pop event]) = taken labels ++ [event] := taken_append _ _
    refine ⟨rest, by rwa [hq], ?_, ?_, ?_, ?_, ?_, ?_⟩
    · rw [htaken, hremaining, h.events]
      simp
    · rw [htaken, hbook, h.book, OrderBook.processAll_append]
      rfl
    · rw [htaken, hcounted, h.counted, List.length_append, List.length_singleton]
    · rw [hdone, hremaining]
      exact h.finished
    · intro hpolling
      exact absurd (hconsumer'.trans hconsumer) hpolling
    · intro hexited
      rw [hconsumer', hconsumer] at hexited
      cases hexited
  | popFails hconsumer hpop =>
    have hnil := h.queue.tryPop_none_iff.mp hpop
    have htaken : taken (labels ++ [.popFails]) = taken labels := by
      rw [taken_append]
      exact List.append_nil _
    refine ⟨pending, h.queue, ?_, ?_, ?_, h.finished, ?_, ?_⟩
    · rw [htaken]
      exact h.events
    · rw [htaken]
      exact h.book
    · rw [htaken]
      exact h.counted
    · intro _
      rw [hnil, sinceLastPop_append]
      rfl
    · intro hexited
      cases hexited
  | loadDone hconsumer =>
    have hquiet := h.quiet (a := .loadDone s.producerDone) rfl fun _ => rfl
    refine ⟨pending, { hquiet with late := ?_, exited := ?_ }⟩
    · intro _
      exact hquiet.late (by simp [hconsumer])
    · dsimp only
      intro hexited
      by_contra hdone
      simp [hdone] at hexited

theorem run_consistent (hrun : Run Step (start storage events) labels (s : Replay c n)) :
    ∃ pending, Consistent events labels s pending := by
  refine hrun.invariant_labels (I := fun labels s => ∃ pending, Consistent events labels s pending)
    ⟨[], Ring.holds_nil _ _, rfl, rfl, rfl, by simp [start], by simp [start], by simp [start]⟩ ?_
  rintro labels s a s' ⟨pending, hs⟩ hstep
  exact hs.step hstep

/-- When the consumer's loop exits, every event of the connector has been applied, once and in
order, if and only if none was pushed since the consumer last called `tryPop`. -/
theorem none_lost_iff (hrun : Run Step (start storage events) labels (s : Replay c n))
    (hexited : s.consumer = .exited) :
    (taken labels = events ∧ s.book = (OrderBook.fresh c).processAll events ∧
      s.applied + s.rejected = events.length) ↔ sinceLastPop labels = [] := by
  obtain ⟨pending, hs⟩ := run_consistent hrun
  have hremaining := hs.finished (hs.exited hexited)
  have hpending : pending = sinceLastPop labels := hs.late (by simp [hexited])
  have hevents := hs.events
  rw [hremaining, List.append_nil, hpending] at hevents
  constructor
  · rintro ⟨htaken, -, -⟩
    rw [htaken] at hevents
    simpa using hevents
  · intro hlate
    rw [hlate, List.append_nil] at hevents
    rw [hevents]
    exact ⟨rfl, hs.book, hs.counted⟩

/-- The queue of `market_replay`. -/
def queueSlots : QueueSlots := ⟨65536, by decide⟩

def oneAdd : MarketDataEvent := { type := .add, orderId := 1, priceTicks := 10, quantity := 5 }

def oneEvent : Replay .one queueSlots := start ⟨fun _ => oneAdd⟩ [oneAdd]

/-- The event is pushed while the consumer is between its two looks, but popped by the next. -/
def seenInTime : List ReplayStep :=
  [.popFails, .push oneAdd, .loadDone false, .pop oneAdd, .storeDone, .popFails, .loadDone true]

theorem seen_in_time_applied :
    ∃ s, Run Step oneEvent seenInTime s ∧ s.consumer = .exited ∧ taken seenInTime = [oneAdd] ∧
      s.book = (OrderBook.fresh .one).processAll [oneAdd] ∧ s.applied + s.rejected = 1 := by
  have hempty : Run Step oneEvent _ _ := Run.start.next (.popFails rfl rfl)
  have hseen := ((hempty.next (.push rfl rfl)).next (.loadDone rfl)).next (.pop rfl rfl)
  have hrun := ((hseen.next (.storeDone rfl)).next (.popFails rfl rfl)).next (.loadDone rfl)
  refine ⟨_, hrun, rfl, (none_lost_iff hrun rfl).mpr ?_⟩
  rfl

/-- The event is pushed and the flag set between the consumer's two looks. -/
def pushedTooLate : List ReplayStep := [.popFails, .push oneAdd, .storeDone, .loadDone true]

theorem late_event_lost :
    ∃ s, Run Step oneEvent pushedTooLate s ∧ s.consumer = .exited ∧ taken pushedTooLate = [] ∧
      s.applied + s.rejected = 0 := by
  have hempty : Run Step oneEvent _ _ := Run.start.next (.popFails rfl rfl)
  have hrun := ((hempty.next (.push rfl rfl)).next (.storeDone rfl)).next (.loadDone rfl)
  exact ⟨_, hrun, rfl, rfl, rfl⟩

end Replay

end MarketEngine
