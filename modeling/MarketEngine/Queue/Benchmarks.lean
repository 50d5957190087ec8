import MarketEngine.Book.Runs
import MarketEngine.Queue.Pipeline

/-! # The pipelines of the benchmarks

`IoUringPipelineBench` ends its stream with an item that says stop, `run_pipeline`
counts its events. Either way the consumer leaves its loop after the last event and
not before, and the book is the one that a single thread would have made.
-/

namespace MarketEngine

open Pipeline Transition

variable {c : Capacity} {n : QueueSlots}

/-! ## A stop at the end -/

structure PipeItem where
  event : MarketDataEvent := {}
  ingressCycles : UInt64 := 0
  stop : Bool := false

namespace PipeItem

/-- The last item that the producer pushes. -/
def stopItem : PipeItem := { stop := true }

/-- The consumer's book, and whether it has left its loop. -/
structure Consumer (c : Capacity) where
  book : OrderBook c := OrderBook.fresh c
  stopped : Bool := false

def worker (c : Capacity) : Worker PipeItem (Consumer c) where
  start := {}
  work s item :=
    if item.stop then { s with stopped := true }
    else { s with book := (s.book.processEvent item.event).2 }
  done s := s.stopped

variable {items : List PipeItem} {storage : Pool PipeItem n.val}

theorem foldl_work (h : ∀ item ∈ items, item.stop = false) (s : Consumer c) :
    items.foldl (worker c).work s = { s with book := s.book.processAll (items.map event) } := by
  induction items generalizing s with
  | nil => rfl
  | cons item items ih =>
    obtain ⟨hitem, hitems⟩ := List.forall_mem_cons.mp h
    rw [List.foldl_cons, ih hitems]
    simp [worker, hitem, OrderBook.processAll]

/-- What comes before the last item. -/
theorem before_stop {seen rest : List PipeItem} (hsplit : items ++ [stopItem] = seen ++ rest)
    (hrest : rest ≠ []) : ∃ others, items = seen ++ others := by
  obtain ⟨others, last, rfl⟩ := (List.eq_nil_or_concat rest).resolve_left hrest
  rw [List.concat_eq_append, ← List.append_assoc] at hsplit
  exact ⟨others, (List.append_inj' hsplit rfl).1⟩

theorem stops (h : ∀ item ∈ items, item.stop = false) :
    Stops (worker c) (items ++ [stopItem]) where
  done := by
    rw [List.foldl_append, foldl_work h]
    rfl
  minimal seen rest hsplit hdone := by
    by_contra hrest
    obtain ⟨others, rfl⟩ := before_stop hsplit hrest
    have hseen : ∀ item ∈ seen, item.stop = false := fun item hitem =>
      h item (List.mem_append_left _ hitem)
    rw [foldl_work hseen] at hdone
    cases hdone

/-- The book has seen a first part of the events in every interleaving, and all of them once the
consumer has stopped. In a fair one it stops. -/
theorem stop_pipeline_drains (storage : Pool PipeItem n.val)
    (h : ∀ item ∈ items, item.stop = false) :
    (∀ labels (p : Pipeline PipeItem (Consumer c) n),
        Run (Step (worker c)) (initial (worker c) storage (items ++ [stopItem])) labels p →
        ∃ seen rest, items = seen ++ rest ∧
          p.state.book = (OrderBook.fresh c).processAll (seen.map event) ∧
          (p.state.stopped = true →
            rest = [] ∧ p.sending = [] ∧ p.threads.queue.isEmpty = true)) ∧
      ∀ e : Execution (Step (worker c)) (initial (worker c) storage (items ++ [stopItem])),
        Fair (worker c) e →
        ∃ t, (e.state t).state = ⟨(OrderBook.fresh c).processAll (items.map event), true⟩ := by
  constructor
  · rintro labels p hrun
    obtain ⟨pending, hp⟩ := run_consistent hrun
    cases hstopped : p.state.stopped with
    | true =>
      obtain ⟨hpopped, rfl, hsending⟩ := hp.finished (stops h) hstopped
      refine ⟨items, [], (List.append_nil _).symm, ?_, fun _ => ⟨rfl, hsending, ?_⟩⟩
      · rw [hp.state, hpopped, List.foldl_append, foldl_work h]
        rfl
      · exact hp.threads.queue.isEmpty_iff.mpr rfl
    | false =>
      have hitems := hp.items
      rw [List.append_assoc] at hitems
      have hrest : pending ++ p.sending ≠ [] := by
        intro hnil
        rw [hnil, List.append_nil] at hitems
        have hdone := (stops (c := c) h).done
        rw [hitems, ← hp.state] at hdone
        exact absurd (hdone.symm.trans hstopped) (by simp)
      obtain ⟨others, rfl⟩ := before_stop hitems hrest
      refine ⟨popped labels, others, rfl, ?_, by simp⟩
      rw [hp.state, foldl_work fun item hitem => h item (List.mem_append_left _ hitem)]
      rfl
  · rintro e hfair
    obtain ⟨t, ht⟩ := hfair.finishes (stops h)
    refine ⟨t, ?_⟩
    rw [ht, List.foldl_append, foldl_work h]
    rfl

/-- One event goes through. -/
theorem one_item_drained :
    let item : PipeItem := { event := { type := .add, orderId := 1, quantity := 5 } }
    let first := initial (n := ⟨2, le_rfl⟩) (worker .one) ⟨fun _ => stopItem⟩ ([item] ++ [stopItem])
    ∃ e : Execution (Step (worker .one)) first, Fair (worker .one) e ∧
      ∃ t, (e.state t).state = ⟨(OrderBook.fresh .one).processAll [item.event], true⟩ := by
  intro item first
  have hitems : ∀ other ∈ [item], other.stop = false := by simp [item]
  obtain ⟨e, hfair⟩ := (stops (c := .one) hitems).exists_fair (n := ⟨2, le_rfl⟩) ⟨fun _ => stopItem⟩
  exact ⟨e, hfair, (stop_pipeline_drains _ hitems).2 e hfair⟩

end PipeItem

/-! ## A count of events -/

structure TimedEvent where
  event : MarketDataEvent := {}
  readyNs : UInt64 := 0
  publishStartNs : UInt64 := 0
  sampled : Bool := false

namespace TimedEvent

/-- The consumer's book, the events it has processed, and whether one was rejected. -/
structure Consumer (c : Capacity) where
  book : OrderBook c
  processed : ℕ := 0
  rejected : Bool := false

def worker (b : OrderBook c) (count : ℕ) : Worker TimedEvent (Consumer c) where
  start := { book := b }
  work s timed :=
    let (result, book) := s.book.processEvent timed.event
    { book, processed := s.processed + 1,
      rejected := if result ≠ .applied then true else s.rejected }
  done s := decide (count ≤ s.processed)

/-- The book that `run_pipeline` reports, unless it throws. -/
def Consumer.result (s : Consumer c) : Option (OrderBook c) :=
  if s.rejected then none else some s.book

/-- The loop of `run_hot_path`, which throws at the first event that is not applied. -/
def runHotPath (b : OrderBook c) (events : List MarketDataEvent) : Option (OrderBook c) :=
  events.foldlM (fun b event =>
    let (result, book) := b.processEvent event
    if result ≠ .applied then none else some book) b

variable {b : OrderBook c} {items : List TimedEvent} {count : ℕ}

theorem foldl_processed (b : OrderBook c) (count : ℕ) (items : List TimedEvent) (s : Consumer c) :
    (items.foldl (worker b count).work s).processed = s.processed + items.length := by
  induction items generalizing s with
  | nil => rfl
  | cons item items ih =>
    rw [List.foldl_cons, ih]
    simp only [worker, List.length_cons]
    omega

theorem stops (b : OrderBook c) (items : List TimedEvent) : Stops (worker b items.length) items where
  done := by
    have hprocessed := foldl_processed b items.length items (worker b items.length).start
    simp only [worker, decide_eq_true_eq] at hprocessed ⊢
    omega
  minimal seen rest hsplit hdone := by
    have hprocessed := foldl_processed b items.length seen (worker b items.length).start
    have hlength := congrArg List.length hsplit
    simp only [worker, decide_eq_true_eq, List.length_append] at hprocessed hlength hdone
    exact List.length_eq_zero_iff.mp (by omega)

/-- A consumer that goes on after a rejection still reports it. -/
theorem foldl_result (s : Consumer c) :
    (items.foldl (worker b count).work s).result =
      s.result.bind fun book => runHotPath book (items.map event) := by
  induction items generalizing s with
  | nil =>
    rw [List.foldl_nil]
    cases s.result <;> rfl
  | cons item items ih =>
    rw [List.foldl_cons, ih]
    cases hrejected : s.rejected with
    | true => simp [Consumer.result, worker, hrejected]
    | false =>
      by_cases hresult : (s.book.processEvent item.event).1 = .applied <;>
        simp [Consumer.result, worker, hrejected, hresult, runHotPath]

/-- In every interleaving the pipeline ends with what a single thread comes to, and in a fair one it
ends. -/
theorem counted_pipeline_as_hot_path (b : OrderBook c) (items : List TimedEvent)
    (storage : Pool TimedEvent n.val) :
    let w := worker b items.length
    (∀ labels (p : Pipeline TimedEvent (Consumer c) n),
        Run (Step w) (initial w storage items) labels p → w.done p.state = true →
        p.state.result = runHotPath b (items.map event) ∧ p.sending = [] ∧
          p.threads.queue.isEmpty = true) ∧
      (∃ e : Execution (Step w) (initial w storage items), Fair w e) ∧
      ∀ e : Execution (Step w) (initial w storage items), Fair w e →
        ∃ t, w.done (e.state t).state = true := by
  intro w
  refine ⟨?_, (stops b items).exists_fair storage, ?_⟩
  · rintro labels p hrun hdone
    obtain ⟨pending, hp⟩ := run_consistent hrun
    obtain ⟨hpopped, rfl, hsending⟩ := hp.finished (stops b items) hdone
    refine ⟨?_, hsending, hp.threads.queue.isEmpty_iff.mpr rfl⟩
    rw [hp.state, hpopped, foldl_result]
    rfl
  · rintro e hfair
    obtain ⟨t, ht⟩ := hfair.finishes (stops b items)
    exact ⟨t, by rw [ht, (stops b items).done]⟩

end TimedEvent

end MarketEngine
