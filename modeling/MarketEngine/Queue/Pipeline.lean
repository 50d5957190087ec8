import MarketEngine.Kit.Execution
import MarketEngine.Queue.Linearizable

/-! # Pipelines over the queue

A producer pushes its items in turn, each as often as it takes. A consumer pops, works
on what it has popped and goes on until it is done. The two threads interleave at
every load, copy and store.
-/

namespace MarketEngine

open Transition

/-- The consumer's loop: what it does with an item, and when it ends. -/
structure Worker (α β : Type*) where
  start : β
  work : β → α → β
  done : β → Bool

structure Pipeline (α β : Type*) (n : QueueSlots) where
  threads : Threads α n
  /-- The items that have yet to be pushed. -/
  sending : List α
  state : β

variable {α β : Type*} {n : QueueSlots}

/-- The item that the producer is at work on. -/
def Producer.item : Producer α n → Option α
  | .idle => none
  | .loadedHead item _ | .foundRoom item _ | .copied item _ => some item

def QueueStep.byProducer : QueueStep α → Bool
  | .callPush _ | .pushFails | .pushMay | .copyIn | .pushed _ => true
  | .callPop | .popFails | .popMay | .copyOut | .popped _ => false

namespace Pipeline

/-- A call begins only where the loop around it is. -/
def Allows (w : Worker α β) (p : Pipeline α β n) : QueueStep α → Prop
  | .callPush item => p.sending.head? = some item
  | .callPop => w.done p.state = false
  | _ => True

def sendingAfter (p : Pipeline α β n) : QueueStep α → List α
  | .pushed _ => p.sending.tail
  | _ => p.sending

def stateAfter (w : Worker α β) (p : Pipeline α β n) : QueueStep α → β
  | .popped item => w.work p.state item
  | _ => p.state

/-- A step of one of the two threads. -/
structure Step (w : Worker α β) (p : Pipeline α β n) (a : QueueStep α) (p' : Pipeline α β n) :
    Prop where
  allows : p.Allows w a
  threads : Threads.Step p.threads a p'.threads
  sending : p'.sending = p.sendingAfter a
  state : p'.state = p.stateAfter w a

def initial (w : Worker α β) (storage : Pool α n.val) (items : List α) : Pipeline α β n where
  threads := .initial storage
  sending := items
  state := w.start

variable {w : Worker α β} {p p' : Pipeline α β n} {items pending : List α}
  {labels : List (QueueStep α)} {a : QueueStep α} {storage : Pool α n.val}

/-! ## Every interleaving -/

/-- Every item has been worked on, is in the queue or is still to come, in this order. -/
structure Consistent (w : Worker α β) (items : List α) (labels : List (QueueStep α))
    (p : Pipeline α β n) (pending : List α) : Prop where
  threads : p.threads.Consistent pending
  items : items = popped labels ++ pending ++ p.sending
  producing : ∀ item, p.threads.producer.item = some item → p.sending.head? = some item
  state : p.state = (popped labels).foldl w.work w.start
  consuming : p.threads.consumer ≠ .idle → w.done p.state = false

theorem Consistent.sends (h : Consistent w items labels p pending) (hstep : Step w p a p') :
    pushed [a] ++ p'.sending = p.sending := by
  have hsending := hstep.sending
  have hthreads := hstep.threads
  generalize p'.threads = threads' at hthreads
  cases hthreads with
  | @pushed item head hp =>
    obtain ⟨rest, hrest⟩ := List.head?_eq_some_iff.mp (h.producing item (by simp [hp, Producer.item]))
    simp [hsending, sendingAfter, hrest, pushed]
  | _ => exact hsending

theorem Consistent.step (h : Consistent w items labels p pending) (hstep : Step w p a p') :
    ∃ pending', Consistent w items (labels ++ [a]) p' pending' ∧
      pending ++ pushed [a] = popped [a] ++ pending' := by
  obtain ⟨pending', hthreads', heffect⟩ := h.threads.step hstep.threads
  refine ⟨pending', ⟨hthreads', ?_, ?_, ?_, ?_⟩, heffect⟩
  · rw [h.items, popped_append, ← h.sends hstep]
    simp only [List.append_assoc]
    rw [← List.append_assoc pending, heffect]
    simp
  · have hallows := hstep.allows
    have hsending := hstep.sending
    have hproducing := h.producing
    have hthreads := hstep.threads
    generalize p'.threads = threads' at hthreads
    cases hthreads <;> simp_all [Producer.item, Allows, sendingAfter]
  · rw [hstep.state, popped_append, List.foldl_append, ← h.state]
    cases a <;> rfl
  · have hallows := hstep.allows
    have hstate := hstep.state
    have hconsuming := h.consuming
    have hthreads := hstep.threads
    generalize p'.threads = threads' at hthreads
    cases hthreads <;> simp_all [Allows, stateAfter]

theorem run_consistent (hrun : Run (Step w) (initial w storage items) labels p) :
    ∃ pending, Consistent w items labels p pending := by
  refine hrun.invariant_labels (I := fun labels p => ∃ pending, Consistent w items labels p pending)
    ⟨[], Threads.initial_consistent storage, rfl, by simp [initial, Threads.initial, Producer.item],
      rfl, by simp [initial, Threads.initial]⟩ ?_
  rintro labels p a p' ⟨pending, h⟩ hstep
  obtain ⟨pending', h', -⟩ := h.step hstep
  exact ⟨pending', h'⟩

/-- The consumer is done with the last item, and not before. -/
structure Stops (w : Worker α β) (items : List α) : Prop where
  done : w.done (items.foldl w.work w.start) = true
  minimal : ∀ seen rest, items = seen ++ rest → w.done (seen.foldl w.work w.start) = true →
    rest = []

/-- A consumer that is done has worked on every item, and nothing is left in the queue. -/
theorem Consistent.finished (h : Consistent w items labels p pending) (hstops : Stops w items)
    (hdone : w.done p.state = true) :
    popped labels = items ∧ pending = [] ∧ p.sending = [] := by
  have hitems := h.items
  rw [List.append_assoc] at hitems
  rw [h.state] at hdone
  have hrest := hstops.minimal _ _ hitems hdone
  rw [hrest, List.append_nil] at hitems
  exact ⟨hitems.symm, List.append_eq_nil_iff.mp hrest⟩

/-! ## Fair executions -/

/-- A thread that has not finished is scheduled again. -/
structure Fair (w : Worker α β) (e : Execution (Step (n := n) w) p) : Prop where
  producer : ∀ t, (e.state t).sending ≠ [] →
    ∃ u, t ≤ u ∧ ∃ a, e.label u = some a ∧ a.byProducer = true
  consumer : ∀ t, w.done (e.state t).state = false →
    ∃ u, t ≤ u ∧ ∃ a, e.label u = some a ∧ a.byProducer = false

end Pipeline

/-- The steps to the end of a call that succeeds. -/
def Producer.rank : Producer α n → ℕ
  | .idle => 3
  | .loadedHead _ _ => 2
  | .foundRoom _ _ => 1
  | .copied _ _ => 0

def Consumer.rank : Consumer α n → ℕ
  | .idle => 3
  | .loadedTail _ => 2
  | .foundItem _ => 1
  | .copied _ _ => 0

namespace Threads

variable {s s' : Threads α n} {pending : List α} {a : QueueStep α}

/-- While there is room the producer comes nearer to a push with each of its steps. -/
theorem Consistent.producer_rank (h : s.Consistent pending)
    (hroom : pending.length < n.usableCapacity) (hstep : Step s a s') (hpushed : pushed [a] = []) :
    s'.producer.rank ≤ s.producer.rank ∧
      (a.byProducer = true → s'.producer.rank < s.producer.rank) := by
  obtain ⟨hqueue, hproducer, -⟩ := h
  cases hstep with
  | @pushFails item head hp hfull =>
    simp only [ProducerOk, hp] at hproducer
    subst hproducer
    exact absurd (hqueue.full_iff.mp hfull) hroom.ne
  | pushed => cases hpushed
  | _ => simp_all [Producer.rank, QueueStep.byProducer]

/-- While there is an item the consumer comes nearer to a pop with each of its steps. -/
theorem Consistent.consumer_rank (h : s.Consistent pending) (hitem : pending ≠ [])
    (hstep : Step s a s') (hpopped : popped [a] = []) :
    s'.consumer.rank ≤ s.consumer.rank ∧
      (a.byProducer = false → s'.consumer.rank < s.consumer.rank) := by
  obtain ⟨hqueue, -, hconsumer⟩ := h
  cases hstep with
  | @popFails tail hc hempty =>
    simp only [ConsumerOk, hc] at hconsumer
    subst hconsumer
    exact absurd (hqueue.empty_iff.mp hempty) hitem
  | popped => cases hpopped
  | _ => simp_all [Consumer.rank, QueueStep.byProducer]

end Threads

namespace Pipeline

open SpscQueue

variable {w : Worker α β} {p p' p₀ : Pipeline α β n} {items pending : List α}
  {labels : List (QueueStep α)} {a : QueueStep α} {storage : Pool α n.val}

/-- The pushes and the pops to come. -/
def left (p : Pipeline α β n) : ℕ :=
  2 * p.sending.length + sizeApprox p.threads.queue.head p.threads.queue.tail

/-- A push or a pop comes nearer to the end, any other step leaves the queue and the loops as they
are. -/
theorem Consistent.left_step (h : Consistent w items labels p pending) (hstep : Step w p a p') :
    p'.left < p.left ∨ pushed [a] = [] ∧ popped [a] = [] ∧
      Consistent w items (labels ++ [a]) p' pending ∧ p'.left = p.left ∧
      p'.sending = p.sending ∧ p'.state = p.state := by
  obtain ⟨pending', h', heffect⟩ := h.step hstep
  have hsends := h.sends hstep
  have hleft : p.left = 2 * p.sending.length + pending.length := by
    rw [left, h.threads.queue.sizeApprox_eq]
  have hleft' : p'.left = 2 * p'.sending.length + pending'.length := by
    rw [left, h'.threads.queue.sizeApprox_eq]
  have hlength := congrArg List.length heffect
  have hlengths := congrArg List.length hsends
  simp only [List.length_append] at hlength hlengths
  rcases hp : pushed [a] with - | ⟨item, rest⟩
  · rcases hc : popped [a] with - | ⟨item, rest⟩
    · obtain rfl : pending = pending' := by simpa [hp, hc] using heffect
      obtain hsending : p'.sending = p.sending := by simpa [hp] using hsends
      refine .inr ⟨rfl, rfl, h', by rw [hleft, hleft', hsending], hsending, ?_⟩
      rw [hstep.state]
      cases a <;> first | rfl | cases hc
    · rw [hp, hc] at hlength
      rw [hp] at hlengths
      simp only [List.length_nil, List.length_cons] at hlength hlengths
      exact .inl (by omega)
  · have hc : popped [a] = [] := by cases a <;> first | rfl | cases hp
    rw [hp, hc] at hlength
    rw [hp] at hlengths
    simp only [List.length_nil, List.length_cons] at hlength hlengths
    exact .inl (by omega)

/-- One thread is scheduled again and again, and each of its steps brings its call nearer to the
end: then the call ends. -/
theorem Consistent.nears {e : Execution (Step w) (initial w storage items)} {t : ℕ}
    (h : Consistent w items labels (e.state t) pending) (thread : Bool) (rank : Threads α n → ℕ)
    (hfair : ∀ u, (e.state u).sending = (e.state t).sending →
      (e.state u).state = (e.state t).state →
      ∃ v, u ≤ v ∧ ∃ a, e.label v = some a ∧ a.byProducer = thread)
    (hrank : ∀ s a s', Threads.Consistent s pending → Threads.Step s a s' → pushed [a] = [] →
      popped [a] = [] → rank s' ≤ rank s ∧ (a.byProducer = thread → rank s' < rank s)) :
    ∃ u, (e.state u).left < (e.state t).left := by
  have hprogress := eventually_of_rank (t := t)
    (P := fun u => (∃ labels, Consistent w items labels (e.state u) pending) ∧
      (e.state u).left = (e.state t).left ∧ (e.state u).sending = (e.state t).sending ∧
      (e.state u).state = (e.state t).state)
    (Q := fun u => (e.state u).left < (e.state t).left)
    (H := fun u => ∃ a, e.label u = some a ∧ a.byProducer = thread)
    (fun u => rank (e.state u).threads) (fun u hu => hfair u hu.2.2.1 hu.2.2.2) ?_
    ⟨⟨labels, h⟩, rfl, rfl, rfl⟩
  · obtain ⟨u, -, hu⟩ := hprogress
    exact ⟨u, hu⟩
  · rintro u ⟨⟨labels, hu⟩, hleft, hsending, hstate⟩
    cases hlabel : e.label u with
    | none =>
      rw [e.idle u hlabel]
      exact .inr ⟨⟨⟨labels, hu⟩, hleft, hsending, hstate⟩, le_rfl, by rintro ⟨a, ha, -⟩; cases ha⟩
    | some a =>
      have hstep := e.steps u a hlabel
      rcases hu.left_step hstep with hlt | ⟨hpushed, hpopped, hu', hleft', hsending', hstate'⟩
      · exact .inl (hleft ▸ hlt)
      · obtain ⟨hle, hlt⟩ := hrank _ _ _ hu.threads hstep.threads hpushed hpopped
        refine .inr ⟨⟨⟨_, hu'⟩, hleft'.trans hleft, hsending'.trans hsending,
          hstate'.trans hstate⟩, hle, ?_⟩
        rintro ⟨b, hb, hthread⟩
        obtain rfl := Option.some.inj hb
        exact hlt hthread

/-- In a fair execution the consumer is done at last, and it has worked on all items in turn. -/
theorem Fair.finishes {e : Execution (Step w) (initial w storage items)} (hfair : Fair w e)
    (hstops : Stops w items) : ∃ t, (e.state t).state = items.foldl w.work w.start := by
  suffices h : ∃ t, w.done (e.state t).state = true by
    obtain ⟨t, hdone⟩ := h
    obtain ⟨pending, ht⟩ := run_consistent (e.run t)
    obtain ⟨hpopped, -, -⟩ := ht.finished hstops hdone
    exact ⟨t, by rw [ht.state, hpopped]⟩
  refine eventually_of_measure (fun t => (e.state t).left) fun t => ?_
  obtain ⟨pending, ht⟩ := run_consistent (e.run t)
  cases hgoes : w.done (e.state t).state with
  | true => exact ⟨t, .inl hgoes⟩
  | false =>
    suffices h : ∃ u, (e.state u).left < (e.state t).left by
      obtain ⟨u, hu⟩ := h
      exact ⟨u, .inr hu⟩
    rcases pending with - | ⟨item, rest⟩
    · -- everything that was pushed has been popped, so the producer has more to push
      have hsending : (e.state t).sending ≠ [] := by
        intro hnil
        have hitems := ht.items
        rw [hnil, List.append_nil, List.append_nil] at hitems
        rw [ht.state, ← hitems, hstops.done] at hgoes
        cases hgoes
      have hroom : 0 < n.usableCapacity := Nat.sub_pos_of_lt n.two_le
      exact ht.nears true (fun s => s.producer.rank)
        (fun u hsame _ => hfair.producer u (hsame ▸ hsending))
        fun s a s' hs hstep hpushed _ => hs.producer_rank hroom hstep hpushed
    · exact ht.nears false (fun s => s.consumer.rank)
        (fun u _ hsame => hfair.consumer u (by rwa [hsame]))
        fun s a s' hs hstep _ hpopped => hs.consumer_rank (by simp) hstep hpopped

/-- A run to the end is a fair execution, if nothing more is scheduled. -/
theorem exists_fair (hrun : Run (Step w) p₀ labels p) (hsending : p.sending = [])
    (hdone : w.done p.state = true) : ∃ e : Execution (Step w) p₀, Fair w e := by
  obtain ⟨e, -, hlast⟩ := hrun.execution
  -- a thread that takes no more steps has come to the end
  have hkeeps : ∀ (t : ℕ) (thread : Bool),
      (∀ u, t ≤ u → ∀ a, e.label u = some a → a.byProducer ≠ thread) → ∀ u, t ≤ u →
      (thread = true → (e.state u).sending = (e.state t).sending) ∧
        (thread = false → (e.state u).state = (e.state t).state) := by
    intro t thread hnever u htu
    induction u, htu using Nat.le_induction with
    | base => exact ⟨fun _ => rfl, fun _ => rfl⟩
    | succ u htu ih =>
      cases hlabel : e.label u with
      | none => rwa [e.idle u hlabel]
      | some a =>
        have hstep := e.steps u a hlabel
        have hother := hnever u htu a hlabel
        rw [hstep.sending, hstep.state]
        constructor
        · rintro rfl
          rw [← ih.1 rfl]
          cases a <;> simp_all [sendingAfter, QueueStep.byProducer]
        · rintro rfl
          rw [← ih.2 rfl]
          cases a <;> simp_all [stateAfter, QueueStep.byProducer]
  have hend : ∀ t, ∃ u, t ≤ u ∧ e.state u = p :=
    fun t => ⟨max t labels.length, le_max_left _ _, hlast _ (le_max_right _ _)⟩
  refine ⟨e, fun t hmore => ?_, fun t hgoes => ?_⟩
  · by_contra hnever
    push Not at hnever
    obtain ⟨u, htu, hu⟩ := hend t
    have hsame := (hkeeps t true hnever u htu).1 rfl
    rw [hu, hsending] at hsame
    exact hmore hsame.symm
  · by_contra hnever
    push Not at hnever
    obtain ⟨u, htu, hu⟩ := hend t
    have hsame := (hkeeps t false hnever u htu).2 rfl
    rw [← hsame, hu, hdone] at hgoes
    cases hgoes

theorem Step.of_threads {s' : Threads α n} (hstep : Threads.Step p.threads a s')
    (hallows : p.Allows w a) : Step w p a ⟨s', p.sendingAfter a, p.stateAfter w a⟩ :=
  ⟨hallows, hstep, rfl, rfl⟩

theorem Consistent.run {labels' : List (QueueStep α)} (h : Consistent w items labels p pending)
    (hrun : Run (Step w) p labels' p') :
    ∃ pending', Consistent w items (labels ++ labels') p' pending' ∧
      pending ++ pushed labels' = popped labels' ++ pending' := by
  induction hrun with
  | start => exact ⟨pending, by rwa [List.append_nil], List.append_nil _⟩
  | @next labels' p₁ p₂ a _ hstep ih =>
    obtain ⟨pending₁, h₁, heffect₁⟩ := ih
    obtain ⟨pending₂, h₂, heffect₂⟩ := h₁.step hstep
    refine ⟨pending₂, by rwa [← List.append_assoc], ?_⟩
    rw [pushed_append, popped_append, ← List.append_assoc, heffect₁, List.append_assoc, heffect₂,
      List.append_assoc]

/-- One item, pushed and then popped. -/
theorem Consistent.serve {item : α} {rest : List α} (h : Consistent w items labels p [])
    (hproducer : p.threads.producer = .idle) (hconsumer : p.threads.consumer = .idle)
    (hsending : p.sending = item :: rest) (hgoes : w.done p.state = false) :
    ∃ labels' p', Run (Step w) p labels' p' ∧ Consistent w items (labels ++ labels') p' [] ∧
      p'.threads.producer = .idle ∧ p'.threads.consumer = .idle ∧ p'.sending = rest := by
  have hqueue := h.threads.queue
  have hempty : p.threads.queue.tail = p.threads.queue.head := hqueue.empty_iff.mpr rfl
  have hroom : increment p.threads.queue.head ≠ p.threads.queue.tail := by
    have hpos : 0 < n.usableCapacity := Nat.sub_pos_of_lt n.two_le
    rw [ne_eq, hqueue.full_iff]
    exact hpos.ne
  have hpush := (((Run.start.next (Step.of_threads (.callPush item hproducer)
    (by simp [Allows, hsending]))).next (Step.of_threads (w := w) (.pushMay rfl hroom) trivial)).next
    (Step.of_threads (w := w) (.copyIn rfl) trivial)).next
    (Step.of_threads (w := w) (.pushed rfl) trivial)
  have hpop := (((hpush.next (Step.of_threads (.callPop hconsumer) hgoes)).next
    (Step.of_threads (w := w) (.popMay rfl fun heq => hroom heq.symm) trivial)).next
    (Step.of_threads (w := w) (.copyOut rfl) trivial)).next
    (Step.of_threads (w := w) (.popped rfl) trivial)
  obtain ⟨pending', h', heffect⟩ := h.run hpop
  obtain ⟨-, rfl⟩ : _ ∧ pending' = [] := by simpa [pushed, popped] using heffect
  exact ⟨_, _, hpop, h', rfl, rfl, congrArg List.tail hsending⟩

/-- The two threads can come to the end by taking turns. -/
theorem Consistent.exists_finish (hstops : Stops w items) {rest : List α}
    (h : Consistent w items labels p []) (hproducer : p.threads.producer = .idle)
    (hconsumer : p.threads.consumer = .idle) (hsending : p.sending = rest) :
    ∃ labels' p', Run (Step w) p labels' p' ∧ p'.sending = [] ∧ w.done p'.state = true := by
  induction rest generalizing labels p with
  | nil =>
    refine ⟨[], p, .start, hsending, ?_⟩
    rw [h.state, ← hstops.done, h.items, hsending, List.append_nil, List.append_nil]
  | cons item rest ih =>
    have hgoes : w.done p.state = false := by
      by_contra hdone
      obtain ⟨-, -, hnil⟩ := h.finished hstops (by simpa using hdone)
      rw [hsending] at hnil
      cases hnil
    obtain ⟨labels₁, p₁, hrun₁, h₁, hproducer₁, hconsumer₁, hsending₁⟩ :=
      h.serve hproducer hconsumer hsending hgoes
    obtain ⟨labels₂, p₂, hrun₂, hend⟩ := ih h₁ hproducer₁ hconsumer₁ hsending₁
    exact ⟨labels₁ ++ labels₂, p₂, hrun₁.trans hrun₂, hend⟩

/-- There is a fair execution. -/
theorem Stops.exists_fair (hstops : Stops w items) (storage : Pool α n.val) :
    ∃ e : Execution (Step w) (initial w storage items), Fair w e := by
  have hstart : Run (Step w) (initial w storage items) [] (initial w storage items) := .start
  obtain ⟨pending, h⟩ := run_consistent hstart
  obtain rfl : pending = [] := by simpa [initial, popped] using h.items
  obtain ⟨labels, p, hrun, hsending, hdone⟩ := h.exists_finish hstops rfl rfl rfl
  exact Pipeline.exists_fair hrun hsending hdone

end Pipeline

end MarketEngine
