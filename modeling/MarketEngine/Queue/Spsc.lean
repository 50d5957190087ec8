import MarketEngine.Kit.Ring
import MarketEngine.Kit.Transition

/-! # The single-producer single-consumer queue

A bounded ring of slots with two indices. The operations are given twice: as
one step each, and as the loads, copies and stores that two threads interleave.
-/

namespace MarketEngine

open Ring Transition

/-- The number of slots of a queue, one of which is reserved. -/
structure QueueSlots where
  val : ℕ
  two_le : 2 ≤ val

instance QueueSlots.neZero (n : QueueSlots) : NeZero n.val := ⟨by have := n.two_le; omega⟩

def QueueSlots.usableCapacity (n : QueueSlots) : ℕ := n.val - 1

/-- `head` is stored by the producer only, `tail` by the consumer only. -/
structure SpscQueue (α : Type*) (n : QueueSlots) where
  storage : Pool α n.val
  head : Fin n.val := 0
  tail : Fin n.val := 0

variable {α : Type*} {n : QueueSlots}

namespace SpscQueue

def increment (index : Fin n.val) : Fin n.val := Fin.ofNat n.val (index.val + 1)

/-- Store an item, or fail when no slot is left. -/
def tryPush (q : SpscQueue α n) (item : α) : Option (SpscQueue α n) :=
  if increment q.head = q.tail then none
  else some { q with storage := q.storage.set q.head item, head := increment q.head }

/-- Take the oldest item, or fail when there is none. -/
def tryPop (q : SpscQueue α n) : Option (α × SpscQueue α n) :=
  if q.tail = q.head then none
  else some (q.storage.get q.tail, { q with tail := increment q.tail })

def isEmpty (q : SpscQueue α n) : Bool := q.tail = q.head

theorem increment_eq (index : Fin n.val) : increment index = index + 1 := by
  have hone := Nat.mod_eq_of_lt n.two_le
  apply Fin.ext
  simp [increment, Fin.ofNat, Fin.val_add, hone]

/-- The queue holds these items, oldest first. -/
def Pending (q : SpscQueue α n) (items : List α) : Prop :=
  Holds q.storage q.tail q.head items

variable {q q' : SpscQueue α n} {items : List α} {item : α}

theorem Pending.isEmpty_iff (h : q.Pending items) : q.isEmpty = true ↔ items = [] := by
  rw [isEmpty, decide_eq_true_eq]
  exact h.empty_iff

theorem Pending.length_le (h : q.Pending items) : items.length ≤ n.usableCapacity := by
  have := h.length_lt
  unfold QueueSlots.usableCapacity
  omega

theorem Pending.full_iff (h : q.Pending items) :
    increment q.head = q.tail ↔ items.length = n.usableCapacity := by
  have := n.two_le
  rw [increment_eq, Holds.full_iff h, QueueSlots.usableCapacity]
  omega

theorem Pending.tryPush (h : q.Pending items) (hpush : q.tryPush item = some q') :
    q'.Pending (items ++ [item]) := by
  unfold SpscQueue.tryPush at hpush
  split_ifs at hpush with hfull
  obtain rfl := Option.some.inj hpush
  have hlt : items.length + 1 < n.val :=
    lt_of_le_of_ne h.length_lt fun heq => hfull (by rw [increment_eq, Holds.full_iff h, heq])
  have hwrite : Holds (q.storage.set q.head item) q.tail q.head items := Holds.write h item
  have hpushed := hwrite.push hlt (Pool.get_set_self _ _ _)
  rw [← increment_eq] at hpushed
  exact hpushed

theorem Pending.tryPush_none_iff (h : q.Pending items) :
    q.tryPush item = none ↔ items.length = n.usableCapacity := by
  rw [← h.full_iff, SpscQueue.tryPush]
  split_ifs with hfull <;> simp [hfull]

theorem Pending.tryPop (h : q.Pending items) (hpop : q.tryPop = some (item, q')) :
    ∃ rest, items = item :: rest ∧ q'.Pending rest := by
  unfold SpscQueue.tryPop at hpop
  split_ifs at hpop with hempty
  obtain ⟨rfl, rfl⟩ := Prod.mk.inj (Option.some.inj hpop)
  cases items with
  | nil => exact absurd (h.empty_iff.mpr rfl) hempty
  | cons x rest =>
    refine ⟨rest, by rw [Holds.get_tail h], ?_⟩
    have hrest := Holds.pop h
    rw [← increment_eq] at hrest
    exact hrest

theorem Pending.tryPop_none_iff (h : q.Pending items) : q.tryPop = none ↔ items = [] := by
  rw [← Holds.empty_iff h, SpscQueue.tryPop]
  split_ifs with hempty <;> simp [hempty]

end SpscQueue

/-! ## Two threads -/

/-- Where the producer stands inside `tryPush`. -/
inductive Producer (α : Type*) (n : QueueSlots) where
  | idle
  | loadedHead (item : α) (head : Fin n.val)
  | foundRoom (item : α) (head : Fin n.val)
  | copied (item : α) (head : Fin n.val)

/-- Where the consumer stands inside `tryPop`. -/
inductive Consumer (α : Type*) (n : QueueSlots) where
  | idle
  | loadedTail (tail : Fin n.val)
  | foundItem (tail : Fin n.val)
  | copied (item : α) (tail : Fin n.val)

/-- The queue and the two threads at work on it. -/
structure Threads (α : Type*) (n : QueueSlots) where
  queue : SpscQueue α n
  producer : Producer α n := .idle
  consumer : Consumer α n := .idle

/-- One load, copy or store. `pushFails` and `pushMay` are the two outcomes of the producer's
load of `tail`, `popFails` and `popMay` those of the consumer's load of `head`. -/
inductive QueueStep (α : Type*) where
  | callPush (item : α)
  | pushFails
  | pushMay
  | copyIn
  | pushed (item : α)
  | callPop
  | popFails
  | popMay
  | copyOut
  | popped (item : α)

namespace Threads

open SpscQueue

/-- The steps of `tryPush` and `tryPop`, in any interleaving. -/
inductive Step : Threads α n → QueueStep α → Threads α n → Prop
  | callPush {s : Threads α n} (item : α) (h : s.producer = .idle) :
      Step s (.callPush item) { s with producer := .loadedHead item s.queue.head }
  | pushFails {s : Threads α n} {item : α} {head : Fin n.val}
      (h : s.producer = .loadedHead item head) (hfull : increment head = s.queue.tail) :
      Step s .pushFails { s with producer := .idle }
  | pushMay {s : Threads α n} {item : α} {head : Fin n.val}
      (h : s.producer = .loadedHead item head) (hroom : increment head ≠ s.queue.tail) :
      Step s .pushMay { s with producer := .foundRoom item head }
  | copyIn {s : Threads α n} {item : α} {head : Fin n.val}
      (h : s.producer = .foundRoom item head) :
      Step s .copyIn { s with
        queue.storage := s.queue.storage.set head item
        producer := .copied item head }
  | pushed {s : Threads α n} {item : α} {head : Fin n.val}
      (h : s.producer = .copied item head) :
      Step s (.pushed item) { s with queue.head := increment head, producer := .idle }
  | callPop {s : Threads α n} (h : s.consumer = .idle) :
      Step s .callPop { s with consumer := .loadedTail s.queue.tail }
  | popFails {s : Threads α n} {tail : Fin n.val}
      (h : s.consumer = .loadedTail tail) (hempty : tail = s.queue.head) :
      Step s .popFails { s with consumer := .idle }
  | popMay {s : Threads α n} {tail : Fin n.val}
      (h : s.consumer = .loadedTail tail) (hitem : tail ≠ s.queue.head) :
      Step s .popMay { s with consumer := .foundItem tail }
  | copyOut {s : Threads α n} {tail : Fin n.val} (h : s.consumer = .foundItem tail) :
      Step s .copyOut { s with consumer := .copied (s.queue.storage.get tail) tail }
  | popped {s : Threads α n} {item : α} {tail : Fin n.val}
      (h : s.consumer = .copied item tail) :
      Step s (.popped item) { s with queue.tail := increment tail, consumer := .idle }

end Threads

/-- The items of the pushes that succeeded, in order. -/
def pushed (labels : List (QueueStep α)) : List α :=
  labels.filterMap fun | .pushed item => some item | _ => none

/-- The items of the pops that succeeded, in order. -/
def popped (labels : List (QueueStep α)) : List α :=
  labels.filterMap fun | .popped item => some item | _ => none

theorem pushed_append (labels labels' : List (QueueStep α)) :
    pushed (labels ++ labels') = pushed labels ++ pushed labels' :=
  List.filterMap_append

theorem popped_append (labels labels' : List (QueueStep α)) :
    popped (labels ++ labels') = popped labels ++ popped labels' :=
  List.filterMap_append

namespace Threads

open SpscQueue

variable {s s' : Threads α n} {pending : List α} {labels : List (QueueStep α)}

/-- `tryPush` is the producer's steps with nothing in between. -/
theorem tryPush_run (hidle : s.producer = .idle) (item : α) :
    match s.queue.tryPush item with
    | none => Run Step s [.callPush item, .pushFails] s
    | some q => Run Step s [.callPush item, .pushMay, .copyIn, .pushed item] { s with queue := q }
    := by
  obtain ⟨queue, producer, consumer⟩ := s
  obtain rfl : producer = .idle := hidle
  have hcall := Run.start.next (Step.callPush (s := ⟨queue, .idle, consumer⟩) item rfl)
  unfold tryPush
  split_ifs with hfull
  · exact hcall.next (.pushFails rfl hfull)
  · exact ((hcall.next (.pushMay rfl hfull)).next (.copyIn rfl)).next (.pushed rfl)

/-- `tryPop` is the consumer's steps with nothing in between. -/
theorem tryPop_run (hidle : s.consumer = .idle) :
    match s.queue.tryPop with
    | none => Run Step s [.callPop, .popFails] s
    | some (item, q) =>
      Run Step s [.callPop, .popMay, .copyOut, .popped item] { s with queue := q } := by
  obtain ⟨queue, producer, consumer⟩ := s
  obtain rfl : consumer = .idle := hidle
  have hcall := Run.start.next (Step.callPop (s := ⟨queue, producer, .idle⟩) rfl)
  unfold tryPop
  split_ifs with hempty
  · exact hcall.next (.popFails rfl hempty)
  · exact ((hcall.next (.popMay rfl hempty)).next (.copyOut rfl)).next (.popped rfl)

/-- What the producer has loaded is still so, whatever the consumer did since. -/
def ProducerOk (s : Threads α n) (pending : List α) : Prop :=
  match s.producer with
  | .idle => True
  | .loadedHead _ head => head = s.queue.head
  | .foundRoom _ head => head = s.queue.head ∧ pending.length + 1 < n.val
  | .copied item head =>
    head = s.queue.head ∧ pending.length + 1 < n.val ∧ s.queue.storage.get head = item

/-- What the consumer has loaded is still so, whatever the producer did since. -/
def ConsumerOk (s : Threads α n) (pending : List α) : Prop :=
  match s.consumer with
  | .idle => True
  | .loadedTail tail => tail = s.queue.tail
  | .foundItem tail => tail = s.queue.tail ∧ pending ≠ []
  | .copied item tail => tail = s.queue.tail ∧ ∃ rest, pending = item :: rest

/-- The queue holds the pending items and both threads are right about it. -/
structure Consistent (s : Threads α n) (pending : List α) : Prop where
  queue : s.queue.Pending pending
  producer : s.ProducerOk pending
  consumer : s.ConsumerOk pending

/-- Nothing has been called yet. -/
def initial (storage : Pool α n.val) : Threads α n := { queue := { storage } }

theorem initial_consistent (storage : Pool α n.val) :
    (initial storage : Threads α n).Consistent [] where
  queue := holds_nil _ _
  producer := trivial
  consumer := trivial

/-- More items, or fewer slots in the way, do not bother the other thread. -/
theorem ConsumerOk.push (h : s.ConsumerOk pending) (item : α) (hq : s'.queue.tail = s.queue.tail)
    (hc : s'.consumer = s.consumer) : s'.ConsumerOk (pending ++ [item]) := by
  unfold ConsumerOk at h ⊢
  rw [hc, hq]
  cases hconsumer : s.consumer with
  | idle => trivial
  | loadedTail tail =>
    rw [hconsumer] at h
    exact h
  | foundItem tail =>
    rw [hconsumer] at h
    exact ⟨h.1, by simp⟩
  | copied x tail =>
    rw [hconsumer] at h
    obtain ⟨htail, rest, rfl⟩ := h
    exact ⟨htail, rest ++ [item], rfl⟩

theorem ProducerOk.pop {item : α} (h : s.ProducerOk (item :: pending))
    (hh : s'.queue.head = s.queue.head) (hs : s'.queue.storage = s.queue.storage)
    (hp : s'.producer = s.producer) : s'.ProducerOk pending := by
  unfold ProducerOk at h ⊢
  rw [hp, hh, hs]
  cases hproducer : s.producer with
  | idle => trivial
  | loadedHead x head =>
    rw [hproducer] at h
    exact h
  | foundRoom x head =>
    rw [hproducer] at h
    exact ⟨h.1, (Nat.lt_succ_self _).trans h.2⟩
  | copied x head =>
    rw [hproducer] at h
    exact ⟨h.1, (Nat.lt_succ_self _).trans h.2.1, h.2.2⟩

/-- A step moves the items it pushes into the pending ones, and those it pops out of them. -/
theorem Consistent.step {a : QueueStep α} (h : s.Consistent pending) (hstep : Step s a s') :
    ∃ pending', s'.Consistent pending' ∧ pending ++ pushed [a] = popped [a] ++ pending' := by
  obtain ⟨hqueue, hproducer, hconsumer⟩ := h
  cases hstep with
  | callPush item _ => exact ⟨pending, ⟨hqueue, rfl, hconsumer⟩, List.append_nil _⟩
  | pushFails _ _ => exact ⟨pending, ⟨hqueue, trivial, hconsumer⟩, List.append_nil _⟩
  | @pushMay item head hp hroom =>
    unfold ProducerOk at hproducer
    rw [hp] at hproducer
    obtain rfl := hproducer
    have hne : pending.length ≠ n.usableCapacity := fun heq => hroom (hqueue.full_iff.mpr heq)
    have hle := hqueue.length_le
    have hlt : pending.length + 1 < n.val := by
      unfold QueueSlots.usableCapacity at hne hle
      omega
    exact ⟨pending, ⟨hqueue, ⟨rfl, hlt⟩, hconsumer⟩, List.append_nil _⟩
  | @copyIn item head hp =>
    unfold ProducerOk at hproducer
    rw [hp] at hproducer
    obtain ⟨rfl, hlt⟩ := hproducer
    have hwrite : Holds (s.queue.storage.set s.queue.head item) s.queue.tail s.queue.head pending :=
      Holds.write hqueue item
    exact ⟨pending, ⟨hwrite, ⟨rfl, hlt, Pool.get_set_self _ _ _⟩, hconsumer⟩, List.append_nil _⟩
  | @pushed item head hp =>
    unfold ProducerOk at hproducer
    rw [hp] at hproducer
    obtain ⟨rfl, hlt, hitem⟩ := hproducer
    have hpushed := Holds.push hqueue hlt hitem
    rw [← increment_eq] at hpushed
    exact ⟨pending ++ [item], ⟨hpushed, trivial, hconsumer.push item rfl rfl⟩, rfl⟩
  | callPop _ => exact ⟨pending, ⟨hqueue, hproducer, rfl⟩, List.append_nil _⟩
  | popFails _ _ => exact ⟨pending, ⟨hqueue, hproducer, trivial⟩, List.append_nil _⟩
  | @popMay tail hc hitem =>
    unfold ConsumerOk at hconsumer
    rw [hc] at hconsumer
    obtain rfl := hconsumer
    have hne : pending ≠ [] := fun hnil => hitem (Holds.empty_iff hqueue |>.mpr hnil)
    exact ⟨pending, ⟨hqueue, hproducer, ⟨rfl, hne⟩⟩, List.append_nil _⟩
  | @copyOut tail hc =>
    unfold ConsumerOk at hconsumer
    rw [hc] at hconsumer
    obtain ⟨rfl, hne⟩ := hconsumer
    obtain ⟨item, rest, rfl⟩ := List.exists_cons_of_ne_nil hne
    have hget := Holds.get_tail hqueue
    rw [hget]
    exact ⟨item :: rest, ⟨hqueue, hproducer, ⟨rfl, rest, rfl⟩⟩, List.append_nil _⟩
  | @popped item tail hc =>
    unfold ConsumerOk at hconsumer
    rw [hc] at hconsumer
    obtain ⟨rfl, rest, rfl⟩ := hconsumer
    have hpopped := Holds.pop hqueue
    rw [← increment_eq] at hpopped
    exact ⟨rest, ⟨hpopped, hproducer.pop rfl rfl rfl, trivial⟩, List.append_nil _⟩

/-- What was pushed is what was popped and what is pending. -/
theorem run_consistent {storage : Pool α n.val} (hrun : Run Step (initial storage) labels s) :
    ∃ pending, s.Consistent pending ∧ pushed labels = popped labels ++ pending := by
  refine hrun.invariant_labels (I := fun labels s => ∃ pending, Consistent s pending ∧
    pushed labels = popped labels ++ pending) ⟨[], initial_consistent storage, rfl⟩ ?_
  rintro labels s a s' ⟨pending, hs, hlabels⟩ hstep
  obtain ⟨pending', hs', heffect⟩ := hs.step hstep
  refine ⟨pending', hs', ?_⟩
  rw [pushed_append, popped_append, hlabels, List.append_assoc, heffect, List.append_assoc]

/-- In every interleaving the items come out in order, at most the usable capacity is pending,
the two threads are never at the same slot, a push fails only when the queue is full and a pop
only when it is empty. -/
theorem spsc_correct {storage : Pool α n.val} (hrun : Run Step (initial storage) labels s) :
    popped labels <+: pushed labels ∧
    (pushed labels).length ≤ (popped labels).length + n.usableCapacity ∧
    (∀ item head tail, s.producer = .foundRoom item head → s.consumer = .foundItem tail →
      head ≠ tail) ∧
    (∀ s', Step s .pushFails s' →
      (pushed labels).length = (popped labels).length + n.usableCapacity) ∧
    ∀ s', Step s .popFails s' → popped labels = pushed labels := by
  obtain ⟨pending, ⟨hqueue, hproducer, hconsumer⟩, hlabels⟩ := run_consistent hrun
  rw [hlabels, List.length_append]
  refine ⟨List.prefix_append _ _, Nat.add_le_add_left hqueue.length_le _, ?_, ?_, ?_⟩
  · rintro item head tail hp hc rfl
    unfold ProducerOk at hproducer
    unfold ConsumerOk at hconsumer
    rw [hp] at hproducer
    rw [hc] at hconsumer
    exact hconsumer.2 (hqueue.empty_iff.mp (hconsumer.1.symm.trans hproducer.1))
  · rintro s' hstep
    cases hstep with
    | @pushFails item head hp hfull =>
      unfold ProducerOk at hproducer
      rw [hp] at hproducer
      obtain rfl := hproducer
      rw [hqueue.full_iff.mp hfull]
  · rintro s' hstep
    cases hstep with
    | @popFails tail hc hempty =>
      unfold ConsumerOk at hconsumer
      rw [hc] at hconsumer
      obtain rfl := hconsumer
      rw [hqueue.empty_iff.mp hempty, List.append_nil]

/-- Two slots, a push and the start of a pop. -/
def handOver : List (QueueStep ℕ) :=
  [.callPush 7, .callPop, .pushMay, .copyIn, .pushed 7, .popMay]

theorem hand_over_correct :
    let s : Threads ℕ ⟨2, le_rfl⟩ :=
      { queue := { storage := Pool.set ⟨fun _ => 0⟩ 0 7, head := 1 }, consumer := .foundItem 0 }
    popped handOver <+: pushed handOver ∧
    (pushed handOver).length ≤ (popped handOver).length + 1 ∧
    (∀ item head tail, s.producer = .foundRoom item head → s.consumer = .foundItem tail →
      head ≠ tail) ∧
    (∀ s', Step s .pushFails s' →
      (pushed handOver).length = (popped handOver).length + 1) ∧
    ∀ s', Step s .popFails s' → popped handOver = pushed handOver := by
  intro s
  have hrun : Run Step (initial ⟨fun _ => 0⟩) handOver s :=
    (((((Run.start.next (.callPush 7 rfl)).next (.callPop rfl)).next
      (.pushMay rfl (by decide))).next (.copyIn rfl)).next (.pushed rfl)).next
      (.popMay rfl (by decide))
  exact spsc_correct hrun

end Threads

end MarketEngine
