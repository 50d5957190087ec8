import MarketEngine.Queue.Spsc

/-! # The queue as one object

Two threads inside `tryPush` and `tryPop` do to the queue what whole calls do to a
bounded list: each call takes effect at one of its own steps. The snapshots
`sizeApprox` and `isEmpty` are two loads with the other thread's steps in between.
-/

namespace MarketEngine

open Cyclic Ring Transition

variable {α : Type*} {n : QueueSlots}

/-- What a call comes to. -/
inductive Outcome (α : Type*) where
  | pushed (item : α)
  | full
  | popped (item : α)
  | empty

/-- A call to a queue of at most `k` items, in one step. -/
inductive Atomic (k : ℕ) : List α → Outcome α → List α → Prop
  | pushed {items : List α} (item : α) (h : items.length < k) :
      Atomic k items (.pushed item) (items ++ [item])
  | full {items : List α} (h : items.length = k) : Atomic k items .full items
  | popped (item : α) (items : List α) : Atomic k (item :: items) (.popped item) items
  | empty : Atomic k [] .empty []

/-- The step at which a call takes effect: a failing one at its second load, the others at their
store. -/
def QueueStep.outcome : QueueStep α → Option (Outcome α)
  | .pushed item => some (.pushed item)
  | .pushFails => some .full
  | .popped item => some (.popped item)
  | .popFails => some .empty
  | .callPush _ | .pushMay | .copyIn | .callPop | .popMay | .copyOut => none

namespace Threads

open SpscQueue

variable {s s' : Threads α n} {pending : List α} {labels labels' : List (QueueStep α)}
  {storage : Pool α n.val}

/-- A step is a call to the list of pending items, or nothing. -/
theorem Consistent.atomic {a : QueueStep α} (h : s.Consistent pending) (hstep : Step s a s') :
    ∃ pending', s'.Consistent pending' ∧
      Run (Atomic n.usableCapacity) pending a.outcome.toList pending' := by
  obtain ⟨pending', h', heffect⟩ := h.step hstep
  refine ⟨pending', h', ?_⟩
  obtain ⟨hqueue, hproducer, hconsumer⟩ := h
  -- the steps that only prepare a call leave the pending items
  have hquiet : pushed [a] = [] → popped [a] = [] → pending' = pending := by
    intro hpushed hpopped
    simpa [hpushed, hpopped] using heffect.symm
  cases hstep with
  | callPush | pushMay | copyIn | callPop | popMay | copyOut =>
    obtain rfl := hquiet rfl rfl
    exact .start
  | @pushFails item head hp hfull =>
    obtain rfl := hquiet rfl rfl
    simp only [ProducerOk, hp] at hproducer
    subst hproducer
    exact Run.start.next (.full (hqueue.full_iff.mp hfull))
  | @pushed item head hp =>
    simp only [ProducerOk, hp] at hproducer
    obtain rfl : pending ++ [item] = pending' := heffect
    have hroom : pending.length < n.usableCapacity := by
      unfold QueueSlots.usableCapacity
      omega
    exact Run.start.next (.pushed item hroom)
  | @popFails tail hc hempty =>
    obtain rfl := hquiet rfl rfl
    simp only [ConsumerOk, hc] at hconsumer
    subst hconsumer
    obtain rfl : pending' = [] := hqueue.empty_iff.mp hempty
    exact Run.start.next .empty
  | @popped item tail hc =>
    obtain rfl : pending = item :: pending' := by simpa [MarketEngine.popped, pushed] using heffect
    exact Run.start.next (.popped item pending')

/-- Every interleaving is a run of whole calls. -/
theorem run_atomic (hrun : Run Step (initial storage) labels s) :
    ∃ pending, s.Consistent pending ∧
      Run (Atomic n.usableCapacity) [] (labels.filterMap QueueStep.outcome) pending := by
  refine hrun.invariant_labels (I := fun labels s => ∃ pending, Consistent s pending ∧
    Run (Atomic n.usableCapacity) [] (labels.filterMap QueueStep.outcome) pending)
    ⟨[], initial_consistent storage, .start⟩ ?_
  rintro labels s a s' ⟨pending, hs, hcalls⟩ hstep
  obtain ⟨pending', hs', hcall⟩ := hs.atomic hstep
  refine ⟨pending', hs', ?_⟩
  rw [List.filterMap_append]
  refine hcalls.trans ?_
  cases h : a.outcome <;> simpa [h] using hcall

/-- A whole call is made by a thread on its own. -/
theorem Consistent.call {o : Outcome α} {pending' : List α} (h : s.Consistent pending)
    (hp : s.producer = .idle) (hc : s.consumer = .idle)
    (hcall : Atomic n.usableCapacity pending o pending') :
    ∃ labels s', Run Step s labels s' ∧ labels.filterMap QueueStep.outcome = [o] ∧
      s'.Consistent pending' ∧ s'.producer = .idle ∧ s'.consumer = .idle := by
  have hidle : ∀ (q : SpscQueue α n) (items : List α), q.Pending items →
      Consistent { s with queue := q } items := by
    rintro q items hq
    exact ⟨hq, by simp [ProducerOk, hp], by simp [ConsumerOk, hc]⟩
  cases hcall with
  | pushed item hroom =>
    have hrun := tryPush_run hp item
    cases hpush : s.queue.tryPush item with
    | none => exact absurd (h.queue.tryPush_none_iff.mp hpush) hroom.ne
    | some q =>
      rw [hpush] at hrun
      exact ⟨_, _, hrun, rfl, hidle q _ (h.queue.tryPush hpush), hp, hc⟩
  | full hfull =>
    have hrun := tryPush_run hp (s.queue.storage.get s.queue.head)
    rw [h.queue.tryPush_none_iff.mpr hfull] at hrun
    exact ⟨_, _, hrun, rfl, h, hp, hc⟩
  | popped item items =>
    have hrun := tryPop_run hc
    cases hpop : s.queue.tryPop with
    | none => cases h.queue.tryPop_none_iff.mp hpop
    | some taken =>
      obtain ⟨x, q⟩ := taken
      rw [hpop] at hrun
      obtain ⟨rest, heq, hrest⟩ := h.queue.tryPop hpop
      obtain ⟨rfl, rfl⟩ := List.cons.inj heq
      exact ⟨_, _, hrun, rfl, hidle q _ hrest, hp, hc⟩
  | empty =>
    have hrun := tryPop_run hc
    rw [h.queue.tryPop_none_iff.mpr rfl] at hrun
    exact ⟨_, _, hrun, rfl, h, hp, hc⟩

/-- The outcomes that two threads can see are those of a bounded list whose calls are single
steps. -/
theorem linearizable (storage : Pool α n.val) (outcomes : List (Outcome α)) :
    (∃ labels s, Run Step (initial storage) labels s ∧
        labels.filterMap QueueStep.outcome = outcomes) ↔
      ∃ pending, Run (Atomic n.usableCapacity) [] outcomes pending := by
  constructor
  · rintro ⟨labels, s, hrun, rfl⟩
    obtain ⟨pending, -, hcalls⟩ := run_atomic hrun
    exact ⟨pending, hcalls⟩
  · rintro ⟨pending, hcalls⟩
    suffices h : ∃ labels s, Run Step (initial storage) labels s ∧
        labels.filterMap QueueStep.outcome = outcomes ∧ Consistent s pending ∧
        s.producer = .idle ∧ s.consumer = .idle by
      obtain ⟨labels, s, hrun, houtcomes, -⟩ := h
      exact ⟨labels, s, hrun, houtcomes⟩
    induction hcalls with
    | start => exact ⟨[], _, .start, rfl, initial_consistent storage, rfl, rfl⟩
    | next _ hcall ih =>
      obtain ⟨labels, s, hrun, houtcomes, hs, hp, hc⟩ := ih
      obtain ⟨labels', s', hrun', houtcome, hs', hp', hc'⟩ := hs.call hp hc hcall
      refine ⟨labels ++ labels', s', hrun.trans hrun', ?_, hs', hp', hc'⟩
      rw [List.filterMap_append, houtcomes, houtcome]

end Threads

/-! ## Snapshots -/

namespace SpscQueue

variable {q : SpscQueue α n} {items : List α}

/-- `sizeApprox` from the two loads that it makes. -/
def sizeApprox (head tail : Fin n.val) : ℕ :=
  if tail ≤ head then head.val - tail.val else n.val - tail.val + head.val

theorem Pending.sizeApprox_eq (h : q.Pending items) : sizeApprox q.head q.tail = items.length := by
  have hlt := h.length_lt
  have hhead : q.head.val = (q.tail.val + items.length) % n.val := by
    simp [h.head, ahead, Fin.val_add, Fin.ofNat]
  have htail := q.tail.isLt
  simp only [sizeApprox, Fin.le_def, hhead]
  rcases Nat.lt_or_ge (q.tail.val + items.length) n.val with hin | hout
  · rw [Nat.mod_eq_of_lt hin]
    split <;> omega
  · rw [Nat.mod_eq_sub_mod hout, Nat.mod_eq_of_lt (by omega)]
    split <;> omega

end SpscQueue

namespace Threads

open SpscQueue

variable {s s' : Threads α n} {labels labels' : List (QueueStep α)} {storage : Pool α n.val}

/-- Only a push moves the head, and only a pop the tail. -/
theorem step_indices {a : QueueStep α} (hstep : Step s a s') :
    (pushed [a] = [] → s'.queue.head = s.queue.head) ∧
      (popped [a] = [] → s'.queue.tail = s.queue.tail) := by
  cases hstep <;> simp [pushed, popped]

theorem run_indices (hrun : Run Step s labels s') :
    (pushed labels = [] → s'.queue.head = s.queue.head) ∧
      (popped labels = [] → s'.queue.tail = s.queue.tail) := by
  induction hrun with
  | start => exact ⟨fun _ => rfl, fun _ => rfl⟩
  | next _ hstep ih =>
    obtain ⟨hhead, htail⟩ := step_indices hstep
    simp only [pushed_append, popped_append, List.append_eq_nil_iff]
    constructor
    · rintro ⟨hbefore, hlast⟩
      rw [hhead hlast, ih.1 hbefore]
    · rintro ⟨hbefore, hlast⟩
      rw [htail hlast, ih.2 hbefore]

/-- The two indices are loaded in `s` and `s'`, with steps of the other thread in between. What
a thread computes from them was so when it loaded the other's index. -/
theorem snapshot_exact (hrun : Run Step (initial storage) labels s)
    (hrun' : Run Step s labels' s') :
    (popped labels' = [] →
      sizeApprox s.queue.head s'.queue.tail + (popped labels).length = (pushed labels).length ∧
      (s.queue.tail = s'.queue.head ↔ popped labels = pushed (labels ++ labels'))) ∧
    (pushed labels' = [] →
      sizeApprox s.queue.head s'.queue.tail + (popped (labels ++ labels')).length =
        (pushed labels).length ∧
      (s.queue.tail = s'.queue.head ↔ popped labels = pushed labels)) := by
  obtain ⟨pending, hs, hlabels⟩ := run_consistent hrun
  obtain ⟨pending', hs', hlabels'⟩ := run_consistent (hrun.trans hrun')
  have hsize := hs.queue.sizeApprox_eq
  have hsize' := hs'.queue.sizeApprox_eq
  have hempty := hs.queue.empty_iff
  have hempty' := hs'.queue.empty_iff
  obtain ⟨hhead, htail⟩ := run_indices hrun'
  constructor
  · intro hpops
    rw [htail hpops] at hsize' hempty' ⊢
    rw [popped_append, hpops, List.append_nil] at hlabels'
    constructor
    · rw [hsize, hlabels, List.length_append, Nat.add_comm]
    · rw [hempty', hlabels']
      simp
  · intro hpushes
    rw [hhead hpushes] at hsize' hempty' ⊢
    rw [pushed_append, hpushes, List.append_nil] at hlabels'
    constructor
    · rw [hsize', hlabels', List.length_append, Nat.add_comm]
    · rw [hempty, hlabels]
      simp

/-- The producer asks for the size while the consumer takes the only item. -/
theorem one_item_snapshot :
    let put : List (QueueStep ℕ) := [.callPush 7, .pushMay, .copyIn, .pushed 7]
    let take : List (QueueStep ℕ) := [.callPop, .popMay, .copyOut, .popped 7]
    let s : Threads ℕ ⟨2, le_rfl⟩ := { queue := { storage := Pool.set ⟨fun _ => 0⟩ 0 7, head := 1 } }
    let s' : Threads ℕ ⟨2, le_rfl⟩ := { s with queue.tail := 1 }
    sizeApprox s.queue.head s'.queue.tail + (popped (put ++ take)).length = (pushed put).length ∧
      (s.queue.tail = s'.queue.head ↔ popped put = pushed put) := by
  intro put take s s'
  have hput : Run Step (initial ⟨fun _ => 0⟩) put s :=
    (((Run.start.next (.callPush 7 rfl)).next (.pushMay rfl (by decide))).next
      (.copyIn rfl)).next (@Step.pushed _ _ _ 7 0 rfl)
  have htake : Run Step s take s' :=
    (((Run.start.next (.callPop rfl)).next (.popMay rfl (by decide))).next
      (@Step.copyOut _ _ { s with consumer := .foundItem 0 } 0 rfl)).next
      (@Step.popped _ _ { s with consumer := .copied 7 0 } 7 0 rfl)
  exact (snapshot_exact hput htake).2 rfl

end Threads

end MarketEngine
