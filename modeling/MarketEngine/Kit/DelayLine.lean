import Mathlib.Data.List.TakeWhile
import Mathlib.Order.Lattice

/-! # Delay lines

Events with times that never go back drive a state. Along the way items are put
into a FIFO, each due some lag after the event it was put in at, and an item is
taken out when an event comes up at or after its due time. However late that is,
the item sees the state made by exactly the events before its due time.
-/

/-- A state driven by events, and items that look at it when they are due. -/
structure DelayLine (ε σ ο β τ : Type*) where
  init : σ
  step : σ → ε → σ
  time : ε → τ
  lag : τ → τ
  due : ο → τ
  look : σ → ο → β

namespace DelayLine

variable {ε σ ο β τ : Type*} [LinearOrder τ] (D : DelayLine ε σ ο β τ)

/-- The state after some events. -/
def state (events : List ε) : σ := events.foldl D.step D.init

/-- The state made by the events before a time. -/
def asOf (events : List ε) (t : τ) : σ := D.state (events.filter fun e => D.time e < t)

/-- The items at the front that are due by now. -/
def arrived (now : τ) (queue : List ο) : List ο := queue.takeWhile fun o => D.due o ≤ now

/-- The items that are left when those have been taken out. -/
def waiting (now : τ) (queue : List ο) : List ο := queue.dropWhile fun o => D.due o ≤ now

/-- What an item sees at its due time. -/
def seen (events : List ε) (o : ο) : β := D.look (D.asOf events (D.due o)) o

variable {D} {events : List ε} {e : ε} {done queue new : List ο} {log : List β} {now t : τ}

theorem due_le_of_mem_arrived {o : ο} (h : o ∈ D.arrived now queue) : D.due o ≤ now := by
  simpa using List.mem_takeWhile_imp h

/-- In a sorted queue nothing that is due waits behind something that is not. -/
theorem lt_due_of_mem_waiting {o : ο} (hsorted : queue.Pairwise fun o o' => D.due o ≤ D.due o')
    (h : o ∈ D.waiting now queue) : now < D.due o := by
  induction queue with
  | nil => simp [waiting] at h
  | cons first queue ih =>
    rcases le_or_gt (D.due first) now with hle | hgt
    · rw [waiting, List.dropWhile_cons_of_pos (by simpa using hle)] at h
      exact ih hsorted.of_cons h
    · rw [waiting, List.dropWhile_cons_of_neg (by simpa using hgt)] at h
      rcases List.mem_cons.mp h with rfl | hmem
      · exact hgt
      · exact hgt.trans_le (List.rel_of_pairwise_cons hsorted hmem)

/-- All events are before the time. -/
theorem asOf_eq_state (h : ∀ e ∈ events, D.time e < t) : D.asOf events t = D.state events := by
  rw [asOf, List.filter_eq_self.mpr fun e he => by simpa using h e he]

/-- An event at or after the time changes nothing. -/
theorem asOf_append_of_le (h : t ≤ D.time e) : D.asOf (events ++ [e]) t = D.asOf events t := by
  have hout : ¬ D.time e < t := not_lt.mpr h
  simp [asOf, hout]

variable (D) in
/-- The line after some events: the items taken out so far, what they saw, and the FIFO. -/
structure Timely (events : List ε) (done queue : List ο) (log : List β) : Prop where
  sorted : queue.Pairwise fun o o' => D.due o ≤ D.due o'
  lagged : ∀ o ∈ queue, ∃ e ∈ events, D.due o = D.lag (D.time e)
  ahead : ∀ o ∈ queue, ∀ e ∈ events, D.time e < D.due o
  past : ∀ o ∈ done, ∃ e ∈ events, D.due o ≤ D.time e
  log_eq : log = done.map (D.seen events)

theorem Timely.start : D.Timely [] [] [] [] :=
  ⟨List.Pairwise.nil, by simp, by simp, by simp, rfl⟩

/-- At an event the line takes out what has arrived, before the event changes the state, and
puts in at most what is due a lag later. -/
theorem Timely.next (h : D.Timely events done queue log)
    (hmono : ∀ e' ∈ events, D.time e' ≤ D.time e)
    (hlag : ∀ e' ∈ events, D.lag (D.time e') ≤ D.lag (D.time e))
    (hlt : D.time e < D.lag (D.time e)) (hnew : ∀ o ∈ new, D.due o = D.lag (D.time e)) :
    D.Timely (events ++ [e]) (done ++ D.arrived (D.time e) queue)
      (D.waiting (D.time e) queue ++ new)
      (log ++ (D.arrived (D.time e) queue).map (D.look (D.state events))) := by
  have hwaiting : D.waiting (D.time e) queue <:+ queue := List.dropWhile_suffix _
  have harrived : D.arrived (D.time e) queue <+: queue := List.takeWhile_prefix _
  refine ⟨?_, ?_, ?_, ?_, ?_⟩
  · refine List.pairwise_append.mpr ⟨h.sorted.sublist hwaiting.sublist, ?_, ?_⟩
    · exact List.pairwise_of_forall_mem_list fun o ho o' ho' => by rw [hnew o ho, hnew o' ho']
    · intro o ho o' ho'
      obtain ⟨e', he', hdue⟩ := h.lagged o (hwaiting.subset ho)
      rw [hdue, hnew o' ho']
      exact hlag e' he'
  · intro o ho
    rcases List.mem_append.mp ho with ho | ho
    · obtain ⟨e', he', hdue⟩ := h.lagged o (hwaiting.subset ho)
      exact ⟨e', List.mem_append_left _ he', hdue⟩
    · exact ⟨e, List.mem_append_right _ List.mem_cons_self, hnew o ho⟩
  · intro o ho e' he'
    rcases List.mem_append.mp ho with hw | hw <;> rcases List.mem_append.mp he' with he' | he'
    · exact h.ahead o (hwaiting.subset hw) e' he'
    · obtain rfl := List.mem_singleton.mp he'
      exact lt_due_of_mem_waiting h.sorted hw
    · rw [hnew o hw]
      exact (hmono e' he').trans_lt hlt
    · obtain rfl := List.mem_singleton.mp he'
      rw [hnew o hw]
      exact hlt
  · intro o ho
    rcases List.mem_append.mp ho with ho | ho
    · obtain ⟨e', he', hle⟩ := h.past o ho
      exact ⟨e', List.mem_append_left _ he', hle⟩
    · exact ⟨e, List.mem_append_right _ List.mem_cons_self, due_le_of_mem_arrived ho⟩
  · rw [List.map_append, h.log_eq]
    congr 1
    · apply List.map_congr_left
      intro o ho
      obtain ⟨e', he', hle⟩ := h.past o ho
      rw [seen, seen, asOf_append_of_le (hle.trans (hmono e' he'))]
    · apply List.map_congr_left
      intro o ho
      rw [seen, asOf_append_of_le (due_le_of_mem_arrived ho),
        asOf_eq_state (h.ahead o (harrived.subset ho))]

/-- Taking out the rest after the last event. -/
theorem Timely.finish (h : D.Timely events done queue log) :
    log ++ queue.map (D.look (D.state events)) = (done ++ queue).map (D.seen events) := by
  rw [List.map_append, h.log_eq]
  congr 1
  apply List.map_congr_left
  intro o ho
  rw [seen, asOf_eq_state (h.ahead o ho)]

end DelayLine
