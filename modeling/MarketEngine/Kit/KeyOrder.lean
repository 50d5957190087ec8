import MarketEngine.Kit.Sorting

/-! # Lists in key order

In a list in key order the ranks of the keys never fall. Such a list is settled
by its queues, the items of each key in the order they stand in, so an operation
on it is settled by what it does to the queues.
-/

namespace KeyOrder

variable {α κ γ : Type*} [LinearOrder γ] {key : α → κ} {rank : κ → γ} {l l' : List α} {x : α}
  {k : κ}

/-- The ranks of the keys do not fall along the list. -/
def Sorted (key : α → κ) (rank : κ → γ) (l : List α) : Prop :=
  l.Pairwise fun x y => rank (key x) ≤ rank (key y)

theorem Sorted.filter (h : Sorted key rank l) (p : α → Bool) : Sorted key rank (l.filter p) :=
  List.Pairwise.filter p h

theorem Sorted.map {f : α → α} (hf : ∀ x, key (f x) = key x) (h : Sorted key rank l) :
    Sorted key rank (l.map f) :=
  List.pairwise_map.mpr (h.imp fun hle => by rwa [hf, hf])

/-- A list with fewer keys in the same order. -/
theorem Sorted.of_keys (h : Sorted key rank l) (hkeys : (l'.map key).Sublist (l.map key)) :
    Sorted key rank l' := by
  have hpairs : (l.map key).Pairwise fun k k' => rank k ≤ rank k' := List.pairwise_map.mpr h
  exact (List.pairwise_map (f := key) (R := fun k k' => rank k ≤ rank k')).mp
    (hpairs.sublist hkeys)

/-- Take a place behind every item whose rank is no larger. -/
def enqueue (key : α → κ) (rank : κ → γ) (x : α) (l : List α) : List α :=
  l.orderedInsert (fun x y => rank (key x) < rank (key y)) x

theorem enqueue_perm : (enqueue key rank x l).Perm (x :: l) := List.perm_orderedInsert _ x l

theorem Sorted.enqueue (h : Sorted key rank l) : Sorted key rank (enqueue key rank x l) := by
  induction l with
  | nil => exact List.pairwise_singleton _ _
  | cons y l ih =>
    obtain ⟨hy, hl⟩ := List.pairwise_cons.mp h
    unfold KeyOrder.enqueue
    rw [List.orderedInsert]
    split
    · next hlt =>
      refine List.pairwise_cons.mpr ⟨fun z hz => hlt.le.trans ?_, h⟩
      rcases List.mem_cons.mp hz with rfl | hz
      · exact le_rfl
      · exact hy z hz
    · next hge =>
      refine List.pairwise_cons.mpr ⟨fun z hz => ?_, ih hl⟩
      rcases List.mem_cons.mp (enqueue_perm.mem_iff.mp hz) with rfl | hz
      · exact not_lt.mp hge
      · exact hy z hz

/-- A map that keeps the keys keeps the places. -/
theorem map_enqueue {f : α → α} (hf : ∀ x, key (f x) = key x) :
    (KeyOrder.enqueue key rank x l).map f = KeyOrder.enqueue key rank (f x) (l.map f) := by
  induction l with
  | nil => rfl
  | cons y l ih =>
    unfold KeyOrder.enqueue at ih ⊢
    rw [List.map_cons, List.orderedInsert, List.orderedInsert, hf, hf]
    split
    · rfl
    · rw [List.map_cons, ih]

/-- An item that is filtered out takes no place. -/
theorem filter_enqueue_of_not {p : α → Bool} (hx : p x = false) (l : List α) :
    (enqueue key rank x l).filter p = l.filter p := by
  induction l with
  | nil =>
    rw [enqueue, List.orderedInsert, List.filter_singleton, hx]
    rfl
  | cons y l ih =>
    unfold enqueue
    rw [List.orderedInsert]
    split
    · exact List.filter_cons_of_neg (by simp [hx])
    · rw [List.filter_cons, List.filter_cons]
      exact congrArg (fun l => if p y = true then y :: l else l) ih

/-! ## Queues -/

variable [DecidableEq κ]

/-- The items of one key, in their order. -/
def queue (key : α → κ) (l : List α) (k : κ) : List α := l.filter fun x => key x = k

theorem queue_append : queue key (l ++ l') k = queue key l k ++ queue key l' k :=
  List.filter_append ..

theorem queue_cons :
    queue key (x :: l) k = (if key x = k then [x] else []) ++ queue key l k := by
  by_cases hx : key x = k <;> simp [queue, hx]

theorem mem_queue : x ∈ queue key l k ↔ x ∈ l ∧ key x = k := by simp [queue]

theorem queue_eq_nil (h : ∀ x ∈ l, key x ≠ k) : queue key l k = [] :=
  List.filter_eq_nil_iff.mpr fun x hx => by simpa using h x hx

theorem queue_filter (p : α → Bool) : queue key (l.filter p) k = (queue key l k).filter p := by
  rw [queue, queue, List.filter_filter, List.filter_filter]
  exact List.filter_congr fun x _ => Bool.and_comm _ _

theorem queue_map {f : α → α} (hf : ∀ x, key (f x) = key x) :
    queue key (l.map f) k = (queue key l k).map f := by
  rw [queue, List.filter_map, queue]
  exact congrArg _ (List.filter_congr fun x _ => by rw [Function.comp_apply, hf])

/-- The new item is the last one of its key. -/
theorem Sorted.queue_enqueue (h : Sorted key rank l) :
    queue key (KeyOrder.enqueue key rank x l) k =
      queue key l k ++ if key x = k then [x] else [] := by
  induction l with
  | nil =>
    rw [KeyOrder.enqueue, List.orderedInsert, queue_cons]
    exact List.append_nil _
  | cons y l ih =>
    obtain ⟨hy, hl⟩ := List.pairwise_cons.mp h
    unfold KeyOrder.enqueue
    rw [List.orderedInsert]
    split
    · next hlt =>
      rw [queue_cons]
      by_cases hx : key x = k
      · have hnil : queue key (y :: l) k = [] := by
          refine queue_eq_nil fun z hz hzk => ?_
          have hle : rank (key y) ≤ rank (key z) := by
            rcases List.mem_cons.mp hz with rfl | hz
            · exact le_rfl
            · exact hy z hz
          rw [hzk, ← hx] at hle
          exact absurd hlt (not_lt.mpr hle)
        rw [hnil, List.append_nil, List.nil_append]
      · rw [if_neg hx, List.append_nil, List.nil_append]
    · rw [queue_cons, queue_cons, List.append_assoc]
      exact congrArg _ (ih hl)

/-- The first of two lists with the same queues bounds the keys of the other one. -/
theorem Sorted.rank_head_le {y : α} (h : Sorted key rank (x :: l))
    (hqueues : ∀ k, queue key (x :: l) k = queue key (y :: l') k) :
    rank (key x) ≤ rank (key y) := by
  have hy : y ∈ queue key (x :: l) (key y) := by
    rw [hqueues, mem_queue]
    exact ⟨List.mem_cons_self, rfl⟩
  rcases List.mem_cons.mp (mem_queue.mp hy).1 with rfl | hy
  · exact le_rfl
  · exact (List.pairwise_cons.mp h).1 y hy

/-- A list in key order is settled by its queues. -/
theorem Sorted.eq_of_queues (hrank : Function.Injective rank) (h : Sorted key rank l)
    (h' : Sorted key rank l') (hqueues : ∀ k, queue key l k = queue key l' k) : l = l' := by
  induction l generalizing l' with
  | nil =>
    cases l' with
    | nil => rfl
    | cons y l' =>
      have hy := hqueues (key y)
      rw [queue_cons, if_pos rfl] at hy
      cases hy
  | cons x l ih =>
    cases l' with
    | nil =>
      have hx := hqueues (key x)
      rw [queue_cons, if_pos rfl] at hx
      cases hx
    | cons y l' =>
      have hkey : key x = key y :=
        hrank (le_antisymm (h.rank_head_le hqueues) (h'.rank_head_le fun k => (hqueues k).symm))
      have hhead := hqueues (key x)
      rw [queue_cons, queue_cons, if_pos rfl, if_pos hkey.symm] at hhead
      obtain rfl : x = y := (List.cons.inj hhead).1
      refine congrArg (x :: ·) (ih (List.pairwise_cons.mp h).2 (List.pairwise_cons.mp h').2 ?_)
      intro k
      have hk := hqueues k
      rw [queue_cons, queue_cons] at hk
      exact List.append_cancel_left hk

/-- A list in key order is settled by two parts into which the keys split it. -/
theorem Sorted.eq_of_parts {p : α → Bool} (hrank : Function.Injective rank)
    (hp : ∀ x y, key x = key y → p x = p y) (h : Sorted key rank l) (h' : Sorted key rank l')
    (hin : l.filter p = l'.filter p) (hout : (l.filter fun x => !p x) = l'.filter fun x => !p x) :
    l = l' := by
  have hpart : ∀ (q : α → Bool) (l : List α) (x : α), q x = true →
      (∀ y, key y = key x → q y = q x) → queue key (l.filter q) (key x) = queue key l (key x) := by
    intro q l x hx hq
    rw [queue_filter, List.filter_eq_self]
    intro y hy
    rw [hq y (mem_queue.mp hy).2, hx]
  refine h.eq_of_queues hrank h' fun k => ?_
  by_cases hk : ∃ x, key x = k
  · obtain ⟨x, rfl⟩ := hk
    cases hx : p x with
    | true =>
      have hsame := fun y hy => hp y x hy
      rw [← hpart p l x hx hsame, hin, hpart p l' x hx hsame]
    | false =>
      have hsame : ∀ y, key y = key x → (!p y) = !p x := fun y hy => congrArg _ (hp y x hy)
      rw [← hpart _ l x (congrArg Bool.not hx) hsame, hout,
        hpart _ l' x (congrArg Bool.not hx) hsame]
  · have hnone : ∀ l : List α, queue key l k = [] := fun l =>
      queue_eq_nil fun x _ hx => hk ⟨x, hx⟩
    rw [hnone, hnone]

/-- Filtering and taking a place commute. -/
theorem Sorted.filter_enqueue {p : α → Bool} (hrank : Function.Injective rank)
    (h : Sorted key rank l) (hx : p x = true) :
    (KeyOrder.enqueue key rank x l).filter p = KeyOrder.enqueue key rank x (l.filter p) := by
  refine (h.enqueue.filter p).eq_of_queues hrank (h.filter p).enqueue fun k => ?_
  rw [queue_filter, h.queue_enqueue, (h.filter p).queue_enqueue, List.filter_append, queue_filter]
  split_ifs
  · rw [List.filter_singleton, hx]
    rfl
  · rfl

/-! ## Groups -/

/-- The queues of the given keys, one after the other. -/
def groups (key : α → κ) (l : List α) (keys : List κ) : List α := keys.flatMap (queue key l)

theorem queue_queue {k' : κ} :
    queue key (queue key l k) k' = if k = k' then queue key l k else [] := by
  rw [queue, queue, List.filter_filter]
  split
  · next hk =>
    refine List.filter_congr fun x _ => ?_
    rw [hk, Bool.and_self]
  · next hk =>
    refine List.filter_eq_nil_iff.mpr fun x _ hx => hk ?_
    rw [Bool.and_eq_true, decide_eq_true_eq, decide_eq_true_eq] at hx
    exact hx.2.symm.trans hx.1

theorem queue_groups_of_not_mem {keys : List κ} (hk : k ∉ keys) :
    queue key (groups key l keys) k = [] := by
  refine queue_eq_nil fun x hx hxk => hk ?_
  obtain ⟨k', hk', hx⟩ := List.mem_flatMap.mp hx
  obtain rfl := (mem_queue.mp hx).2.symm.trans hxk
  exact hk'

/-- Grouping keeps the queues. -/
theorem queue_groups {keys : List κ} (hkeys : keys.Nodup) (hk : k ∈ keys) :
    queue key (groups key l keys) k = queue key l k := by
  induction keys with
  | nil => exact absurd hk List.not_mem_nil
  | cons k' keys ih =>
    obtain ⟨hnot, hkeys⟩ := List.nodup_cons.mp hkeys
    have hsplit : groups key l (k' :: keys) = queue key l k' ++ groups key l keys :=
      List.flatMap_cons
    rw [hsplit, queue_append, queue_queue]
    rcases List.mem_cons.mp hk with rfl | hk
    · rw [if_pos rfl, queue_groups_of_not_mem hnot, List.append_nil]
    · rw [if_neg fun he : k' = k => hnot (he ▸ hk), List.nil_append, ih hkeys hk]

theorem groups_sorted {keys : List κ} (hkeys : keys.Pairwise fun k k' => rank k < rank k') :
    Sorted key rank (groups key l keys) := by
  refine List.pairwise_flatMap.mpr ⟨fun k _ => ?_, hkeys.imp fun hlt x hx y hy => ?_⟩
  · refine List.pairwise_of_forall_mem_list fun x hx y hy => ?_
    rw [(mem_queue.mp hx).2, (mem_queue.mp hy).2]
  · rw [(mem_queue.mp hx).2, (mem_queue.mp hy).2]
    exact hlt.le

end KeyOrder
