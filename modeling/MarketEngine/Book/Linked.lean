import MarketEngine.Book.Queues
import Mathlib.Data.Fintype.EquivFin

/-! # Orders linked into levels

Between two operations every level in use has at least one order. Unlinking an
order releases a level it leaves empty, and linking one first acquires the level
it belongs to.
-/

namespace MarketEngine

open Intrusive

variable {c : Capacity}

namespace OrderBook

variable {b b' : OrderBook c} {free l l₁ l₂ : List (Index c)} {i ℓ : Index c}

/-- The levels and their queues agree, and no level in use is empty. -/
structure Linked (b : OrderBook c) (l free : List (Index c)) : Prop where
  levels : LevelsOk b free
  queues : QueuesOk b l
  nonempty : ∀ ℓ, (b.levels.get ℓ).active = true → b.fifo l ℓ ≠ []

/-- Orders outside the list do not matter to the queues. -/
theorem QueuesOk.congr_orders (h : QueuesOk b l)
    (horders : ∀ j ∈ l, b'.orders.get j = b.orders.get j)
    (hlevels : ∀ m, b'.levels.get m = b.levels.get m) : QueuesOk b' l where
  nodup := h.nodup
  linked j hj := by
    simp only [horders j hj, hlevels]
    exact h.linked j hj
  queued m hm := by
    rw [hlevels] at hm
    have hq := h.queued m hm
    have hfifo : b'.fifo l m = b.fifo l m := fifo_congr fun j hj => by rw [horders j hj]
    have hmem : ∀ j ∈ b.fifo l m, b'.orders.get j = b.orders.get j :=
      fun j hj => horders j (mem_fifo.mp hj).1
    constructor
    · rw [hfifo, hlevels]
      exact hq.links.congr (fun j hj => by rw [hmem j hj]) fun j hj => by rw [hmem j hj]
    · rw [hfifo, hlevels, hq.total]
      exact (totalOf_congr fun j hj => by rw [hmem j hj]).symm
    · rw [hfifo, hlevels]
      exact hq.count

/-- Neither do the order index, the counters and the free orders. -/
theorem Linked.congr (h : Linked b l free) (hindex : SameIndex b b')
    (hlevels : ∀ m, b'.levels.get m = b.levels.get m)
    (horders : ∀ j ∈ l, b'.orders.get j = b.orders.get j) : Linked b' l free where
  levels := h.levels.congr hindex
  queues := h.queues.congr_orders horders hlevels
  nonempty m hm := by
    rw [hlevels] at hm
    have hfifo : b'.fifo l m = b.fifo l m := fifo_congr fun j hj => by rw [horders j hj]
    rw [hfifo]
    exact h.nonempty m hm

/-- An order of each level in use. -/
theorem Linked.exists_order (h : Linked b l free) (hnil : free = []) :
    ∃ f : Index c → Index c, f.Surjective ∧ ∀ m, f m ∈ b.fifo l m := by
  have hactive : ∀ m, (b.levels.get m).active = true := by
    intro m
    have := h.levels.free_iff m
    simpa [hnil] using this
  choose f hf using fun m => List.exists_mem_of_ne_nil _ (h.nonempty m (hactive m))
  refine ⟨f, Finite.injective_iff_surjective.mp fun m m' he => ?_, hf⟩
  have hm := (mem_fifo.mp (hf m)).2
  have hm' := (mem_fifo.mp (hf m')).2
  rw [← he, hm] at hm'
  exact Option.some.inj hm'

/-- While an order is not linked, some level is free. -/
theorem Linked.free_ne_nil (h : Linked b l free) (hi : i ∉ l) : free ≠ [] := by
  intro hnil
  obtain ⟨f, hsurj, hf⟩ := h.exists_order hnil
  obtain ⟨m, rfl⟩ := hsurj i
  exact hi (mem_fifo.mp (hf m)).1

/-- When no level is free, every level has a single order. -/
theorem Linked.count_le_one (h : Linked b l free) (hnil : free = []) (m : Index c) :
    (b.fifo l m).length ≤ 1 := by
  obtain ⟨f, hsurj, hf⟩ := h.exists_order hnil
  have hone : ∀ j ∈ b.fifo l m, j = f m := by
    intro j hj
    obtain ⟨m', rfl⟩ := hsurj j
    have hm := (mem_fifo.mp hj).2.symm.trans (mem_fifo.mp (hf m')).2
    rw [Option.some.inj hm]
  by_contra hlen
  have hnodup := h.queues.nodup_fifo m
  match hq : b.fifo l m, hlen, hone, hnodup with
  | [], hlen, _, _ => simp at hlen
  | [_], hlen, _, _ => simp at hlen
  | j :: k :: _, _, hone, hnodup =>
    have hj := hone j (by simp)
    have hk := hone k (by simp)
    simp [hj, hk] at hnodup

/-- Giving up an empty level leaves the queues of the others as they are. -/
theorem release_queues (hlevels : LevelsOk b free) (h : QueuesOk b l)
    (hactive : (b.levels.get ℓ).active = true) (hnil : b.fifo l ℓ = []) :
    QueuesOk (b.releaseLevel ℓ) l := by
  obtain ⟨hfree, hcore⟩ := releaseLevel_frame hlevels hactive
  have hsame := releaseLevel_sameOrders b ℓ
  have hne : ∀ {j m}, j ∈ l → (b.orders.get j).level = some m → m ≠ ℓ := by
    rintro j m hj hm rfl
    exact List.not_mem_nil (hnil ▸ mem_fifo.mpr ⟨hj, hm⟩)
  constructor
  · exact h.nodup
  · intro j hj
    obtain ⟨m, hm, hma, hmk⟩ := h.linked j hj
    have hmcore := hcore m (hne hj hm)
    refine ⟨m, ?_, ?_, ?_⟩
    · rw [hsame.orders, hm]
    · exact (congrArg Level.active hmcore :).trans hma
    · rw [hsame.orders]
      exact (congrArg Level.key hmcore :).trans hmk
  · intro m hm
    have hmℓ : m ≠ ℓ := by
      rintro rfl
      simp [hfree] at hm
    have hma : (b.levels.get m).active = true :=
      (congrArg Level.active (hcore m hmℓ) :).symm.trans hm
    exact (h.queued m hma).congr hsame.orders (hcore m hmℓ)

theorem unlink_sameCores (b : OrderBook c) (i : Index c) : SameCores b (b.unlink i) := by
  unfold unlink
  split
  · exact ⟨fun _ => rfl, rfl, rfl, rfl, rfl, rfl⟩
  · dsimp only
    split
    · exact (detach_sameCores b i _).trans (releaseLevel_sameOrders _ _).sameCores
    · exact detach_sameCores b i _

/-- Unlinking an order takes it off the list. -/
theorem unlink_linked (h : Linked b (l₁ ++ i :: l₂) free) :
    ∃ free', Linked (b.unlink i) (l₁ ++ l₂) free' := by
  obtain ⟨ℓ, hℓ, hactive, -⟩ := h.queues.linked i (by simp)
  have hindex := detach_sameIndex b i ℓ
  have hsame := detach_sameCores b i ℓ
  have hlevels : LevelsOk (b.detach i ℓ) free := h.levels.congr hindex
  have hqueues : QueuesOk (b.detach i ℓ) (l₁ ++ l₂) := detach_ok h.queues hℓ
  have hactive' : ((b.detach i ℓ).levels.get ℓ).active = true := by rw [hindex.active, hactive]
  -- only the level of the order loses one
  have hother : ∀ m, m ≠ ℓ → (b.levels.get m).active = true →
      (b.detach i ℓ).fifo (l₁ ++ l₂) m ≠ [] := by
    intro m hm hma
    have := h.nonempty m hma
    rwa [fifo_append, fifo_cons_of_ne (by simpa [hℓ] using Ne.symm hm), ← fifo_append,
      ← hsame.fifo] at this
  simp only [unlink, hℓ]
  split
  · next hcount =>
    have hnil := hqueues.fifo_eq_nil hactive' hcount
    obtain ⟨hfree, hcore⟩ := releaseLevel_frame hlevels hactive'
    refine ⟨ℓ :: free, releaseLevel_ok hlevels hactive',
      release_queues hlevels hqueues hactive' hnil, fun m hm => ?_⟩
    have hmℓ : m ≠ ℓ := by
      rintro rfl
      simp [hfree] at hm
    have hma : (b.levels.get m).active = true := by
      rw [← hindex.active, ← hm]
      exact (congrArg Level.active (hcore m hmℓ) :).symm
    rw [(releaseLevel_sameOrders _ ℓ).sameCores.fifo]
    exact hother m hmℓ hma
  · next hcount =>
    refine ⟨free, hlevels, hqueues, fun m hm => ?_⟩
    by_cases hmℓ : m = ℓ
    · subst hmℓ
      intro hnil
      apply hcount
      rw [(hqueues.queued m hm).count, hnil]
      rfl
    · rw [hindex.active] at hm
      exact hother m hmℓ hm

/-! ## Acquiring a level and linking to it -/

variable {side : Side} {price : Price} {o : Option (Index c)}

theorem Acquired.sameOrders (h : Acquired b free side price o b') : SameOrders b b' := by
  cases h with
  | found => exact .refl b
  | exhausted => exact .refl b
  | refused _ _ _ horders => exact horders
  | opened _ _ _ _ _ _ _ horders => exact horders

theorem Acquired.queues (h : Acquired b free side price o b') (hlevels : LevelsOk b free)
    (hqueues : QueuesOk b l) : QueuesOk b' l := by
  cases h with
  | found => exact hqueues
  | exhausted => exact hqueues
  | refused _ _ _ horders hactive hlevel =>
    constructor
    · exact hqueues.nodup
    · intro j hj
      obtain ⟨m, hm, hma, hmk⟩ := hqueues.linked j hj
      rw [horders.orders]
      exact ⟨m, hm, by rw [hactive, hma], by rw [hlevel m hma, hmk]⟩
    · intro m hm
      rw [hactive] at hm
      exact (hqueues.queued m hm).congr horders.orders (by rw [hlevel m hm])
  | opened i rest _ hfind hrefused hfree hok horders hopened hlevel =>
    subst hfree
    have hne : ∀ {m}, (b.levels.get m).active = true → m ≠ i := fun hm => hlevels.ne_head hm
    constructor
    · exact hqueues.nodup
    · intro j hj
      obtain ⟨m, hm, hma, hmk⟩ := hqueues.linked j hj
      have hcore := hlevel m (hne hma)
      rw [horders.orders]
      exact ⟨m, hm, (congrArg Level.active hcore :).trans hma,
        (congrArg Level.key hcore :).trans hmk⟩
    · intro m hm
      by_cases hmi : m = i
      · subst hmi
        have hnil : b'.fifo l m = [] := by
          rw [horders.sameCores.fifo, List.eq_nil_iff_forall_not_mem]
          intro j hj
          obtain ⟨hjl, hjm⟩ := mem_fifo.mp hj
          exact hne (hqueues.level_active hjl hjm).1 rfl
        have hhead : (b'.levels.get m).head = none := (congrArg Level.head hopened :)
        have htail : (b'.levels.get m).tail = none := (congrArg Level.tail hopened :)
        constructor
        · rw [hnil, hhead, htail]
          exact ⟨rfl, rfl, trivial⟩
        · rw [hnil]
          exact (congrArg Level.totalQuantity hopened :)
        · rw [hnil]
          exact (congrArg Level.orderCount hopened :)
      · have hcore := hlevel m hmi
        have hma : (b.levels.get m).active = true := (congrArg Level.active hcore :).symm.trans hm
        exact (hqueues.queued m hma).congr horders.orders hcore

/-- A level that could not be acquired changes nothing for the linked orders. -/
theorem Acquired.linked_none (h : Acquired b free side price none b') (hl : Linked b l free) :
    Linked b' l free := by
  have hqueues := h.queues hl.levels hl.queues
  cases h with
  | exhausted => exact hl
  | refused _ _ hok horders hactive _ =>
    refine ⟨hok, hqueues, fun m hm => ?_⟩
    rw [horders.sameCores.fifo]
    exact hl.nonempty m (by rw [← hactive, hm])

/-- An acquired level has the key, and is the only one that may be empty. -/
theorem Acquired.linked_some (h : Acquired b free side price (some ℓ) b')
    (hl : Linked b l free) :
    (∃ free', LevelsOk b' free') ∧ QueuesOk b' l ∧ (b'.levels.get ℓ).active = true ∧
      (b'.levels.get ℓ).key = ⟨side, price⟩ ∧
      ∀ m, m ≠ ℓ → (b'.levels.get m).active = true → b'.fifo l m ≠ [] := by
  have hqueues := h.queues hl.levels hl.queues
  cases h with
  | found _ hactive hkey =>
    exact ⟨⟨free, hl.levels⟩, hqueues, hactive, hkey, fun m _ hm => hl.nonempty m hm⟩
  | opened _ rest _ _ _ _ hok horders hopened hlevel =>
    refine ⟨⟨rest, hok⟩, hqueues, (congrArg Level.active hopened :),
      (congrArg Level.key hopened :), fun m hmℓ hm => ?_⟩
    rw [horders.sameCores.fifo]
    exact hl.nonempty m ((congrArg Level.active (hlevel m hmℓ) :).symm.trans hm)

/-- Linking an order to the level it was given. -/
theorem linkTail_linked (hlevels : LevelsOk b free) (hqueues : QueuesOk b l) (hi : i ∉ l)
    (hℓ : (b.orders.get i).level = some ℓ) (hactive : (b.levels.get ℓ).active = true)
    (hkey : (b.levels.get ℓ).key = (b.orders.get i).key)
    (hother : ∀ m, m ≠ ℓ → (b.levels.get m).active = true → b.fifo l m ≠ []) :
    Linked (b.linkTail i ℓ) (l ++ [i]) free := by
  have hsame := linkTail_sameCores b i ℓ
  have hindex := linkTail_sameIndex b i ℓ
  refine ⟨hlevels.congr hindex, linkTail_ok hqueues hi hℓ hactive hkey, fun m hm => ?_⟩
  rw [hsame.fifo, fifo_append]
  by_cases hmℓ : m = ℓ
  · subst hmℓ
    simp [fifo_cons_self hℓ]
  · rw [hindex.active] at hm
    simp [hother m hmℓ hm]

/-! ## Changing a quantity in place -/

theorem totalOf_update {q : Quantity} (hl : (l₁ ++ i :: l₂).Nodup)
    (hself : (b'.orders.get i).quantity = q)
    (hother : ∀ j, j ≠ i → (b'.orders.get j).quantity = (b.orders.get j).quantity) :
    b'.totalOf (l₁ ++ i :: l₂) =
      b.totalOf (l₁ ++ i :: l₂) - (b.orders.get i).quantity + q := by
  have hi₁ : ∀ j ∈ l₁, j ≠ i := by grind
  have hi₂ : ∀ j ∈ l₂, j ≠ i := by grind
  rw [totalOf_append, totalOf_append, totalOf_cons, totalOf_cons, hself,
    totalOf_congr fun j hj => hother j (hi₁ j hj), totalOf_congr fun j hj => hother j (hi₂ j hj)]
  grind

/-- The quantity of an order changes along with the total of its level. -/
theorem requantify_linked (h : Linked b l free) (hi : i ∈ l)
    (hℓ : (b.orders.get i).level = some ℓ) {q : Quantity} (hindex : SameIndex b b')
    (horder : ∀ j, b'.orders.get j =
      if j = i then { b.orders.get j with quantity := q } else b.orders.get j)
    (hlevel : ∀ m, b'.levels.get m = if m = ℓ then { b.levels.get m with
        totalQuantity := (b.levels.get m).totalQuantity - (b.orders.get i).quantity + q }
      else b.levels.get m) : Linked b' l free := by
  have hsame : ∀ j, (b'.orders.get j).level = (b.orders.get j).level := by
    intro j
    rw [horder]
    split <;> rfl
  have hkey : ∀ j, (b'.orders.get j).key = (b.orders.get j).key := by
    intro j
    rw [horder]
    split <;> rfl
  have hfifo : ∀ m, b'.fifo l m = b.fifo l m := fun m => fifo_congr fun j _ => hsame j
  refine ⟨h.levels.congr hindex, ⟨h.queues.nodup, fun j hj => ?_, fun m hm => ?_⟩,
    fun m hm => ?_⟩
  · rw [hsame, hkey]
    simp only [hindex.active, hindex.key]
    exact h.queues.linked j hj
  · rw [hindex.active] at hm
    have hq := h.queues.queued m hm
    have hends : (b'.levels.get m).head = (b.levels.get m).head ∧
        (b'.levels.get m).tail = (b.levels.get m).tail ∧
        (b'.levels.get m).orderCount = (b.levels.get m).orderCount := by
      rw [hlevel]
      split <;> exact ⟨rfl, rfl, rfl⟩
    constructor
    · rw [hends.1, hends.2.1, hfifo]
      refine hq.links.congr (fun j _ => ?_) fun j _ => ?_ <;>
        simp only [horder] <;> split <;> rfl
    · rw [hfifo]
      by_cases hmℓ : m = ℓ
      · subst hmℓ
        have hmem : i ∈ b.fifo l m := mem_fifo.mpr ⟨hi, hℓ⟩
        obtain ⟨l₁, l₂, hsplit⟩ := List.append_of_mem hmem
        have hnodup := h.queues.nodup_fifo m
        have htotal := hq.total
        rw [hsplit] at hnodup htotal ⊢
        have hsum : b'.totalOf (l₁ ++ i :: l₂) =
            b.totalOf (l₁ ++ i :: l₂) - (b.orders.get i).quantity + q :=
          totalOf_update hnodup (by rw [horder, if_pos rfl]) fun j hj => by rw [horder, if_neg hj]
        rw [hsum, hlevel, if_pos rfl, ← htotal]
      · rw [hlevel, if_neg hmℓ, hq.total]
        refine (totalOf_congr fun j hj => ?_).symm
        rw [horder, if_neg]
        rintro rfl
        exact hmℓ (Option.some.inj ((mem_fifo.mp hj).2.symm.trans hℓ))
    · rw [hends.2.2, hfifo]
      exact hq.count
  · rw [hindex.active] at hm
    rw [hfifo]
    exact h.nonempty m hm

end OrderBook

end MarketEngine
