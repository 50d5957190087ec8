import MarketEngine.Book.Observations

/-! # Arrival order

As long as the priority counter has not wrapped, priorities grow along the list
of resting orders and all lie below the counter. Then the priority list is the
one list of the resting orders by side, price and priority.
-/

namespace MarketEngine

/-- Priorities grow by arrival, and at most `n` of them were given. -/
structure PriceTimeBook.Aged (n : ℕ) (a : PriceTimeBook) : Prop where
  ordered : a.resting.Pairwise fun o o' => o.priority.toNat < o'.priority.toNat
  below : ∀ o ∈ a.resting, o.priority.toNat < a.nextPriority.toNat
  bound : a.nextPriority.toNat ≤ n

/-- The rank of an order: its level, then its priority. -/
def OrderView.rank (o : OrderView) : Lex (Lex (ℕ × ℤ) × ℕ) := toLex (o.key.rank, o.priority.toNat)

namespace PriceTimeBook.Aged

variable {a : PriceTimeBook} {request : OrderRequest} {t : Trading} {n m : ℕ}

theorem empty (c : Capacity) : Aged 0 (.empty c) :=
  ⟨List.Pairwise.nil, fun _ ho => absurd ho List.not_mem_nil, le_rfl⟩

theorem mono (h : a.Aged n) (hle : n ≤ m) : a.Aged m :=
  ⟨h.ordered, h.below, h.bound.trans hle⟩

theorem without (h : a.Aged n) (id : OrderId) : (a.without id).Aged n :=
  ⟨h.ordered.filter _, fun o ho => h.below o (List.mem_filter.mp ho).1, h.bound⟩

theorem requantify (h : a.Aged n) (id : OrderId) (q : Quantity) : (a.requantify id q).Aged n where
  ordered := by
    refine List.pairwise_map.mpr (h.ordered.imp fun {o o'} hlt => ?_)
    split <;> split <;> exact hlt
  below o ho := by
    obtain ⟨o', ho', rfl⟩ := List.mem_map.mp ho
    have := h.below o' ho'
    split <;> exact this
  bound := h.bound

theorem enter (h : a.Aged n) (hn : n + 1 < 2 ^ 64) (id : OrderId) (side : Side) (price : Price)
    (q : Quantity) : (a.enter id side price q).Aged (n + 1) := by
  have hbound := h.bound
  have hnext : (a.nextPriority + 1).toNat = a.nextPriority.toNat + 1 := by
    rw [UInt64.toNat_add, UInt64.toNat_one, Nat.mod_eq_of_lt (by omega)]
  refine ⟨?_, fun o ho => ?_, ?_⟩
  · refine List.pairwise_append.mpr ⟨h.ordered, List.pairwise_singleton _ _, ?_⟩
    intro o ho o' ho'
    obtain rfl := List.mem_singleton.mp ho'
    exact h.below o ho
  · rw [PriceTimeBook.enter, hnext]
    rcases List.mem_append.mp ho with ho | ho
    · exact (h.below o ho).trans (Nat.lt_succ_self _)
    · obtain rfl := List.mem_singleton.mp ho
      exact Nat.lt_succ_self _
  · rw [PriceTimeBook.enter, hnext]
    omega

theorem rest (h : a.Aged n) (hn : n + 1 < 2 ^ 64) (refused : Bool) (id : OrderId) (side : Side)
    (price : Price) (q : Quantity) : (a.rest refused id side price q).2.Aged (n + 1) := by
  have hkept : a.Aged (n + 1) := h.mono n.le_succ
  unfold PriceTimeBook.rest
  split_ifs
  · exact hkept
  · exact hkept
  · exact hkept
  · exact h.enter hn id side price q

theorem cancel (h : a.Aged n) (id : OrderId) : (a.cancel id).2.Aged n := by
  unfold PriceTimeBook.cancel
  split
  · exact h
  · exact h.without id

theorem trade (h : a.Aged n) (id : OrderId) (q : Quantity) : (a.trade id q).2.Aged n := by
  unfold PriceTimeBook.trade
  split_ifs
  · exact h
  · split
    · exact h
    · split_ifs
      · exact h
      · exact h.without id
      · exact h.requantify id _

theorem process (h : a.Aged n) (hn : n + 1 < 2 ^ 64) (refused : Bool) (event : MarketDataEvent) :
    (a.process refused event).2.Aged (n + 1) := by
  have hkept : a.Aged (n + 1) := h.mono n.le_succ
  unfold PriceTimeBook.process
  cases event.type with
  | add => exact h.rest hn refused _ _ _ _
  | modify =>
    dsimp only [PriceTimeBook.modify]
    split_ifs
    · exact hkept
    · split
      · exact hkept
      · split_ifs
        · exact hkept.requantify _ _
        · exact (h.without _).enter hn _ _ _ _
  | cancel => exact hkept.cancel _
  | trade => exact hkept.trade _ _
  | reduce => exact hkept.trade _ _
  | replace =>
    dsimp only [PriceTimeBook.replace]
    split
    · exact hkept
    · split
      · exact hkept
      · split
        · exact hkept
        · exact (h.without _).rest hn refused _ _ _ _

/-! ## Match mode -/

theorem fill (h : t.book.Aged n) (maker : OrderView) : (t.fill request maker).book.Aged n := by
  have hnext : ({ t.book with fillSequence := t.book.fillSequence + 1 } : PriceTimeBook).Aged n :=
    ⟨h.ordered, h.below, h.bound⟩
  unfold Trading.fill
  dsimp only
  split_ifs
  · exact hnext.without _
  · exact hnext.requantify _ _

theorem matchAll (h : t.book.Aged n) (request : OrderRequest) (k : ℕ) :
    (Trading.matchAll request k t).book.Aged n := by
  induction k generalizing t with
  | zero => exact h
  | succ k ih =>
    unfold Trading.matchAll
    split_ifs
    · exact h
    · split
      · exact h
      · exact ih (h.fill _)

theorem settle (h : t.book.Aged n) (hn : n + 1 < 2 ^ 64) (refused : Bool)
    (request : OrderRequest) : (PriceTimeBook.settle refused request t).2.Aged (n + 1) := by
  have hkept : t.book.Aged (n + 1) := h.mono n.le_succ
  have hrest := h.rest hn refused request.id request.side request.priceTicks t.remaining
  unfold PriceTimeBook.settle
  dsimp only
  split
  · exact hkept
  · split
    · split
      · next heq => rwa [heq] at hrest
      · next heq => rwa [heq] at hrest
    · split <;> exact hkept

theorem submit (h : a.Aged n) (hn : n + 1 < 2 ^ 64) (refused : Bool) (request : OrderRequest) :
    (a.submit refused request).2.2.Aged (n + 1) := by
  have hkept : a.Aged (n + 1) := h.mono n.le_succ
  unfold PriceTimeBook.submit
  split
  · have hcancel := hkept.cancel request.id
    split
    · next heq => rwa [heq] at hcancel
    · next heq => rwa [heq] at hcancel
  · split_ifs
    · exact hkept
    · exact hkept
    · exact hkept
    · exact settle (t := a.traded request) (h.matchAll request _) hn refused request

/-! ## The priority list -/

/-- The priority list is in the order of levels and, within one, of priorities. -/
theorem ordered_priority (h : a.Aged n) :
    a.ordersInPriority.Pairwise fun o o' => o.rank < o'.rank := by
  refine Sorting.ordered_flatMap (OrderBook.levels_ordered a) ?_ ?_
  · intro level _ o ho
    have hkey : o.key = level.key := by simpa using (List.mem_filter.mp ho).2
    rw [hkey]
  · exact fun level _ => h.ordered.filter _

end PriceTimeBook.Aged

end MarketEngine
