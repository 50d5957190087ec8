import MarketEngine.Book.OrderBook

/-! # The index of order ids

The order index by itself, for any number of slots. As long as at most half as
many ids are present as there are slots, it is a finite map: every insertion
finds a slot and every id is found with its last value, however the probes
collide and however many tombstones there are.
-/

namespace MarketEngine

open ProbeTable

/-- The slots of `order_lookup_`. -/
abbrev OrderTable (ν : Type) (m : ℕ) := Pool (ProbeSlot OrderId ν) m

namespace OrderTable

variable {ν : Type} {m : ℕ}

/-- All slots are empty. -/
def fresh (ν : Type) (m : ℕ) : OrderTable ν m := ⟨fun _ => .empty⟩

variable [NeZero m]

/-- `mix(id) & mask`. -/
def home (m : ℕ) [NeZero m] (id : OrderId) : Fin m :=
  let mask := m - 1
  Fin.ofNat m ((mix id).toNat &&& mask)

def findOrderIndex (t : OrderTable ν m) (id : OrderId) : Option ν := lookup t (home m id) id

def insertOrderLookup (t : OrderTable ν m) (id : OrderId) (value : ν) : Bool × OrderTable ν m :=
  match destination t m (home m id) none with
  | .ok slot => (true, t.set slot (.occupied id value))
  | .error (some tombstone) => (true, t.set tombstone (.occupied id value))
  | .error none => (false, t)

def eraseOrderLookup (t : OrderTable ν m) (id : OrderId) : OrderTable ν m :=
  erase t (home m id) id

end OrderTable

/-! ## The index of a book -/

/-- The sizes that are grown are powers of two. -/
theorem growPowerOfTwo_eq (value fuel k : ℕ) :
    ∃ k', growPowerOfTwo value fuel (2 ^ k) = 2 ^ k' := by
  induction fuel generalizing k with
  | zero => exact ⟨k, rfl⟩
  | succ fuel ih =>
    unfold growPowerOfTwo
    split
    · rw [Nat.shiftLeft_eq, pow_one, ← pow_succ]
      exact ih (k + 1)
    · exact ⟨k, rfl⟩

theorem exists_tableSize (c : Capacity) : ∃ k, tableSize c = 2 ^ k :=
  growPowerOfTwo_eq _ _ 0

namespace OrderBook

variable {c : Capacity}

/-- The mask of a power of two is a remainder. -/
theorem orderHome_eq (c : Capacity) (id : OrderId) :
    orderHome c id = OrderTable.home (tableSize c) id := by
  obtain ⟨k, hk⟩ := exists_tableSize c
  apply Fin.ext
  simp only [orderHome, OrderTable.home, Fin.ofNat]
  rw [hk, Nat.and_two_pow_sub_one_eq_mod, Nat.mod_mod]

theorem findOrderIndex_eq (b : OrderBook c) (id : OrderId) :
    b.findOrderIndex id = OrderTable.findOrderIndex b.orderLookup id := by
  rw [findOrderIndex, OrderTable.findOrderIndex, orderHome_eq]

theorem insertOrderLookup_eq (b : OrderBook c) (id : OrderId) (value : Index c) :
    b.insertOrderLookup id value =
      ((OrderTable.insertOrderLookup b.orderLookup id value).1,
        { b with orderLookup := (OrderTable.insertOrderLookup b.orderLookup id value).2 }) := by
  unfold insertOrderLookup OrderTable.insertOrderLookup
  rw [orderHome_eq]
  rcases destination b.orderLookup (tableSize c) (OrderTable.home (tableSize c) id) none with
    (_ | slot) | slot <;> rfl

theorem eraseOrderLookup_eq (b : OrderBook c) (id : OrderId) :
    b.eraseOrderLookup id =
      { b with orderLookup := OrderTable.eraseOrderLookup b.orderLookup id } := by
  rw [eraseOrderLookup, OrderTable.eraseOrderLookup, orderHome_eq]

end OrderBook

/-! ## Runs -/

namespace OrderTable

/-- A call that changes the index. -/
inductive Call (ν : Type)
  | insert (id : OrderId) (value : ν)
  | erase (id : OrderId)

variable {ν : Type} {m : ℕ} [NeZero m]

/-- The index after a call. -/
def apply (t : OrderTable ν m) : Call ν → OrderTable ν m
  | .insert id value => (t.insertOrderLookup id value).2
  | .erase id => t.eraseOrderLookup id

/-- The index after some calls. -/
def after (m : ℕ) [NeZero m] (calls : List (Call ν)) : OrderTable ν m :=
  calls.foldl apply (fresh ν m)

/-- What a call does to a finite map. -/
def Call.update (map : Finmap fun _ : OrderId => ν) : Call ν → Finmap fun _ : OrderId => ν
  | .insert id value => map.insert id value
  | .erase id => map.erase id

/-- The last value of every id that has not been erased since. -/
def present (calls : List (Call ν)) : Finmap fun _ : OrderId => ν :=
  calls.foldl Call.update ∅

/-- Only absent ids are inserted, and at most half as many are present as there are slots. -/
def Call.Allowed (m : ℕ) (map : Finmap fun _ : OrderId => ν) : Call ν → Prop
  | .insert id value => id ∉ map ∧ (map.insert id value).keys.card ≤ m / 2
  | .erase _ => True

instance (map : Finmap fun _ : OrderId => ν) (call : Call ν) :
    Decidable (call.Allowed m map) :=
  match call with
  | .insert _ _ => inferInstanceAs (Decidable (_ ∧ _))
  | .erase _ => inferInstanceAs (Decidable True)

/-- Every call is allowed after the ones before it. -/
def AllAllowed (m : ℕ) (calls : List (Call ν)) : Prop :=
  ∀ n, ∀ h : n < calls.length, calls[n].Allowed m (present (calls.take n))

instance (calls : List (Call ν)) : Decidable (AllAllowed m calls) :=
  Nat.decidableBallLT _ _

variable {t : OrderTable ν m} {map : Finmap fun _ : OrderId => ν} {calls : List (Call ν)}
  {call : Call ν}

/-- An allowed insertion finds a slot on the probe of its id. -/
theorem insert_eq (h : Stores (home m) t map) {id : OrderId} {value : ν}
    (hallowed : (Call.insert id value).Allowed m map) :
    ∃ slot, Reachable (home m) t id slot ∧
      t.insertOrderLookup id value = (true, t.set slot (.occupied id value)) := by
  unfold insertOrderLookup
  rcases hd : destination t m (home m id) none with (_ | slot) | slot
  · have hsub : map.keys ⊆ (map.insert id value).keys := by
      intro k hk
      rw [Finmap.mem_keys] at hk ⊢
      exact Finmap.mem_insert.mpr (.inr hk)
    have hle := (Finset.card_le_card hsub).trans hallowed.2
    have hpos : 0 < m := Nat.pos_of_neZero m
    obtain ⟨s, hfree⟩ := h.exists_free (by omega)
    exact absurd hfree (not_free_of_error_none hd s)
  · exact ⟨slot, reachable_of_error hd, rfl⟩
  · exact ⟨slot, reachable_of_ok hd, rfl⟩

/-- An allowed call does to the index what it does to the map. -/
theorem apply_stores (h : Stores (home m) t map) (hallowed : call.Allowed m map) :
    Stores (home m) (t.apply call) (call.update map) := by
  cases call with
  | erase id => exact h.erase id
  | insert id value =>
    obtain ⟨slot, hreach, heq⟩ := insert_eq h hallowed
    rw [apply, heq]
    exact h.insert hreach hallowed.1

theorem after_stores (h : AllAllowed m calls) (n : ℕ) :
    Stores (home m) (after m (calls.take n)) (present (calls.take n)) := by
  induction n with
  | zero => exact .empty fun _ => rfl
  | succ n ih =>
    rw [List.take_add_one]
    rcases Nat.lt_or_ge n calls.length with hn | hn
    · rw [List.getElem?_eq_getElem hn, Option.toList_some, after, present, List.foldl_append,
        List.foldl_append]
      exact apply_stores ih (h n hn)
    · rw [List.getElem?_eq_none hn, Option.toList_none, List.append_nil]
      exact ih

/-- In a run of allowed calls every insertion succeeds, and after every call every id is found with
the value of its last insertion that has not been erased. -/
theorem table_refines_map (h : AllAllowed m calls) :
    (∀ n id value, calls[n]? = some (.insert id value) →
      ((after m (calls.take n)).insertOrderLookup id value).1 = true) ∧
    ∀ n id, (after m (calls.take n)).findOrderIndex id = (present (calls.take n)).lookup id := by
  constructor
  · intro n id value hcall
    obtain ⟨hn, hget⟩ := List.getElem?_eq_some_iff.mp hcall
    have hallowed := h n hn
    rw [hget] at hallowed
    obtain ⟨slot, -, heq⟩ := insert_eq (after_stores h n) hallowed
    rw [heq]
  · intro n id
    exact (after_stores h n).lookup_eq id

/-- Four ids with a home each come and go, and two with one home stay. -/
def churned : List (Call ℕ) :=
  [.insert 0 1, .erase 0, .insert 1 2, .erase 1, .insert 2 3, .erase 2, .insert 9 4, .erase 9,
    .insert 19 5, .insert 22 6]

/-- Without an empty slot the second one goes to a tombstone past the end. -/
theorem churned_table_found :
    (∀ slot, (after 4 (churned.take 8)).get slot = .tombstone) ∧
      (after 4 (churned.take 10)).findOrderIndex 22 = some 6 :=
  ⟨by decide +kernel,
    ((table_refines_map (m := 4) (by decide +kernel)).2 10 22).trans (by decide +kernel)⟩

end OrderTable

end MarketEngine
