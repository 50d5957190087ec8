import Mathlib.Data.Finmap
import Mathlib.Data.Fintype.Card
import MarketEngine.Kit.Cyclic

/-! # Open addressing with tombstones

A table of `m` slots probed linearly from the home slot of a key, wrapping
around. Erasing leaves a tombstone, which later probes step over and later
insertions may reuse. The invariant is that no probe from the home of a stored
key meets an empty slot before the key.
-/

/-- One slot of an open-addressed table. -/
inductive ProbeSlot (κ ν : Type*) where
  | empty
  | occupied (key : κ) (value : ν)
  | tombstone
  deriving DecidableEq, Repr

namespace ProbeTable

open Cyclic

variable {κ ν : Type*} {m : ℕ} [NeZero m]

/-- Probe up to `n` slots from `s` for the key, stopping at an empty slot. -/
def locate [DecidableEq κ] (t : Pool (ProbeSlot κ ν) m) (k : κ) : ℕ → Fin m → Option (Fin m)
  | 0, _ => none
  | n + 1, s =>
    match t.get s with
    | .empty => none
    | .occupied key _ => if key = k then some s else locate t k n (s + 1)
    | .tombstone => locate t k n (s + 1)

/-- The value stored for a key. -/
def lookup [DecidableEq κ] (t : Pool (ProbeSlot κ ν) m) (home : Fin m) (k : κ) : Option ν :=
  match locate t k m home with
  | none => none
  | some s =>
    match t.get s with
    | .occupied _ value => some value
    | _ => none

/-- Turn the slot of a key into a tombstone. -/
def erase [DecidableEq κ] (t : Pool (ProbeSlot κ ν) m) (home : Fin m) (k : κ) :
    Pool (ProbeSlot κ ν) m :=
  match locate t k m home with
  | none => t
  | some s => t.set s .tombstone

/-- Probe up to `n` slots from `s` for a free one, remembering the first tombstone.
Meeting an empty slot gives the destination; otherwise the tombstone, if any, is returned
as the error. -/
def destination (t : Pool (ProbeSlot κ ν) m) :
    ℕ → Fin m → Option (Fin m) → Except (Option (Fin m)) (Fin m)
  | 0, _, tombstone => .error tombstone
  | n + 1, s, tombstone =>
    match t.get s with
    | .empty => .ok (tombstone.getD s)
    | .occupied _ _ => destination t n (s + 1) tombstone
    | .tombstone => destination t n (s + 1) (tombstone.or (some s))

/-! ## The invariant -/

/-- The table stores value `v` for key `k`. -/
def Maps (t : Pool (ProbeSlot κ ν) m) (k : κ) (v : ν) : Prop :=
  ∃ s, t.get s = .occupied k v

/-- A slot an insertion may write. -/
def Free (t : Pool (ProbeSlot κ ν) m) (s : Fin m) : Prop :=
  ∀ k v, t.get s ≠ .occupied k v

/-- Every stored key is met by the probe from its home, and is stored once. -/
structure Valid (home : κ → Fin m) (t : Pool (ProbeSlot κ ν) m) : Prop where
  reach : ∀ k v j, j < m → t.get (ahead (home k) j) = .occupied k v →
    ∀ i < j, t.get (ahead (home k) i) ≠ .empty
  unique : ∀ k v w s u, t.get s = .occupied k v → t.get u = .occupied k w → s = u

variable {home : κ → Fin m} {t : Pool (ProbeSlot κ ν) m}

theorem Valid.maps_unique (h : Valid home t) {k : κ} {v w : ν} (hv : Maps t k v)
    (hw : Maps t k w) : v = w := by
  obtain ⟨s, hs⟩ := hv
  obtain ⟨u, hu⟩ := hw
  obtain rfl := h.unique k v w s u hs hu
  rw [hs] at hu
  injection hu

theorem valid_empty (h : ∀ s, t.get s = .empty) : Valid home t where
  reach k v j _ hj := by rw [h] at hj; cases hj
  unique k v w s u hs := by rw [h] at hs; cases hs

/-! ## Searching -/

theorem occupied_of_locate [DecidableEq κ] {k : κ} {n : ℕ} {s u : Fin m}
    (h : locate t k n s = some u) : ∃ v, t.get u = .occupied k v := by
  induction n generalizing s with
  | zero => simp [locate] at h
  | succ n ih =>
    unfold locate at h
    split at h
    · cases h
    · next key v hs =>
      split at h
      · next hk =>
        injection h with h
        subst h hk
        exact ⟨v, hs⟩
      · exact ih h
    · exact ih h

theorem locate_eq_some [DecidableEq κ] {k : κ} {v : ν} {n d : ℕ} {s : Fin m} (hd : d < n)
    (hs : t.get (ahead s d) = .occupied k v)
    (hne : ∀ i < d, t.get (ahead s i) ≠ .empty)
    (hk : ∀ i < d, ∀ w, t.get (ahead s i) ≠ .occupied k w) :
    locate t k n s = some (ahead s d) := by
  induction d generalizing n s with
  | zero =>
    obtain ⟨n, rfl⟩ : ∃ n', n = n' + 1 := ⟨n - 1, by omega⟩
    rw [ahead_zero] at hs ⊢
    simp [locate, hs]
  | succ d ih =>
    obtain ⟨n, rfl⟩ : ∃ n', n = n' + 1 := ⟨n - 1, by omega⟩
    have hrec : locate t k n (s + 1) = some (ahead s (d + 1)) := by
      rw [← ahead_succ]
      apply ih (by omega)
      · rwa [ahead_succ]
      · intro i hi
        rw [ahead_succ]
        exact hne _ (by omega)
      · intro i hi
        rw [ahead_succ]
        exact hk _ (by omega)
    have h0 := hne 0 (by omega)
    have hk0 := hk 0 (by omega)
    rw [ahead_zero] at h0 hk0
    unfold locate
    cases hs0 : t.get s with
    | empty => exact absurd hs0 h0
    | occupied key w =>
      have : key ≠ k := by
        rintro rfl
        exact hk0 w hs0
      simpa [this] using hrec
    | tombstone => exact hrec

/-- The probe from the home of a stored key finds its slot. -/
theorem Valid.locate_eq [DecidableEq κ] (h : Valid home t) {k : κ} {v : ν} {s : Fin m}
    (hs : t.get s = .occupied k v) : locate t k m (home k) = some s := by
  obtain ⟨d, hd, rfl⟩ := exists_ahead (home k) s
  apply locate_eq_some hd hs
  · exact h.reach k v d hd hs
  · intro i hi w hw
    have := (ahead_inj (by omega) hd).mp (h.unique k w v _ _ hw hs)
    omega

/-- A value that is found is stored. -/
theorem maps_of_lookup [DecidableEq κ] {k : κ} {v : ν} {s : Fin m} (h : lookup t s k = some v) :
    Maps t k v := by
  unfold lookup at h
  split at h
  · cases h
  · next s hs =>
    obtain ⟨w, hw⟩ := occupied_of_locate hs
    simp only [hw, Option.some.injEq] at h
    exact ⟨s, h ▸ hw⟩

theorem Valid.lookup_eq_some_iff [DecidableEq κ] (h : Valid home t) {k : κ} {v : ν} :
    lookup t (home k) k = some v ↔ Maps t k v := by
  constructor
  · exact maps_of_lookup
  · rintro ⟨s, hs⟩
    simp [lookup, h.locate_eq hs, hs]

theorem Valid.lookup_eq_none_iff [DecidableEq κ] (h : Valid home t) {k : κ} :
    lookup t (home k) k = none ↔ ∀ v, ¬ Maps t k v := by
  simp only [← h.lookup_eq_some_iff, Option.eq_none_iff_forall_ne_some, ne_eq]

/-! ## Erasing -/

theorem Valid.erase [DecidableEq κ] (h : Valid home t) (k : κ) :
    Valid home (erase t (home k) k) := by
  unfold ProbeTable.erase
  split
  · exact h
  · next s _ =>
    have hback : ∀ {u k v}, (t.set s .tombstone).get u = .occupied k v →
        t.get u = .occupied k v := by
      intro u k v hu
      rw [Pool.get_set] at hu
      split at hu
      · cases hu
      · exact hu
    constructor
    · intro k v j hj hjk i hi
      rw [Pool.get_set]
      split
      · simp
      · exact h.reach k v j hj (hback hjk) i hi
    · intro k v w u u' hu hu'
      exact h.unique k v w u u' (hback hu) (hback hu')

/-- What is stored after erasing was stored before. -/
theorem maps_of_erase [DecidableEq κ] {k k' : κ} {v : ν} {s : Fin m}
    (h : Maps (ProbeTable.erase t s k) k' v) : Maps t k' v := by
  obtain ⟨u, hu⟩ := h
  unfold ProbeTable.erase at hu
  split at hu
  · exact ⟨u, hu⟩
  · rw [Pool.get_set] at hu
    split at hu
    · cases hu
    · exact ⟨u, hu⟩

theorem Valid.maps_erase [DecidableEq κ] (h : Valid home t) {k k' : κ} {v : ν} :
    Maps (ProbeTable.erase t (home k) k) k' v ↔ k' ≠ k ∧ Maps t k' v := by
  unfold ProbeTable.erase
  split
  · next hl =>
    constructor
    · rintro ⟨s, hs⟩
      refine ⟨?_, s, hs⟩
      rintro rfl
      rw [h.locate_eq hs] at hl
      cases hl
    · exact fun hk => hk.2
  · next s hs =>
    obtain ⟨w, hw⟩ := occupied_of_locate hs
    constructor
    · rintro ⟨u, hu⟩
      rw [Pool.get_set] at hu
      split at hu
      · cases hu
      · next hne =>
        refine ⟨?_, u, hu⟩
        rintro rfl
        exact hne (h.unique _ _ _ _ _ hu hw)
    · rintro ⟨hk, u, hu⟩
      refine ⟨u, ?_⟩
      rw [Pool.get_set_of_ne, hu]
      rintro rfl
      rw [hw] at hu
      injection hu with hk' _
      exact hk hk'.symm

/-- Erasing leaves the empty slots as they are. -/
theorem erase_eq_empty_iff [DecidableEq κ] {k : κ} {s u : Fin m} :
    (ProbeTable.erase t s k).get u = .empty ↔ t.get u = .empty := by
  unfold ProbeTable.erase
  split
  · rfl
  · next d hd =>
    obtain ⟨v, hv⟩ := occupied_of_locate hd
    rw [Pool.get_set]
    split
    · next hu => simp [hu, hv]
    · rfl

/-! ## Inserting -/

theorem nonempty_ahead_succ {s : Fin m} {n : ℕ} (hs : t.get s ≠ .empty)
    (h : ∀ i < n, t.get (ahead (s + 1) i) ≠ .empty) :
    ∀ i < n + 1, t.get (ahead s i) ≠ .empty :=
  forall_ahead_succ (P := fun u => t.get u ≠ .empty) |>.mpr ⟨hs, h⟩

/-- The first free slot of a probe is the one that was met before, or the one that is met now. -/
theorem first_free {s d : Fin m} {tomb : Option (Fin m)} (hs : Free t s)
    (hd : tomb.or (some s) = some d) : tomb = some d ∨ d = ahead s 0 ∧ Free t d := by
  cases tomb with
  | none =>
    obtain rfl : s = d := Option.some.inj hd
    exact .inr ⟨by simp, hs⟩
  | some u => exact .inl hd

/-- An insertion is given a free slot that its probe reaches without crossing an empty one. -/
theorem destination_ok {n : ℕ} {s d : Fin m} {tomb : Option (Fin m)}
    (h : destination t n s tomb = .ok d) :
    ∃ e < n, t.get (ahead s e) = .empty ∧ (∀ i < e, t.get (ahead s i) ≠ .empty) ∧
      (tomb = some d ∨ ∃ j ≤ e, d = ahead s j ∧ Free t d) := by
  induction n generalizing s tomb with
  | zero => simp [destination] at h
  | succ n ih =>
    unfold destination at h
    split at h
    · next hs =>
      injection h with h
      have hd : tomb.or (some s) = some d := by rw [← h]; cases tomb <;> rfl
      exact ⟨0, by omega, by simpa using hs, fun i hi => by omega,
        (first_free (fun k v => by simp [hs]) hd).imp_right fun hfree => ⟨0, le_rfl, hfree⟩⟩
    · next key w hs =>
      obtain ⟨e, he, hempty, hne, hd⟩ := ih h
      refine ⟨e + 1, by omega, by rwa [← ahead_succ],
        nonempty_ahead_succ (by simp [hs]) hne, hd.imp_right ?_⟩
      rintro ⟨j, hj, rfl, hf⟩
      exact ⟨j + 1, by omega, ahead_succ s j, hf⟩
    · next hs =>
      obtain ⟨e, he, hempty, hne, hd⟩ := ih h
      refine ⟨e + 1, by omega, by rwa [← ahead_succ],
        nonempty_ahead_succ (by simp [hs]) hne, ?_⟩
      rcases hd with hd | ⟨j, hj, rfl, hf⟩
      · exact (first_free (fun k v => by simp [hs]) hd).imp_right fun hfree => ⟨0, by omega, hfree⟩
      · exact .inr ⟨j + 1, by omega, ahead_succ s j, hf⟩

/-- Without an empty slot the search ends at the first tombstone, if there is one. -/
theorem destination_error {n : ℕ} {s : Fin m} {tomb o : Option (Fin m)}
    (h : destination t n s tomb = .error o) :
    (∀ i < n, t.get (ahead s i) ≠ .empty) ∧
      (o = none → tomb = none ∧ ∀ i < n, ¬ Free t (ahead s i)) ∧
      (∀ d, o = some d → tomb = some d ∨ ∃ j < n, d = ahead s j ∧ Free t d) := by
  induction n generalizing s tomb with
  | zero =>
    obtain rfl : tomb = o := by simpa [destination] using h
    exact ⟨fun i hi => by omega, fun ho => ⟨ho, fun i hi => by omega⟩, fun d hd => .inl hd⟩
  | succ n ih =>
    unfold destination at h
    split at h
    · cases h
    · next key w hs =>
      obtain ⟨hne, hnone, hd⟩ := ih h
      have hocc : ¬ Free t s := fun hf => hf key w hs
      refine ⟨nonempty_ahead_succ (by simp [hs]) hne, fun ho => ⟨(hnone ho).1,
        forall_ahead_succ (P := fun u => ¬ Free t u) |>.mpr ⟨hocc, (hnone ho).2⟩⟩,
        fun d ho => (hd d ho).imp_right ?_⟩
      rintro ⟨j, hj, rfl, hf⟩
      exact ⟨j + 1, by omega, ahead_succ s j, hf⟩
    · next hs =>
      obtain ⟨hne, hnone, hd⟩ := ih h
      refine ⟨nonempty_ahead_succ (by simp [hs]) hne, fun ho => ?_, fun d ho => ?_⟩
      · have := (hnone ho).1
        cases tomb <;> simp at this
      · rcases hd d ho with hd | ⟨j, hj, rfl, hf⟩
        · exact (first_free (fun k v => by simp [hs]) hd).imp_right fun hfree =>
            ⟨0, by omega, hfree⟩
        · exact .inr ⟨j + 1, by omega, ahead_succ s j, hf⟩

theorem destination_ok_empty {s d : Fin m} {tomb : Option (Fin m)} {n : ℕ}
    (h : destination t n s tomb = .ok d) : ∃ u, t.get u = .empty := by
  obtain ⟨e, _, he, _⟩ := destination_ok h
  exact ⟨_, he⟩

theorem destination_error_full {s : Fin m} {tomb o : Option (Fin m)}
    (h : destination t m s tomb = .error o) : ∀ u, t.get u ≠ .empty := by
  intro u
  obtain ⟨j, hj, rfl⟩ := exists_ahead s u
  exact (destination_error h).1 j hj

theorem destination_of_tombstone {d e : Fin m} {n : ℕ} {s : Fin m}
    (h : destination t n s (some e) = .ok d) : d = e := by
  induction n generalizing s with
  | zero => cases h
  | succ n ih =>
    unfold destination at h
    split at h
    · exact (Except.ok.inj h).symm
    · exact ih h
    · exact ih h

/-- A free home slot is where an insertion goes. -/
theorem destination_of_free {s d : Fin m} {n : ℕ} (hs : Free t s)
    (h : destination t n s none = .ok d) : d = s := by
  cases n with
  | zero => cases h
  | succ n =>
    unfold destination at h
    split at h
    · exact (Except.ok.inj h).symm
    · next hocc => exact absurd hocc (hs _ _)
    · exact destination_of_tombstone h

/-- Where a successful insertion writes: a free slot on the key's own probe, before which
no slot is empty. -/
structure Reachable (home : κ → Fin m) (t : Pool (ProbeSlot κ ν) m) (k : κ) (d : Fin m) :
    Prop where
  free : Free t d
  steps : ∃ j < m, d = ahead (home k) j ∧ ∀ i < j, t.get (ahead (home k) i) ≠ .empty

theorem reachable_of_ok {k : κ} {d : Fin m}
    (h : destination t m (home k) none = .ok d) : Reachable home t k d := by
  obtain ⟨e, he, _, hne, hd | ⟨j, hj, hd, hf⟩⟩ := destination_ok h
  · cases hd
  · exact ⟨hf, j, by omega, hd, fun i hi => hne i (by omega)⟩

theorem reachable_of_error {k : κ} {d : Fin m}
    (h : destination t m (home k) none = .error (some d)) : Reachable home t k d := by
  obtain ⟨hne, _, hd⟩ := destination_error h
  obtain hd | ⟨j, hj, hd, hf⟩ := hd d rfl
  · cases hd
  · exact ⟨hf, j, hj, hd, fun i hi => hne i (by omega)⟩

omit [NeZero m] in
theorem maps_set {k k' : κ} {v v' : ν} {d : Fin m} (hd : Free t d) :
    Maps (t.set d (.occupied k v)) k' v' ↔ (k' = k ∧ v' = v) ∨ Maps t k' v' := by
  constructor
  · rintro ⟨s, hs⟩
    rw [Pool.get_set] at hs
    split at hs
    · injection hs with hk hv
      exact .inl ⟨hk.symm, hv.symm⟩
    · exact .inr ⟨s, hs⟩
  · rintro (⟨rfl, rfl⟩ | ⟨s, hs⟩)
    · exact ⟨d, Pool.get_set_self ..⟩
    · refine ⟨s, ?_⟩
      rw [Pool.get_set_of_ne, hs]
      rintro rfl
      exact hd _ _ hs

/-- Inserting an absent key keeps the invariant. -/
theorem Valid.set (h : Valid home t) {k : κ} {v : ν} {d : Fin m} (hd : Reachable home t k d)
    (hk : ∀ w, ¬ Maps t k w) : Valid home (t.set d (.occupied k v)) := by
  obtain ⟨hfree, j, hj, rfl, hne⟩ := hd
  have hkeep : ∀ u, t.get u ≠ .empty →
      (t.set (ahead (home k) j) (.occupied k v)).get u ≠ .empty := by
    intro u hu
    rw [Pool.get_set]
    split
    · simp
    · exact hu
  constructor
  · intro k' v' j' hj' hjk i hi
    apply hkeep
    rw [Pool.get_set] at hjk
    split at hjk
    · next heq =>
      injection hjk with hkk _
      subst hkk
      rw [ahead_inj hj' hj] at heq
      exact hne i (by omega)
    · exact h.reach k' v' j' hj' hjk i hi
  · intro k' v' w s u hs hu
    rw [Pool.get_set] at hs hu
    split at hs <;> split at hu
    · next h1 h2 => rw [h1, h2]
    · next h1 h2 =>
      injection hs with hkk _
      exact absurd ⟨u, hkk ▸ hu⟩ (hk w)
    · next h1 h2 =>
      injection hu with hkk _
      exact absurd ⟨s, hkk ▸ hs⟩ (hk v')
    · exact h.unique k' v' w s u hs hu

/-- A table with every slot occupied stores at least as many values as it has slots. -/
theorem Valid.card_le_of_occupied [Fintype ν] (h : Valid home t)
    (hinj : ∀ k k' v, Maps t k v → Maps t k' v → k = k')
    (hocc : ∀ s, ¬ Free t s) : m ≤ Fintype.card ν := by
  have hval : ∀ s, ∃ k v, t.get s = .occupied k v := by
    intro s
    simpa [Free] using hocc s
  choose key value hkv using hval
  have hf : Function.Injective value := by
    intro s u hsu
    have hk : key s = key u := hinj _ _ (value s) ⟨s, hkv s⟩ ⟨u, hsu ▸ hkv u⟩
    exact h.unique (key s) _ _ s u (hkv s) (hk ▸ hkv u)
  simpa using Fintype.card_le_of_injective value hf

theorem not_free_of_error_none {s : Fin m} {tomb : Option (Fin m)}
    (h : destination t m s tomb = .error none) : ∀ u, ¬ Free t u := by
  intro u
  obtain ⟨j, hj, rfl⟩ := exists_ahead s u
  exact ((destination_error h).2.1 rfl).2 j hj

/-! ## The finite map that a table stores -/

variable [DecidableEq κ]

/-- The table stores the entries of a finite map. -/
structure Stores (home : κ → Fin m) (t : Pool (ProbeSlot κ ν) m)
    (map : Finmap fun _ : κ => ν) : Prop where
  valid : Valid home t
  maps_iff : ∀ k v, Maps t k v ↔ map.lookup k = some v

variable {map : Finmap fun _ : κ => ν} {k : κ} {v : ν}

theorem Stores.empty (h : ∀ s, t.get s = .empty) : Stores home t ∅ where
  valid := valid_empty h
  maps_iff k v := by
    rw [Finmap.lookup_empty]
    constructor
    · rintro ⟨s, hs⟩
      rw [h] at hs
      cases hs
    · rintro ⟨⟩

theorem Stores.lookup_eq (h : Stores home t map) (k : κ) : lookup t (home k) k = map.lookup k := by
  ext v
  rw [h.valid.lookup_eq_some_iff, h.maps_iff]

theorem Stores.erase (h : Stores home t map) (k : κ) :
    Stores home (ProbeTable.erase t (home k) k) (map.erase k) where
  valid := h.valid.erase k
  maps_iff k' v := by
    rw [h.valid.maps_erase, h.maps_iff]
    by_cases hk : k' = k
    · subst hk
      simp
    · simp [hk]

/-- An absent key that is written to a slot on its probe becomes an entry. -/
theorem Stores.insert (h : Stores home t map) {d : Fin m} (hd : Reachable home t k d)
    (hk : k ∉ map) : Stores home (t.set d (.occupied k v)) (map.insert k v) where
  valid := by
    apply h.valid.set hd
    intro w hw
    exact hk (Finmap.mem_of_lookup_eq_some ((h.maps_iff k w).mp hw))
  maps_iff k' v' := by
    rw [maps_set hd.free, h.maps_iff]
    by_cases hkk : k' = k
    · subst hkk
      rw [Finmap.lookup_insert, Finmap.lookup_eq_none.mpr hk]
      simp [eq_comm]
    · rw [Finmap.lookup_insert_of_ne _ hkk]
      simp [hkk]

/-- With fewer entries than slots some slot is free. -/
theorem Stores.exists_free (h : Stores home t map) (hlt : map.keys.card < m) : ∃ s, Free t s := by
  by_contra hnone
  have hocc : ∀ s, ∃ k v, t.get s = .occupied k v := by
    intro s
    by_contra hs
    exact hnone ⟨s, fun k v hkv => hs ⟨k, v, hkv⟩⟩
  choose key value hkv using hocc
  have hmem : ∀ s ∈ Finset.univ, key s ∈ map.keys := by
    intro s _
    rw [Finmap.mem_keys]
    exact Finmap.mem_of_lookup_eq_some ((h.maps_iff _ _).mp ⟨s, hkv s⟩)
  have hinj : Set.InjOn key (Finset.univ : Finset (Fin m)) := by
    intro s _ u _ hsu
    exact h.valid.unique (key s) _ _ s u (hkv s) (hsu ▸ hkv u)
  have hle := Finset.card_le_card_of_injOn key hmem hinj
  rw [Finset.card_univ, Fintype.card_fin] at hle
  omega

end ProbeTable
