import Mathlib.Data.List.Perm.Basic
import Mathlib.Data.List.Nodup
import Std.Data.TreeMap.Lemmas

/-! # Ordered maps

`std::map` as a tree map: its entries in key order rearrange any list of
distinct keys with the same lookups, and values collected under a key are those
of the items with this key.
-/

namespace OrderedMap

open Std

variable {κ ν α : Type*} {cmp : κ → κ → Ordering} [TransCmp cmp] [LawfulEqCmp cmp]

theorem nodup_toList (m : TreeMap κ ν cmp) : m.toList.Nodup := by
  apply (TreeMap.distinct_keys_toList (t := m)).imp
  rintro x y hne rfl
  exact hne ReflCmp.compare_self

/-- The entries are the items of any list of distinct keys with the same lookups. -/
theorem toList_perm {m : TreeMap κ ν cmp} {l : List (κ × ν)} (hl : l.Nodup)
    (h : ∀ k v, m[k]? = some v ↔ (k, v) ∈ l) : m.toList.Perm l := by
  rw [List.perm_ext_iff_of_nodup (nodup_toList m) hl]
  rintro ⟨k, v⟩
  rw [TreeMap.mem_toList_iff_getElem?_eq_some, h]

theorem lookup_insert [DecidableEq κ] (m : TreeMap κ ν cmp) (k k' : κ) (v : ν) :
    (m.insert k v)[k']? = if k = k' then some v else m[k']? := by
  simp only [TreeMap.getElem?_insert, LawfulEqCmp.compare_eq_iff_eq]

theorem lookup_erase [DecidableEq κ] (m : TreeMap κ ν cmp) (k k' : κ) :
    (m.erase k)[k']? = if k = k' then none else m[k']? := by
  simp only [TreeMap.getElem?_erase, LawfulEqCmp.compare_eq_iff_eq]

theorem lookup_insertIfNew [DecidableEq κ] {m : TreeMap κ ν cmp} {k : κ} (hk : m[k]? = none)
    (k' : κ) (v : ν) : (m.insertIfNew k v)[k']? = if k = k' then some v else m[k']? := by
  have hnot : k ∉ m := by
    rw [TreeMap.mem_iff_isSome_getElem?, hk]
    simp
  simp only [TreeMap.getElem?_insertIfNew, LawfulEqCmp.compare_eq_iff_eq, hnot, not_false_eq_true,
    and_true]

/-- Collecting items under their keys leaves under a key what its own items make of it. -/
theorem getElem?_collect [DecidableEq κ] (key : α → κ) (init : ν) (add : ν → α → ν)
    (items : List α) (m : TreeMap κ ν cmp) (k : κ) :
    (items.foldl (fun m x => m.insert (key x) (add (m.getD (key x) init) x)) m)[k]? =
      if (items.filter fun x => key x = k) = [] then m[k]?
      else some ((items.filter fun x => key x = k).foldl add (m.getD k init)) := by
  induction items generalizing m with
  | nil => simp
  | cons x items ih =>
    rw [List.foldl_cons, ih]
    by_cases hx : key x = k
    · subst hx
      rw [List.filter_cons_of_pos (by simp), if_neg (List.cons_ne_nil _ _), List.foldl_cons,
        TreeMap.getElem?_insert_self, TreeMap.getD_insert_self]
      split
      · next hnil => rw [hnil, List.foldl_nil]
      · rfl
    · have hcmp : cmp (key x) k ≠ .eq := fun he => hx (LawfulEqCmp.eq_of_compare he)
      rw [List.filter_cons_of_neg (by simpa using hx), lookup_insert, if_neg hx,
        TreeMap.getD_insert, if_neg hcmp]

end OrderedMap
