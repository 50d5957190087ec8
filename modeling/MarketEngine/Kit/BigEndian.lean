import Mathlib.Algebra.Group.Nat.Defs
import Mathlib.Data.List.Induction

/-! # Big-endian numbers

Numbers as strings of bytes, most significant byte first.
-/

namespace BigEndian

/-- The number a string of bytes stands for. -/
def value (bytes : List UInt8) : ℕ := bytes.foldl (fun v b => v * 256 + b.toNat) 0

/-- The last `n` bytes of a number. -/
def bytes : ℕ → ℕ → List UInt8
  | 0, _ => []
  | n + 1, v => bytes n (v / 256) ++ [UInt8.ofNat v]

@[simp] theorem length_bytes (n v : ℕ) : (bytes n v).length = n := by
  induction n generalizing v with
  | zero => rfl
  | succ n ih => rw [bytes, List.length_append, ih, List.length_singleton]

theorem value_append (l : List UInt8) (b : UInt8) : value (l ++ [b]) = value l * 256 + b.toNat := by
  rw [value, List.foldl_append]
  rfl

theorem value_bytes {n v : ℕ} (h : v < 256 ^ n) : value (bytes n v) = v := by
  induction n generalizing v with
  | zero =>
    have hv : v = 0 := by simpa using h
    rw [hv]
    rfl
  | succ n ih =>
    rw [Nat.pow_succ] at h
    have hb : (UInt8.ofNat v).toNat = v % 256 := UInt8.toNat_ofNat'
    rw [bytes, value_append, ih (by omega), hb]
    omega

theorem value_lt (l : List UInt8) : value l < 256 ^ l.length := by
  induction l using List.reverseRecOn with
  | nil => decide
  | append_singleton l b ih =>
    rw [value_append, List.length_append, List.length_singleton, Nat.pow_succ]
    have := b.toNat_lt
    omega

/-- The number that `n` bytes at an offset stand for. -/
def field (offset n : ℕ) (l : List UInt8) : ℕ := value ((l.drop offset).take n)

theorem field_lt (offset n : ℕ) (l : List UInt8) : field offset n l < 256 ^ n := by
  have hlt := value_lt ((l.drop offset).take n)
  have hle : ((l.drop offset).take n).length ≤ n := by
    rw [List.length_take]
    exact Nat.min_le_left _ _
  exact Nat.lt_of_lt_of_le hlt (Nat.pow_le_pow_right (by decide) hle)

/-- A field behind the first bytes does not depend on them. -/
theorem field_skip {offset n : ℕ} {l : List UInt8} (h : l.length ≤ offset) (rest : List UInt8) :
    field offset n (l ++ rest) = field (offset - l.length) n rest := by
  rw [field, field, List.drop_append, List.drop_eq_nil_of_le h, List.nil_append]

/-- A written field is read back. -/
theorem field_bytes {n v : ℕ} (h : v < 256 ^ n) (rest : List UInt8) :
    field 0 n (bytes n v ++ rest) = v := by
  rw [field, List.drop_zero, List.take_append_of_le_length (by simp),
    List.take_of_length_le (by simp), value_bytes h]

theorem bytes_eq_map (n v : ℕ) :
    bytes n v = (List.range n).reverse.map fun i => UInt8.ofNat (v / 256 ^ i) := by
  induction n generalizing v with
  | zero => rfl
  | succ n ih =>
    rw [bytes, ih, List.range_succ_eq_map, List.reverse_cons, List.map_append, List.map_reverse,
      List.map_reverse, List.map_map]
    simp [Function.comp_def, Nat.pow_succ', Nat.div_div_eq_div_mul]

end BigEndian
