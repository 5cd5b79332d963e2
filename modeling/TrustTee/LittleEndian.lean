import Mathlib.Algebra.Group.Nat.Defs
import Mathlib.Data.List.Basic

set_option autoImplicit false

namespace LittleEndian

def bytes : Nat → Nat → List UInt8
  | 0, _ => []
  | n + 1, x => UInt8.ofNat x :: bytes n (x / 256)

def value : List UInt8 → Nat
  | [] => 0
  | b :: l => b.toNat + 256 * value l

@[simp] theorem length_bytes (n x : Nat) : (bytes n x).length = n := by
  induction n generalizing x with
  | zero => rfl
  | succ n ih => simp [bytes, ih]

theorem value_bytes (n x : Nat) : value (bytes n x) = x % 256 ^ n := by
  induction n generalizing x with
  | zero => simp [bytes, value, Nat.mod_one]
  | succ n ih =>
    have hb : (UInt8.ofNat x).toNat = x % 256 := by simp
    rw [bytes, value, ih, hb, Nat.pow_succ, Nat.mul_comm (256 ^ n) 256, Nat.mod_mul]

def field (l : List UInt8) (off n : Nat) : Nat := value ((l.drop off).take n)

theorem field_append_left {l m : List UInt8} {off n : Nat} (h : off + n ≤ l.length) :
    field (l ++ m) off n = field l off n := by
  unfold field
  rw [List.drop_append_of_le_length (by omega),
    List.take_append_of_le_length (by rw [List.length_drop]; omega)]

theorem field_append_right {l m : List UInt8} {off n : Nat} (h : l.length ≤ off) :
    field (l ++ m) off n = field m (off - l.length) n := by
  unfold field
  rw [List.drop_append, List.drop_of_length_le h, List.nil_append]

@[simp] theorem field_bytes (n x : Nat) : field (bytes n x) 0 n = x % 256 ^ n := by
  rw [field, List.drop_zero, List.take_of_length_le (by simp), value_bytes]

end LittleEndian
