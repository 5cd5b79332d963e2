import Mathlib.Data.Nat.Bitwise
import Mathlib.Order.Bounds.Basic

/-!
Alignment to a power of two: the mask arithmetic of machine words against rounding up to
a multiple, and the least place for a block that may not straddle a boundary.
-/

set_option autoImplicit false

namespace Alignment

def up (a x : Nat) : Nat := (x + (a - 1)) / a * a

variable {a x k w : Nat}

theorem dvd_up : a ∣ up a x := ⟨(x + (a - 1)) / a, Nat.mul_comm _ _⟩

theorem le_up (ha : 0 < a) : x ≤ up a x := by
  have h := Nat.div_add_mod (x + (a - 1)) a
  have hlt := Nat.mod_lt (x + (a - 1)) ha
  rw [Nat.mul_comm] at h
  unfold up
  omega

theorem up_le : up a x ≤ x + (a - 1) := Nat.div_mul_le_self _ _

theorem up_le_align (h : x ≤ a) : up a x ≤ a := by
  rcases Nat.eq_zero_or_pos a with rfl | ha
  · simp [up]
  · have hq : (x + (a - 1)) / a < 2 := Nat.div_lt_of_lt_mul (by omega)
    calc up a x ≤ 1 * a := Nat.mul_le_mul_right a (by omega)
      _ = a := Nat.one_mul a

theorem up_of_dvd (ha : 0 < a) (h : a ∣ x) : up a x = x := by
  obtain ⟨m, rfl⟩ := h
  have hm : (a * m + (a - 1)) / a = m := by
    rw [Nat.mul_add_div ha, Nat.div_eq_of_lt (by omega), Nat.add_zero]
  rw [up, hm, Nat.mul_comm]

theorem up_le_of_dvd {p : Nat} (ha : 0 < a) (hp : a ∣ p) (hx : x ≤ p) : up a x ≤ p := by
  obtain ⟨m, rfl⟩ := hp
  have hq : (x + (a - 1)) / a < m + 1 := by
    refine Nat.div_lt_of_lt_mul ?_
    rw [Nat.mul_add]
    omega
  calc up a x ≤ m * a := Nat.mul_le_mul_right a (by omega)
    _ = a * m := Nat.mul_comm m a

/-- Where a block of `size` bytes may go at or after `x`: at a multiple of `a`, and on one
side of the boundary `bound`. -/
def Admissible (bound a size x p : Nat) : Prop :=
  x ≤ p ∧ a ∣ p ∧ ¬ (p < bound ∧ bound < p + size)

section Placement

variable {bound size p q y : Nat}

theorem Admissible.mono (h : Admissible bound a size y p) (hxy : x ≤ y) :
    Admissible bound a size x p := ⟨hxy.trans h.1, h.2⟩

theorem isLeast_admissible (ha : 0 < a) : IsLeast {p | Admissible bound a size x p}
    (if up a x < bound ∧ bound < up a x + size then up a bound else up a x) := by
  split
  · rename_i hcross
    have hbound : bound ≤ up a bound := le_up ha
    have hx : x ≤ up a x := le_up ha
    refine ⟨⟨by omega, dvd_up, by omega⟩, ?_⟩
    -- every multiple from `x` on that is below the boundary straddles it as well
    rintro p ⟨hxp, hdvd, hwhole⟩
    have hfirst := up_le_of_dvd ha hdvd hxp
    exact up_le_of_dvd ha hdvd (by omega)
  · rename_i hwhole
    exact ⟨⟨le_up ha, dvd_up, hwhole⟩, fun p hp => up_le_of_dvd ha hp.2.1 hp.1⟩

theorem least_mono (hp : IsLeast {p | Admissible bound a size x p} p)
    (hq : IsLeast {p | Admissible bound a size y p} q) (hxy : x ≤ y) : p ≤ q :=
  hp.2 (Admissible.mono hq.1 hxy)

theorem least_again (hp : IsLeast {p | Admissible bound a size x p} p) :
    IsLeast {q | Admissible bound a size p q} p :=
  ⟨⟨le_rfl, hp.1.2⟩, fun _ hq => hq.1⟩

end Placement

theorem toNat_and_not_mask (v mask : BitVec w) (hm : mask.toNat = 2 ^ k - 1) :
    (v &&& ~~~mask).toNat = v.toNat / 2 ^ k * 2 ^ k := by
  apply Nat.eq_of_testBit_eq
  intro i
  have hmask : mask.getLsbD i = decide (i < k) := by
    rw [← BitVec.testBit_toNat, hm, Nat.testBit_two_pow_sub_one]
  rw [BitVec.testBit_toNat, BitVec.getLsbD_and, BitVec.getLsbD_not, hmask,
    Nat.testBit_mul_two_pow, Nat.testBit_div_two_pow]
  by_cases hk : i < k
  · simp [hk]
  · have hi : i - k + k = i := by omega
    rw [hi, BitVec.testBit_toNat]
    by_cases hw : i < w
    · simp [hw, show k ≤ i by omega]
    · simp [hk, hw, BitVec.getLsbD_of_ge v i (by omega)]

theorem toNat_sub_one {v : BitVec w} (hv : v.toNat = 2 ^ k) : (v - 1).toNat = 2 ^ k - 1 := by
  have hpos : 0 < 2 ^ k := Nat.two_pow_pos k
  have hlt := v.isLt
  have hw : 0 < w := by
    rcases Nat.eq_zero_or_pos w with rfl | h
    · simp at hlt
      omega
    · exact h
  have hone : (1 : BitVec w).toNat = 1 := by
    have : 1 < 2 ^ w := Nat.one_lt_two_pow (by omega)
    simp [Nat.mod_eq_of_lt this]
  have hle : (1 : BitVec w) ≤ v := by rw [BitVec.le_def]; omega
  rw [BitVec.toNat_sub_of_le hle, hone, hv]

theorem lt_width {v : BitVec w} (hv : v.toNat = 2 ^ k) : k < w :=
  (Nat.pow_lt_pow_iff_right (by decide)).mp (hv ▸ v.isLt)

/-- The usual mask computation is `up`, as long as its sum does not wrap. -/
theorem toNat_mask_up {v align : BitVec w} (ha : align.toNat = 2 ^ k)
    (hno : v.toNat + (2 ^ k - 1) < 2 ^ w) :
    ((v + (align - 1)) &&& ~~~(align - 1)).toNat = up (2 ^ k) v.toNat := by
  have hm := toNat_sub_one ha
  rw [toNat_and_not_mask _ _ hm, BitVec.toNat_add, hm, Nat.mod_eq_of_lt hno]
  rfl

end Alignment
