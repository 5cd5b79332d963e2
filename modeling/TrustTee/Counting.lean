import Mathlib.Data.Nat.Count

set_option autoImplicit false

namespace Counting

variable {p q : Nat → Prop} [DecidablePred p] [DecidablePred q] {j n : Nat}

theorem count_congr (h : ∀ i, i < n → (p i ↔ q i)) : Nat.count p n = Nat.count q n := by
  induction n with
  | zero => simp
  | succ n ih =>
    have hn : p n ↔ q n := h n (Nat.lt_succ_self n)
    rw [Nat.count_succ, Nat.count_succ, ih (fun i hi => h i (Nat.lt_succ_of_lt hi))]
    simp only [hn]

theorem count_flip (hj : j < n) (hother : ∀ i, i ≠ j → (p i ↔ q i)) (hp : p j) (hq : ¬ q j) :
    Nat.count p n = Nat.count q n + 1 := by
  induction n with
  | zero => omega
  | succ n ih =>
    rw [Nat.count_succ, Nat.count_succ]
    by_cases hjn : j = n
    · subst hjn
      have hbelow : Nat.count p j = Nat.count q j :=
        count_congr (fun i hi => hother i (Nat.ne_of_lt hi))
      simp [hbelow, hp, hq]
    · have hlt : j < n := by omega
      have hn : p n ↔ q n := hother n (fun h => hjn h.symm)
      rw [ih hlt]
      simp only [hn]
      omega

theorem count_pos (hj : j < n) (hp : p j) : 0 < Nat.count p n := by
  rw [Nat.pos_iff_ne_zero, Nat.count_ne_iff_exists]
  exact ⟨j, hj, hp⟩

theorem count_one {i : Nat} (h : Nat.count p n = 1) (hi : i < n) (hj : j < n) (hpi : p i)
    (hpj : p j) : i = j := by
  have below : ∀ k, k < n → p k → Nat.count p k = 0 := by
    intro k hk hpk
    have hle : Nat.count p (k + 1) ≤ Nat.count p n := Nat.count_monotone p hk
    rw [Nat.count_succ, if_pos hpk] at hle
    omega
  exact Nat.count_injective hpi hpj (by rw [below i hi hpi, below j hj hpj])

end Counting
