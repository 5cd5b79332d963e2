import TrustTee.RoundRobin
import Mathlib.Data.Nat.ModEq
import Mathlib.Data.Nat.Factorization.Basic
import Mathlib.Data.Fintype.Card
import Mathlib.Tactic.Ring
import Mathlib.Tactic.Linarith

set_option autoImplicit false

namespace RoundRobin

def tri : Nat → Nat
  | 0 => 0
  | k + 1 => tri k + (k + 1)

theorem two_tri (k : Nat) : 2 * tri k = k * (k + 1) := by
  induction k with
  | zero => rfl
  | succ k ih =>
    rw [tri, Nat.mul_add, ih]
    ring

section Residues

variable {n p x y : Nat}

theorem tri_congr (hp : Odd p) (h : x ≡ y [MOD p]) : tri x ≡ tri y [MOD p] := by
  have hcop : Nat.gcd p 2 = 1 := Nat.coprime_two_right.mpr hp
  refine Nat.ModEq.cancel_left_of_coprime hcop ?_
  rw [two_tri, two_tri]
  exact h.mul (h.add_right 1)

theorem tri_odd_zero (hp : Odd p) (h : p ∣ n) : tri n ≡ 0 [MOD p] := by
  have := tri_congr hp (Nat.modEq_zero_iff_dvd.mpr h)
  exact this

theorem tri_misses (hp : Odd p) (h1 : 1 < p) : ∃ r, r < p ∧ ∀ k, tri k % p ≠ r := by
  have hpos : 0 < p := by omega
  let f : Fin p → Fin p := fun x => ⟨tri x % p, Nat.mod_lt _ hpos⟩
  -- the first and the last are both zero
  have hlast : tri (p - 1) ≡ 0 [MOD p] := by
    have hstep : tri p = tri (p - 1) + p := by
      obtain ⟨q, rfl⟩ : ∃ q, p = q + 1 := ⟨p - 1, by omega⟩
      rfl
    have hz := tri_odd_zero hp (dvd_refl p)
    rw [hstep] at hz
    simpa [Nat.ModEq] using hz
  have hnot : ¬ Function.Injective f := by
    intro hinj
    have he : f ⟨0, hpos⟩ = f ⟨p - 1, by omega⟩ := by
      apply Fin.ext
      exact hlast.symm
    have := congrArg Fin.val (hinj he)
    simp at this
    omega
  rw [Finite.injective_iff_surjective] at hnot
  obtain ⟨r, hr⟩ := not_forall.mp hnot
  refine ⟨r, r.isLt, fun k hk => hr ⟨⟨k % p, Nat.mod_lt _ hpos⟩, Fin.ext ?_⟩⟩
  have hmod : tri (k % p) % p = tri k % p := tri_congr hp (Nat.mod_modEq k p)
  exact hmod.trans hk

theorem tri_two_pow_inj {a : Nat} (hx : x < 2 ^ a) (hy : y < 2 ^ a)
    (h : tri x ≡ tri y [MOD 2 ^ a]) : x = y := by
  wlog hle : x ≤ y generalizing x y
  · exact (this hy hx h.symm (by omega)).symm
  obtain ⟨d, rfl⟩ := Nat.exists_eq_add_of_le hle
  have hdiff : 2 * tri (x + d) = 2 * tri x + d * (2 * x + d + 1) := by
    rw [two_tri, two_tri]
    ring
  have hdvd : 2 ^ (a + 1) ∣ d * (2 * x + d + 1) := by
    have h2 := (Nat.modEq_iff_dvd' (by omega)).mp h
    have h2 := Nat.mul_dvd_mul_left 2 h2
    have he : 2 * (tri (x + d) - tri x) = d * (2 * x + d + 1) := by omega
    rwa [he, ← pow_succ'] at h2
  -- one factor is odd, and the other is smaller than the power of two
  have hpow : 2 ^ (a + 1) = 2 * 2 ^ a := pow_succ' 2 a
  rcases Nat.even_or_odd d with heven | hodd
  · have hcop : Nat.Coprime (2 ^ (a + 1)) (2 * x + d + 1) := by
      refine Nat.Coprime.pow_left _ (Nat.coprime_two_left.mpr ?_)
      obtain ⟨e, rfl⟩ := heven
      exact ⟨x + e, by ring⟩
    have hd := hcop.dvd_of_dvd_mul_right hdvd
    have := Nat.eq_zero_of_dvd_of_lt hd (by omega)
    omega
  · have hcop : Nat.Coprime (2 ^ (a + 1)) d :=
      Nat.Coprime.pow_left _ (Nat.coprime_two_left.mpr hodd)
    have hd := Nat.le_of_dvd (by omega) (hcop.dvd_of_dvd_mul_left hdvd)
    omega

end Residues

section Places

variable {n s : Nat}

/-- Where the start is before visit `v` when each visit serves: the offset of that visit in
its sweep is `v % n`. -/
def start (n s : Nat) : Nat → Nat
  | 0 => s
  | v + 1 => (start n s v + v % n + 1) % n

def place (n s v : Nat) : Nat := index n (start n s v) (v % n)

theorem start_lt (hs : s < n) (v : Nat) : start n s v < n := by
  cases v with
  | zero => exact hs
  | succ v => exact Nat.mod_lt _ (by omega)

theorem index_mod {k o : Nat} (hk : k < n) (ho : o < n) : index n k o = (k + o) % n := by
  unfold index
  split
  · rw [Nat.mod_eq_sub_mod ‹_›, Nat.mod_eq_of_lt (by omega)]
  · rw [Nat.mod_eq_of_lt (by omega)]

theorem start_succ (hs : s < n) (v : Nat) : start n s (v + 1) = (place n s v + 1) % n := by
  have hlt : v % n < n := Nat.mod_lt _ (by omega)
  rw [place, index_mod (start_lt hs v) hlt, start, Nat.mod_add_mod]

/-- Each visit moves the start on by one more than the visit before it did. -/
theorem start_modEq (hs : s < n) (v : Nat) :
    start n s v ≡ s + v / n * tri n + tri (v % n) [MOD n] := by
  have hpos : 0 < n := by omega
  induction v with
  | zero => simp [start, tri, Nat.ModEq]
  | succ v ih =>
    have hmove : start n s (v + 1) ≡ s + v / n * tri n + tri (v % n) + (v % n + 1) [MOD n] := by
      refine (Nat.mod_modEq _ _).trans ?_
      rw [Nat.add_assoc]
      exact ih.add_right _
    refine hmove.trans ?_
    by_cases hlast : v % n + 1 = n
    · -- the sweep ends
      obtain ⟨m, hm⟩ : ∃ m, n = m + 1 := ⟨n - 1, by omega⟩
      have hr : v % n = m := by omega
      have hv : v + 1 = n * (v / n + 1) := by
        have := Nat.div_add_mod v n
        rw [Nat.mul_add]
        omega
      have hq : (v + 1) / n = v / n + 1 := by rw [hv, Nat.mul_div_cancel_left _ hpos]
      have hz : (v + 1) % n = 0 := by rw [hv, Nat.mul_mod_right]
      rw [hq, hz, hr]
      have htri : tri n = tri m + (m + 1) := by rw [hm, tri]
      have he : s + (v / n + 1) * tri n + tri 0 = s + v / n * tri n + tri m + (m + 1) := by
        rw [htri, tri]
        ring
      rw [he]
    · have hv : v + 1 = n * (v / n) + (v % n + 1) := by
        have := Nat.div_add_mod v n
        omega
      have hlt : v % n + 1 < n := by
        have := Nat.mod_lt v hpos
        omega
      have hq : (v + 1) / n = v / n := by
        rw [hv, Nat.mul_add_div hpos, Nat.div_eq_of_lt hlt, Nat.add_zero]
      have hz : (v + 1) % n = v % n + 1 := by
        rw [hv, Nat.mul_add_mod, Nat.mod_eq_of_lt hlt]
      have he : s + v / n * tri n + tri (v % n + 1) =
          s + v / n * tri n + tri (v % n) + (v % n + 1) := by
        rw [tri]
        ring
      rw [hq, hz, he]

theorem place_modEq (hs : s < n) (v : Nat) :
    place n s v + 1 ≡ s + v / n * tri n + tri (v % n + 1) [MOD n] := by
  have hlt : v % n < n := Nat.mod_lt _ (by omega)
  rw [place, index_mod (start_lt hs v) hlt]
  have hstart := ((start_modEq hs v).add_right (v % n)).add_right 1
  refine (((Nat.mod_modEq _ _).add_right 1).trans hstart).trans ?_
  rw [tri, ← Nat.add_assoc, ← Nat.add_assoc]

theorem place_misses (hs : s < n) (hn : ¬ ∃ a, n = 2 ^ a) : ∃ i, i < n ∧ ∀ v, place n s v ≠ i := by
  obtain ⟨p, hp, hdvd, hodd⟩ := (n.eq_two_pow_or_exists_odd_prime_and_dvd).resolve_left hn
  obtain ⟨r, hr, hmiss⟩ := tri_misses hodd hp.one_lt
  have hpos : 0 < p := hp.pos
  have hle : p ≤ n := Nat.le_of_dvd (by omega) hdvd
  refine ⟨(s + r + (p - 1)) % p, lt_of_lt_of_le (Nat.mod_lt _ hpos) hle, fun v hv => ?_⟩
  -- modulo the odd prime the sweeps before this one do not count
  have hplace := (place_modEq hs v).of_dvd hdvd
  rw [hv] at hplace
  have hz : v / n * tri n ≡ 0 [MOD p] := by
    simpa using (tri_odd_zero hodd hdvd).mul_left (v / n)
  have hleft : (s + r + (p - 1)) % p + 1 ≡ s + r [MOD p] := by
    refine ((Nat.mod_modEq _ _).add_right 1).trans ?_
    have : s + r + (p - 1) + 1 = s + r + p := by omega
    rw [this]
    simp [Nat.ModEq]
  have hright : s + v / n * tri n + tri (v % n + 1) ≡ s + tri (v % n + 1) [MOD p] := by
    simpa using (hz.add_left s).add_right (tri (v % n + 1))
  have htri : r ≡ tri (v % n + 1) [MOD p] :=
    Nat.ModEq.add_left_cancel' s ((hleft.symm.trans hplace).trans hright)
  refine hmiss (v % n + 1) ?_
  rw [← htri, Nat.mod_eq_of_lt hr]

theorem place_lt (hs : s < n) (v : Nat) : place n s v < n :=
  index_lt (start_lt hs v) (Nat.mod_lt _ (by omega))

theorem place_at (hs : s < n) (q : Nat) {i x : Nat} (hi : i < n) (hx : x < n)
    (h : s + q * tri n + tri (x + 1) ≡ i + 1 [MOD n]) : place n s (q * n + x) = i := by
  have hpos : 0 < n := by omega
  have hq : (q * n + x) / n = q := by
    rw [Nat.mul_comm, Nat.mul_add_div hpos, Nat.div_eq_of_lt hx, Nat.add_zero]
  have hr : (q * n + x) % n = x := by rw [Nat.mul_comm, Nat.mul_add_mod, Nat.mod_eq_of_lt hx]
  have hplace := place_modEq hs (q * n + x)
  rw [hq, hr] at hplace
  have := Nat.ModEq.add_right_cancel' 1 (hplace.trans h)
  exact this.eq_of_lt_of_lt (place_lt hs _) hi

/-- With a power of two of them, two sweeps after one another visit every place. -/
theorem place_covers {a : Nat} (hs : s < 2 ^ a) (q : Nat) {i : Nat} (hi : i < 2 ^ a) :
    ∃ v, q * 2 ^ a ≤ v ∧ v < (q + 2) * 2 ^ a ∧ place (2 ^ a) s v = i := by
  have hpos : 0 < 2 ^ a := by omega
  -- every residue is that of one of the first triangular numbers
  have hits : ∀ k, ∃ x, x < 2 ^ a ∧ s + k * tri (2 ^ a) + tri x ≡ i + 1 [MOD 2 ^ a] := by
    intro k
    let f : Fin (2 ^ a) → Fin (2 ^ a) := fun x => ⟨tri x % 2 ^ a, Nat.mod_lt _ hpos⟩
    have hinj : Function.Injective f := by
      intro x y he
      exact Fin.ext (tri_two_pow_inj x.isLt y.isLt (congrArg Fin.val he))
    let t := i + 1 + (2 ^ a - 1) * (s + k * tri (2 ^ a))
    obtain ⟨x, hx⟩ := (Finite.injective_iff_surjective.mp hinj) ⟨t % 2 ^ a, Nat.mod_lt _ hpos⟩
    have hxt : tri x ≡ t [MOD 2 ^ a] := congrArg Fin.val hx
    refine ⟨x, x.isLt, (hxt.add_left _).trans ?_⟩
    have he : s + k * tri (2 ^ a) + t = i + 1 + 2 ^ a * (s + k * tri (2 ^ a)) := by
      obtain ⟨m, hm⟩ : ∃ m, 2 ^ a = m + 1 := ⟨2 ^ a - 1, by omega⟩
      simp only [t, hm, Nat.add_sub_cancel]
      ring
    rw [he]
    simp [Nat.ModEq]
  obtain ⟨x, hx, hsweep⟩ := hits q
  cases x with
  | succ x =>
    refine ⟨q * 2 ^ a + x, by omega, ?_, place_at hs q hi (by omega) hsweep⟩
    rw [Nat.add_mul]
    omega
  | zero =>
    -- the place that this sweep leaves out is visited in the next one
    obtain ⟨y, hy, hnext⟩ := hits (q + 1)
    cases y with
    | succ y =>
      refine ⟨(q + 1) * 2 ^ a + y, ?_, ?_, place_at hs (q + 1) hi (by omega) hnext⟩
      · rw [Nat.add_mul]
        omega
      · rw [Nat.add_mul, Nat.add_mul]
        omega
    | zero =>
      have hboth : s + (q + 1) * tri (2 ^ a) ≡ s + q * tri (2 ^ a) [MOD 2 ^ a] := by
        simpa [tri] using hnext.trans hsweep.symm
      have hz : tri (2 ^ a) ≡ 0 [MOD 2 ^ a] := by
        have he : s + (q + 1) * tri (2 ^ a) = s + q * tri (2 ^ a) + tri (2 ^ a) := by ring
        rw [he] at hboth
        exact Nat.ModEq.add_left_cancel' (s + q * tri (2 ^ a)) (by simpa using hboth)
      cases a with
      | zero => exact ⟨q, by omega, by omega, by have := place_lt hs q; omega⟩
      | succ a =>
        -- twice the triangular number is an odd multiple of the power of two
        obtain ⟨k, hk⟩ := Nat.modEq_zero_iff_dvd.mp hz
        have htwo := two_tri (2 ^ (a + 1))
        rw [hk] at htwo
        have hodd : 2 * k = 2 ^ (a + 1) + 1 := by
          refine Nat.eq_of_mul_eq_mul_left hpos ?_
          rw [← htwo]
          ring
        rw [pow_succ] at hodd
        omega

end Places

end RoundRobin
