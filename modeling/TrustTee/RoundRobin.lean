import Mathlib.Data.List.Nodup
import Mathlib.Data.List.Range
import Mathlib.Data.List.Induction

set_option autoImplicit false

namespace RoundRobin

def index (n start offs : Nat) : Nat :=
  if start + offs ≥ n then start + offs - n else start + offs

variable {n start offs : Nat}

theorem index_lt (hs : start < n) (ho : offs < n) : index n start offs < n := by
  unfold index
  split <;> omega

theorem index_inj {offs' : Nat} (ho : offs < n) (ho' : offs' < n)
    (h : index n start offs = index n start offs') : offs = offs' := by
  unfold index at h
  split at h <;> split at h <;> omega

theorem index_surj {i : Nat} (hs : start < n) (hi : i < n) :
    ∃ offs, offs < n ∧ index n start offs = i := by
  by_cases h : start ≤ i
  · exact ⟨i - start, by omega, by unfold index; split <;> omega⟩
  · exact ⟨i + n - start, by omega, by unfold index; split <;> omega⟩

theorem index_last {i : Nat} (hi : i < n) : index n ((i + 1) % n) (n - 1) = i := by
  by_cases h : i + 1 = n
  · have hz : (i + 1) % n = 0 := by rw [h, Nat.mod_self]
    rw [hz]
    unfold index
    split <;> omega
  · rw [Nat.mod_eq_of_lt (by omega)]
    unfold index
    split <;> omega

def visit (n : Nat) (st : Nat × List Nat) (found : Bool) : Nat × List Nat :=
  let idx := index n st.1 st.2.length
  (if found then (idx + 1) % n else st.1, st.2 ++ [idx])

/-- The start and the places visited after a list of visits, given which of them found
something to serve. -/
def sweep (n start : Nat) (found : List Bool) : Nat × List Nat :=
  found.foldl (visit n) (start, [])

theorem sweep_concat (found : List Bool) (b : Bool) :
    sweep n start (found ++ [b]) = visit n (sweep n start found) b := by
  simp [sweep]

@[simp] theorem length_sweep (found : List Bool) :
    (sweep n start found).2.length = found.length := by
  induction found using List.reverseRecOn with
  | nil => rfl
  | append_singleton found b ih => simp [sweep_concat, visit, ih]

theorem sweep_start_lt (hs : start < n) (found : List Bool) : (sweep n start found).1 < n := by
  induction found using List.reverseRecOn with
  | nil => exact hs
  | append_singleton found b ih =>
    rw [sweep_concat]
    cases b
    · exact ih
    · exact Nat.mod_lt _ (by omega)

theorem sweep_idle {found : List Bool} (h : true ∉ found) :
    sweep n start found = (start, (List.range found.length).map (index n start)) := by
  induction found using List.reverseRecOn with
  | nil => rfl
  | append_singleton found b ih =>
    have hb : b = false := by
      cases b
      · rfl
      · simp at h
    have hf : true ∉ found := fun hm => h (by simp [hm])
    rw [sweep_concat, ih hf, hb]
    simp [visit, List.range_succ]

theorem sweep_served (hs : start < n) {found : List Bool} (h : true ∈ found)
    (hl : found.length ≤ n) :
    ∃ i ∈ (sweep n start found).2, i < n ∧ (sweep n start found).1 = (i + 1) % n := by
  induction found using List.reverseRecOn with
  | nil => simp at h
  | append_singleton found b ih =>
    have hlen : found.length < n := by simpa [Nat.add_one_le_iff] using hl
    rw [sweep_concat]
    cases b with
    | true =>
      refine ⟨_, by simp [visit], ?_, rfl⟩
      exact index_lt (sweep_start_lt hs found) (by simpa using hlen)
    | false =>
      obtain ⟨i, hi, hin, he⟩ := ih (by simpa using h) hlen.le
      exact ⟨i, by simp [visit, hi], hin, he⟩

/-- A whole round visits every place once exactly if nothing is served before its last
visit: an earlier service makes the last visit repeat a place. -/
theorem sweep_perm_iff (hs : start < n) {found : List Bool} (hl : found.length = n) :
    (sweep n start found).2.Perm (List.range n) ↔ true ∉ found.dropLast := by
  obtain ⟨front, b, rfl⟩ : ∃ front b, found = front ++ [b] := by
    refine ⟨found.dropLast, found.getLast ?_, (List.dropLast_append_getLast _).symm⟩
    rintro rfl
    simp at hl
    omega
  have hfront : front.length = n - 1 := by simp at hl; omega
  have hvisits : (sweep n start (front ++ [b])).2 =
      (sweep n start front).2 ++ [index n (sweep n start front).1 (n - 1)] := by
    simp [sweep_concat, visit, hfront]
  rw [hvisits, List.dropLast_concat]
  constructor
  · intro hp ht
    obtain ⟨i, hi, hin, he⟩ := sweep_served hs ht (by omega)
    have hnodup := hp.nodup_iff.mpr List.nodup_range
    rw [he, index_last hin] at hnodup
    exact List.disjoint_of_nodup_append hnodup hi (by simp)
  · intro hf
    have hmap : (sweep n start front).2 ++ [index n (sweep n start front).1 (n - 1)] =
        (List.range n).map (index n start) := by
      obtain ⟨m, rfl⟩ : ∃ m, n = m + 1 := ⟨n - 1, by omega⟩
      simp [sweep_idle hf, hfront, List.range_succ]
    rw [hmap]
    have hnodup : ((List.range n).map (index n start)).Nodup := by
      refine List.Nodup.map_on ?_ List.nodup_range
      intro x hx y hy he
      exact index_inj (List.mem_range.mp hx) (List.mem_range.mp hy) he
    refine (List.perm_ext_iff_of_nodup hnodup List.nodup_range).mpr (fun i => ?_)
    simp only [List.mem_map, List.mem_range]
    constructor
    · rintro ⟨k, hk, rfl⟩
      exact index_lt hs hk
    · intro hi
      exact index_surj hs hi

/-- With three places, of which the second is the only one that is not served: the start
comes back to the first place, and so do all sweeps like this one. -/
example : sweep 3 0 [true, true, false] = (0, [0, 2, 2]) := by decide

end RoundRobin
