import TrustTee.Sweep

set_option autoImplicit false

namespace TrustTee
open Header

variable {T V R : Type}

section Queue

variable {bin : Bincode V} {s s' : Sys T V R}

theorem Sys.trusteeStep_registry (hi : Inv bin s) (h : s.trusteeStep = some s') :
    (s'.reg = s.reg ∧ s'.clients.map ClientPair.chan = s.clients.map ClientPair.chan) ∨
    ∃ d cp, s.pc = .drain d ∧ d < 256 ∧ s.reg = cp :: s'.reg ∧
      s'.clients = s.clients ++ [cp] ∧ s'.pc = .drain (d + 1) := by
  have hshape := hi.shape
  have same : s'.reg = s.reg → s'.clients = s.clients → (s'.reg = s.reg ∧
      s'.clients.map ClientPair.chan = s.clients.map ClientPair.chan) := by
    intro hr hc
    exact ⟨hr, by rw [hc]⟩
  unfold Sys.trusteeStep at h
  cases hpc : s.pc with
  | drain d =>
    simp only [hpc] at h
    split at h
    · rename_i hd
      split at h <;> obtain rfl := Option.some.inj h
      · rename_i cp reg hreg
        exact .inr ⟨d, cp, rfl, hd, hreg, rfl, rfl⟩
      · exact .inl ⟨rfl, rfl⟩
    · obtain rfl := Option.some.inj h
      exact .inl ⟨rfl, rfl⟩
  | loadedReq n offs idx c w =>
    simp only [hpc] at h
    split at h <;> simp only [Option.some.injEq, reduceCtorEq] at h
    rename_i cp hcp
    subst h
    unfold Sys.visit
    dsimp only
    left
    repeat' split
    all_goals first | exact ⟨rfl, rfl⟩ | exact ⟨rfl, map_chan_set hcp rfl⟩
  | record b =>
    simp only [hpc, Option.some.injEq] at h
    simp only [hpc, Shape] at hshape
    obtain ⟨⟨_, _, cp, hcp, hc⟩, _⟩ := hshape
    subst h
    left
    unfold Sys.recordStep
    split
    · split <;> exact ⟨rfl, rfl⟩
    · dsimp only
      split
      case h_2 => exact ⟨rfl, map_chan_set hcp hc.symm⟩
      all_goals exact ⟨rfl, rfl⟩
  | loop | calling b hdr k =>
    simp only [hpc] at h
    split at h <;> obtain rfl := Option.some.inj h <;> exact .inl ⟨rfl, rfl⟩
  | sweep n offs | inClosure b hdr k env args seq =>
    simp only [hpc] at h
    repeat' split at h
    all_goals
      obtain rfl := Option.some.inj h
      exact .inl ⟨rfl, rfl⟩
  | joining b =>
    simp only [hpc] at h
    split at h <;> simp only [Option.some.injEq, reduceCtorEq] at h
    exact .inl (same (h ▸ rfl) (h ▸ rfl))
  | exited cause => simp [hpc] at h
  | _ =>
    simp only [hpc, Option.some.injEq] at h
    exact .inl (same (h ▸ rfl) (h ▸ rfl))

theorem Sys.step_registry {a : Action T V R} (h : s.step bin a = some s') (ha : a ≠ .trustee) :
    s'.clients = s.clients ∧ ((s'.reg = s.reg ∧ s'.created = s.created) ∨
      s'.reg = s.reg ++ [⟨s.created, false, false⟩] ∧ s'.created = s.created + 1) := by
  refine ⟨(Sys.step_aside h ha).2.1, ?_⟩
  by_cases hf : ∃ j, a = .fiber j
  · obtain ⟨j, rfl⟩ := hf
    left
    refine ⟨?_, (Sys.fiberStep_aside h).2.2.2⟩
    simp only [Sys.step, Sys.fiberStep] at h
    repeat' split at h
    all_goals simp only [Option.some.injEq, reduceCtorEq] at h
    all_goals
      subst h
      rfl
  · cases Sys.step_beside h ha (fun j hj => hf ⟨j, hj⟩) with
    | register => exact .inr ⟨rfl, rfl⟩
    | _ => exact .inl ⟨rfl, rfl⟩

end Queue

section Runs

variable {bin : Bincode V} {w : Workload T V R} {value : T} {s u : Sys T V R}

/-- The channels the trustee knows and those in the queue behind them are all that have been
made, in the order in which they were registered. -/
theorem Reachable.pairs_chan (h : Reachable bin w value s) :
    s.pairs.map ClientPair.chan = List.range s.created := by
  refine (h.invariant
    (P := fun s => Inv bin s ∧ s.pairs.map ClientPair.chan = List.range s.created)
    ⟨Inv.init bin value, rfl⟩ ?_).2
  rintro t a v ⟨hi, ht⟩ _ hs
  refine ⟨hi.step hs, ?_⟩
  simp only [Sys.pairs, List.map_append] at ht ⊢
  by_cases ha : a = .trustee
  · subst ha
    rw [(Sys.trusteeStep_frame hs).2.1]
    rcases Sys.trusteeStep_registry hi hs with ⟨hreg, hcl⟩ | ⟨d, cp, _, _, hreg, hcl, _⟩
    · rw [hreg, hcl, ht]
    · rw [hreg] at ht
      rw [hcl, ← ht]
      simp
  · obtain ⟨hcl, ⟨hreg, hcr⟩ | ⟨hreg, hcr⟩⟩ := Sys.step_registry hs ha
    · rw [hcl, hreg, hcr, ht]
    · rw [hcl, hreg, hcr, List.range_succ, ← ht]
      simp

theorem Reachable.clients_le (h : Reachable bin w value s) :
    s.clients.length + s.reg.length = s.created := by
  simpa [Sys.pairs] using congrArg List.length h.pairs_chan

theorem Reachable.client_at (h : Reachable bin w value s) {c : Nat}
    (hc : c < s.clients.length) : Located s.clients c c := by
  have hp := congrArg (fun l => l[c]?) h.pairs_chan
  have hcr := h.clients_le
  have hlt : c < s.created := by omega
  simp only [Sys.pairs, List.map_append, List.getElem?_range hlt] at hp
  rw [List.getElem?_append_left (by simpa using hc), List.getElem?_map] at hp
  obtain ⟨cp, hcp, hchan⟩ := Option.map_eq_some_iff.mp hp
  exact ⟨cp, hcp, hchan⟩

theorem Reachable.located (h : Reachable bin w value s) {i c : Nat}
    (hl : Located s.clients i c) : i = c := by
  obtain ⟨cp, hcp, rfl⟩ := hl
  obtain ⟨hlt, _⟩ := List.getElem?_eq_some_iff.mp hcp
  obtain ⟨cp', hcp', hc⟩ := h.client_at hlt
  rw [← hc, Option.some.inj (hcp.symm.trans hcp')]

theorem Reachable.any (h : Reachable bin w value s) : Reachable bin (fun _ _ => True) value s :=
  h.weaken (fun _ a _ => by cases a <;> trivial)

theorem Reachable.grows {l : List (Sys T V R × Action T V R)} (h : Reachable bin w value s)
    (hrun : Machine.Trace (Sys.step bin) s l u) :
    Reachable bin (fun _ _ => True) value u ∧ s.clients.length ≤ u.clients.length ∧
      s.created ≤ u.created := by
  induction hrun with
  | start => exact ⟨h.any, le_rfl, le_rfl⟩
  | @next l t v a _ hs ih =>
    obtain ⟨hr, hcl, hcr⟩ := ih
    refine ⟨hr.next (by cases a <;> trivial) hs, ?_, hcr.trans (Sys.step_created hs)⟩
    by_cases ha : a = .trustee
    · subst ha
      rcases Sys.trusteeStep_registry hr.inv hs with ⟨_, he⟩ | ⟨_, cp, _, _, _, he, _⟩
      · have := congrArg List.length he
        simp only [List.length_map] at this
        omega
      · simp only [he, List.length_append]
        omega
    · rw [(Sys.step_registry hs ha).1]
      exact hcl

/-- The trustee's list and the queue, against the order in which channels were made. -/
structure InOrder (s : Sys T V R) : Prop where
  clients : s.clients.map ClientPair.chan = List.range s.clients.length
  queue : s.reg.map ClientPair.chan = List.range' s.clients.length s.reg.length
  all : s.clients.length + s.reg.length = s.created

theorem Reachable.inOrder (h : Reachable bin w value s) : InOrder s := by
  have hsplit := h.pairs_chan
  rw [← h.clients_le, List.range_add, Sys.pairs, List.map_append] at hsplit
  obtain ⟨hclients, hqueue⟩ := List.append_inj hsplit (by simp)
  exact ⟨hclients, by rw [hqueue, List.range'_eq_map_range], h.clients_le⟩

/-- Registrations are taken up in order: none is lost, taken twice or overtaken, and a client
keeps its place in the trustee's list for as long as the run goes on. -/
theorem registered_in_order {l : List (Sys T V R × Action T V R)}
    (h : Reachable bin w value s) (hrun : Machine.Trace (Sys.step bin) s l u) :
    InOrder u ∧ s.clients.map ClientPair.chan <+: u.clients.map ClientPair.chan := by
  obtain ⟨hu, hcl, _⟩ := h.grows hrun
  refine ⟨hu.inOrder, ?_⟩
  rw [h.inOrder.clients, hu.inOrder.clients]
  obtain ⟨k, hk⟩ := Nat.exists_eq_add_of_le hcl
  rw [hk, List.range_add]
  exact List.prefix_append _ _

end Runs

theorem registered_in_order_published : ∃ s u : Sys Nat UInt8 Nat, s.clients.length = 0 ∧
    u.clients.length = 3 ∧ InOrder u ∧
      s.clients.map ClientPair.chan <+: u.clients.map ClientPair.chan := by
  obtain ⟨u, hu, hlen⟩ : ∃ u,
      Machine.run (Sys.step byteBincode) (Sys.init 5) (published 3 [2]) = some u ∧
        u.clients.length = 3 := ⟨_, rfl, rfl⟩
  have hstart : Reachable byteBincode (fun _ _ => True) 5 (Sys.init 5 : Sys Nat UInt8 Nat) :=
    Machine.Reach.start
  exact ⟨Sys.init 5, u, rfl, hlen, registered_in_order hstart (Machine.run_trail hu)⟩

end TrustTee
