import TrustTee.Launching
import TrustTee.Counting

set_option autoImplicit false

namespace TrustTee
open Header

variable {T V R : Type}

/-- The response slot holds a value moved out for a client that has not read it yet. -/
def Sys.slotOwns (s : Sys T V R) (c : Nat) : Bool :=
  match (s.client c).pc, (s.chan c).respData with
  | .waiting .intoInner _, .moved _ | .reading .intoInner, .moved _ => true
  | _, _ => false

def Sys.callerOwns (s : Sys T V R) (c : Nat) : Bool :=
  match (s.client c).pc with
  | .owning _ => true
  | _ => false

def Sys.cellOwns (s : Sys T V R) : Nat := if s.strong = 0 then 0 else 1

def Sys.owners (s : Sys T V R) : Nat :=
  s.cellOwns + Nat.count (fun c => s.slotOwns c = true) s.created +
    Nat.count (fun c => s.callerOwns c = true) s.created

/-- The value has one owner, or its destructor has run once. -/
def SingleOwner (s : Sys T V R) : Prop := s.owners + s.destroyed = 1

instance (s : Sys T V R) : Decidable (SingleOwner s) :=
  inferInstanceAs (Decidable (_ = _))

/-- The worker is about to move the value out in the `IntoInner` arm. -/
def MovesOut (s : Sys T V R) (a : Action T V R) : Prop :=
  a = .trustee ∧ ∃ b, s.pc = .moveOut b

def Sys.unfinished (s : Sys T V R) : Nat :=
  Nat.count (fun j => (s.fiber j).isFinished = false) s.jobs.length

/-- What a step does with the `Arc`s of the property: nothing, the worker drops its own
at its end, a fiber drops its own, or the worker clones one for a new job. -/
inductive Arcs (s s' : Sys T V R) : Prop where
  | kept : s'.strong = s.strong → s'.destroyed = s.destroyed → s'.exited = s.exited →
      s'.unfinished = s.unfinished → Arcs s s'
  | left : s'.strong = s.dropArc.strong → s'.destroyed = s.dropArc.destroyed →
      s.exited = false → s'.exited = true → s'.unfinished = s.unfinished → Arcs s s'
  | finished : s'.strong = s.dropArc.strong → s'.destroyed = s.dropArc.destroyed →
      s'.exited = s.exited → s.unfinished = s'.unfinished + 1 → Arcs s s'
  | cloned : s'.strong = s.strong + 1 → s'.destroyed = s.destroyed → s.exited = false →
      s'.exited = false → s'.unfinished = s.unfinished + 1 → Arcs s s'

section

variable {bin : Bincode V} {s s' : Sys T V R}

theorem Sys.dispatch_arcs (b : Batch) (rec_ : Record T R) (h : s.exited = false) :
    Arcs s (s.dispatch b rec_) := by
  refine .cloned rfl rfl h rfl ?_
  unfold Sys.unfinished
  simp only [Sys.dispatch, List.length_append, List.length_singleton, Nat.count_succ,
    Function.update_self, FiberPc.isFinished, ↓reduceIte]
  congr 1
  refine Counting.count_congr (fun j hj => ?_)
  rw [Function.update_of_ne (Nat.ne_of_lt hj)]

theorem Sys.recordStep_arcs (b : Batch) (h : s.exited = false) : Arcs s (s.recordStep b) := by
  unfold Sys.recordStep
  dsimp only
  split
  · split <;> exact .kept rfl rfl h.symm rfl
  · split
    · exact .kept rfl rfl h.symm rfl
    · exact Sys.dispatch_arcs _ _ h
    · exact .kept rfl rfl h.symm rfl
    · exact .kept rfl rfl h.symm rfl

theorem Sys.trusteeStep_arcs (h : s.trusteeStep = some s') : Arcs s s' := by
  unfold Sys.trusteeStep at h
  cases hpc : s.pc with
  | exited cause => simp [hpc] at h
  | loop =>
    have hex : s.exited = false := by simp [Sys.exited, hpc]
    simp only [hpc] at h
    split at h <;> obtain rfl := Option.some.inj h
    · exact .kept rfl rfl hex.symm rfl
    · exact .kept rfl rfl (by rw [hex]; unfold Sys.enterSweep; split <;> rfl) rfl
  | drain drained =>
    have hex : s.exited = false := by simp [Sys.exited, hpc]
    have sweep : Arcs s s.enterSweep :=
      .kept rfl rfl (by rw [hex]; unfold Sys.enterSweep; split <;> rfl) rfl
    simp only [hpc] at h
    split at h
    · split at h <;> obtain rfl := Option.some.inj h
      · exact .kept rfl rfl hex.symm rfl
      · exact sweep
    · obtain rfl := Option.some.inj h
      exact sweep
  | sweep n offs =>
    have hex : s.exited = false := by simp [Sys.exited, hpc]
    simp only [hpc] at h
    split at h
    · split at h <;> obtain rfl := Option.some.inj h
      · exact .kept rfl rfl hex.symm rfl
      · exact .left rfl rfl hex rfl rfl
    · obtain rfl := Option.some.inj h
      exact .kept rfl rfl hex.symm rfl
  | loadedReq n offs idx c w =>
    have hex : s.exited = false := by simp [Sys.exited, hpc]
    simp only [hpc] at h
    split at h <;> simp only [Option.some.injEq, reduceCtorEq] at h
    subst h
    obtain ⟨_, _, hnext, he⟩ := s.visit_frame n offs idx _ w _
    rw [he]
    refine .kept rfl rfl ?_ rfl
    rw [hex]
    rcases hnext with rfl | ⟨b, rfl⟩ <;> rfl
  | record b =>
    have hex : s.exited = false := by simp [Sys.exited, hpc]
    simp only [hpc, Option.some.injEq] at h
    subst h
    exact s.recordStep_arcs b hex
  | calling b hdr k =>
    have hex : s.exited = false := by simp [Sys.exited, hpc]
    simp only [hpc] at h
    split at h <;> obtain rfl := Option.some.inj h <;> exact .kept rfl rfl hex.symm rfl
  | inClosure b hdr k env args seq =>
    have hex : s.exited = false := by simp [Sys.exited, hpc]
    simp only [hpc] at h
    split at h
    · obtain rfl := Option.some.inj h
      exact .left rfl rfl hex rfl rfl
    · split at h <;> obtain rfl := Option.some.inj h <;> exact .kept rfl rfl hex.symm rfl
  | joining b =>
    have hex : s.exited = false := by simp [Sys.exited, hpc]
    simp only [hpc] at h
    split at h <;> simp only [Option.some.injEq, reduceCtorEq] at h
    subst h
    exact .left rfl rfl hex rfl rfl
  | moveStore b r =>
    have hex : s.exited = false := by simp [Sys.exited, hpc]
    simp only [hpc, Option.some.injEq] at h
    subst h
    exact .left rfl rfl hex rfl rfl
  | _ =>
    have hex : s.exited = false := by simp [Sys.exited, hpc]
    simp only [hpc, Option.some.injEq] at h
    subst h
    exact .kept rfl rfl hex.symm rfl

theorem Sys.fiberStep_arcs {j : Nat} (h : s.fiberStep j = some s') : Arcs s s' := by
  have same : ∀ {x : Sys T V R} {pc : FiberPc T R}, x.strong = s.strong →
      x.destroyed = s.destroyed → x.exited = s.exited → x.jobs = s.jobs →
      x.fiber = Function.update s.fiber j pc →
      pc.isFinished = (s.fiber j).isFinished → Arcs s x := by
    intro x pc hstrong hdes hex hjobs hfib hfin
    refine .kept hstrong hdes hex ?_
    unfold Sys.unfinished
    rw [hjobs, hfib]
    refine Counting.count_congr (fun i _ => ?_)
    by_cases hi : i = j
    · subst hi
      simp [hfin]
    · simp [Function.update_of_ne hi]
  unfold Sys.fiberStep at h
  cases hj : s.jobs[j]? with
  | none => simp [hj] at h
  | some job =>
    cases hpc : s.fiber j with
    | finished => simp [hj, hpc] at h
    | running env args seq =>
      simp only [hj, hpc] at h
      split at h <;> simp only [Option.some.injEq] at h <;> subst h
      all_goals exact same rfl rfl rfl rfl rfl (by simp [hpc, FiberPc.isFinished])
    | signalled =>
      simp only [hj, hpc, Option.some.injEq] at h
      subst h
      have hlt : j < s.jobs.length := (List.getElem?_eq_some_iff.mp hj).1
      refine .finished rfl rfl rfl ?_
      refine Counting.count_flip hlt (fun i hi => ?_) (by simp [hpc, FiberPc.isFinished])
        (by simp [Sys.setFiber, FiberPc.isFinished])
      simp [Sys.setFiber, Sys.dropArc, Function.update_of_ne hi]
    | _ =>
      simp only [hj, hpc, Option.some.injEq] at h
      subst h
      exact same rfl rfl rfl rfl rfl (by simp [hpc, FiberPc.isFinished])

theorem Sys.step_arcs {a : Action T V R} (h : s.step bin a = some s')
    (hd : ∀ c, a ≠ .dropValue c) : Arcs s s' := by
  by_cases ha : a = .trustee
  · subst ha
    exact Sys.trusteeStep_arcs h
  by_cases hf : ∃ j, a = .fiber j
  · obtain ⟨j, rfl⟩ := hf
    exact Sys.fiberStep_arcs h
  cases Sys.step_beside h ha (fun j hj => hf ⟨j, hj⟩) with
  | spin => exact .kept rfl rfl rfl rfl
  | register => exact .kept rfl rfl rfl rfl
  | move _ _ kept => exact .kept rfl (kept hd) rfl rfl

def Sys.Counted (s : Sys T V R) : Prop :=
  s.strong = (if s.exited = true then 0 else 1) + s.unfinished

theorem Arcs.counted (h : Arcs s s') (hc : s.Counted) : s'.Counted := by
  unfold Sys.Counted at *
  cases h with
  | kept hs _ hx hu => rw [hs, hx, hu, hc]
  | left hs _ hx hx' hu =>
    simp only [hx, Bool.false_eq_true, if_false] at hc
    rw [hs, hx', hu, Sys.dropArc, hc]
    simp
  | finished hs _ hx hu =>
    rw [hs, hx, Sys.dropArc, hc, hu]
    simp only
    omega
  | cloned hs _ hx hx' hu =>
    simp only [hx, Bool.false_eq_true, if_false] at hc
    rw [hs, hx', hu, hc]
    simp only [Bool.false_eq_true, if_false]
    omega

theorem Sys.step_counted {a : Action T V R} (h : s.step bin a = some s') (hc : s.Counted) :
    s'.Counted := by
  by_cases hd : ∃ c, a = .dropValue c
  · obtain ⟨c, rfl⟩ := hd
    simp only [Sys.step, Sys.dropValue] at h
    split at h <;> simp only [Option.some.injEq, reduceCtorEq] at h
    subst h
    exact hc
  · exact (Sys.step_arcs h (fun c ha => hd ⟨c, ha⟩)).counted hc

theorem Arcs.destroyed (h : Arcs s s') (hc : s.Counted)
    (hd : s.destroyed = if s.strong = 0 then 1 else 0) :
    s'.destroyed = if s'.strong = 0 then 1 else 0 := by
  unfold Sys.Counted at hc
  cases h with
  | kept hs hd' _ _ => rw [hs, hd', hd]
  | left hs hd' hx _ _ =>
    simp only [hx, Bool.false_eq_true, if_false] at hc
    rw [hs, hd', Sys.dropArc, hd]
    dsimp only
    split_ifs <;> omega
  | finished hs hd' _ hu =>
    rw [hs, hd', Sys.dropArc, hd]
    dsimp only
    split_ifs <;> omega
  | cloned hs hd' hx _ hu =>
    simp only [hx, Bool.false_eq_true, if_false] at hc
    rw [hs, hd', hd]
    split_ifs <;> omega
end

structure Unmoved (bin : Bincode V) (value : T) (s : Sys T V R) : Prop where
  reach : Reachable bin (fun _ _ => True) value s
  counted : s.Counted
  destroyed : s.destroyed = if s.strong = 0 then 1 else 0
  slots : ∀ c t, (s.chan c).respData ≠ .moved t
  callers : ∀ c d, (s.client c).pc ≠ .owning d

section Steps

variable {bin : Bincode V} {value : T} {s s' : Sys T V R}

theorem Unmoved.init : Unmoved bin value (Sys.init value : Sys T V R) where
  reach := Machine.Reach.start
  counted := rfl
  destroyed := rfl
  slots := by simp [Sys.init, ChannelPair.default]
  callers := by simp [Sys.init]

theorem Unmoved.single (h : Unmoved bin value s) : SingleOwner s := by
  have hslot : Nat.count (fun c => s.slotOwns c = true) s.created = 0 := by
    rw [Nat.count_iff_forall_not]
    intro c _
    unfold Sys.slotOwns
    split
    · exact absurd ‹_› (h.slots c _)
    · exact absurd ‹_› (h.slots c _)
    · simp
  have hcaller : Nat.count (fun c => s.callerOwns c = true) s.created = 0 := by
    rw [Nat.count_iff_forall_not]
    intro c _
    unfold Sys.callerOwns
    split
    · exact absurd ‹_› (h.callers c _)
    · simp
  unfold SingleOwner Sys.owners Sys.cellOwns
  rw [hslot, hcaller, h.destroyed]
  split <;> rfl

theorem Sys.step_respData {a : Action T V R} (h : s.step bin a = some s')
    (hm : ¬ MovesOut s a) (c : Nat) :
    (s'.chan c).respData = (s.chan c).respData ∨ ∃ r, (s'.chan c).respData = .result r := by
  have set : ∀ (c' : Nat) (ch : ChannelPair T R) (x : Nat → ChannelPair T R),
      x = Function.update s.chan c' ch →
      (ch.respData = (s.chan c').respData ∨ ∃ r, ch.respData = .result r) →
      (x c).respData = (s.chan c).respData ∨ ∃ r, (x c).respData = .result r := by
    rintro c' ch x rfl hch
    by_cases hc : c = c'
    · subst hc
      simpa using hch
    · simp [Function.update_of_ne hc]
  by_cases ha : a = .trustee
  · subst ha
    simp only [Sys.step, Sys.trusteeStep] at h
    cases hpc : s.pc with
    | moveOut b => exact absurd ⟨rfl, b, hpc⟩ hm
    | writeOut b r =>
      simp only [hpc, Option.some.injEq] at h
      subst h
      exact set b.chan _ _ rfl (.inr ⟨_, rfl⟩)
    | moveStore b r =>
      simp only [hpc, Option.some.injEq] at h
      subst h
      exact set b.chan _ _ rfl (.inl rfl)
    | respond b =>
      simp only [hpc, Option.some.injEq] at h
      subst h
      exact set b.chan _ _ rfl (.inl rfl)
    | record b =>
      simp only [hpc, Option.some.injEq] at h
      subst h
      exact .inl (by rw [(s.recordStep_frame b).2.2.2.2.1])
    | loadedReq n offs idx c' w =>
      simp only [hpc] at h
      split at h <;> simp only [Option.some.injEq, reduceCtorEq] at h
      subst h
      obtain ⟨_, _, _, he⟩ := s.visit_frame n offs idx _ w _
      rw [he]
      exact .inl rfl
    | loop | sweep | inClosure =>
      simp only [hpc] at h
      repeat' split at h
      all_goals obtain rfl := Option.some.inj h
      all_goals exact .inl rfl
    | drain =>
      simp only [hpc] at h
      repeat' split at h
      all_goals obtain rfl := Option.some.inj h
      all_goals exact .inl rfl
    | calling =>
      simp only [hpc] at h
      split at h <;> obtain rfl := Option.some.inj h <;> exact .inl rfl
    | joining b =>
      simp only [hpc] at h
      split at h <;> simp only [Option.some.injEq, reduceCtorEq] at h
      subst h
      exact .inl rfl
    | moveLoad b =>
      simp only [hpc, Option.some.injEq] at h
      subst h
      exact .inl rfl
    | exited cause => simp [hpc] at h
  by_cases hf : ∃ j, a = .fiber j
  · obtain ⟨j, rfl⟩ := hf
    simp only [Sys.step, Sys.fiberStep] at h
    split at h
    · simp at h
    · rename_i job _
      split at h
      case h_2 =>
        split at h <;> simp only [Option.some.injEq] at h <;> subst h <;> exact .inl rfl
      case h_3 =>
        obtain rfl := Option.some.inj h
        exact set job.chan _ _ rfl (.inr ⟨_, rfl⟩)
      case h_4 =>
        obtain rfl := Option.some.inj h
        exact set job.chan _ _ rfl (.inl rfl)
      case h_6 => simp at h
      all_goals
        simp only [Option.some.injEq] at h
        subst h
        exact .inl rfl
  cases Sys.step_beside h ha (fun j hj => hf ⟨j, hj⟩) with
  | spin => exact .inl rfl
  | register => exact .inl rfl
  | @move _ c' cl w recs => exact set c' _ _ rfl (.inl rfl)

theorem ClientPc.Next.owning {c : Nat} {a : Action T V R} {pc pc' : ClientPc T V R}
    (h : ClientPc.Next c a pc pc') {d : Payload T R} (hd : pc' = .owning d) :
    pc = .reading .intoInner := by
  cases h <;> first | rfl | cases hd

theorem Sys.step_owning {a : Action T V R} (h : s.step bin a = some s') {c : Nat}
    {d : Payload T R} (ho : (s'.client c).pc = .owning d) :
    (s.client c).pc = .owning d ∨ (s.client c).pc = .reading .intoInner := by
  rcases Sys.step_client h c with hcl | ⟨next, _⟩
  · exact .inl (hcl ▸ ho)
  · exact .inr (next.owning ho)

theorem Unmoved.step (h : Unmoved bin value s) {a : Action T V R}
    (hm : ¬ MovesOut s a) (hs : s.step bin a = some s') : Unmoved bin value s' := by
  have hkeep : ∀ c, a ≠ .dropValue c := by
    rintro c rfl
    simp only [Sys.step, Sys.dropValue] at hs
    split at hs
    · exact absurd ‹_› (h.callers c _)
    · simp at hs
  have harcs : Arcs s s' := Sys.step_arcs hs hkeep
  refine ⟨h.reach.next (by cases a <;> trivial) hs, harcs.counted h.counted,
    harcs.destroyed h.counted h.destroyed, ?_, ?_⟩
  · intro c t ht
    rcases Sys.step_respData hs hm c with hd | ⟨r, hd⟩
    · exact h.slots c t (hd ▸ ht)
    · simp [hd] at ht
  · intro c d hd
    rcases Sys.step_owning hs hd with ho | ho
    · exact h.callers c d ho
    · -- the answer it reads would be a value moved out
      obtain ⟨o, _, href⟩ := h.reach.refines
      have hph := href.phase c
      simp only [PhaseOk, ho] at hph
      obtain ⟨_, _, t, ht⟩ := hph
      exact h.slots c t ht

/-- The bitwise copy leaves the cell's own value in place: the value now has two owners. -/
theorem Unmoved.moved (h : Unmoved bin value s) {a : Action T V R} (hm : MovesOut s a)
    (hs : s.step bin a = some s') : ¬ SingleOwner s' := by
  obtain ⟨rfl, b, hpc⟩ := hm
  simp only [Sys.step, Sys.trusteeStep, hpc, Option.some.injEq] at hs
  subst hs
  have hi := h.reach.inv
  have hb : s.pc.batch? = some b := by simp [hpc, TrusteePc.batch?]
  obtain ⟨op, hsv, hok⟩ := hi.serving b hb
  obtain rfl : op = .intoInner := by simpa [hpc, PcOk] using hok
  have hshape := hi.shape
  simp only [hpc, Shape] at hshape
  obtain ⟨⟨_, _, cp, hcp, hchan⟩, _⟩ := hshape
  have hlt : b.chan < s.created := hchan ▸ (hi.pair cp (mem_pairs hcp)).1
  have hstrong : s.strong ≠ 0 := by
    have := h.counted
    simp only [Sys.Counted, Sys.exited, hpc, Bool.false_eq_true, ↓reduceIte] at this
    omega
  have hslot : 0 < Nat.count (fun c => ((s.setChan b.chan { s.chan b.chan with
      respData := .moved s.prop }).goto (.moveLoad b)).slotOwns c = true) s.created := by
    refine Counting.count_pos hlt ?_
    simp [Sys.slotOwns, Sys.goto, Sys.setChan, hsv.1]
  have hcell : ((s.setChan b.chan { s.chan b.chan with
      respData := .moved s.prop }).goto (.moveLoad b)).cellOwns = 1 := if_neg hstrong
  unfold SingleOwner Sys.owners
  rw [hcell]
  simp only [Sys.goto, Sys.setChan] at hslot ⊢
  omega

end Steps

/-- In a run of any workload the value keeps one owner, and its destructor runs once,
exactly if the worker never executes its `IntoInner` arm. -/
theorem single_owner_iff {bin : Bincode V} {value : T}
    {l : List (Sys T V R × Action T V R)} {u : Sys T V R}
    (h : Machine.Trace (Sys.step bin) (Sys.init value) l u) :
    (∀ x ∈ Machine.visited l u, SingleOwner x) ↔ ∀ x ∈ l, ¬ MovesOut x.1 x.2 :=
  @Machine.Trace.exact _ _ _ _ _ _ (Unmoved bin value) SingleOwner (fun t a => ¬ MovesOut t a)
    Unmoved.init (fun _ _ _ ht ha hs => ht.step ha hs) (fun _ ht => ht.single)
    (fun _ _ _ ht ha hs => ht.moved (not_not.mp ha) hs) h

def takeOut : List (Action Nat UInt8 Nat) :=
  [.register, .issue 0 .intoInner, .client 0, .client 0] ++ List.replicate 9 .trustee ++
    [.client 0, .client 0, .dropValue 0]

theorem single_owner_iff_takeOut :
    ∃ l u, Machine.Trace (Sys.step byteBincode) (Sys.init 5) l u ∧
      l.map Prod.snd = takeOut ∧
      ((∀ x ∈ Machine.visited l u, SingleOwner x) ↔ ∀ x ∈ l, ¬ MovesOut x.1 x.2) := by
  obtain ⟨u, hu⟩ := Machine.run_exists (show (Machine.run (Sys.step byteBincode)
    (Sys.init 5) takeOut).isSome = true by decide)
  obtain ⟨l, hl, hm⟩ := Machine.run_trace hu
  exact ⟨l, u, hl, hm, single_owner_iff hl⟩

theorem takeOut_drops_twice :
    (Machine.run (Sys.step byteBincode) (Sys.init 5) takeOut).map
      (fun s => (s.exited, s.owners, s.destroyed)) = some (true, 0, 2) := by decide

/-- The value taken out is destroyed by its new owner and by the worker's `Arc`. -/
theorem into_inner_two_owners :
    ¬ ∀ s : Sys Nat UInt8 Nat, Reachable byteBincode (fun _ _ => True) 5 s → SingleOwner s := by
  intro h
  obtain ⟨s, hs⟩ := Machine.run_exists (show (Machine.run (Sys.step byteBincode)
    (Sys.init 5) takeOut).isSome = true by decide)
  have hr : Reachable byteBincode (fun _ _ => True) 5 s :=
    .scripted hs (fun a _ => by cases a <;> trivial)
  have hd := takeOut_drops_twice
  rw [hs] at hd
  simp only [Option.map_some, Option.some.injEq, Prod.mk.injEq] at hd
  have := h s hr
  unfold SingleOwner at this
  omega

end TrustTee
