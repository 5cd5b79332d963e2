import TrustTee.Calls
import TrustTee.Exclusion
import TrustTee.Ownership

/-!
The local shortcut under a scheduler of coroutines: tasks leave their thread when they
yield and may come back on another one, while a trustee's published id stays as it is.
-/

set_option autoImplicit false

namespace TrustTee

variable {T V R : Type}

/-- The runtimes with their tasks, and the threads that run no coroutine. -/
structure Sched (T V R : Type) where
  world : World T V R
  free : Nat → Bool

inductive Turn (T V R : Type) where
  | act (a : Act T V R) : Turn T V R
  | suspend (k : Task) : Turn T V R
  | resume (k : Task) (t : Nat) : Turn T V R

/-- Where a task may yield: in a closure or other code, in the join of a `Runtime::drop`, in
the idle branch of the trustee loop and its join of the fibers, between jobs, and when it has
ended. The wait loop never yields. -/
def World.mayYield (s : World T V R) (k : Task) : Bool :=
  s.inCode k ||
    match s.stack k, k with
    | .waiting r c :: _, _ =>
      match ((s.rt r).sys.client c).pc with
      | .waiting .terminate _ => true
      | _ => false
    | [], .trustee r =>
      match s.phase r, (s.rt r).sys.pc with
      | .ended, _ | .running, .loop | .running, .joining _ => true
      | _, _ => false
    | [], .fiber r j =>
      match (s.rt r).sys.fiber j with
      | .queued | .finished => true
      | _ => false
    | _, _ => false

namespace Sched

def init (value : Nat → T) (entrusted : Nat → Bool) : Sched T V R :=
  ⟨World.init value entrusted (fun _ => none), fun _ => true⟩

def step (bin : Bincode V) (s : Sched T V R) : Turn T V R → Option (Sched T V R)
  | .act a => do
    let w ← s.world.step bin a
    some { s with world := w }
  | .suspend k =>
    match s.world.seat k with
    | some t =>
      if s.world.mayYield k = true then
        some ⟨{ s.world with seat := Function.update s.world.seat k none },
          Function.update s.free t true⟩
      else none
    | none => none
  | .resume k t =>
    match s.world.seat k with
    | some _ => none
    | none =>
      if t ≠ 0 ∧ s.free t = true then
        some ⟨{ s.world with seat := Function.update s.world.seat k (some t) },
          Function.update s.free t false⟩
      else none

end Sched

/-- The caller is inside a closure that the loop of runtime `r` is executing, no other
request's closure is open on its property, and the worker still holds the property. -/
structure InTurn (s : World T V R) (k : Task) (r : Nat) : Prop where
  nested : k = .trustee r ∧ (s.rt r).sys.pc.runsClosure = true
  alone : (∀ j, ((s.rt r).sys.fiber j).runsClosure = false) ∧
    ∀ k' f n, k' ≠ k → Frame.direct r f n ∉ s.stack k'
  alive : (s.rt r).sys.exited = false ∧ 0 < (s.rt r).sys.strong

def ProperShortcut (s : Sched T V R) (a : Turn T V R) : Prop :=
  ∀ k m r c t, a = .act (.call k m r c) → s.world.seat k = some t →
    m.entry (s.world.entering t r c) = .shortcut → InTurn s.world k r

def Uses (l : List (Sched T V R × Turn T V R)) (k : Task) (r : Nat) : Prop :=
  ∃ s m c, (s, Turn.act (.call k m r c)) ∈ l ∧ m.direct.isSome = true

/-- The scheduler puts no user of a runtime, its trustee apart, on the thread whose id the
runtime has published. -/
def KeptAway (user : Task → Nat → Prop) (s : Sched T V R) : Turn T V R → Prop
  | .resume k t => ∀ r, user k r → k ≠ .trustee r → s.world.trusteeId r ≠ t
  | _ => True

def ClientPc.launching : ClientPc T V R → Bool
  | .encoded (.launch _) | .loaded (.launch _) _ | .waiting (.launch _) _
  | .reading (.launch _) => true
  | _ => false

/-- Code of a trustee calls such an operation on a handle of its own runtime neither from the
destructor of the property nor while a launch on the runtime is under way. -/
def Undisturbed (s : Sched T V R) : Turn T V R → Prop
  | .act (.call (.trustee r) m r' _) => r' = r → m.direct.isSome = true →
      s.world.destroying (.trustee r) = false ∧ ∀ c < (s.world.rt r).sys.created,
        ((s.world.rt r).sys.client c).pc.launching = false
  | _ => True

def Separate (l : List (Sched T V R × Turn T V R)) : Prop :=
  ∀ x ∈ l, KeptAway (Uses l) x.1 x.2 ∧ Undisturbed x.1 x.2

structure Manned (bin : Bincode V) (s : Sys T V R) : Prop where
  employed : ∀ j, (s.fiber j).runsClosure = true → j < s.jobs.length
  counted : s.Counted
  handshake : Inv bin s

structure Homely (bin : Bincode V) (user : Task → Nat → Prop) (s : Sched T V R) : Prop where
  seated : ∀ k t, s.world.seat k = some t → s.free t = false
  apart : ∀ k k' t, s.world.seat k = some t → s.world.seat k' = some t → k = k'
  away : ∀ k r t, user k r → k ≠ .trustee r → s.world.seat k = some t → s.world.trusteeId r ≠ t
  direct : ∀ k r f n, Frame.direct r f n ∈ s.world.stack k → k = .trustee r
  nested : s.world.Nested
  manned : ∀ r, Manned bin (s.world.rt r).sys

section Fibers

variable {bin : Bincode V} {s s' : Sys T V R}

theorem Manned.init (value : T) : Manned bin (Sys.init value : Sys T V R) where
  employed := by simp [Sys.init, FiberPc.runsClosure]
  counted := rfl
  handshake := Inv.init bin value

theorem Manned.step {b : Action T V R} (h : Manned bin s) (hs : s.step bin b = some s') :
    Manned bin s' where
  counted := Sys.step_counted hs h.counted
  handshake := h.handshake.step hs
  employed := by
    intro j hj
    by_cases hb : b = .trustee
    · subst hb
      rcases Sys.trusteeStep_launches hs with ⟨hjobs, hfiber⟩ | ⟨job, hjobs, hfiber, _⟩
      · rw [hfiber] at hj
        rw [hjobs]
        exact h.employed j hj
      · rw [hjobs, List.length_append]
        by_cases hlast : j = s.jobs.length
        · simp [hlast]
        · rw [hfiber, Function.update_of_ne hlast] at hj
          exact Nat.lt_add_right _ (h.employed j hj)
    by_cases hf : ∃ i, b = .fiber i
    · obtain ⟨i, rfl⟩ := hf
      obtain ⟨job, hjob, _, hjobs, _, hother, _⟩ := Sys.fiberStep_frame hs
      rw [hjobs]
      by_cases hji : j = i
      · rw [hji]
        exact (List.getElem?_eq_some_iff.mp hjob).1
      · rw [hother j hji] at hj
        exact h.employed j hj
    · obtain ⟨_, _, _, hjobs, hfiber⟩ := (Sys.step_beside hs hb (fun i hi => hf ⟨i, hi⟩)).worker
      rw [hfiber] at hj
      rw [hjobs]
      exact h.employed j hj

theorem Manned.write (h : Manned bin s) (v : T) : Manned bin { s with prop := v } where
  employed := h.employed
  counted := h.counted
  handshake := by
    obtain ⟨hclient, hjob, hpair, hchans, hjobs, hshape, hfresh, hserving, hunflagged⟩ :=
      h.handshake
    exact ⟨hclient, hjob, hpair, hchans, hjobs, hshape, hfresh, hserving, hunflagged⟩

/-- While no client launches, no launched closure is open. -/
theorem Manned.closed (h : Manned bin s)
    (hno : ∀ c < s.created, (s.client c).pc.launching = false) (j : Nat) :
    (s.fiber j).runsClosure = false := by
  by_contra hrun
  have hrun : (s.fiber j).runsClosure = true := by simpa using hrun
  obtain ⟨job, hj⟩ : ∃ job, s.jobs[j]? = some job :=
    ⟨_, List.getElem?_eq_getElem (h.employed j hrun)⟩
  cases hpc : s.fiber j with
  | running env args seq =>
    obtain ⟨_, f, hcl⟩ := h.handshake.fiber_launches hj hpc
    have hquiet := hno job.chan (h.handshake.job j job hj).1
    simp [hcl, ClientPc.launching] at hquiet
  | _ => simp [hpc, FiberPc.runsClosure] at hrun

theorem Sys.Counted.alive (h : s.Counted) (hex : s.exited = false) : 0 < s.strong := by
  unfold Sys.Counted at h
  rw [h]
  simp only [hex, Bool.false_eq_true, if_false]
  omega

end Fibers

section Invariant

variable {bin : Bincode V} {user : Task → Nat → Prop} {s s' : Sched T V R} {a : Turn T V R}

theorem Homely.init (value : Nat → T) (entrusted : Nat → Bool) :
    Homely bin user (Sched.init value entrusted : Sched T V R) where
  seated := by simp [Sched.init, World.init]
  apart := by simp [Sched.init, World.init]
  away := by simp [Sched.init, World.init]
  direct := by simp [Sched.init, World.init]
  nested := fun _ h => absurd rfl h
  manned := by
    intro r
    have hreg : Manned bin (Sys.init (value r) : Sys T V R).register :=
      (Manned.init (value r)).step (b := .register) rfl
    show Manned bin (if entrusted r = true then Population.entrusted (value r)
      else Population.spawned (value r)).sys
    split <;> exact hreg

theorem World.step_trusteeId {s s' : World T V R} {a : Act T V R} (h : s.step bin a = some s') :
    s'.trusteeId = s.trusteeId ∨ ∃ r t, s.seat (.trustee r) = some t ∧
      s'.trusteeId = Function.update s.trusteeId r t := by
  by_cases hstart : ∃ r, a = .start r
  · obtain ⟨r, rfl⟩ := hstart
    obtain ⟨t, hseat, ⟨_, rfl⟩ | ⟨_, rfl⟩ | ⟨_, rfl⟩⟩ := World.start_cases h
    · exact .inl rfl
    · exact .inr ⟨r, t, hseat, rfl⟩
    · exact .inl rfl
  by_cases htrustee : ∃ r, a = .trustee r
  · obtain ⟨r, rfl⟩ := htrustee
    obtain ⟨t, _, _, _, ⟨_, rfl⟩ | ⟨_, x, _, ⟨_, rfl⟩ | ⟨_, _, rfl⟩ | ⟨_, rfl⟩⟩⟩ :=
      World.trustee_cases h <;> exact .inl rfl
  · exact .inl (World.step_aside h (fun r hr => hstart ⟨r, hr⟩)
      (fun r hr => htrustee ⟨r, hr⟩)).trusteeId

theorem Homely.own (h : Homely bin user s) {k : Task} {m : TrustLike T V R} {r c t : Nat}
    (huser : m.direct.isSome = true → user k r) (hseat : s.world.seat k = some t)
    (he : m.entry (s.world.entering t r c) = .shortcut) : k = .trustee r := by
  obtain ⟨hm, _, hid, _⟩ := (m.entry_shortcut _).mp he
  by_contra hk
  exact h.away k r t (huser hm) hk hseat hid

theorem Homely.act (h : Homely bin user s) {b : Act T V R}
    (huser : ∀ k m r c, b = .call k m r c → m.direct.isSome = true → user k r)
    {w : World T V R} (hs : s.world.step bin b = some w) :
    Homely bin user { s with world := w } where
  seated := fun k t hk => h.seated k t (by rwa [← World.step_seat hs])
  apart := fun k k' t hk hk' => h.apart k k' t (by rwa [← World.step_seat hs])
    (by rwa [← World.step_seat hs])
  away := by
    intro k r t hu hk hseat hid
    have hseat : s.world.seat k = some t := by rwa [← World.step_seat hs]
    have hold : s.world.trusteeId r ≠ t := h.away k r t hu hk hseat
    rcases World.step_trusteeId hs with heq | ⟨r', t', hseat', heq⟩
    · exact hold (by rwa [← heq])
    · -- the id is that of the thread which the trustee itself is on
      by_cases hr : r = r'
      · subst hr
        obtain rfl : t' = t := by simpa [heq] using hid
        exact hk (h.apart k (.trustee r) t' hseat hseat')
      · exact hold (by simpa [heq, Function.update_of_ne hr] using hid)
  direct := by
    intro k r f n hmem
    have hold : ∀ r f n, Frame.direct r f n ∈ s.world.stack k → k = .trustee r := h.direct k
    have hst := World.step_stack hs k
    have hmem : Frame.direct r f n ∈ w.stack k := hmem
    generalize w.stack k = fs at hst hmem
    cases hst with
    | same => exact hold r f n hmem
    | @shortcut m r' c t f' n' hseat _ he hm =>
      rcases List.mem_cons.mp hmem with heq | hmem
      · obtain ⟨rfl, _, _⟩ := Frame.direct.inj heq
        exact h.own (huser k m r c rfl) hseat he
      · exact hold r f n hmem
    | publish | consumed | dropped => exact hold r f n (by simpa using hmem)
    | wait hstack =>
      exact hold r f n (by rw [hstack]; exact List.mem_cons_of_mem _ (by simpa using hmem))
    | ret hstack =>
      rcases List.mem_cons.mp hmem with heq | hmem
      · obtain ⟨rfl, _, _⟩ := Frame.direct.inj heq
        exact hold r _ _ (by rw [hstack]; exact List.mem_cons_self)
      · exact hold r f n (by rw [hstack]; exact List.mem_cons_of_mem _ hmem)
    | back hstack => exact hold r f n (by rw [hstack]; exact List.mem_cons_of_mem _ hmem)
  nested := h.nested.step hs
  manned := fun r => World.step_keeps (fun _ _ _ hx hy => hx.step hy) (fun _ v hx => hx.write v)
    h.manned hs r

theorem Homely.step (h : Homely bin user s) (hplaced : KeptAway user s a)
    (huser : ∀ k m r c, a = .act (.call k m r c) → m.direct.isSome = true → user k r)
    (hs : s.step bin a = some s') : Homely bin user s' := by
  cases a with
  | act b =>
    obtain ⟨w, hw, hs⟩ := Option.bind_eq_some_iff.mp hs
    obtain rfl := Option.some.inj hs
    exact h.act (fun k m r c hb => huser k m r c (by rw [hb])) hw
  | suspend k =>
    simp only [Sched.step] at hs
    split at hs
    · rename_i t hseat
      split at hs <;> simp only [Option.some.injEq, reduceCtorEq] at hs
      subst hs
      have hother : ∀ k' t', Function.update s.world.seat k none k' = some t' →
          k' ≠ k ∧ s.world.seat k' = some t' := by
        intro k' t' hk'
        by_cases hkk : k' = k
        · simp [hkk] at hk'
        · exact ⟨hkk, by rwa [Function.update_of_ne hkk] at hk'⟩
      refine ⟨?_, ?_, ?_, h.direct, h.nested, h.manned⟩
      · intro k' t' hk'
        obtain ⟨hkk, hold⟩ := hother k' t' hk'
        have htt : t' ≠ t := by
          rintro rfl
          exact hkk (h.apart k' k t' hold hseat)
        simpa [Function.update_of_ne htt] using h.seated k' t' hold
      · exact fun k₁ k₂ t' h₁ h₂ => h.apart k₁ k₂ t' (hother k₁ t' h₁).2 (hother k₂ t' h₂).2
      · exact fun k' r t' hu hk hk' => h.away k' r t' hu hk (hother k' t' hk').2
    · simp at hs
  | resume k t =>
    simp only [Sched.step] at hs
    split at hs
    · simp at hs
    · split at hs <;> simp only [Option.some.injEq, reduceCtorEq] at hs
      rename_i hfree
      subst hs
      have hcases : ∀ k' t', Function.update s.world.seat k (some t) k' = some t' →
          (k' = k ∧ t' = t) ∨ (t' ≠ t ∧ s.world.seat k' = some t') := by
        intro k' t' hk'
        by_cases hkk : k' = k
        · exact .inl ⟨hkk, by simpa [hkk, eq_comm] using hk'⟩
        · rw [Function.update_of_ne hkk] at hk'
          refine .inr ⟨?_, hk'⟩
          rintro rfl
          simp [h.seated k' t' hk'] at hfree
      refine ⟨?_, ?_, ?_, h.direct, h.nested, h.manned⟩
      · intro k' t' hk'
        rcases hcases k' t' hk' with ⟨_, rfl⟩ | ⟨htt, hk'⟩
        · simp
        · simpa [Function.update_of_ne htt] using h.seated k' t' hk'
      · intro k₁ k₂ t' h₁ h₂
        rcases hcases k₁ t' h₁ with ⟨rfl, rfl⟩ | ⟨htt, h₁⟩ <;>
          rcases hcases k₂ t' h₂ with ⟨rfl, ht₂⟩ | ⟨htt', h₂⟩
        · rfl
        · exact absurd rfl htt'
        · exact absurd ht₂ htt
        · exact h.apart k₁ k₂ t' h₁ h₂
      · intro k' r t' hu hk hk'
        rcases hcases k' t' hk' with ⟨rfl, rfl⟩ | ⟨_, hk'⟩
        · exact hplaced r hu hk
        · exact h.away k' r t' hu hk hk'

theorem Homely.proper (h : Homely bin user s) (hquiet : Undisturbed s a)
    (huser : ∀ k m r c, a = .act (.call k m r c) → m.direct.isSome = true → user k r)
    (hs : s.step bin a = some s') : ProperShortcut s a := by
  rintro k m r c t rfl hseat he
  obtain rfl : k = .trustee r := h.own (huser k m r c rfl) hseat he
  have hm : m.direct.isSome = true := ((m.entry_shortcut _).mp he).1
  obtain ⟨hdestroying, hno⟩ := hquiet rfl hm
  obtain ⟨w, hw, _⟩ := Option.bind_eq_some_iff.mp hs
  obtain ⟨_, _, hcode, _⟩ := World.call_cases hw
  have hrun : (s.world.rt r).sys.pc.runsClosure = true := by
    simpa [World.atWork, hdestroying] using h.nested.atWork hcode
  have hex : (s.world.rt r).sys.exited = false := Sys.runsClosure_alive hrun
  refine ⟨⟨rfl, hrun⟩, ⟨(h.manned r).closed hno, ?_⟩, hex, (h.manned r).counted.alive hex⟩
  exact fun k' f n hne hmem => hne (h.direct k' r f n hmem)

end Invariant

/-- In a run of any coroutines the shortcut is taken in the trustee's turn only, if the
scheduler keeps the users of a runtime away from its thread and nobody calls in from a
destructor or during a launch. -/
theorem shortcut_in_turn {bin : Bincode V} {value : Nat → T} {entrusted : Nat → Bool}
    {l : List (Sched T V R × Turn T V R)} {u : Sched T V R}
    (h : Machine.Trace (Sched.step bin) (Sched.init value entrusted) l u) (hl : Separate l) :
    ∀ x ∈ l, ProperShortcut x.1 x.2 := by
  have huser : ∀ x ∈ l, ∀ k m r c, x.2 = .act (.call k m r c) → m.direct.isSome = true →
      Uses l k r := by
    rintro ⟨s, a⟩ hx k m r c rfl hm
    exact ⟨s, m, c, hx, hm⟩
  exact @Machine.Trace.fine _ _ _ _ _ _ (Homely bin (Uses l)) ProperShortcut
    (fun s a => (KeptAway (Uses l) s a ∧ Undisturbed s a) ∧
      ∀ k m r c, a = .act (.call k m r c) → m.direct.isSome = true → Uses l k r)
    (Homely.init value entrusted) (fun _ _ _ ht hok hs => ht.step hok.1.1 hok.2 hs)
    (fun _ _ _ ht hok hs => ht.proper hok.1.2 hok.2 hs) h (fun x hx => ⟨hl x hx, huser x hx⟩)

def nestedApply : TrustLike Nat UInt8 Nat := .apply (fun t => (t + 1, .returned t))

def intoClosure : List (Act Nat UInt8 Nat) :=
  List.replicate 3 (.start 0) ++ [.deed (.other 0) 0 (.cloneHandle 0),
    .call (.other 0) (.apply (fun t => (t + 1, .returned t))) 0 0, .wait (.other 0),
    .wait (.other 0)] ++ List.replicate 8 (.trustee 0)

theorem intoClosure_undisturbed {b : Act Nat UInt8 Nat} (hb : b ∈ intoClosure)
    (s : Sched Nat UInt8 Nat) : Undisturbed s (.act b) := by
  simp only [intoClosure, List.mem_append, List.mem_replicate, List.mem_cons] at hb
  rcases hb with (⟨_, rfl⟩ | rfl | rfl | rfl | rfl | h) | ⟨_, rfl⟩
  case inl.inr.inr.inr.inr.inr => cases h
  all_goals exact trivial

/-- The closure calls `apply` on the second handle. -/
theorem shortcut_in_turn_applyInApply : ∃ (l : List (Sched Nat UInt8 Nat × Turn Nat UInt8 Nat))
    (u : Sched Nat UInt8 Nat),
    Machine.Trace (Sched.step byteBincode) (Sched.init (fun _ => 5) (fun _ => true)) l u ∧
      Separate l ∧ u.world.calls = [(.other 0, .publish), (.trustee 0, .shortcut)] ∧
      ∀ x ∈ l, ProperShortcut x.1 x.2 := by
  generalize hs₀ : (Sched.init (fun _ => 5) (fun _ => true) : Sched Nat UInt8 Nat) = s₀
  obtain ⟨s₁, s₂, s₃, u, h₁, h₂, hrun, hu, hid, hdestroying, hno, hcalls⟩ : ∃ s₁ s₂ s₃ u,
      Sched.step byteBincode s₀ (.resume (.trustee 0) 1) = some s₁ ∧
      Sched.step byteBincode s₁ (.resume (.other 0) 2) = some s₂ ∧
      Machine.run (Sched.step byteBincode) s₂ (intoClosure.map .act) = some s₃ ∧
      Sched.step byteBincode s₃ (.act (.call (.trustee 0) nestedApply 0 1)) = some u ∧
      (∀ r, s₀.world.trusteeId r = 0 ∧ s₁.world.trusteeId r = 0) ∧
      s₃.world.destroying (.trustee 0) = false ∧
      (∀ c < (s₃.world.rt 0).sys.created,
        ((s₃.world.rt 0).sys.client c).pc.launching = false) ∧
      u.world.calls = [(.other 0, .publish), (.trustee 0, .shortcut)] := by
    subst hs₀
    exact ⟨_, _, _, _, rfl, rfl, rfl, rfl, fun _ => ⟨rfl, rfl⟩, rfl, by decide, rfl⟩
  obtain ⟨l, hl, hacts⟩ := Machine.run_trace hrun
  have htrace := ((Machine.Trace.start.next h₁).next h₂).append hl |>.next hu
  have hsep : Separate ([] ++ [(s₀, .resume (.trustee 0) 1)] ++ [(s₁, .resume (.other 0) 2)] ++ l ++
      [(s₃, .act (.call (.trustee 0) nestedApply 0 1))]) := by
    intro x hx
    simp only [List.nil_append, List.append_assoc, List.mem_append, List.mem_singleton] at hx
    rcases hx with rfl | rfl | hx | rfl
    · exact ⟨fun r _ _ => by simp [(hid r).1], trivial⟩
    · exact ⟨fun r _ _ => by simp [(hid r).2], trivial⟩
    · have hmem : x.2 ∈ intoClosure.map .act := by
        rw [← hacts]
        exact List.mem_map_of_mem hx
      obtain ⟨b, hb, hxb⟩ := List.mem_map.mp hmem
      rw [← hxb]
      exact ⟨trivial, intoClosure_undisturbed hb x.1⟩
    · exact ⟨trivial, fun _ _ => ⟨hdestroying, hno⟩⟩
  subst hs₀
  exact ⟨_, u, htrace, hsep, hcalls, shortcut_in_turn htrace hsep⟩

/-- Trustee 0 publishes thread 1, dispatches a launch job and yields; the job's fiber then
starts its closure on that thread. -/
def fiberOnTrusteeThread : List (Turn Nat UInt8 Nat) :=
  [.resume (.trustee 0) 1] ++ List.replicate 3 (.act (.start 0)) ++
    [.resume (.other 0) 2, .act (.deed (.other 0) 0 (.cloneHandle 0)),
      .act (.call (.other 0) (.launch (fun t => (t, .returned t))) 0 0),
      .act (.wait (.other 0)), .act (.wait (.other 0))] ++
    List.replicate 11 (.act (.trustee 0)) ++
    [.suspend (.trustee 0), .resume (.fiber 0 0) 1, .act (.fiber 0 0)]

/-- `apply` from the fiber takes the shortcut, outside any closure of the trustee loop. -/
theorem fiber_takes_shortcut :
    ¬ ∀ l (u : Sched Nat UInt8 Nat), Machine.Trace (Sched.step byteBincode)
      (Sched.init (fun _ => 5) (fun _ => true)) l u → ∀ x ∈ l, ProperShortcut x.1 x.2 := by
  intro h
  obtain ⟨s, u, hrun, hseat, he, hs⟩ : ∃ s u, Machine.run (Sched.step byteBincode)
      (Sched.init (fun _ => 5) (fun _ => true)) fiberOnTrusteeThread = some s ∧
      s.world.seat (.fiber 0 0) = some 1 ∧
      nestedApply.entry (s.world.entering 1 0 1) = .shortcut ∧
      Sched.step byteBincode s (.act (.call (.fiber 0 0) nestedApply 0 1)) = some u :=
    ⟨_, _, rfl, rfl, rfl, rfl⟩
  obtain ⟨l, hl, _⟩ := Machine.run_trace hrun
  have hin := h _ u (hl.next hs) (s, .act (.call (.fiber 0 0) nestedApply 0 1)) (by simp)
    (.fiber 0 0) nestedApply 0 1 1 rfl hseat he
  exact absurd hin.nested.1 (by decide)

end TrustTee
