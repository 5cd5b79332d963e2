import TrustTee.Monitor
import TrustTee.Endless
import Mathlib.Algebra.Order.BigOperators.Group.Finset

/-!
The latch of `util`, a value behind a mutex and a condition variable, under any number of
threads that lock it, wait on it and notify.
-/

set_option autoImplicit false

namespace TrustTee

variable {σ : Type}

namespace SharedLatch

/-- Where a thread is in a method of the latch. A condition that is `none` of a value panics
there. -/
inductive Pc (σ : Type) where
  | idle : Pc σ
  | locking : Pc σ
  | holding : Pc σ
  | entering (condition : σ → Option Bool) : Pc σ
  | testing (condition : σ → Option Bool) : Pc σ
  | waiting (condition : σ → Option Bool) : Pc σ
  | panicked : Pc σ

end SharedLatch

/-- The latch and the threads that use it. `changed` is a ghost: the value has been written
since the last `notify_all`. -/
structure SharedLatch (σ : Type) where
  mon : Monitor σ
  pc : Nat → SharedLatch.Pc σ
  changed : Bool

namespace SharedLatch

def new (val : σ) : SharedLatch σ := ⟨.new val, fun _ => .idle, false⟩

def goto (s : SharedLatch σ) (i : Nat) (pc : Pc σ) : SharedLatch σ :=
  { s with pc := Function.update s.pc i pc }

theorem goto_self (s : SharedLatch σ) (i : Nat) (pc : Pc σ) : (s.goto i pc).pc i = pc :=
  Function.update_self _ _ _

theorem goto_of_ne (s : SharedLatch σ) {i k : Nat} (pc : Pc σ) (h : k ≠ i) :
    (s.goto i pc).pc k = s.pc k :=
  Function.update_of_ne h _ _

/-- `lock().unwrap()` once the mutex is there: what comes next, or a panic that drops the guard
again. -/
def unwrap (s : SharedLatch σ) (i : Nat) (m : Monitor σ) (next : Pc σ) : SharedLatch σ :=
  if m.poisoned then { s with mon := m.release }.goto i .panicked
  else { s with mon := m }.goto i next

def threadStep (s : SharedLatch σ) (i : Nat) : Option (SharedLatch σ) :=
  match s.pc i with
  | .locking => (s.mon.acquire i).map (fun m => s.unwrap i m .holding)
  | .entering condition => (s.mon.acquire i).map (fun m => s.unwrap i m (.testing condition))
  | .waiting condition =>
    if s.mon.asleep i then none
    else (s.mon.acquire i).map (fun m => s.unwrap i m (.testing condition))
  | .testing condition =>
    match condition s.mon.value with
    | none => some ({ s with mon := s.mon.unwind }.goto i .panicked)
    | some true => some ({ s with mon := s.mon.release }.goto i .idle)
    | some false => some ({ s with mon := s.mon.sleep i }.goto i (.waiting condition))
  | .idle | .holding | .panicked => none

inductive Action (σ : Type) where
  | lock (i : Nat) : Action σ
  | wait (i : Nat) (condition : σ → Option Bool) : Action σ
  | notifyAll (i : Nat) : Action σ
  | thread (i : Nat) : Action σ
  | write (i : Nat) (v : σ) : Action σ
  | unlock (i : Nat) : Action σ
  | unwind (i : Nat) : Action σ
  | rouse (i : Nat) : Action σ
  | recover (i : Nat) : Action σ

/-- One step of one thread. A thread that holds the guard does not lock or wait again, which
would never come back. -/
def step (s : SharedLatch σ) : Action σ → Option (SharedLatch σ)
  | .lock i =>
    match s.pc i with
    | .idle => some (s.goto i .locking)
    | _ => none
  | .wait i condition =>
    match s.pc i with
    | .idle => some (s.goto i (.entering condition))
    | _ => none
  | .notifyAll i =>
    match s.pc i with
    | .idle | .holding => some { s with mon := s.mon.wakeAll, changed := false }
    | _ => none
  | .thread i => s.threadStep i
  | .write i v =>
    match s.pc i with
    | .holding => some { s with mon := s.mon.write v, changed := true }
    | _ => none
  | .unlock i =>
    match s.pc i with
    | .holding => some ({ s with mon := s.mon.release }.goto i .idle)
    | _ => none
  | .unwind i =>
    match s.pc i with
    | .holding => some ({ s with mon := s.mon.unwind }.goto i .panicked)
    | _ => none
  | .rouse i => some { s with mon := s.mon.rouse i }
  | .recover i =>
    match s.pc i with
    | .panicked => some (s.goto i .idle)
    | _ => none

def Reachable (val : σ) (s : SharedLatch σ) : Prop :=
  Machine.Reach step (fun _ _ => True) (new val) s

def Pc.Inside : Pc σ → Prop
  | .holding | .testing _ => True
  | _ => False

/-- What the mutex and the condition variable say about the threads. A thread asleep has found
its condition false, and unless the value has changed since anyone was notified it still is. -/
structure Inv (s : SharedLatch σ) : Prop where
  owner : ∀ i, s.mon.owner = some i ↔ (s.pc i).Inside
  poisoned : s.mon.poisoned = true → s.mon.owner = none
  asleep : ∀ i, s.mon.asleep i = true → ∃ condition, s.pc i = .waiting condition
  due : s.changed = false → ∀ i condition, s.pc i = .waiting condition →
    s.mon.asleep i = true → condition s.mon.value = some false

section Steps

variable {s t : SharedLatch σ} {i : Nat}

theorem Inv.new (val : σ) : Inv (new val) := by
  constructor <;> simp [SharedLatch.new, Monitor.new, Pc.Inside]

theorem Inv.awake (h : Inv s) (hpc : ∀ condition, s.pc i ≠ .waiting condition) :
    s.mon.asleep i = false := by
  by_contra hne
  obtain ⟨condition, hw⟩ := h.asleep i (by simpa using hne)
  exact hpc condition hw

theorem Inv.moved (h : Inv s) (hawake : s.mon.asleep i = false) {m : Monitor σ} {pc : Pc σ}
    (hvalue : m.value = s.mon.value)
    (hothers : ∀ k, k ≠ i → (m.owner = some k ↔ s.mon.owner = some k))
    (hself : m.owner = some i ↔ pc.Inside) (hpoison : m.poisoned = true → m.owner = none)
    (hasleep : ∀ k, k ≠ i → m.asleep k = s.mon.asleep k)
    (hsleep : m.asleep i = true → ∃ condition, pc = .waiting condition ∧
      condition s.mon.value = some false) : Inv ({ s with mon := m }.goto i pc) := by
  have hpc : ∀ k, k ≠ i → ({ s with mon := m }.goto i pc).pc k = s.pc k :=
    fun k hk => goto_of_ne _ pc hk
  have hpc' : ({ s with mon := m }.goto i pc).pc i = pc := goto_self _ i pc
  constructor
  · intro k
    by_cases hk : k = i
    · rw [hk, hpc']
      exact hself
    · rw [hpc k hk]
      exact (hothers k hk).trans (h.owner k)
  · exact hpoison
  · intro k ha
    by_cases hk : k = i
    · subst hk
      obtain ⟨condition, he, _⟩ := hsleep ha
      exact ⟨condition, hpc'.trans he⟩
    · rw [hpc k hk]
      exact h.asleep k ((hasleep k hk).symm.trans ha)
  · intro hc k condition hw ha
    change condition m.value = some false
    rw [hvalue]
    by_cases hk : k = i
    · subst hk
      obtain ⟨condition', he, hfalse⟩ := hsleep ha
      obtain rfl := Pc.waiting.inj ((hpc'.symm.trans hw).symm.trans he)
      exact hfalse
    · exact h.due hc k condition (hpc k hk ▸ hw) ((hasleep k hk).symm.trans ha)

theorem Inv.outside (h : Inv s) (hi : ¬ (s.pc i).Inside) (hawake : s.mon.asleep i = false)
    {pc : Pc σ} (hpc : ¬ pc.Inside) : Inv (s.goto i pc) :=
  h.moved hawake rfl (fun _ _ => Iff.rfl) (iff_of_false (mt (h.owner i).mp hi) hpc) h.poisoned
    (fun _ _ => rfl) (by simp [hawake])

theorem Inv.takes (h : Inv s) (hawake : s.mon.asleep i = false) {m : Monitor σ}
    (hm : s.mon.acquire i = some m) {next : Pc σ} (hnext : next.Inside) :
    Inv (s.unwrap i m next) := by
  obtain ⟨hfree, rfl⟩ := Monitor.acquire_eq hm
  unfold unwrap
  split
  · exact h.moved hawake rfl (fun k _ => by simp [Monitor.release, hfree])
      (by simp [Monitor.release, Pc.Inside]) (fun _ => rfl) (fun _ _ => rfl)
      (by simp [Monitor.release, hawake])
  · rename_i hclean
    exact h.moved hawake rfl (fun k hk => by simp [hfree, Ne.symm hk]) (iff_of_true rfl hnext)
      (fun hp => absurd hp hclean) (fun _ _ => rfl) (by simp [hawake])

theorem Inv.leaves (h : Inv s) (hi : (s.pc i).Inside) {m : Monitor σ} {pc : Pc σ}
    (hvalue : m.value = s.mon.value) (hfree : m.owner = none) (hpc : ¬ pc.Inside)
    (hasleep : ∀ k, k ≠ i → m.asleep k = s.mon.asleep k)
    (hsleep : m.asleep i = true → ∃ condition, pc = .waiting condition ∧
      condition s.mon.value = some false) : Inv ({ s with mon := m }.goto i pc) := by
  have hmine := (h.owner i).mpr hi
  have hawake : s.mon.asleep i = false := by
    refine h.awake (fun condition hw => ?_)
    rw [hw] at hi
    exact hi
  exact h.moved hawake hvalue (fun k hk => by simp [hfree, hmine, Ne.symm hk])
    (iff_of_false (by simp [hfree]) hpc) (fun _ => hfree) hasleep hsleep

theorem Inv.threadStep (h : Inv s) (hs : s.threadStep i = some t) : Inv t := by
  unfold SharedLatch.threadStep at hs
  cases hpc : s.pc i with
  | locking | entering condition =>
    simp only [hpc] at hs
    obtain ⟨m, hm, rfl⟩ := Option.map_eq_some_iff.mp hs
    exact h.takes (h.awake (by simp [hpc])) hm trivial
  | waiting condition =>
    simp only [hpc] at hs
    split at hs
    · simp at hs
    · rename_i hawake
      obtain ⟨m, hm, rfl⟩ := Option.map_eq_some_iff.mp hs
      exact h.takes (by simpa using hawake) hm trivial
  | testing condition =>
    have hi : (s.pc i).Inside := by simp [hpc, Pc.Inside]
    have hawake := h.awake (i := i) (by simp [hpc])
    simp only [hpc] at hs
    split at hs <;> obtain rfl := Option.some.inj hs
    · exact h.leaves hi rfl rfl id (fun _ _ => rfl) (by simp [Monitor.unwind, hawake])
    · exact h.leaves hi rfl rfl id (fun _ _ => rfl) (by simp [Monitor.release, hawake])
    · rename_i hfalse
      exact h.leaves hi rfl rfl id (fun k hk => Function.update_of_ne hk _ _)
        (fun _ => ⟨condition, rfl, hfalse⟩)
  | idle | holding | panicked => simp [hpc] at hs

theorem Inv.step (h : Inv s) {a : Action σ} (hs : s.step a = some t) : Inv t := by
  cases a with
  | thread i => exact h.threadStep hs
  | lock i | wait i condition | recover i =>
    simp only [SharedLatch.step] at hs
    split at hs <;> simp only [Option.some.injEq, reduceCtorEq] at hs
    rename_i hpc
    subst hs
    exact h.outside (by simp [hpc, Pc.Inside]) (h.awake (by simp [hpc])) id
  | unlock i | unwind i =>
    simp only [SharedLatch.step] at hs
    split at hs <;> simp only [Option.some.injEq, reduceCtorEq] at hs
    rename_i hpc
    subst hs
    have hawake := h.awake (i := i) (by simp [hpc])
    exact h.leaves (by simp [hpc, Pc.Inside]) rfl rfl id (fun _ _ => rfl)
      (by simp [Monitor.release, Monitor.unwind, hawake])
  | notifyAll i =>
    simp only [SharedLatch.step] at hs
    split at hs <;> simp only [Option.some.injEq, reduceCtorEq] at hs <;> subst hs <;>
      exact ⟨h.owner, h.poisoned, by simp [Monitor.wakeAll], by simp [Monitor.wakeAll]⟩
  | write i v =>
    simp only [SharedLatch.step] at hs
    split at hs <;> simp only [Option.some.injEq, reduceCtorEq] at hs
    subst hs
    exact ⟨h.owner, h.poisoned, h.asleep, by simp⟩
  | rouse i =>
    obtain rfl := Option.some.inj hs
    have hstill : ∀ k, (s.mon.rouse i).asleep k = true → s.mon.asleep k = true := by
      intro k ha
      by_cases hk : k = i
      · subst hk
        simp [Monitor.rouse] at ha
      · simpa [Monitor.rouse, Function.update_of_ne hk] using ha
    exact ⟨h.owner, h.poisoned, fun k ha => h.asleep k (hstill k ha),
      fun hc k condition hw ha => h.due hc k condition hw (hstill k ha)⟩

theorem Reachable.inv {val : σ} (h : Reachable val s) : Inv s :=
  h.invariant (.new val) (fun _ _ _ hi _ hs => hi.step hs)

def Dead (v : σ) (s : SharedLatch σ) : Prop :=
  s.mon.poisoned = true ∧ s.mon.value = v ∧ ∀ i, ¬ (s.pc i).Inside

theorem Dead.goto {v : σ} (h : Dead v s) {m : Monitor σ} {pc : Pc σ}
    (hpoison : m.poisoned = true) (hvalue : m.value = v) (hpc : ¬ pc.Inside) :
    Dead v ({ s with mon := m }.goto i pc) := by
  refine ⟨hpoison, hvalue, fun k => ?_⟩
  by_cases hk : k = i
  · rw [hk, goto_self]
    exact hpc
  · rw [goto_of_ne _ pc hk]
    exact h.2.2 k

theorem Dead.unwrap {v : σ} (h : Dead v s) {m : Monitor σ} (hm : s.mon.acquire i = some m)
    (next : Pc σ) : Dead v (s.unwrap i m next) := by
  obtain ⟨_, rfl⟩ := Monitor.acquire_eq hm
  unfold SharedLatch.unwrap
  rw [if_pos h.1]
  exact h.goto h.1 h.2.1 id

theorem Dead.step {v : σ} (h : Dead v s) {a : Action σ} (hs : s.step a = some t) : Dead v t := by
  cases a with
  | thread i =>
    have hout := h.2.2 i
    simp only [SharedLatch.step, SharedLatch.threadStep] at hs
    cases hpc : s.pc i with
    | locking | entering condition =>
      simp only [hpc] at hs
      obtain ⟨m, hm, rfl⟩ := Option.map_eq_some_iff.mp hs
      exact h.unwrap hm _
    | waiting condition =>
      simp only [hpc] at hs
      split at hs
      · simp at hs
      · obtain ⟨m, hm, rfl⟩ := Option.map_eq_some_iff.mp hs
        exact h.unwrap hm _
    | testing condition => exact absurd (hpc ▸ trivial) hout
    | idle | holding | panicked => simp [hpc] at hs
  | lock i | wait i condition | recover i =>
    simp only [SharedLatch.step] at hs
    split at hs <;> simp only [Option.some.injEq, reduceCtorEq] at hs
    subst hs
    exact h.goto h.1 h.2.1 id
  | write i v | unlock i | unwind i =>
    simp only [SharedLatch.step] at hs
    split at hs <;> simp only [Option.some.injEq, reduceCtorEq] at hs
    rename_i hpc
    exact absurd (hpc ▸ trivial) (h.2.2 i)
  | notifyAll i =>
    simp only [SharedLatch.step] at hs
    split at hs <;> simp only [Option.some.injEq, reduceCtorEq] at hs <;> subst hs <;> exact h
  | rouse i =>
    obtain rfl := Option.some.inj hs
    exact h

/-- In every state that any threads reach one of them is inside at most, nobody sleeps whose
condition has become true if all changes have been notified, and once a guard has been dropped
by a panic nobody gets inside again, whatever else happens. -/
theorem shared_latch_monitor {val : σ} (h : Reachable val s) :
    (∀ i k, (s.pc i).Inside → (s.pc k).Inside → i = k) ∧
      (s.changed = false → ∀ i condition, s.pc i = .waiting condition →
        s.mon.asleep i = true → condition s.mon.value = some false) ∧
      (s.mon.poisoned = true → ∀ u, Machine.Reach SharedLatch.step (fun _ _ => True) s u →
        Dead s.mon.value u) := by
  have hinv := h.inv
  refine ⟨fun i k hi hk => ?_, hinv.due, fun hp u hu => ?_⟩
  · have hi := (hinv.owner i).mpr hi
    have hk := (hinv.owner k).mpr hk
    exact Option.some.inj (hi.symm.trans hk)
  · have hout : ∀ i, ¬ (s.pc i).Inside := by
      intro i hi
      have := (hinv.owner i).mpr hi
      simp [hinv.poisoned hp] at this
    exact hu.invariant ⟨hp, rfl, hout⟩ (fun _ _ _ hd _ hs => hd.step hs)

end Steps

def panicsInside : List (Action Nat) :=
  [.wait 0 (fun v => some (v == 1)), .thread 0, .thread 0, .lock 1, .thread 1, .write 1 1,
    .unwind 1]

theorem shared_latch_monitor_panicsInside : ∃ s u : SharedLatch Nat,
    Machine.run step (new 0) panicsInside = some s ∧ s.mon.asleep 0 = true ∧
      Machine.run step s [.rouse 0, .thread 0] = some u ∧ Dead 1 u := by
  obtain ⟨s, hs, hasleep, hpoisoned, hvalue⟩ : ∃ s : SharedLatch Nat,
      Machine.run step (new 0) panicsInside = some s ∧ s.mon.asleep 0 = true ∧
        s.mon.poisoned = true ∧ s.mon.value = 1 := ⟨_, rfl, rfl, rfl, rfl⟩
  have hreach : Reachable 0 s := (Machine.run_reach hs).weaken (fun _ _ _ => trivial)
  obtain ⟨u, hu⟩ : ∃ u, Machine.run step s [.rouse 0, .thread 0] = some u := by
    obtain rfl := Option.some.inj hs
    exact ⟨_, rfl⟩
  have hdead := (shared_latch_monitor hreach).2.2 hpoisoned u
    ((Machine.run_reach hu).weaken (fun _ _ _ => trivial))
  exact ⟨s, u, hs, hasleep, hu, hvalue ▸ hdead⟩

section Progress

def Pc.stage (asleep : Bool) : Pc σ → Nat
  | .idle | .panicked => 0
  | .holding => 1
  | .locking | .testing _ => 2
  | .entering _ => 3
  | .waiting _ => if asleep then 0 else 3

def stage (s : SharedLatch σ) (i : Nat) : Nat := (s.pc i).stage (s.mon.asleep i)

structure Advances (s : SharedLatch σ) (i : Nat) (t : SharedLatch σ) : Prop where
  value : t.mon.value = s.mon.value
  changed : t.changed = s.changed
  others : ∀ j, j ≠ i → t.pc j = s.pc j ∧ t.mon.asleep j = s.mon.asleep j
  stage : t.stage i < s.stage i

def Rests (s : SharedLatch σ) (v : σ) (i : Nat) : Prop :=
  s.pc i = .idle ∨ s.pc i = .panicked ∨
    ∃ condition, s.pc i = .waiting condition ∧ s.mon.asleep i = true ∧ condition v = some false

variable {s t : SharedLatch σ} {i k : Nat} {v : σ}

theorem Advances.goto {m : Monitor σ} {pc : Pc σ} (hvalue : m.value = s.mon.value)
    (hasleep : ∀ j, j ≠ i → m.asleep j = s.mon.asleep j)
    (hstage : pc.stage (m.asleep i) < s.stage i) :
    s.Advances i ({ s with mon := m }.goto i pc) := by
  refine ⟨hvalue, rfl, fun j hj => ⟨goto_of_ne _ pc hj, hasleep j hj⟩, ?_⟩
  rw [SharedLatch.stage, goto_self]
  exact hstage

theorem Advances.unwrap {m : Monitor σ} {next : Pc σ} (hm : s.mon.acquire i = some m)
    (hstage : next.stage (s.mon.asleep i) < s.stage i) : s.Advances i (s.unwrap i m next) := by
  obtain ⟨_, rfl⟩ := Monitor.acquire_eq hm
  unfold SharedLatch.unwrap
  split
  · exact .goto rfl (fun _ _ => rfl) (Nat.zero_lt_of_lt hstage)
  · exact .goto rfl (fun _ _ => rfl) hstage

theorem Advances.threadStep (hs : s.threadStep i = some t) : s.Advances i t := by
  unfold SharedLatch.threadStep at hs
  cases hpc : s.pc i with
  | locking | entering condition =>
    simp only [hpc] at hs
    obtain ⟨m, hm, rfl⟩ := Option.map_eq_some_iff.mp hs
    exact .unwrap hm (by simp [SharedLatch.stage, Pc.stage, hpc])
  | waiting condition =>
    simp only [hpc] at hs
    split at hs
    · simp at hs
    · rename_i hawake
      obtain ⟨m, hm, rfl⟩ := Option.map_eq_some_iff.mp hs
      exact .unwrap hm (by simp [SharedLatch.stage, Pc.stage, hpc, hawake])
  | testing condition =>
    have hstage : s.stage i = 2 := by simp [SharedLatch.stage, Pc.stage, hpc]
    simp only [hpc] at hs
    split at hs <;> obtain rfl := Option.some.inj hs
    · exact .goto rfl (fun _ _ => rfl) (by simp [hstage, Pc.stage])
    · exact .goto rfl (fun _ _ => rfl) (by simp [hstage, Pc.stage])
    · exact .goto rfl (fun j hj => Function.update_of_ne hj _ _)
        (by simp [hstage, Pc.stage, Monitor.sleep])
  | idle | holding | panicked => simp [hpc] at hs

/-- The threads go on, and guards are dropped. -/
def Action.GoesOn (i : Nat) : Action σ → Prop
  | .thread j | .unlock j | .unwind j => j = i
  | _ => False

theorem Advances.step {a : Action σ} (ha : a.GoesOn i) (hs : s.step a = some t) :
    s.Advances i t := by
  cases a with
  | thread j =>
    obtain rfl := ha
    exact .threadStep hs
  | unlock j | unwind j =>
    obtain rfl := ha
    simp only [SharedLatch.step] at hs
    split at hs <;> simp only [Option.some.injEq, reduceCtorEq] at hs
    rename_i hpc
    subst hs
    exact .goto rfl (fun _ _ => rfl) (by simp [SharedLatch.stage, Pc.stage, hpc])
  | lock | wait | notifyAll | write | rouse | recover => exact ha.elim

/-- A thread in the middle of a call is not in the way of all: it can go on, or whoever has the
mutex can. -/
theorem Inv.able (h : Inv s) (hi : 0 < s.stage i) :
    ∃ j, s.pc j ≠ .idle ∧ (s.step (.thread j) ≠ none ∨ s.step (.unlock j) ≠ none) := by
  cases howner : s.mon.owner with
  | some j =>
    have hj := (h.owner j).mp howner
    refine ⟨j, fun hidle => by simp [hidle, Pc.Inside] at hj, ?_⟩
    cases hpc : s.pc j with
    | holding => exact .inr (by simp [SharedLatch.step, hpc])
    | testing condition =>
      refine .inl ?_
      simp only [SharedLatch.step, SharedLatch.threadStep, hpc]
      split <;> simp
    | idle | locking | entering | waiting | panicked => exact absurd hj (by simp [hpc, Pc.Inside])
  | none =>
    have hfree : s.mon.acquire i ≠ none := by simp [Monitor.acquire, howner]
    have hout : ¬ (s.pc i).Inside := fun hin => by simpa [howner] using (h.owner i).mpr hin
    refine ⟨i, fun hidle => by simp [SharedLatch.stage, hidle, Pc.stage] at hi, .inl ?_⟩
    cases hpc : s.pc i with
    | locking | entering condition =>
      simpa [SharedLatch.step, SharedLatch.threadStep, hpc] using hfree
    | waiting condition =>
      have hawake : s.mon.asleep i = false := by
        simpa [SharedLatch.stage, Pc.stage, hpc, Nat.pos_iff_ne_zero] using hi
      simpa [SharedLatch.step, SharedLatch.threadStep, hpc, hawake] using hfree
    | idle | panicked => simp [SharedLatch.stage, Pc.stage, hpc] at hi
    | holding | testing => exact absurd (by rw [hpc]; trivial) hout

structure Quiet (k : Nat) (v : σ) (s : SharedLatch σ) : Prop where
  inv : Inv s
  few : ∀ i, k ≤ i → s.pc i = .idle
  notified : s.changed = false
  value : s.mon.value = v

theorem Quiet.lt (h : Quiet k v s) (hi : s.pc i ≠ .idle) : i < k := by
  by_contra hn
  exact hi (h.few i (by omega))

theorem Quiet.rests (h : Quiet k v s) (hi : s.stage i = 0) : s.Rests v i := by
  cases hpc : s.pc i with
  | idle => exact .inl hpc
  | panicked => exact .inr (.inl hpc)
  | waiting condition =>
    have hasleep : s.mon.asleep i = true := by
      simpa [SharedLatch.stage, Pc.stage, hpc] using hi
    have hfalse := h.inv.due h.notified i condition hpc hasleep
    exact .inr (.inr ⟨condition, hpc, hasleep, h.value ▸ hfalse⟩)
  | locking | holding | entering | testing => simp [SharedLatch.stage, Pc.stage, hpc] at hi

def left (k : Nat) (s : SharedLatch σ) : Nat := ∑ i ∈ Finset.range k, s.stage i

theorem Advances.left (h : s.Advances i t) (hi : i < k) : left k t < left k s := by
  refine Finset.sum_lt_sum (fun j _ => ?_) ⟨i, Finset.mem_range.mpr hi, h.stage⟩
  by_cases hj : j = i
  · exact hj ▸ h.stage.le
  · obtain ⟨hpc, hasleep⟩ := h.others j hj
    exact (by rw [SharedLatch.stage, SharedLatch.stage, hpc, hasleep] : t.stage j = s.stage j).le

theorem Advances.lt (h : s.Advances i t) (hq : Quiet k v s) : i < k := by
  refine hq.lt (fun hidle => ?_)
  have hzero : s.stage i = 0 := by simp [SharedLatch.stage, hidle, Pc.stage]
  have := h.stage
  omega

theorem Quiet.step (h : Quiet k v s) {a : Action σ} (ha : a.GoesOn i) (hs : s.step a = some t) :
    Quiet k v t := by
  have hadv := Advances.step ha hs
  refine ⟨h.inv.step hs, fun j hj => ?_, hadv.changed.trans h.notified, hadv.value.trans h.value⟩
  have hne : j ≠ i := by
    have := hadv.lt h
    omega
  exact (hadv.others j hne).1.trans (h.few j hj)

theorem Reachable.path {val : σ} {p : Machine.Path (Machine.offer step)}
    (h : Reachable val (p.state 0)) (n : Nat) : Reachable val (p.state n) := by
  induction n with
  | zero => exact h
  | succ n ih =>
    rcases Machine.offer_cases (p.next n) with hs | ⟨_, hs⟩
    · exact ih.next trivial hs
    · rw [hs]
      exact ih

/-- No wake-up is lost. When every change of the value has been notified, and from there on
the threads only go on in their calls or drop their guards, a scheduler that is fair to every
thread brings each of them out of its call, or back to sleep with a condition that is false on
the value. -/
theorem shared_latch_no_lost_wakeups {val : σ} {p : Machine.Path (Machine.offer step)} {N : Nat}
    (h : Reachable val (p.state 0)) (hfew : ∀ i, k ≤ i → (p.state N).pc i = .idle)
    (hnotified : (p.state N).changed = false) (hquiet : ∀ n, N ≤ n → ∃ i, (p.act n).GoesOn i)
    (hfair : ∀ i, i < k → p.Fair (· = .thread i) ∧ p.Fair (· = .unlock i)) :
    ∃ M, ∀ n, M ≤ n → ∀ i, (p.state n).Rests (p.state N).mon.value i := by
  have quiet : ∀ n, N ≤ n → Quiet k (p.state N).mon.value (p.state n) := by
    intro n hn
    induction n, hn using Nat.le_induction with
    | base => exact ⟨(h.path N).inv, hfew, hnotified, rfl⟩
    | succ n hn ih =>
      obtain ⟨i, hi⟩ := hquiet n hn
      rcases Machine.offer_cases (p.next n) with hs | ⟨_, hs⟩
      · exact ih.step hi hs
      · rw [hs]
        exact ih
  suffices hrest : ∃ M, N ≤ M ∧ ∀ n, M ≤ n → ∀ i, (p.state n).stage i = 0 by
    obtain ⟨M, hNM, hM⟩ := hrest
    exact ⟨M, fun n hn i => (quiet n (hNM.trans hn)).rests (hM n hn i)⟩
  refine Machine.Path.runs_down (w := left k) (Q := fun s => ∀ i, s.stage i = 0) ?_ ?_
  · intro n t hn hs
    obtain ⟨i, hi⟩ := hquiet n hn
    have hadv := Advances.step hi hs
    exact hadv.left (hadv.lt (quiet n hn))
  · intro n hn hbusy
    obtain ⟨i, hi⟩ := not_forall.mp hbusy
    obtain ⟨j, hj, hable⟩ := (quiet n hn).inv.able (Nat.pos_of_ne_zero hi)
    obtain ⟨hthread, hunlock⟩ := hfair j ((quiet n hn).lt hj)
    rcases hable with ha | ha
    · exact ⟨_, hthread, ha⟩
    · exact ⟨_, hunlock, ha⟩

def notifiesInside : List (Action Nat) :=
  [.wait 0 (fun v => some (v == 1)), .thread 0, .thread 0, .lock 1, .thread 1, .write 1 1,
    .notifyAll 1]

def turns (n : Nat) : Action Nat :=
  match n % 4 with
  | 0 => .thread 0
  | 1 => .unlock 0
  | 2 => .thread 1
  | _ => .unlock 1

theorem shared_latch_no_lost_wakeups_notifiesInside :
    ∃ p : Machine.Path (Machine.offer (step : SharedLatch Nat → _ → _)),
      p.state 0 = new 0 ∧ (p.state 7).pc 1 = .holding ∧ (p.state 7).mon.asleep 0 = false ∧
        ∃ M, ∀ n, M ≤ n → ∀ i, (p.state n).Rests 1 i := by
  obtain ⟨s, hs, hholding, hawake, hvalue, hchanged, hfew⟩ : ∃ s : SharedLatch Nat,
      Machine.run (Machine.offer step) (new 0) notifiesInside = some s ∧ s.pc 1 = .holding ∧
        s.mon.asleep 0 = false ∧ s.mon.value = 1 ∧ s.changed = false ∧
        ∀ i, 2 ≤ i → s.pc i = .idle := by
    refine ⟨_, rfl, rfl, rfl, rfl, rfl, fun i hi => ?_⟩
    match i with
    | i + 2 => rfl
  have hturns : ∀ n (t : SharedLatch Nat), True →
      ∃ u, Machine.offer step t (turns n) = some u ∧ True := fun _ _ _ => ⟨_, rfl, trivial⟩
  obtain ⟨q, hq, hacts⟩ := Machine.Path.forever (u := s) hturns trivial
  obtain ⟨p, hp, hlater, _⟩ := Machine.Path.scripted hs q hq
  have hseven : p.state 7 = s := ((hlater 0).1).trans hq
  have act : ∀ n r, r < 4 → p.act (4 * n + r + 7) = turns r := by
    intro n r hr
    have hact : p.act (4 * n + r + 7) = q.act (4 * n + r) := (hlater (4 * n + r)).2
    rw [hact, (hacts _).1]
    simp [turns, Nat.mod_eq_of_lt hr]
  have hquiet : ∀ n, 7 ≤ n → ∃ i, (p.act n).GoesOn i := by
    intro n hn
    obtain ⟨m, rfl⟩ := Nat.exists_eq_add_of_le' hn
    have hact : p.act (m + 7) = q.act m := (hlater m).2
    rw [hact, (hacts m).1]
    unfold turns
    split
    · exact ⟨0, rfl⟩
    · exact ⟨0, rfl⟩
    · exact ⟨1, rfl⟩
    · exact ⟨1, rfl⟩
  have hfair : ∀ i, i < 2 → p.Fair (· = .thread i) ∧ p.Fair (· = .unlock i) := by
    intro i hi
    match i with
    | 0 => exact ⟨fun n => ⟨4 * n + 0 + 7, by omega, .inl (act n 0 (by omega))⟩,
        fun n => ⟨4 * n + 1 + 7, by omega, .inl (act n 1 (by omega))⟩⟩
    | 1 => exact ⟨fun n => ⟨4 * n + 2 + 7, by omega, .inl (act n 2 (by omega))⟩,
        fun n => ⟨4 * n + 3 + 7, by omega, .inl (act n 3 (by omega))⟩⟩
  have hreach : Reachable 0 (p.state 0) := by
    rw [hp]
    exact .start
  subst hseven
  exact ⟨p, hp, hholding, hawake,
    hvalue ▸ shared_latch_no_lost_wakeups hreach hfew hchanged hquiet hfair⟩

end Progress

end SharedLatch

end TrustTee
