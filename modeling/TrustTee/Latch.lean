import TrustTee.Requests

/-!
`single_thread::Latch` behind a runtime: launched closures and closures of `with` share it
by reference and use its guards. `try_lock` reads the flag and writes it in two steps.
-/

set_option autoImplicit false

namespace TrustTee

structure Latch (U : Type) where
  locked : Bool
  inner : U
  deriving DecidableEq, Repr

def Latch.new {U : Type} (value : U) : Latch U := ⟨false, value⟩

inductive Runner where
  | trustee : Runner
  | fiber (j : Nat) : Runner
  deriving DecidableEq, Repr

/-- Where a closure is in its use of the latch. `checked` is inside `try_lock`, after the
flag has been read as clear; `loaded` is inside an update through a guard. -/
inductive LatchPc (U : Type) where
  | code : LatchPc U
  | checked : LatchPc U
  | loaded (u : U) : LatchPc U
  | unwinding : LatchPc U

/-- A runtime whose property is a latch. The property is reached by reference only, so
`sys` carries the protocol, and how each closure ends, beside the latch itself. `updates`
is a ghost: the updates made under a guard so far. -/
structure Latched (U V R : Type) where
  sys : Sys Unit V R
  latch : Latch U
  pc : Runner → LatchPc U
  guards : Runner → Nat
  updates : List (U → U)

variable {U V R : Type}

def Op.shares : Op Unit V R → Bool
  | .with_ _ | .launch _ => true
  | _ => false

namespace Latched

inductive Action (U V R : Type) where
  | sys (a : TrustTee.Action Unit V R) : Action U V R
  | tryLock (k : Runner) : Action U V R
  | lock (k : Runner) : Action U V R
  | set (k : Runner) : Action U V R
  | load (k : Runner) : Action U V R
  | store (k : Runner) (g : U → U) : Action U V R
  | drop (k : Runner) : Action U V R

def init (value : U) : Latched U V R where
  sys := Sys.init ()
  latch := Latch.new value
  pc := fun _ => .code
  guards := fun _ => 0
  updates := []

/-- How the closure that `k` is running will end; `none` when it runs none. -/
def outcome? (s : Latched U V R) : Runner → Option (Outcome (Option R))
  | .trustee =>
    match s.sys.pc with
    | .inClosure _ _ _ env args _ => some (env.call args ()).2
    | _ => none
  | .fiber j =>
    match s.sys.fiber j with
    | .running env args _ => some (env.call args ()).2
    | _ => none

def runner? : TrustTee.Action Unit V R → Option Runner
  | .trustee => some .trustee
  | .fiber j => some (.fiber j)
  | _ => none

def finished (s : Latched U V R) (k : Runner) : Bool :=
  match s.outcome? k, s.pc k with
  | none, _ => true
  | some _, .code => s.guards k = 0
  | some .panicked, .unwinding => s.guards k = 0
  | _, _ => false

def sysStep (bin : Bincode V) (s : Latched U V R) (a : TrustTee.Action Unit V R) :
    Option (Latched U V R) :=
  match a with
  | .issue c op =>
    if op.shares then (s.sys.step bin (.issue c op)).map (fun x => { s with sys := x })
    else none
  | a =>
    match runner? a with
    | none => (s.sys.step bin a).map (fun x => { s with sys := x })
    | some k =>
      if s.finished k then
        (s.sys.step bin a).map
          (fun x => { s with sys := x, pc := Function.update s.pc k .code })
      else none

/-- The first line of `try_lock`, and of `lock`, which panics where `try_lock` returns
`None`. -/
def read (s : Latched U V R) (k : Runner) (refused : LatchPc U) : Option (Latched U V R) :=
  match s.outcome? k, s.pc k with
  | some _, .code =>
    some { s with pc := Function.update s.pc k (if s.latch.locked then refused else .checked) }
  | _, _ => none

def set (s : Latched U V R) (k : Runner) : Option (Latched U V R) :=
  match s.pc k with
  | .checked =>
    some { s with latch := { s.latch with locked := true }, pc := Function.update s.pc k .code,
                  guards := Function.update s.guards k (s.guards k + 1) }
  | _ => none

/-- An update through a guard loads the value and stores it back changed. -/
def load (s : Latched U V R) (k : Runner) : Option (Latched U V R) :=
  match s.pc k with
  | .code =>
    if 0 < s.guards k then
      some { s with pc := Function.update s.pc k (.loaded s.latch.inner) }
    else none
  | _ => none

def store (s : Latched U V R) (k : Runner) (g : U → U) : Option (Latched U V R) :=
  match s.pc k with
  | .loaded u =>
    some { s with latch := { s.latch with inner := g u }, pc := Function.update s.pc k .code,
                  updates := s.updates ++ [g] }
  | _ => none

def drop (s : Latched U V R) (k : Runner) : Option (Latched U V R) :=
  match s.pc k with
  | .code | .unwinding =>
    if 0 < s.guards k then
      some { s with latch := { s.latch with locked := false },
                    guards := Function.update s.guards k (s.guards k - 1) }
    else none
  | _ => none

def step (bin : Bincode V) (s : Latched U V R) : Action U V R → Option (Latched U V R)
  | .sys a => s.sysStep bin a
  | .tryLock k => s.read k .code
  | .lock k => s.read k .unwinding
  | .set k => s.set k
  | .load k => s.load k
  | .store k g => s.store k g
  | .drop k => s.drop k

def Exclusive (s : Latched U V R) : Prop :=
  (∀ k, s.guards k ≤ 1) ∧ ∀ k k', 0 < s.guards k → 0 < s.guards k' → k = k'

def Current (s : Latched U V R) (value : U) : Prop :=
  s.latch.inner = s.updates.foldl (fun u g => g u) value

/-- A closure inside `try_lock` is about to set a flag that another has set since it read
it. -/
def Overtaken (s : Latched U V R) (a : Action U V R) : Prop :=
  ∃ k, a = .set k ∧ s.latch.locked = true

structure Inv (value : U) (s : Latched U V R) : Prop where
  exclusive : Exclusive s
  current : Current s value
  locked : s.latch.locked = true ↔ ∃ k, 0 < s.guards k
  loaded : ∀ k u, s.pc k = .loaded u → 0 < s.guards k ∧ u = s.latch.inner

section Steps

variable {bin : Bincode V} {value : U} {s s' : Latched U V R}

theorem Inv.init : Inv value (Latched.init value : Latched U V R) where
  exclusive := by simp [Latched.init, Exclusive]
  current := rfl
  locked := by simp [Latched.init, Latch.new]
  loaded := by simp [Latched.init]

theorem Inv.moved (h : Inv value s) (k : Runner) (x : Sys Unit V R) {pc : LatchPc U}
    (hpc : ∀ u, pc = .loaded u → 0 < s.guards k ∧ u = s.latch.inner) :
    Inv value { s with sys := x, pc := Function.update s.pc k pc } := by
  refine ⟨h.exclusive, h.current, h.locked, fun k' u hk' => ?_⟩
  by_cases hk : k' = k
  · subst hk
    exact hpc u (by simpa using hk')
  · exact h.loaded k' u (by simpa [Function.update_of_ne hk] using hk')

theorem Inv.sysStep (h : Inv value s) {a : TrustTee.Action Unit V R}
    (hs : s.sysStep bin a = some s') : Inv value s' := by
  have beside : ∀ x : Sys Unit V R, Inv value { s with sys := x } :=
    fun x => ⟨h.exclusive, h.current, h.locked, h.loaded⟩
  unfold Latched.sysStep at hs
  split at hs
  · split at hs
    · obtain ⟨x, _, rfl⟩ := Option.map_eq_some_iff.mp hs
      exact beside x
    · simp at hs
  · split at hs
    · obtain ⟨x, _, rfl⟩ := Option.map_eq_some_iff.mp hs
      exact beside x
    · rename_i k _
      split at hs
      · obtain ⟨x, _, rfl⟩ := Option.map_eq_some_iff.mp hs
        exact h.moved k x (by simp)
      · simp at hs

theorem Inv.read (h : Inv value s) {k : Runner} {refused : LatchPc U}
    (hr : ∀ u, refused ≠ .loaded u) (hs : s.read k refused = some s') : Inv value s' := by
  unfold Latched.read at hs
  split at hs
  · obtain rfl := Option.some.inj hs
    refine h.moved k s.sys (fun u hu => ?_)
    split at hu
    · exact absurd hu (hr u)
    · simp at hu
  · simp at hs

theorem Inv.load (h : Inv value s) {k : Runner} (hs : s.load k = some s') : Inv value s' := by
  unfold Latched.load at hs
  split at hs
  · split at hs
    · rename_i hg
      obtain rfl := Option.some.inj hs
      refine h.moved k s.sys (fun u hu => ?_)
      obtain rfl := LatchPc.loaded.inj hu
      exact ⟨hg, rfl⟩
    · simp at hs
  · simp at hs

/-- What is stored is an update of the current value: the guard has kept others out since
the load. -/
theorem Inv.store (h : Inv value s) {k : Runner} {g : U → U} (hs : s.store k g = some s') :
    Inv value s' := by
  unfold Latched.store at hs
  split at hs
  · rename_i u hu
    obtain rfl := Option.some.inj hs
    obtain ⟨hg, rfl⟩ := h.loaded k u hu
    refine ⟨h.exclusive, ?_, h.locked, fun k' u' hk' => ?_⟩
    · have hcur : s.latch.inner = s.updates.foldl (fun u g => g u) value := h.current
      simp [Current, hcur]
    · by_cases hk : k' = k
      · subst hk
        simp at hk'
      · simp only [Function.update_of_ne hk] at hk'
        exact absurd (h.exclusive.2 k' k (h.loaded k' u' hk').1 hg) hk
  · simp at hs

theorem Inv.drop (h : Inv value s) {k : Runner} (hs : s.drop k = some s') : Inv value s' := by
  have dropped : 0 < s.guards k → (∀ u, s.pc k ≠ .loaded u) →
      Inv value { s with latch := { s.latch with locked := false },
                         guards := Function.update s.guards k (s.guards k - 1) } := by
    intro hg hpc
    have hone := h.exclusive.1 k
    have hzero : ∀ k', Function.update s.guards k (s.guards k - 1) k' = 0 := by
      intro k'
      by_cases hk : k' = k
      · subst hk
        rw [Function.update_self]
        omega
      · rw [Function.update_of_ne hk]
        by_contra hne
        exact hk (h.exclusive.2 k' k (Nat.pos_of_ne_zero hne) hg)
    refine ⟨⟨fun k' => ?_, fun k' _ hk' => ?_⟩, h.current, ?_, fun k' u hk' => ?_⟩
    · exact Nat.le_trans (Nat.le_of_eq (hzero k')) (Nat.zero_le 1)
    · exact absurd (hzero k') (Nat.ne_of_gt hk')
    · simp [hzero]
    · have hk : k' ≠ k := by
        rintro rfl
        exact hpc u hk'
      exact absurd (h.exclusive.2 k' k (h.loaded k' u hk').1 hg) hk
  unfold Latched.drop at hs
  split at hs
  · rename_i hpc
    split at hs <;> simp only [Option.some.injEq, reduceCtorEq] at hs
    exact hs ▸ dropped ‹_› (by simp [hpc])
  · rename_i hpc
    split at hs <;> simp only [Option.some.injEq, reduceCtorEq] at hs
    exact hs ▸ dropped ‹_› (by simp [hpc])
  · simp at hs

theorem Inv.set (h : Inv value s) {k : Runner} (hclear : s.latch.locked = false)
    (hs : s.set k = some s') : Inv value s' := by
  unfold Latched.set at hs
  split at hs
  · obtain rfl := Option.some.inj hs
    have hzero : ∀ k', s.guards k' = 0 := by
      intro k'
      by_contra hne
      have := h.locked.mpr ⟨k', Nat.pos_of_ne_zero hne⟩
      simp [hclear] at this
    have hnone : ∀ k' u, s.pc k' ≠ .loaded u :=
      fun k' u hk' => absurd (hzero k') (Nat.ne_of_gt (h.loaded k' u hk').1)
    have hother : ∀ k', k' ≠ k → Function.update s.guards k (s.guards k + 1) k' = 0 :=
      fun k' hk => by rw [Function.update_of_ne hk, hzero]
    have hself : Function.update s.guards k (s.guards k + 1) k = 1 := by simp [hzero]
    refine ⟨⟨fun k' => ?_, fun k' k'' hk' hk'' => ?_⟩, h.current, ?_, fun k' u hk' => ?_⟩
    · by_cases hk : k' = k
      · subst hk
        exact Nat.le_of_eq hself
      · exact Nat.le_trans (Nat.le_of_eq (hother k' hk)) (Nat.zero_le 1)
    · have only : ∀ i, 0 < Function.update s.guards k (s.guards k + 1) i → i = k := by
        intro i hi
        by_contra hne
        exact absurd (hother i hne) (Nat.ne_of_gt hi)
      rw [only k' hk', only k'' hk'']
    · exact ⟨fun _ => ⟨k, Nat.lt_of_lt_of_eq Nat.one_pos hself.symm⟩, fun _ => rfl⟩
    · by_cases hk : k' = k
      · subst hk
        simp at hk'
      · exact absurd (by simpa [Function.update_of_ne hk] using hk') (hnone k' u)
  · simp at hs

/-- A second guard comes to exist beside the one the flag was set for. -/
theorem Inv.overtaken (h : Inv value s) {k : Runner} (hlocked : s.latch.locked = true)
    (hs : s.set k = some s') : ¬ Exclusive s' := by
  unfold Latched.set at hs
  split at hs
  · obtain rfl := Option.some.inj hs
    obtain ⟨k', hk'⟩ := h.locked.mp hlocked
    rintro ⟨hone, honly⟩
    have hself : 0 < Function.update s.guards k (s.guards k + 1) k := by simp
    by_cases hk : k' = k
    · subst hk
      have := hone k'
      simp only [Function.update_self] at this
      omega
    · have hother : 0 < Function.update s.guards k (s.guards k + 1) k' := by
        rw [Function.update_of_ne hk]
        exact hk'
      exact hk (honly k' k hother hself)
  · simp at hs

theorem Inv.step (h : Inv value s) {a : Action U V R} (ha : ¬ Overtaken s a)
    (hs : s.step bin a = some s') : Inv value s' := by
  cases a with
  | sys a => exact h.sysStep hs
  | tryLock k => exact h.read (by simp) hs
  | lock k => exact h.read (by simp) hs
  | set k =>
    refine h.set ?_ hs
    cases hl : s.latch.locked with
    | false => rfl
    | true => exact absurd ⟨k, rfl, hl⟩ ha
  | load k => exact h.load hs
  | store k g => exact h.store hs
  | drop k => exact h.drop hs

end Steps

end Latched

/-- In a run of any clients, closures and schedule, at most one guard exists at any time and
no update made under a guard is lost, exactly if no closure sets a flag that was set after
it had read it. -/
theorem latch_exclusive_iff {bin : Bincode V} {value : U}
    {l : List (Latched U V R × Latched.Action U V R)} {u : Latched U V R}
    (h : Machine.Trace (Latched.step bin) (Latched.init value) l u) :
    (∀ x ∈ Machine.visited l u, x.Exclusive ∧ x.Current value) ↔
      ∀ x ∈ l, ¬ x.1.Overtaken x.2 := by
  refine @Machine.Trace.exact _ _ _ _ _ _ (Latched.Inv value)
    (fun s => s.Exclusive ∧ s.Current value) (fun s a => ¬ s.Overtaken a) Latched.Inv.init
    (fun _ _ _ ht ha hs => ht.step ha hs) (fun _ ht => ⟨ht.exclusive, ht.current⟩) ?_ h
  rintro t a v ht ha hs ⟨hex, _⟩
  obtain ⟨k, rfl, hlocked⟩ := not_not.mp ha
  exact ht.overtaken hlocked hs hex

def twoLaunches : List (Latched.Action Nat UInt8 Nat) :=
  let script : List (Action Unit UInt8 Nat) :=
    [.register, .register, .issue 0 (.launch (fun t => (t, .returned 0))), .client 0, .client 0,
      .issue 1 (.launch (fun t => (t, .returned 0))), .client 1, .client 1] ++
      List.replicate 15 .trustee ++ [.fiber 0, .fiber 1]
  script.map .sys

def inTurn : List (Latched.Action Nat UInt8 Nat) :=
  twoLaunches ++ [0, 1].flatMap (fun j => [.tryLock (.fiber j), .set (.fiber j),
    .load (.fiber j), .store (.fiber j) (· + 1), .drop (.fiber j)])

def bothCheck : List (Latched.Action Nat UInt8 Nat) :=
  twoLaunches ++ [.tryLock (.fiber 0), .tryLock (.fiber 1), .set (.fiber 0), .set (.fiber 1)]

theorem latch_exclusive_iff_inTurn :
    ∃ u, Machine.run (Latched.step byteBincode) (Latched.init 5) inTurn = some u ∧
      u.latch = ⟨false, 7⟩ ∧
      ((∀ x ∈ Machine.visited (Machine.trail (Latched.step byteBincode) (Latched.init 5) inTurn)
        u, x.Exclusive ∧ x.Current 5) ↔
        ∀ x ∈ Machine.trail (Latched.step byteBincode) (Latched.init 5) inTurn,
          ¬ x.1.Overtaken x.2) := by
  obtain ⟨u, hrun, hlatch⟩ :
      ∃ u, Machine.run (Latched.step byteBincode) (Latched.init 5) inTurn = some u ∧
        u.latch = ⟨false, 7⟩ := ⟨_, rfl, rfl⟩
  exact ⟨u, hrun, hlatch, latch_exclusive_iff (Machine.run_trail hrun)⟩

/-- Two guards on one latch. -/
theorem both_check_both_lock :
    ¬ ∀ s : Latched Nat UInt8 Nat, Machine.Reach (Latched.step byteBincode) (fun _ _ => True)
      (Latched.init 5) s → s.Exclusive := by
  intro h
  obtain ⟨s, hrun, h₀, h₁⟩ :
      ∃ s, Machine.run (Latched.step byteBincode) (Latched.init 5) bothCheck = some s ∧
        s.guards (.fiber 0) = 1 ∧ s.guards (.fiber 1) = 1 := ⟨_, rfl, rfl, rfl⟩
  have hreach := (Machine.run_reach hrun).weaken (fun _ _ _ => trivial)
  have := (h s hreach).2 (.fiber 0) (.fiber 1) (by rw [h₀]; exact Nat.one_pos)
    (by rw [h₁]; exact Nat.one_pos)
  simp at this

end TrustTee
