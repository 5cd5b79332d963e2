import TrustTee.Frames

/-!
The handles of one runtime and what keeps its worker alive: `_owner` is the `Runtime` value
with the worker, a clone of it without one, or absent.
-/

set_option autoImplicit false

namespace TrustTee

variable {T V R : Type}

def TrusteePc.runsClosure : TrusteePc T R → Bool
  | .inClosure .. => true
  | _ => false

theorem Sys.runsClosure_alive {s : Sys T V R} (h : s.pc.runsClosure = true) :
    s.exited = false := by
  unfold Sys.exited
  cases hpc : s.pc with
  | exited cause => simp [hpc, TrusteePc.runsClosure] at h
  | _ => rfl

theorem Sys.trusteeStep_alive {s s' : Sys T V R} (h : s.trusteeStep = some s') :
    s.exited = false := by
  unfold Sys.exited
  cases hpc : s.pc with
  | exited cause => simp [Sys.trusteeStep, hpc] at h
  | _ => rfl

theorem Sys.step_alive {bin : Bincode V} {s s' : Sys T V R} {a : Action T V R}
    (hs : s.step bin a = some s') (h : s'.exited = false) : s.exited = false := by
  by_cases ha : a = .trustee
  · subst ha
    exact Sys.trusteeStep_alive hs
  · exact (Sys.exited_aside hs ha).symm.trans h

def FiberPc.runsClosure : FiberPc T R → Bool
  | .running .. => true
  | _ => false

/-- The `_owner` of a handle. -/
inductive Owner where
  | absent | spare | real
  deriving DecidableEq, Repr

/-- The handle of such a client still exists. The channel over which `Runtime::drop` sends
its request belongs to no handle. -/
def ClientPc.held : ClientPc T V R → Bool
  | .gone | .owning _ => false
  | .encoded .terminate | .loaded .terminate _ | .waiting .terminate _
  | .reading .terminate => false
  | _ => true

def Sys.live (s : Sys T V R) (c : Nat) : Bool :=
  decide (c < s.created) && (s.client c).pc.held

/-- A runtime with the owners of its handles, and the `Runtime` values in the hands of the
user: the one with the worker, and the number of its clones. -/
structure Population (T V R : Type) where
  sys : Sys T V R
  owner : Nat → Owner
  runtime : Bool
  spares : Nat

inductive Deed (T V R : Type) where
  | cloneHandle (c : Nat) : Deed T V R
  | dropHandle (c : Nat) : Deed T V R
  | intoInner (c : Nat) : Deed T V R
  | call (c : Nat) (op : Op T V R) : Deed T V R
  | client (c : Nat) : Deed T V R
  | dropValue (c : Nat) : Deed T V R
  | entrust : Deed T V R
  | cloneRuntime : Deed T V R
  | dropSpare : Deed T V R
  | dropRuntime : Deed T V R
  | trustee : Deed T V R
  | fiber (j : Nat) : Deed T V R

def Sys.sendTerminate (bin : Bincode V) (s : Sys T V R) : Option (Sys T V R) :=
  s.register.issue bin s.created .terminate

namespace Population

def entrusted (value : T) : Population T V R :=
  ⟨(Sys.init value).register, Function.update (fun _ => .absent) 0 .real, false, 0⟩

def spawned (value : T) : Population T V R :=
  ⟨(Sys.init value).register, Function.update (fun _ => .absent) 0 .spare, true, 0⟩

def add (s : Population T V R) (o : Owner) : Population T V R :=
  { s with sys := s.sys.register, owner := Function.update s.owner s.sys.created o }

/-- The handle shares the `Runtime` with the worker, and no other live handle does. -/
def LastOwner (s : Population T V R) (c : Nat) : Prop :=
  s.owner c = .real ∧ ∀ c' < s.sys.created, c' ≠ c → s.sys.live c' = true → s.owner c' ≠ .real

instance (s : Population T V R) (c : Nat) : Decidable (s.LastOwner c) :=
  inferInstanceAs (Decidable (_ ∧ _))

/-- The handle of client `c` is gone: if it was the last that shared the runtime value,
that one is dropped. -/
def release (bin : Bincode V) (s : Population T V R) (c : Nat) : Option (Population T V R) :=
  if s.LastOwner c then do
    let x ← s.sys.sendTerminate bin
    some { s with sys := x }
  else some s

def step (bin : Bincode V) (s : Population T V R) : Deed T V R → Option (Population T V R)
  | .cloneHandle c =>
    match (s.sys.client c).pc with
    | .idle => if c < s.sys.created then some (s.add (s.owner c)) else none
    | _ => none
  | .dropHandle c => do
    let x ← s.sys.dropHandle c
    release bin { s with sys := x } c
  | .intoInner c =>
    -- without an owner the assertion fails, and the panic drops the handle
    if s.owner c = .absent then do
      let x ← s.sys.dropHandle c
      some { s with sys := x }
    else do
      let x ← s.sys.issue bin c .intoInner
      some { s with sys := x }
  | .call c op =>
    match op with
    | .intoInner | .terminate => none
    | op => do
      let x ← s.sys.issue bin c op
      some { s with sys := x }
  | .client c => do
    let x ← s.sys.clientStep c
    match (x.client c).pc with
    | .owning _ => release bin { s with sys := x } c
    | _ => some { s with sys := x }
  | .dropValue c => do
    let x ← s.sys.dropValue c
    some { s with sys := x }
  | .entrust => if s.runtime = true ∨ 0 < s.spares then some (s.add .absent) else none
  | .cloneRuntime =>
    if s.runtime = true ∨ 0 < s.spares then some { s with spares := s.spares + 1 } else none
  | .dropSpare => if 0 < s.spares then some { s with spares := s.spares - 1 } else none
  | .dropRuntime =>
    if s.runtime = true then do
      let x ← s.sys.sendTerminate bin
      some { s with sys := x, runtime := false }
    else none
  | .trustee => do
    let x ← s.sys.trusteeStep
    some { s with sys := x }
  | .fiber j => do
    let x ← s.sys.fiberStep j
    some { s with sys := x }

def drops (s : Population T V R) : Deed T V R → Bool
  | .dropHandle c => decide (s.LastOwner c)
  | .dropRuntime => true
  | _ => false

section Steps

variable {bin : Bincode V} {s s' : Population T V R}

theorem sendTerminate_keeps {x y : Sys T V R} {P : Sys T V R → Prop}
    (keep : ∀ x b y, b ≠ .trustee → P x → x.step bin b = some y → P y) (hp : P x)
    (h : x.sendTerminate bin = some y) : P y := by
  have hreg : P x.register := keep x .register _ (by simp) hp rfl
  exact keep x.register (.issue x.created .terminate) y (by simp) hreg h

theorem release_keeps {c : Nat} {P : Sys T V R → Prop}
    (keep : ∀ x b y, b ≠ .trustee → P x → x.step bin b = some y → P y) (hp : P s.sys)
    (h : s.release bin c = some s') : P s'.sys := by
  unfold release at h
  split at h
  · obtain ⟨x, hx, h⟩ := Option.bind_eq_some_iff.mp h
    obtain rfl := Option.some.inj h
    exact sendTerminate_keeps keep hp hx
  · obtain rfl := Option.some.inj h
    exact hp

/-- A deed is a few steps of the runtime, and what these keep it keeps. -/
theorem step_keeps {a : Deed T V R} (ha : a ≠ .trustee) {P : Sys T V R → Prop}
    (keep : ∀ x b y, b ≠ .trustee → P x → x.step bin b = some y → P y) (hp : P s.sys)
    (h : s.step bin a = some s') : P s'.sys := by
  cases a with
  | trustee => exact absurd rfl ha
  | cloneHandle c =>
    simp only [step] at h
    split at h
    · split at h <;> simp only [Option.some.injEq, reduceCtorEq] at h
      subst h
      exact keep _ .register _ (by simp) hp rfl
    · simp at h
  | dropHandle c =>
    obtain ⟨x, hx, h⟩ := Option.bind_eq_some_iff.mp h
    exact release_keeps keep (keep _ (.dropHandle c) x (by simp) hp hx) h
  | intoInner c =>
    simp only [step] at h
    split at h
    · obtain ⟨x, hx, h⟩ := Option.bind_eq_some_iff.mp h
      obtain rfl := Option.some.inj h
      exact keep _ (.dropHandle c) _ (by simp) hp hx
    · obtain ⟨x, hx, h⟩ := Option.bind_eq_some_iff.mp h
      obtain rfl := Option.some.inj h
      exact keep _ (.issue c .intoInner) _ (by simp) hp hx
  | call c op =>
    simp only [step] at h
    split at h
    · simp at h
    · simp at h
    · obtain ⟨x, hx, h⟩ := Option.bind_eq_some_iff.mp h
      obtain rfl := Option.some.inj h
      exact keep _ (.issue c op) _ (by simp) hp hx
  | client c =>
    obtain ⟨x, hx, h⟩ := Option.bind_eq_some_iff.mp h
    have hpx : P x := keep _ (.client c) _ (by simp) hp hx
    split at h
    · exact release_keeps (s := { s with sys := x }) keep hpx h
    · obtain rfl := Option.some.inj h
      exact hpx
  | dropValue c =>
    obtain ⟨x, hx, h⟩ := Option.bind_eq_some_iff.mp h
    obtain rfl := Option.some.inj h
    exact keep _ (.dropValue c) _ (by simp) hp hx
  | entrust =>
    simp only [step] at h
    split at h <;> simp only [Option.some.injEq, reduceCtorEq] at h
    subst h
    exact keep _ .register _ (by simp) hp rfl
  | cloneRuntime | dropSpare =>
    simp only [step] at h
    split at h <;> simp only [Option.some.injEq, reduceCtorEq] at h
    subst h
    exact hp
  | dropRuntime =>
    simp only [step] at h
    split at h
    · obtain ⟨x, hx, h⟩ := Option.bind_eq_some_iff.mp h
      obtain rfl := Option.some.inj h
      exact sendTerminate_keeps keep hp hx
    · simp at h
  | fiber j =>
    obtain ⟨x, hx, h⟩ := Option.bind_eq_some_iff.mp h
    obtain rfl := Option.some.inj h
    exact keep _ (.fiber j) _ (by simp) hp hx

theorem step_pc {a : Deed T V R} (ha : a ≠ .trustee) (h : s.step bin a = some s') :
    s'.sys.pc = s.sys.pc :=
  step_keeps (P := fun x => x.pc = s.sys.pc) ha
    (fun _ _ _ hb hp hs => (Sys.step_aside hs hb).1.trans hp) rfl h

end Steps

end Population

end TrustTee
