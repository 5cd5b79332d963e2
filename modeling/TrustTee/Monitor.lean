import Mathlib.Logic.Function.Basic

/-!
A value behind a mutex with a poison flag, and a condition variable that goes with it. Threads
asleep on the condition variable may wake up for no reason.
-/

set_option autoImplicit false

structure Monitor (σ : Type) where
  value : σ
  owner : Option Nat
  poisoned : Bool
  asleep : Nat → Bool

namespace Monitor

variable {σ : Type}

def new (v : σ) : Monitor σ := ⟨v, none, false, fun _ => false⟩

def acquire (m : Monitor σ) (i : Nat) : Option (Monitor σ) :=
  if m.owner = none then some { m with owner := some i } else none

def release (m : Monitor σ) : Monitor σ := { m with owner := none }

def unwind (m : Monitor σ) : Monitor σ := { m with owner := none, poisoned := true }

/-- The mutex is released and the thread falls asleep, in one step. -/
def sleep (m : Monitor σ) (i : Nat) : Monitor σ :=
  { m with owner := none, asleep := Function.update m.asleep i true }

def wakeAll (m : Monitor σ) : Monitor σ := { m with asleep := fun _ => false }

/-- A thread wakes up for no reason. -/
def rouse (m : Monitor σ) (i : Nat) : Monitor σ :=
  { m with asleep := Function.update m.asleep i false }

def write (m : Monitor σ) (v : σ) : Monitor σ := { m with value := v }

theorem acquire_eq {m m' : Monitor σ} {i : Nat} (h : m.acquire i = some m') :
    m.owner = none ∧ m' = { m with owner := some i } := by
  unfold acquire at h
  split at h <;> simp only [Option.some.injEq, reduceCtorEq] at h
  exact ⟨‹_›, h.symm⟩

end Monitor
