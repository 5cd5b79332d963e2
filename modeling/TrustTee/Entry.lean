import Mathlib.Logic.Basic

set_option autoImplicit false

namespace TrustTee

/-- What the first lines of an operation read. Thread ids start at 1, so an id of 0 means
that no trustee has published one. -/
structure Entering where
  threadId : Nat
  trusteeId : Nat
  trusteeProp : Bool
  isTrusteeThread : Bool
  owned : Bool
  deriving DecidableEq, Repr

inductive Entry where
  | shortcut : Entry
  | publish : Entry
  | panic (msg : String) : Entry
  deriving DecidableEq, Repr

def blockingProhibited : String :=
  "Blocking delegation is prohibited on trustee thread. Use `apply_then` or `launch` instead."

def Entering.onTrustee (e : Entering) : Prop :=
  e.trusteeId ≠ 0 ∧ e.trusteeId = e.threadId ∧ e.trusteeProp = true

instance (e : Entering) : Decidable e.onTrustee := inferInstanceAs (Decidable (_ ∧ _))

def Entering.local_ (e : Entering) (rest : Entry) : Entry :=
  if e.onTrustee then .shortcut else rest

def Entering.guarded (e : Entering) (rest : Entry) : Entry :=
  if e.isTrusteeThread = true then .panic blockingProhibited else rest

namespace Entry

def apply (e : Entering) : Entry := e.local_ (e.guarded .publish)

def applyThen (e : Entering) : Entry := apply e

def applyWith (e : Entering) : Entry := e.local_ (e.guarded .publish)

/-- `with` has the shortcut but not the guard. -/
def with_ (e : Entering) : Entry := e.local_ .publish

def applyBatchMut (e : Entering) : Entry := e.local_ (e.guarded .publish)

def intoInner (e : Entering) : Entry :=
  e.guarded (if e.owned = true then .publish
    else .panic "Remote::into_inner requires owned runtime")

def launch (_ : Entering) : Entry := .publish

def launchThen (e : Entering) : Entry := launch e

end Entry

end TrustTee
