import TrustTee.Entry
import TrustTee.Handles

/-!
Any number of runtimes beside each other, and code that calls their operations and makes and
drops their handles: ordinary threads, closures that a trustee loop or a launched fiber is
running, and destructors.
-/

set_option autoImplicit false

namespace TrustTee

variable {T V R : Type}

/-- The operations of the trait `TrustLike`, with their arguments. The continuation of
`apply_then` and `launch_then` is code of the caller. -/
inductive TrustLike (T V R : Type) where
  | apply (f : Body T R) : TrustLike T V R
  | applyThen (f : Body T R) : TrustLike T V R
  | applyWith (f : V → Body T R) (w : V) : TrustLike T V R
  | with_ (f : Body T R) : TrustLike T V R
  | applyBatchMut (f : Body T Unit) (n : UInt8) : TrustLike T V R
  | launch (f : Body T R) : TrustLike T V R
  | launchThen (f : Body T R) : TrustLike T V R
  | intoInner : TrustLike T V R

namespace TrustLike

def entry (e : Entering) : TrustLike T V R → Entry
  | .apply _ => Entry.apply e
  | .applyThen _ => Entry.applyThen e
  | .applyWith _ _ => Entry.applyWith e
  | .with_ _ => Entry.with_ e
  | .applyBatchMut _ _ => Entry.applyBatchMut e
  | .launch _ => Entry.launch e
  | .launchThen _ => Entry.launchThen e
  | .intoInner => Entry.intoInner e

def op : TrustLike T V R → Op T V R
  | .apply f | .applyThen f => .apply f
  | .applyWith f w => .applyWith f w
  | .with_ f => .with_ f
  | .applyBatchMut f n => .applyBatchMut f n
  | .launch f | .launchThen f => .launch f
  | .intoInner => .intoInner

/-- The closure that the shortcut calls itself, and how often; `none` for an operation
that has no shortcut. -/
def direct : TrustLike T V R → Option (Body T (Option R) × Nat)
  | .apply f | .applyThen f | .with_ f => some (f.lift some, 1)
  | .applyWith f w => some ((f w).lift some, 1)
  | .applyBatchMut f n => some (f.lift (fun _ => none), n.toNat)
  | _ => none

/-- An operation takes the shortcut exactly if it has one and is on the trustee's thread. -/
theorem entry_shortcut (m : TrustLike T V R) (e : Entering) :
    m.entry e = .shortcut ↔ m.direct.isSome = true ∧ e.onTrustee := by
  have guarded : ∀ rest, rest ≠ .shortcut → e.guarded rest ≠ .shortcut := by
    intro rest hr
    unfold Entering.guarded
    split
    · simp
    · exact hr
  have local_ : ∀ rest, rest ≠ .shortcut → (e.local_ rest = .shortcut ↔ e.onTrustee) := by
    intro rest hr
    unfold Entering.local_
    split <;> simp_all
  cases m with
  | launch f => simp [entry, direct, Entry.launch]
  | launchThen f => simp [entry, direct, Entry.launchThen, Entry.launch]
  | intoInner =>
    have h : (if e.owned = true then Entry.publish
        else .panic "Remote::into_inner requires owned runtime") ≠ .shortcut := by
      split <;> simp
    simpa [entry, direct, Entry.intoInner] using guarded _ h
  | with_ f => simpa [entry, direct, Entry.with_] using local_ .publish (by simp)
  | _ =>
    simpa [entry, direct, Entry.apply, Entry.applyThen, Entry.applyWith, Entry.applyBatchMut]
      using local_ _ (guarded .publish (by simp))

end TrustLike

/-- A thread of control: a runtime's trustee loop, the fiber of one of its launch jobs,
or anything else. -/
inductive Task where
  | trustee (r : Nat) : Task
  | fiber (r j : Nat) : Task
  | other (i : Nat) : Task
  deriving DecidableEq, Repr

/-- A call that a task is inside of: it waits on channel `c` of runtime `r`, for an answer or
in the join of a `Runtime::drop`, or it runs a closure on the property of `r` itself, with
`left` calls to go. -/
inductive Frame (T R : Type) where
  | waiting (r c : Nat) : Frame T R
  | direct (r : Nat) (f : Body T (Option R)) (left : Nat) : Frame T R

inductive Phase where
  | spawned | marked | identified | running | ended
  deriving DecidableEq, Repr

/-- All runtimes with what they have published, the thread-local flag of each thread, and
for each task the thread it is on, whether it runs the destructor of its runtime's property,
and the calls it is inside of, innermost first. `calls` is a ghost: how each call so far went
on. -/
structure World (T V R : Type) where
  rt : Nat → Population T V R
  phase : Nat → Phase
  trusteeId : Nat → Nat
  trusteeProp : Nat → Bool
  isTrustee : Nat → Bool
  seat : Task → Option Nat
  destroying : Task → Bool
  stack : Task → List (Frame T R)
  calls : List (Task × Entry)

/-- What the tasks do. A deed is anything that code does with a handle or a `Runtime` besides
calling an operation. -/
inductive Act (T V R : Type) where
  | start (r : Nat) : Act T V R
  | trustee (r : Nat) : Act T V R
  | fiber (r j : Nat) : Act T V R
  | call (k : Task) (m : TrustLike T V R) (r c : Nat) : Act T V R
  | deed (k : Task) (r : Nat) (a : Deed T V R) : Act T V R
  | wait (k : Task) : Act T V R
  | ret (k : Task) : Act T V R

def Deed.byCode : Deed T V R → Bool
  | .cloneHandle _ | .dropHandle _ | .dropValue _ | .entrust | .cloneRuntime | .dropSpare
  | .dropRuntime => true
  | .intoInner _ | .call _ _ | .client _ | .trustee | .fiber _ => false

def TrustLike.deed (m : TrustLike T V R) (c : Nat) : Deed T V R :=
  match m with
  | .intoInner => .intoInner c
  | m => .call c m.op

theorem TrustLike.deed_ne (m : TrustLike T V R) (c : Nat) : m.deed c ≠ .trustee := by
  cases m <;> simp [TrustLike.deed]

def TrustLike.consumes : TrustLike T V R → Bool
  | .intoInner => true
  | _ => false

namespace World

def init (value : Nat → T) (entrusted : Nat → Bool) (seat : Task → Option Nat) :
    World T V R where
  rt := fun r => if entrusted r then .entrusted (value r) else .spawned (value r)
  phase := fun _ => .spawned
  trusteeId := fun _ => 0
  trusteeProp := fun _ => false
  isTrustee := fun _ => false
  seat := seat
  destroying := fun _ => false
  stack := fun _ => []
  calls := []

def setRt (s : World T V R) (r : Nat) (p : Population T V R) : World T V R :=
  { s with rt := Function.update s.rt r p }

def setStack (s : World T V R) (k : Task) (fs : List (Frame T R)) : World T V R :=
  { s with stack := Function.update s.stack k fs }

def setDestroying (s : World T V R) (k : Task) (b : Bool) : World T V R :=
  { s with destroying := Function.update s.destroying k b }

def log (s : World T V R) (k : Task) (e : Entry) : World T V R :=
  { s with calls := s.calls ++ [(k, e)] }

/-- The trustee is inside a closure of its loop, or in the destructor of its property, which
it runs behind the loop while it drops its locals. -/
def atWork (s : World T V R) (r : Nat) : Bool :=
  (s.rt r).sys.pc.runsClosure || s.destroying (.trustee r)

def inCode (s : World T V R) (k : Task) : Bool :=
  match s.stack k, k with
  | .waiting _ _ :: _, _ => false
  | .direct _ _ _ :: _, _ => true
  | [], .trustee r => s.atWork r
  | [], .fiber r j => ((s.rt r).sys.fiber j).runsClosure || s.destroying (.fiber r j)
  | [], .other _ => true

def start (s : World T V R) (r : Nat) : Option (World T V R) :=
  match s.seat (.trustee r), s.phase r with
  | some t, .spawned =>
    some { s with isTrustee := Function.update s.isTrustee t true,
                  phase := Function.update s.phase r .marked }
  | some t, .marked =>
    some { s with trusteeId := Function.update s.trusteeId r t,
                  phase := Function.update s.phase r .identified }
  | some _, .identified =>
    some { s with trusteeProp := Function.update s.trusteeProp r true,
                  phase := Function.update s.phase r .running }
  | _, _ => none

def finish (s : World T V R) (r t : Nat) : World T V R :=
  { s with isTrustee := Function.update s.isTrustee t false,
           phase := Function.update s.phase r .ended }

/-- A step of worker `r`, when the calls of the code it runs are over. The last `Arc` of the
property is dropped with the worker's locals or by a fiber, and with it `T`. -/
def trustee (s : World T V R) (r : Nat) : Option (World T V R) :=
  match s.seat (.trustee r), s.phase r, s.stack (.trustee r) with
  | some t, .running, [] =>
    if s.destroying (.trustee r) = true then
      some ((s.setDestroying (.trustee r) false).finish r t)
    else do
      let x ← (s.rt r).sys.trusteeStep
      let s' := s.setRt r { s.rt r with sys := x }
      if x.exited = true then
        if x.strong = 0 then some (s'.setDestroying (.trustee r) true) else some (s'.finish r t)
      else some s'
  | _, _, _ => none

def fiber (s : World T V R) (r j : Nat) : Option (World T V R) :=
  match s.seat (.fiber r j), s.stack (.fiber r j) with
  | some _, [] =>
    if s.destroying (.fiber r j) = true then some (s.setDestroying (.fiber r j) false)
    else do
      let x ← (s.rt r).sys.fiberStep j
      let s' := s.setRt r { s.rt r with sys := x }
      if (s.rt r).sys.strong ≠ 0 ∧ x.strong = 0 then some (s'.setDestroying (.fiber r j) true)
      else some s'
  | _, _ => none

def entering (s : World T V R) (t r c : Nat) : Entering :=
  ⟨t, s.trusteeId r, s.trusteeProp r, s.isTrustee t, decide ((s.rt r).owner c ≠ .absent)⟩

def busy (s : World T V R) (r c : Nat) : Bool :=
  match ((s.rt r).sys.client c).pc with
  | .idle => !decide (c < (s.rt r).sys.created)
  | _ => true

/-- A deed of task `k` on runtime `r`. If it drops the `Runtime` with the worker, the task has
sent the request to terminate over a new channel, and joins the worker. -/
def deed (bin : Bincode V) (s : World T V R) (k : Task) (r : Nat) (a : Deed T V R) :
    Option (World T V R) := do
  let p ← (s.rt r).step bin a
  let s' := s.setRt r p
  if (s.rt r).drops a = true then
    some (s'.setStack k (.waiting r (s.rt r).sys.created :: s.stack k))
  else some s'

/-- Task `k` calls `m` on client `c` of runtime `r`. A panic at the entry drops the handle of
an operation that has taken it. -/
def call (bin : Bincode V) (s : World T V R) (k : Task) (m : TrustLike T V R) (r c : Nat) :
    Option (World T V R) :=
  match s.seat k with
  | none => none
  | some t =>
    if s.inCode k = true ∧ s.busy r c = false then
      match m.entry (s.entering t r c) with
      | .shortcut =>
        match m.direct with
        | some (f, n + 1) =>
          some ((s.setStack k (.direct r f (n + 1) :: s.stack k)).log k .shortcut)
        | _ => some (s.log k .shortcut)
      | .panic msg =>
        if m.consumes = true then (s.deed bin k r (.dropHandle c)).map (·.log k (.panic msg))
        else some (s.log k (.panic msg))
      | .publish =>
        match (s.rt r).step bin (m.deed c) with
        | some p =>
          some (((s.setRt r p).setStack k (.waiting r c :: s.stack k)).log k .publish)
        | none => some (s.log k (.panic "bincode serialize"))
    else none

/-- The next step of what a task waits for. An operation returns when the client is through;
`into_inner` drops its handle then. A join returns when the worker's coroutine has ended. -/
def wait (bin : Bincode V) (s : World T V R) (k : Task) : Option (World T V R) :=
  match s.seat k, s.stack k with
  | some _, .waiting r c :: rest =>
    match ((s.rt r).sys.client c).pc with
    | .waiting .terminate _ => if s.phase r = .ended then some (s.setStack k rest) else none
    | _ => do
      let p ← (s.rt r).step bin (.client c)
      let s' := s.setRt r p
      match (p.sys.client c).pc with
      | .idle => some (s'.setStack k rest)
      | .owning _ =>
        if (s.rt r).LastOwner c then
          some (s'.setStack k (.waiting r (s.rt r).sys.created :: rest))
        else some (s'.setStack k rest)
      | _ => some s'
  | _, _ => none

def ret (s : World T V R) (k : Task) : Option (World T V R) :=
  match s.seat k, s.stack k with
  | some _, .direct r f left :: rest =>
    let p := s.rt r
    let out := f p.sys.prop
    let s' := s.setRt r { p with sys := { p.sys with prop := out.1 } }
    match out.2 with
    | .returned _ =>
      some (s'.setStack k (if left ≤ 1 then rest else .direct r f (left - 1) :: rest))
    | .panicked => some (s'.setStack k rest)
  | _, _ => none

def step (bin : Bincode V) (s : World T V R) : Act T V R → Option (World T V R)
  | .start r => s.start r
  | .trustee r => s.trustee r
  | .fiber r j => s.fiber r j
  | .call k m r c => s.call bin k m r c
  | .deed k r a =>
    match s.seat k with
    | some _ => if s.inCode k = true ∧ a.byCode = true then s.deed bin k r a else none
    | none => none
  | .wait k => s.wait bin k
  | .ret k => s.ret k

section Cases

variable {bin : Bincode V} {s s' : World T V R} {k : Task} {r : Nat}

theorem start_cases (h : s.start r = some s') :
    ∃ t, s.seat (.trustee r) = some t ∧
      ((s.phase r = .spawned ∧ s' = { s with
          isTrustee := Function.update s.isTrustee t true,
          phase := Function.update s.phase r .marked }) ∨
       (s.phase r = .marked ∧ s' = { s with
          trusteeId := Function.update s.trusteeId r t,
          phase := Function.update s.phase r .identified }) ∨
       (s.phase r = .identified ∧ s' = { s with
          trusteeProp := Function.update s.trusteeProp r true,
          phase := Function.update s.phase r .running })) := by
  simp only [start] at h
  split at h
  case h_4 => simp at h
  all_goals
    obtain rfl := Option.some.inj h
    simp_all

/-- A worker's step: it leaves the destructor of its property, goes on in its loop, or ends
there, by way of the destructor or not. -/
theorem trustee_cases (h : s.trustee r = some s') :
    ∃ t, s.seat (.trustee r) = some t ∧ s.phase r = .running ∧ s.stack (.trustee r) = [] ∧
      ((s.destroying (.trustee r) = true ∧
          s' = (s.setDestroying (.trustee r) false).finish r t) ∨
       (s.destroying (.trustee r) = false ∧ ∃ x, (s.rt r).sys.trusteeStep = some x ∧
          ((x.exited = false ∧ s' = s.setRt r { s.rt r with sys := x }) ∨
           (x.exited = true ∧ x.strong = 0 ∧
             s' = (s.setRt r { s.rt r with sys := x }).setDestroying (.trustee r) true) ∨
           (x.exited = true ∧ s' = (s.setRt r { s.rt r with sys := x }).finish r t)))) := by
  unfold trustee at h
  split at h
  · rename_i t hseat hphase hstack
    refine ⟨t, hseat, hphase, hstack, ?_⟩
    split at h
    · rename_i hd
      exact .inl ⟨hd, (Option.some.inj h).symm⟩
    · rename_i hd
      obtain ⟨x, hx, h⟩ := Option.bind_eq_some_iff.mp h
      refine .inr ⟨by simpa using hd, x, hx, ?_⟩
      dsimp only at h
      split at h
      · rename_i hex
        split at h <;> obtain rfl := Option.some.inj h
        · exact .inr (.inl ⟨hex, ‹_›, rfl⟩)
        · exact .inr (.inr ⟨hex, rfl⟩)
      · rename_i hex
        exact .inl ⟨by simpa using hex, (Option.some.inj h).symm⟩
  · simp at h

theorem fiber_cases {j : Nat} (h : s.fiber r j = some s') :
    s.stack (.fiber r j) = [] ∧
      ((s.destroying (.fiber r j) = true ∧ s' = s.setDestroying (.fiber r j) false) ∨
       ∃ x, (s.rt r).sys.fiberStep j = some x ∧
         (s' = s.setRt r { s.rt r with sys := x } ∨
          s' = (s.setRt r { s.rt r with sys := x }).setDestroying (.fiber r j) true)) := by
  unfold fiber at h
  split at h
  · rename_i hseat hstack
    refine ⟨hstack, ?_⟩
    split at h
    · rename_i hd
      exact .inl ⟨hd, (Option.some.inj h).symm⟩
    · obtain ⟨x, hx, h⟩ := Option.bind_eq_some_iff.mp h
      dsimp only at h
      split at h <;> obtain rfl := Option.some.inj h
      · exact .inr ⟨x, hx, .inr rfl⟩
      · exact .inr ⟨x, hx, .inl rfl⟩
  · simp at h

theorem deed_cases {a : Deed T V R} (h : s.deed bin k r a = some s') :
    ∃ p, (s.rt r).step bin a = some p ∧
      (((s.rt r).drops a = true ∧
          s' = (s.setRt r p).setStack k (.waiting r (s.rt r).sys.created :: s.stack k)) ∨
       ((s.rt r).drops a = false ∧ s' = s.setRt r p)) := by
  obtain ⟨p, hp, h⟩ := Option.bind_eq_some_iff.mp h
  refine ⟨p, hp, ?_⟩
  dsimp only at h
  split at h
  · rename_i hd
    exact .inl ⟨hd, (Option.some.inj h).symm⟩
  · rename_i hd
    exact .inr ⟨by simpa using hd, (Option.some.inj h).symm⟩

theorem call_cases {m : TrustLike T V R} {c : Nat} (h : s.call bin k m r c = some s') :
    ∃ t, s.seat k = some t ∧ s.inCode k = true ∧ s.busy r c = false ∧
      ((m.entry (s.entering t r c) = .shortcut ∧ (s' = s.log k .shortcut ∨
          ∃ f n, m.direct = some (f, n) ∧
            s' = (s.setStack k (.direct r f n :: s.stack k)).log k .shortcut)) ∨
       (∃ msg, m.entry (s.entering t r c) = .panic msg ∧
          ((m.consumes = true ∧ ∃ w, s.deed bin k r (.dropHandle c) = some w ∧
              s' = w.log k (.panic msg)) ∨
           (m.consumes = false ∧ s' = s.log k (.panic msg)))) ∨
       (m.entry (s.entering t r c) = .publish ∧
          ((∃ p, (s.rt r).step bin (m.deed c) = some p ∧
            s' = ((s.setRt r p).setStack k (.waiting r c :: s.stack k)).log k .publish) ∨
           ((s.rt r).step bin (m.deed c) = none ∧
            s' = s.log k (.panic "bincode serialize"))))) := by
  unfold call at h
  split at h
  · simp at h
  · rename_i t hseat
    split at h
    · rename_i hc
      refine ⟨t, hseat, hc.1, hc.2, ?_⟩
      split at h
      · rename_i he
        refine .inl ⟨he, ?_⟩
        split at h <;> obtain rfl := Option.some.inj h
        · exact .inr ⟨_, _, ‹_›, rfl⟩
        · exact .inl rfl
      · rename_i msg he
        refine .inr (.inl ⟨msg, he, ?_⟩)
        split at h
        · rename_i hm
          obtain ⟨w, hw, rfl⟩ := Option.map_eq_some_iff.mp h
          exact .inl ⟨hm, w, hw, rfl⟩
        · rename_i hm
          exact .inr ⟨by simpa using hm, (Option.some.inj h).symm⟩
      · rename_i he
        refine .inr (.inr ⟨he, ?_⟩)
        split at h <;> obtain rfl := Option.some.inj h
        · exact .inl ⟨_, ‹_›, rfl⟩
        · exact .inr ⟨‹_›, rfl⟩
    · simp at h

theorem wait_cases (h : s.wait bin k = some s') :
    ∃ r c rest, s.stack k = .waiting r c :: rest ∧
      (s' = s.setStack k rest ∨
       ∃ p, (s.rt r).step bin (.client c) = some p ∧
        (s' = s.setRt r p ∨ s' = (s.setRt r p).setStack k rest ∨
          ∃ d, s' = (s.setRt r p).setStack k (.waiting r d :: rest))) := by
  unfold wait at h
  split at h
  · rename_i r c rest _ hstack
    refine ⟨r, c, rest, hstack, ?_⟩
    split at h
    · split at h <;> simp only [Option.some.injEq, reduceCtorEq] at h
      exact .inl h.symm
    · obtain ⟨p, hp, h⟩ := Option.bind_eq_some_iff.mp h
      refine .inr ⟨p, hp, ?_⟩
      dsimp only at h
      split at h
      · exact .inr (.inl (Option.some.inj h).symm)
      · split at h
        · exact .inr (.inr ⟨_, (Option.some.inj h).symm⟩)
        · exact .inr (.inl (Option.some.inj h).symm)
      · exact .inl (Option.some.inj h).symm
  · simp at h

theorem ret_cases (h : s.ret k = some s') :
    ∃ r f left rest prop fs, s.stack k = .direct r f left :: rest ∧
      (fs = rest ∨ ∃ n, fs = .direct r f n :: rest) ∧
      s' = (s.setRt r { s.rt r with sys := { (s.rt r).sys with prop := prop } }).setStack k fs := by
  unfold ret at h
  split at h
  · rename_i r f left rest _ hstack
    dsimp only at h
    split at h <;> obtain rfl := Option.some.inj h
    · refine ⟨r, f, left, rest, _, _, hstack, ?_, rfl⟩
      split
      · exact .inl rfl
      · exact .inr ⟨_, rfl⟩
    · exact ⟨r, f, left, rest, _, _, hstack, .inl rfl, rfl⟩
  · simp at h

theorem deed_step {a : Deed T V R} (h : s.step bin (.deed k r a) = some s') :
    s.inCode k = true ∧ a.byCode = true ∧ s.deed bin k r a = some s' := by
  simp only [step] at h
  split at h
  · split at h
    · rename_i hc
      exact ⟨hc.1, hc.2, h⟩
    · simp at h
  · simp at h

end Cases

structure Aside (s s' : World T V R) : Prop where
  seat : s'.seat = s.seat
  phase : s'.phase = s.phase
  trusteeId : s'.trusteeId = s.trusteeId
  trusteeProp : s'.trusteeProp = s.trusteeProp
  isTrustee : s'.isTrustee = s.isTrustee
  destroying : ∀ r, s'.destroying (.trustee r) = s.destroying (.trustee r)
  pc : ∀ r, (s'.rt r).sys.pc = (s.rt r).sys.pc

namespace Aside

variable {s s' : World T V R}

theorem refl (s : World T V R) : s.Aside s :=
  ⟨rfl, rfl, rfl, rfl, rfl, fun _ => rfl, fun _ => rfl⟩

theorem setRt {r : Nat} {p : Population T V R} (hp : p.sys.pc = (s.rt r).sys.pc) :
    s.Aside (s.setRt r p) := by
  refine ⟨rfl, rfl, rfl, rfl, rfl, fun _ => rfl, fun r' => ?_⟩
  by_cases hr : r' = r
  · subst hr
    simpa [World.setRt] using hp
  · simp [World.setRt, Function.update_of_ne hr]

theorem setStack (h : s.Aside s') (k : Task) (fs : List (Frame T R)) :
    s.Aside (s'.setStack k fs) :=
  ⟨h.seat, h.phase, h.trusteeId, h.trusteeProp, h.isTrustee, h.destroying, h.pc⟩

theorem log (h : s.Aside s') (k : Task) (e : Entry) : s.Aside (s'.log k e) :=
  ⟨h.seat, h.phase, h.trusteeId, h.trusteeProp, h.isTrustee, h.destroying, h.pc⟩

theorem atWork (h : s.Aside s') (r : Nat) : s'.atWork r = s.atWork r := by
  unfold World.atWork
  rw [h.pc, h.destroying]

end Aside

inductive Stacked (s : World T V R) (k : Task) : Act T V R → List (Frame T R) → Prop where
  | same {a : Act T V R} : Stacked s k a (s.stack k)
  | shortcut {m : TrustLike T V R} {r c t : Nat} {f : Body T (Option R)} {n : Nat} :
      s.seat k = some t → s.inCode k = true → m.entry (s.entering t r c) = .shortcut →
      m.direct = some (f, n) → Stacked s k (.call k m r c) (.direct r f n :: s.stack k)
  | publish {m : TrustLike T V R} {r c t : Nat} :
      s.seat k = some t → s.inCode k = true → m.entry (s.entering t r c) = .publish →
      Stacked s k (.call k m r c) (.waiting r c :: s.stack k)
  | consumed {m : TrustLike T V R} {r c d : Nat} :
      s.inCode k = true → m.consumes = true → (s.rt r).LastOwner c →
      Stacked s k (.call k m r c) (.waiting r d :: s.stack k)
  | dropped {r d : Nat} {a : Deed T V R} : s.inCode k = true → (s.rt r).drops a = true →
      Stacked s k (.deed k r a) (.waiting r d :: s.stack k)
  | wait {r c d : Nat} {rest : List (Frame T R)} : s.stack k = .waiting r c :: rest →
      Stacked s k (.wait k) (.waiting r d :: rest)
  | ret {r left n : Nat} {f : Body T (Option R)} {rest : List (Frame T R)} :
      s.stack k = .direct r f left :: rest → Stacked s k (.ret k) (.direct r f n :: rest)
  | back {a : Act T V R} {f : Frame T R} {rest : List (Frame T R)} :
      s.stack k = f :: rest → Stacked s k a rest

def Nested (s : World T V R) : Prop := ∀ r, s.stack (.trustee r) ≠ [] → s.atWork r = true

section Steps

variable {bin : Bincode V} {s s' : World T V R} {a : Act T V R}

theorem deed_aside {k : Task} {r : Nat} {b : Deed T V R} (hb : b ≠ .trustee)
    (h : s.deed bin k r b = some s') : s.Aside s' := by
  obtain ⟨p, hp, ⟨_, rfl⟩ | ⟨_, rfl⟩⟩ := deed_cases h
  · exact (Aside.setRt (Population.step_pc hb hp)).setStack k _
  · exact .setRt (Population.step_pc hb hp)

theorem call_aside {k : Task} {m : TrustLike T V R} {r c : Nat}
    (h : s.call bin k m r c = some s') : s.Aside s' := by
  obtain ⟨t, _, _, _, ⟨_, rfl | ⟨f, n, _, rfl⟩⟩ | ⟨msg, _, ⟨_, w, hw, rfl⟩ | ⟨_, rfl⟩⟩ |
    ⟨_, ⟨p, hp, rfl⟩ | ⟨_, rfl⟩⟩⟩ := call_cases h
  · exact (Aside.refl s).log k _
  · exact ((Aside.refl s).setStack k _).log k _
  · exact (deed_aside (by simp) hw).log k _
  · exact (Aside.refl s).log k _
  · exact ((Aside.setRt (Population.step_pc (m.deed_ne c) hp)).setStack k _).log k _
  · exact (Aside.refl s).log k _

theorem step_aside (h : s.step bin a = some s') (hstart : ∀ r, a ≠ .start r)
    (htrustee : ∀ r, a ≠ .trustee r) : s.Aside s' := by
  cases a with
  | start r => exact absurd rfl (hstart r)
  | trustee r => exact absurd rfl (htrustee r)
  | fiber r j =>
    obtain ⟨_, ⟨_, rfl⟩ | ⟨x, hx, hs'⟩⟩ := fiber_cases h
    · exact ⟨rfl, rfl, rfl, rfl, rfl, fun r' => by simp [setDestroying], fun _ => rfl⟩
    · have haside : s.Aside (s.setRt r { s.rt r with sys := x }) :=
        .setRt (Sys.fiberStep_aside hx).1
      rcases hs' with rfl | rfl
      · exact haside
      · refine ⟨rfl, rfl, rfl, rfl, rfl, fun r' => ?_, haside.pc⟩
        simp [setDestroying, World.setRt]
  | call k m r c => exact call_aside h
  | deed k r b =>
    obtain ⟨_, hb, h⟩ := deed_step h
    exact deed_aside (by rintro rfl; cases hb) h
  | wait k =>
    obtain ⟨r, c, rest, _, rfl | ⟨p, hp, hs'⟩⟩ := wait_cases h
    · exact (Aside.refl s).setStack k rest
    · have haside : s.Aside (s.setRt r p) := .setRt (Population.step_pc (by simp) hp)
      rcases hs' with rfl | rfl | ⟨d, rfl⟩
      · exact haside
      · exact haside.setStack k rest
      · exact haside.setStack k _
  | ret k =>
    obtain ⟨r, f, left, rest, prop, fs, _, _, rfl⟩ := ret_cases h
    refine Aside.setStack (Aside.setRt ?_) k fs
    rfl

theorem step_seat (h : s.step bin a = some s') : s'.seat = s.seat := by
  by_cases hstart : ∃ r, a = .start r
  · obtain ⟨r, rfl⟩ := hstart
    obtain ⟨t, _, ⟨_, rfl⟩ | ⟨_, rfl⟩ | ⟨_, rfl⟩⟩ := start_cases h <;> rfl
  by_cases htrustee : ∃ r, a = .trustee r
  · obtain ⟨r, rfl⟩ := htrustee
    obtain ⟨t, _, _, _, ⟨_, rfl⟩ | ⟨_, x, _, ⟨_, rfl⟩ | ⟨_, _, rfl⟩ | ⟨_, rfl⟩⟩⟩ :=
      trustee_cases h <;> rfl
  · exact (step_aside h (fun r hr => hstart ⟨r, hr⟩) (fun r hr => htrustee ⟨r, hr⟩)).seat

theorem Stacked.update {k : Task} {fs : List (Frame T R)} (h : Stacked s k a fs) (k' : Task) :
    Stacked s k' a (Function.update s.stack k fs k') := by
  by_cases hk : k' = k
  · subst hk
    simpa using h
  · rw [Function.update_of_ne hk]
    exact .same

theorem step_stack (h : s.step bin a = some s') (k : Task) : Stacked s k a (s'.stack k) := by
  cases a with
  | start r =>
    obtain ⟨t, _, ⟨_, rfl⟩ | ⟨_, rfl⟩ | ⟨_, rfl⟩⟩ := start_cases h <;> exact .same
  | trustee r =>
    obtain ⟨t, _, _, _, ⟨_, rfl⟩ | ⟨_, x, _, ⟨_, rfl⟩ | ⟨_, _, rfl⟩ | ⟨_, rfl⟩⟩⟩ :=
      trustee_cases h <;> exact .same
  | fiber r j =>
    obtain ⟨_, ⟨_, rfl⟩ | ⟨x, _, rfl | rfl⟩⟩ := fiber_cases h <;> exact .same
  | call k' m r c =>
    obtain ⟨t, hseat, hcode, _, ⟨he, rfl | ⟨f, n, hm, rfl⟩⟩ |
      ⟨msg, _, ⟨hm, w, hw, rfl⟩ | ⟨_, rfl⟩⟩ |
      ⟨he, ⟨p, _, rfl⟩ | ⟨_, rfl⟩⟩⟩ := call_cases h
    · exact .same
    · exact (Stacked.shortcut hseat hcode he hm).update k
    · obtain ⟨p, _, ⟨hd, rfl⟩ | ⟨_, rfl⟩⟩ := deed_cases hw
      · exact (Stacked.consumed hcode hm (of_decide_eq_true hd)).update k
      · exact .same
    · exact .same
    · exact (Stacked.publish hseat hcode he).update k
    · exact .same
  | deed k' r b =>
    obtain ⟨hcode, _, h⟩ := deed_step h
    obtain ⟨p, _, ⟨hd, rfl⟩ | ⟨_, rfl⟩⟩ := deed_cases h
    · exact (Stacked.dropped hcode hd).update k
    · exact .same
  | wait k' =>
    obtain ⟨r, c, rest, hstack, rfl | ⟨p, _, rfl | rfl | ⟨d, rfl⟩⟩⟩ := wait_cases h
    · exact (Stacked.back hstack).update k
    · exact .same
    · exact (Stacked.back hstack).update k
    · exact (Stacked.wait hstack).update k
  | ret k' =>
    obtain ⟨r, f, left, rest, prop, fs, hstack, rfl | ⟨n, rfl⟩, rfl⟩ := ret_cases h
    · exact (Stacked.back hstack).update k
    · exact (Stacked.ret hstack).update k

theorem step_calls (h : s.step bin a = some s') :
    s'.calls = s.calls ∨ ∃ k m r c t e, a = .call k m r c ∧ s.seat k = some t ∧
      s.inCode k = true ∧ s'.calls = s.calls ++ [(k, e)] ∧
      (e = m.entry (s.entering t r c) ∨ m.entry (s.entering t r c) = .publish) := by
  have deeds : ∀ {k : Task} {r : Nat} {b : Deed T V R} {w : World T V R},
      s.deed bin k r b = some w → w.calls = s.calls := by
    intro k r b w hw
    obtain ⟨p, _, ⟨_, rfl⟩ | ⟨_, rfl⟩⟩ := deed_cases hw <;> rfl
  cases a with
  | start r =>
    obtain ⟨t, _, ⟨_, rfl⟩ | ⟨_, rfl⟩ | ⟨_, rfl⟩⟩ := start_cases h <;> exact .inl rfl
  | trustee r =>
    obtain ⟨t, _, _, _, ⟨_, rfl⟩ | ⟨_, x, _, ⟨_, rfl⟩ | ⟨_, _, rfl⟩ | ⟨_, rfl⟩⟩⟩ :=
      trustee_cases h <;> exact .inl rfl
  | fiber r j =>
    obtain ⟨_, ⟨_, rfl⟩ | ⟨x, _, rfl | rfl⟩⟩ := fiber_cases h <;> exact .inl rfl
  | call k m r c =>
    obtain ⟨t, hseat, hcode, _, hcases⟩ := call_cases h
    refine .inr ⟨k, m, r, c, t, ?_⟩
    rcases hcases with ⟨he, rfl | ⟨f, n, _, rfl⟩⟩ | ⟨msg, he, ⟨_, w, hw, rfl⟩ | ⟨_, rfl⟩⟩ |
      ⟨he, ⟨p, _, rfl⟩ | ⟨_, rfl⟩⟩
    · exact ⟨_, rfl, hseat, hcode, rfl, .inl he.symm⟩
    · exact ⟨_, rfl, hseat, hcode, rfl, .inl he.symm⟩
    · exact ⟨_, rfl, hseat, hcode, by simp [World.log, deeds hw], .inl he.symm⟩
    · exact ⟨_, rfl, hseat, hcode, rfl, .inl he.symm⟩
    · exact ⟨_, rfl, hseat, hcode, rfl, .inl he.symm⟩
    · exact ⟨_, rfl, hseat, hcode, rfl, .inr he⟩
  | deed k r b => exact .inl (deeds (deed_step h).2.2)
  | wait k =>
    obtain ⟨r, c, rest, _, rfl | ⟨p, _, rfl | rfl | ⟨d, rfl⟩⟩⟩ := wait_cases h <;> exact .inl rfl
  | ret k =>
    obtain ⟨r, f, left, rest, prop, fs, _, _, rfl⟩ := ret_cases h
    exact .inl rfl

/-- What the steps of a runtime keep, and a write to its property, the world keeps. -/
theorem step_keeps {P : Sys T V R → Prop}
    (keep : ∀ x b y, P x → x.step bin b = some y → P y)
    (prop : ∀ x v, P x → P { x with prop := v }) (hp : ∀ r, P (s.rt r).sys)
    (h : s.step bin a = some s') (r : Nat) : P (s'.rt r).sys := by
  have deeds : ∀ {r' : Nat} {b : Deed T V R} {p : Population T V R}, b ≠ .trustee →
      (s.rt r').step bin b = some p → P p.sys := by
    intro r' b p hb hs
    exact Population.step_keeps hb (fun x b y _ hx hy => keep x b y hx hy) (hp r') hs
  have set : ∀ (r' : Nat) (p : Population T V R), P p.sys → P ((s.setRt r' p).rt r).sys := by
    intro r' p hx
    by_cases hr : r = r'
    · subst hr
      simpa [World.setRt] using hx
    · simpa [World.setRt, Function.update_of_ne hr] using hp r
  have ofDeed : ∀ {k : Task} {r' : Nat} {b : Deed T V R} {w : World T V R}, b ≠ .trustee →
      s.deed bin k r' b = some w → P (w.rt r).sys := by
    intro k r' b w hb hw
    obtain ⟨p, hs, ⟨_, rfl⟩ | ⟨_, rfl⟩⟩ := deed_cases hw <;> exact set r' p (deeds hb hs)
  cases a with
  | start r' =>
    obtain ⟨t, _, ⟨_, rfl⟩ | ⟨_, rfl⟩ | ⟨_, rfl⟩⟩ := start_cases h <;> exact hp r
  | trustee r' =>
    obtain ⟨t, _, _, _, ⟨_, rfl⟩ | ⟨_, x, hx, hs'⟩⟩ := trustee_cases h
    · exact hp r
    · have hx : P x := keep _ .trustee _ (hp r') hx
      rcases hs' with ⟨_, rfl⟩ | ⟨_, _, rfl⟩ | ⟨_, rfl⟩ <;> exact set r' _ hx
  | fiber r' j =>
    obtain ⟨_, ⟨_, rfl⟩ | ⟨x, hx, hs'⟩⟩ := fiber_cases h
    · exact hp r
    · have hx : P x := keep _ (.fiber j) _ (hp r') hx
      rcases hs' with rfl | rfl <;> exact set r' _ hx
  | call k m r' c =>
    obtain ⟨t, _, _, _, ⟨_, rfl | ⟨f, n, _, rfl⟩⟩ | ⟨msg, _, ⟨_, w, hw, rfl⟩ | ⟨_, rfl⟩⟩ |
      ⟨_, ⟨p, hs, rfl⟩ | ⟨_, rfl⟩⟩⟩ := call_cases h
    · exact hp r
    · exact hp r
    · have hw' : P (w.rt r).sys := ofDeed (b := .dropHandle c) (by simp) hw
      exact hw'
    · exact hp r
    · exact set r' p (deeds (m.deed_ne c) hs)
    · exact hp r
  | deed k r' b =>
    obtain ⟨_, hb, h⟩ := deed_step h
    exact ofDeed (by rintro rfl; cases hb) h
  | wait k =>
    obtain ⟨r', c, rest, _, rfl | ⟨p, hs, rfl | rfl | ⟨d, rfl⟩⟩⟩ := wait_cases h
    · exact hp r
    all_goals exact set r' p (deeds (by simp) hs)
  | ret k =>
    obtain ⟨r', f, left, rest, v, fs, _, _, rfl⟩ := ret_cases h
    exact set r' _ (prop _ v (hp r'))

theorem Nested.atWork (h : s.Nested) {r : Nat} (hc : s.inCode (.trustee r) = true) :
    s.atWork r = true := by
  cases hstack : s.stack (.trustee r) with
  | nil => simpa only [inCode, hstack] using hc
  | cons f rest => exact h r (by simp [hstack])

theorem Stacked.working {k : Task} {fs : List (Frame T R)} (h : Stacked s k a fs) (hne : fs ≠ []) :
    s.stack k ≠ [] ∨ s.inCode k = true := by
  cases h with
  | same => exact .inl hne
  | shortcut _ hcode _ _ | publish _ hcode _ | consumed hcode _ _ | dropped hcode _ =>
    exact .inr hcode
  | wait hstack | ret hstack | back hstack => exact .inl (by simp [hstack])

theorem Nested.step (h : s.Nested) (hs : s.step bin a = some s') : s'.Nested := by
  intro r hne
  have hwork : s.atWork r = true := (step_stack hs (.trustee r)).working hne |>.elim (h r) h.atWork
  by_cases hstart : ∃ r, a = .start r
  · obtain ⟨r', rfl⟩ := hstart
    obtain ⟨t, _, ⟨_, rfl⟩ | ⟨_, rfl⟩ | ⟨_, rfl⟩⟩ := start_cases hs <;> exact hwork
  by_cases htrustee : ∃ r, a = .trustee r
  · obtain ⟨r', rfl⟩ := htrustee
    obtain ⟨t, _, _, hstack, hcases⟩ := trustee_cases hs
    have hr : r ≠ r' := by
      rintro rfl
      rcases hcases with ⟨_, rfl⟩ | ⟨_, x, _, ⟨_, rfl⟩ | ⟨_, _, rfl⟩ | ⟨_, rfl⟩⟩ <;>
        exact hne hstack
    rcases hcases with ⟨_, rfl⟩ | ⟨_, x, _, ⟨_, rfl⟩ | ⟨_, _, rfl⟩ | ⟨_, rfl⟩⟩ <;>
      simpa [World.atWork, setDestroying, finish, setRt, Function.update_of_ne hr, hr] using hwork
  · rw [(step_aside hs (fun r hr => hstart ⟨r, hr⟩) (fun r hr => htrustee ⟨r, hr⟩)).atWork]
    exact hwork

end Steps

end World
end TrustTee
