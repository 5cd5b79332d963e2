import TrustTee.Latch

/-!
A program on its local trustee that uses one `Local<Latch<U>>`: calls of the `lock_apply`
family and of the raw operations, nested in any way, with panics that are caught or not.
-/

set_option autoImplicit false

namespace TrustTee

variable {U : Type}

def Latch.tryLock (l : Latch U) : Option (Latch U) :=
  if l.locked then none else some { l with locked := true }

def Latch.lock (l : Latch U) : Except String (Latch U) :=
  match l.tryLock with
  | some l => .ok l
  | none => .error "Latch::lock: already locked"

def Latch.release (l : Latch U) : Latch U := { l with locked := false }

def Latch.update (l : Latch U) (g : U → U) : Latch U := { l with inner := g l.inner }

/-- The operations that run their closure under the latch. A closure of `lock_with` is taken
not to change `U` through interior mutability. -/
inductive Member where
  | lockApply | lockApplyThen | lockApplyWith | lockWith
  deriving DecidableEq, Repr

def Member.exclusive : Member → Bool
  | .lockWith => false
  | _ => true

inductive RawOp where
  | apply | applyWith | with_
  | applyBatchMut (n : UInt8)
  deriving DecidableEq, Repr

def RawOp.mutable : RawOp → Bool
  | .with_ => false
  | _ => true

def RawOp.runs : RawOp → Nat
  | .applyBatchMut n => n.toNat
  | _ => 1

/-- What runs in a frame. A raw closure has `left` runs after this one, and keeps `guards`
that it has taken itself. -/
inductive Code where
  | main : Code
  | closure (m : Member) : Code
  | continuation : Code
  | raw (op : RawOp) (left guards : Nat) : Code
  deriving DecidableEq, Repr

structure CallFrame where
  code : Code
  catches : Nat
  deriving DecidableEq, Repr

def CallFrame.exclusive (f : CallFrame) : Bool :=
  match f.code with
  | .closure m => m.exclusive
  | _ => false

def CallFrame.quiet (f : CallFrame) : Bool :=
  match f.code with
  | .raw _ _ 0 | .continuation => true
  | _ => false

namespace Code

def leave : Code → Latch U → Latch U
  | .closure _, l | .raw _ _ (_ + 1), l => l.release
  | _, l => l

@[simp] theorem leave_inner (code : Code) (l : Latch U) : (code.leave l).inner = l.inner := by
  unfold leave
  split <;> rfl

def next : Code → List CallFrame
  | .closure .lockApplyThen => [⟨.continuation, 0⟩]
  | .raw op (left + 1) _ => [⟨.raw op left 0, 0⟩]
  | _ => []

theorem leave_quiet {f : CallFrame} (hf : f.quiet = true) (l : Latch U) :
    f.code.leave l = l := by
  obtain ⟨code, n⟩ := f
  cases code with
  | raw op left guards => cases guards <;> simp_all [CallFrame.quiet, leave]
  | closure m => simp [CallFrame.quiet] at hf
  | main | continuation => rfl

theorem next_quiet {code : Code} :
    ∀ f ∈ code.next, f.quiet = true ∧ f.exclusive = false := by
  unfold next
  split <;> simp [CallFrame.quiet, CallFrame.exclusive]

theorem next_pairwise {code : Code} (R : CallFrame → CallFrame → Prop) :
    code.next.Pairwise R := by
  unfold next
  split
  · exact List.pairwise_singleton R _
  · exact List.pairwise_singleton R _
  · exact .nil

end Code

inductive Control where
  | running : Control
  | unwinding (msg : String) : Control
  deriving DecidableEq, Repr

/-- The latch and the stack of the program, its top first. `updates` is a ghost: what has
been done to the value so far. -/
structure LocalLatch (U : Type) where
  latch : Latch U
  stack : List CallFrame
  control : Control
  updates : List (U → U)

namespace LocalLatch

inductive Action (U : Type) where
  | call (m : Member) : Action U
  | update (g : U → U) : Action U
  | read : Action U
  | raw (op : RawOp) : Action U
  | tryLock : Action U
  | lock : Action U
  | guarded (g : U → U) : Action U
  | forget : Action U
  | getMut (g : U → U) : Action U
  | replace (l : Latch U) : Action U
  | catch_ : Action U
  | caught : Action U
  | ret : Action U
  | panic (msg : String) : Action U
  | dropGuard : Action U
  | unwind : Action U

def init (value : U) : LocalLatch U where
  latch := .new value
  stack := [⟨.main, 0⟩]
  control := .running
  updates := []

def call (s : LocalLatch U) (m : Member) : LocalLatch U :=
  match s.latch.lock with
  | .ok l => { s with latch := l, stack := ⟨.closure m, 0⟩ :: s.stack }
  | .error msg => { s with control := .unwinding msg }

def raw (s : LocalLatch U) (op : RawOp) : LocalLatch U :=
  match op.runs with
  | 0 => s
  | n + 1 => { s with stack := ⟨.raw op n 0, 0⟩ :: s.stack }

/-- A raw closure calls `try_lock`, or `lock`, which panics where the other returns `None`. -/
def take (s : LocalLatch U) (refused : Control) : Option (LocalLatch U) :=
  match s.stack with
  | ⟨.raw op left guards, catches⟩ :: below =>
    match s.latch.tryLock with
    | some l => some { s with latch := l, stack := ⟨.raw op left (guards + 1), catches⟩ :: below }
    | none => some { s with control := refused }
  | _ => none

def put (s : LocalLatch U) (l : Latch U) (g : U → U) : LocalLatch U :=
  { s with latch := l, updates := s.updates ++ [g] }

/-- What running code does. A closure of the family has a reference to the value, a raw one
to the latch; that one cannot be borrowed mutably while a guard is alive. -/
def run (s : LocalLatch U) : Action U → Option (LocalLatch U)
  | .call m => some (s.call m)
  | .update g =>
    match s.stack with
    | ⟨.closure m, _⟩ :: _ => if m.exclusive then some (s.put (s.latch.update g) g) else none
    | _ => none
  | .read =>
    match s.stack with
    | ⟨.closure _, _⟩ :: _ => some s
    | _ => none
  | .raw op => some (s.raw op)
  | .tryLock => s.take .running
  | .lock => s.take (.unwinding "Latch::lock: already locked")
  | .guarded g =>
    match s.stack with
    | ⟨.raw _ _ (_ + 1), _⟩ :: _ => some (s.put (s.latch.update g) g)
    | _ => none
  | .forget =>
    match s.stack with
    | ⟨.raw op left (n + 1), catches⟩ :: below =>
      some { s with stack := ⟨.raw op left n, catches⟩ :: below }
    | _ => none
  | .getMut g =>
    match s.stack with
    | ⟨.raw op _ 0, _⟩ :: _ => if op.mutable then some (s.put (s.latch.update g) g) else none
    | _ => none
  | .replace l =>
    match s.stack with
    | ⟨.raw op _ 0, _⟩ :: _ => if op.mutable then some (s.put l (fun _ => l.inner)) else none
    | _ => none
  | .catch_ =>
    match s.stack with
    | f :: below => some { s with stack := { f with catches := f.catches + 1 } :: below }
    | [] => none
  | .caught =>
    match s.stack with
    | ⟨code, n + 1⟩ :: below => some { s with stack := ⟨code, n⟩ :: below }
    | _ => none
  | .ret =>
    match s.stack with
    | ⟨.main, _⟩ :: _ => none
    | ⟨code, 0⟩ :: below =>
      some { s with latch := code.leave s.latch, stack := code.next ++ below }
    | _ => none
  | .panic msg => some { s with control := .unwinding msg }
  | .dropGuard | .unwind => none

def dropGuard (s : LocalLatch U) : Option (LocalLatch U) :=
  match s.stack with
  | ⟨.raw op left (n + 1), catches⟩ :: below =>
    some { s with latch := s.latch.release, stack := ⟨.raw op left n, catches⟩ :: below }
  | _ => none

def unwind (s : LocalLatch U) : Option (LocalLatch U) :=
  match s.stack with
  | ⟨code, n + 1⟩ :: below => some { s with control := .running, stack := ⟨code, n⟩ :: below }
  | ⟨code, 0⟩ :: below => some { s with latch := code.leave s.latch, stack := below }
  | [] => none

def step (s : LocalLatch U) (a : Action U) : Option (LocalLatch U) :=
  match a, s.control with
  | .dropGuard, _ => s.dropGuard
  | .unwind, .unwinding _ => s.unwind
  | a, .running => s.run a
  | _, _ => none

inductive Moves (s : LocalLatch U) (a : Action U) (s' : LocalLatch U) : Prop where
  | stays (latch : s'.latch.locked = s.latch.locked) (stack : s'.stack = s.stack)
  | opens (m : Member) (call : a = .call m) (free : s.latch.locked = false)
      (latch : s'.latch.locked = true) (stack : s'.stack = ⟨.closure m, 0⟩ :: s.stack)
  | hands (op : RawOp) (n : Nat) (call : a = .raw op) (latch : s'.latch.locked = s.latch.locked)
      (stack : s'.stack = ⟨.raw op n 0, 0⟩ :: s.stack)
  | nests (code : Code) (n n' : Nat) (below : List CallFrame)
      (latch : s'.latch.locked = s.latch.locked) (top : s.stack = ⟨code, n⟩ :: below)
      (stack : s'.stack = ⟨code, n'⟩ :: below)
  | takes (op : RawOp) (left n catches : Nat) (below : List CallFrame) (free : s.latch.locked = false)
      (top : s.stack = ⟨.raw op left n, catches⟩ :: below)
      (stack : s'.stack = ⟨.raw op left (n + 1), catches⟩ :: below)
  | drops (op : RawOp) (left n catches : Nat) (below : List CallFrame)
      (top : s.stack = ⟨.raw op left (n + 1), catches⟩ :: below)
      (stack : s'.stack = ⟨.raw op left n, catches⟩ :: below)
  | leaves (code : Code) (above below : List CallFrame) (latch : s'.latch = code.leave s.latch)
      (next : above = [] ∨ above = code.next) (top : s.stack = ⟨code, 0⟩ :: below)
      (stack : s'.stack = above ++ below)
  | replaces (l : Latch U) (call : a = .replace l) (stack : s'.stack = s.stack)

def Writes (s s' : LocalLatch U) : Prop :=
  (s'.latch.inner = s.latch.inner ∧ s'.updates = s.updates) ∨
    ∃ g : U → U, s'.latch.inner = g s.latch.inner ∧ s'.updates = s.updates ++ [g]

variable {s s' : LocalLatch U} {a : Action U}

theorem call_moves (s : LocalLatch U) (m : Member) :
    Moves s (.call m) (s.call m) ∧ s.Writes (s.call m) := by
  unfold call Latch.lock Latch.tryLock
  cases hl : s.latch.locked with
  | true => exact ⟨.stays rfl rfl, .inl ⟨rfl, rfl⟩⟩
  | false => exact ⟨.opens m rfl hl rfl rfl, .inl ⟨rfl, rfl⟩⟩

theorem raw_moves (s : LocalLatch U) (op : RawOp) :
    Moves s (.raw op) (s.raw op) ∧ s.Writes (s.raw op) := by
  unfold raw
  split
  · exact ⟨.stays rfl rfl, .inl ⟨rfl, rfl⟩⟩
  · exact ⟨.hands op _ rfl rfl rfl, .inl ⟨rfl, rfl⟩⟩

theorem take_moves {refused : Control} (h : s.take refused = some s') :
    Moves s a s' ∧ s.Writes s' := by
  unfold take Latch.tryLock at h
  split at h
  · rename_i op left n catches below hstack
    cases hl : s.latch.locked with
    | true =>
      obtain rfl := Option.some.inj (by simpa [hl] using h)
      exact ⟨.stays rfl rfl, .inl ⟨rfl, rfl⟩⟩
    | false =>
      obtain rfl := Option.some.inj (by simpa [hl] using h)
      exact ⟨.takes op left n catches below hl hstack rfl, .inl ⟨rfl, rfl⟩⟩
  · simp at h

theorem run_moves (h : s.run a = some s') : Moves s a s' ∧ s.Writes s' := by
  cases a with
  | call m =>
    obtain rfl := Option.some.inj h
    exact s.call_moves m
  | raw op =>
    obtain rfl := Option.some.inj h
    exact s.raw_moves op
  | tryLock | lock => exact take_moves h
  | panic msg =>
    obtain rfl := Option.some.inj h
    exact ⟨.stays rfl rfl, .inl ⟨rfl, rfl⟩⟩
  | dropGuard | unwind => simp [run] at h
  | update g | getMut g =>
    unfold run at h
    dsimp only at h
    split at h
    · split at h <;> simp only [Option.some.injEq, reduceCtorEq] at h
      subst h
      exact ⟨.stays rfl rfl, .inr ⟨g, rfl, rfl⟩⟩
    · simp at h
  | read =>
    unfold run at h
    dsimp only at h
    split at h <;> simp only [Option.some.injEq, reduceCtorEq] at h
    subst h
    exact ⟨.stays rfl rfl, .inl ⟨rfl, rfl⟩⟩
  | guarded g =>
    unfold run at h
    dsimp only at h
    split at h <;> simp only [Option.some.injEq, reduceCtorEq] at h
    subst h
    exact ⟨.stays rfl rfl, .inr ⟨g, rfl, rfl⟩⟩
  | replace l =>
    unfold run at h
    dsimp only at h
    split at h
    · split at h <;> simp only [Option.some.injEq, reduceCtorEq] at h
      subst h
      exact ⟨.replaces l rfl rfl, .inr ⟨fun _ => l.inner, rfl, rfl⟩⟩
    · simp at h
  | forget =>
    unfold run at h
    dsimp only at h
    split at h <;> simp only [Option.some.injEq, reduceCtorEq] at h
    rename_i op left n catches below hstack
    subst h
    exact ⟨.drops op left n catches below hstack rfl, .inl ⟨rfl, rfl⟩⟩
  | catch_ =>
    unfold run at h
    dsimp only at h
    split at h <;> simp only [Option.some.injEq, reduceCtorEq] at h
    rename_i f below hstack
    subst h
    exact ⟨.nests f.code f.catches (f.catches + 1) below rfl hstack rfl, .inl ⟨rfl, rfl⟩⟩
  | caught =>
    unfold run at h
    dsimp only at h
    split at h <;> simp only [Option.some.injEq, reduceCtorEq] at h
    rename_i code n below hstack
    subst h
    exact ⟨.nests code (n + 1) n below rfl hstack rfl, .inl ⟨rfl, rfl⟩⟩
  | ret =>
    unfold run at h
    dsimp only at h
    split at h <;> simp only [Option.some.injEq, reduceCtorEq] at h
    rename_i code below hmain hstack
    subst h
    exact ⟨.leaves code code.next below rfl (.inr rfl) hstack rfl, .inl ⟨code.leave_inner _, rfl⟩⟩

theorem step_moves (h : s.step a = some s') : Moves s a s' ∧ s.Writes s' := by
  unfold step at h
  split at h
  · unfold dropGuard at h
    split at h <;> simp only [Option.some.injEq, reduceCtorEq] at h
    rename_i op left n catches below hstack
    subst h
    exact ⟨.drops op left n catches below hstack rfl, .inl ⟨rfl, rfl⟩⟩
  · unfold unwind at h
    split at h <;> simp only [Option.some.injEq, reduceCtorEq] at h
    · rename_i code n below hstack
      subst h
      exact ⟨.nests code (n + 1) n below rfl hstack rfl, .inl ⟨rfl, rfl⟩⟩
    · rename_i code below hstack
      subst h
      exact ⟨.leaves code [] below rfl (.inl rfl) hstack rfl, .inl ⟨code.leave_inner _, rfl⟩⟩
  · exact run_moves h
  · simp at h

def Current (s : LocalLatch U) (value : U) : Prop :=
  s.latch.inner = s.updates.foldl (fun u g => g u) value

theorem Current.step {value : U} (h : s.Current value) (hs : s.step a = some s') :
    s'.Current value := by
  unfold Current at *
  rcases (step_moves hs).2 with ⟨hinner, hupdates⟩ | ⟨g, hinner, hupdates⟩
  · rw [hinner, hupdates, h]
  · rw [hinner, hupdates, List.foldl_append, h]
    rfl

end LocalLatch

namespace Code

def isClosure : Code → Bool
  | .closure _ => true
  | _ => false

def isRaw : Code → Bool
  | .raw _ _ _ => true
  | _ => false

theorem next_isClosure {code : Code} : ∀ f ∈ code.next, f.code.isClosure = false := by
  unfold next
  split <;> simp [isClosure]

theorem next_isRaw {code : Code} (h : code.isRaw = false) :
    ∀ f ∈ code.next, f.code.isRaw = false := by
  unfold next
  split
  · simp [isRaw]
  · simp [isRaw] at h
  · simp

theorem leave_unlocks {code : Code} {l : Latch U} (h : code.isRaw = false)
    (hl : l.locked = true → code.isClosure = true) : (code.leave l).locked = false := by
  cases code with
  | closure m => rfl
  | raw op left n => simp [isRaw] at h
  | main | continuation => simpa [leave, isClosure] using hl

end Code

namespace LocalLatch

variable {s s' : LocalLatch U} {a : Action U} {value : U}

def Action.InFamily : Action U → Prop
  | .call _ | .update _ | .read | .catch_ | .caught | .ret | .panic _ | .unwind => True
  | _ => False

def openClosures (s : LocalLatch U) : Nat := s.stack.countP (fun f => f.code.isClosure)

structure Single (value : U) (s : LocalLatch U) : Prop where
  current : s.Current value
  plain : ∀ f ∈ s.stack, f.code.isRaw = false
  under : ∀ f ∈ s.stack.tail, f.code.isClosure = false
  locked : s.latch.locked = true ↔ ∃ f ∈ s.stack.head?, f.code.isClosure = true

theorem Single.init : Single value (init value) where
  current := rfl
  plain := by simp [LocalLatch.init, Code.isRaw]
  under := by simp [LocalLatch.init]
  locked := by simp [LocalLatch.init, Latch.new, Code.isClosure]

theorem Single.free (h : Single value s) (hl : s.latch.locked = false) :
    ∀ f ∈ s.stack, f.code.isClosure = false := by
  intro f hf
  have hhead := h.locked.not.mp (by simp [hl])
  cases hstack : s.stack with
  | nil => simp [hstack] at hf
  | cons g below =>
    rw [hstack] at hf hhead
    rcases List.mem_cons.mp hf with rfl | hf
    · simpa using hhead
    · exact h.under f (by rwa [hstack])

theorem Single.step (h : Single value s) (ha : a.InFamily) (hs : s.step a = some s') :
    Single value s' := by
  have hcurrent := h.current.step hs
  cases (step_moves hs).1 with
  | stays hl hstack =>
    exact ⟨hcurrent, by rw [hstack]; exact h.plain, by rw [hstack]; exact h.under,
      by rw [hstack, hl]; exact h.locked⟩
  | opens m _ hfree hl hstack =>
    refine ⟨hcurrent, ?_, ?_, ?_⟩
    · rw [hstack]
      simpa [Code.isRaw] using h.plain
    · rw [hstack]
      exact h.free hfree
    · rw [hstack, hl]
      simp [Code.isClosure]
  | hands op n hcall _ _ =>
    subst hcall
    exact ha.elim
  | nests code n n' below hl htop hstack =>
    have hplain := h.plain
    have hunder := h.under
    have hlocked := h.locked
    rw [htop] at hplain hunder hlocked
    refine ⟨hcurrent, ?_, ?_, ?_⟩
    · rw [hstack]
      simpa using hplain
    · rw [hstack]
      exact hunder
    · rw [hstack, hl, hlocked]
      simp
  | takes op left n catches below _ htop _ | drops op left n catches below htop _ =>
    have hplain := h.plain _ (by rw [htop]; exact List.mem_cons_self)
    simp [Code.isRaw] at hplain
  | leaves code above below hlatch hnext htop hstack =>
    have hplain := h.plain
    have hunder := h.under
    have hlocked := h.locked
    rw [htop] at hplain hunder hlocked
    have hraw : code.isRaw = false := hplain _ List.mem_cons_self
    have habove : ∀ f ∈ above, f.code.isClosure = false ∧ f.code.isRaw = false := by
      rcases hnext with rfl | rfl
      · simp
      · exact fun f hf => ⟨Code.next_isClosure f hf, Code.next_isRaw hraw f hf⟩
    have hall : ∀ f ∈ s'.stack, f.code.isClosure = false := by
      rw [hstack]
      intro f hf
      rcases List.mem_append.mp hf with hf | hf
      · exact (habove f hf).1
      · exact hunder f hf
    refine ⟨hcurrent, ?_, fun f hf => hall f (List.mem_of_mem_tail hf), ?_⟩
    · rw [hstack]
      intro f hf
      rcases List.mem_append.mp hf with hf | hf
      · exact (habove f hf).2
      · exact hplain f (List.mem_cons_of_mem _ hf)
    · have hfree : s'.latch.locked = false := by
        rw [hlatch]
        exact Code.leave_unlocks hraw (fun hl => by simpa using hlocked.mp hl)
      refine iff_of_false (by simp [hfree]) ?_
      rintro ⟨f, hf, hclosure⟩
      rw [hall f (List.mem_of_mem_head? hf)] at hclosure
      simp at hclosure
  | replaces l hcall _ =>
    subst hcall
    exact ha.elim

theorem Single.openClosures (h : Single value s) :
    s.openClosures = if s.latch.locked = true then 1 else 0 := by
  unfold LocalLatch.openClosures
  split
  · rename_i hl
    obtain ⟨f, hf, hclosure⟩ := h.locked.mp hl
    have hunder := h.under
    cases hstack : s.stack with
    | nil => simp [hstack] at hf
    | cons g below =>
      rw [hstack] at hf hunder
      obtain rfl : g = f := by simpa using hf
      have hzero : below.countP (fun f => f.code.isClosure) = 0 := by
        rw [List.countP_eq_zero]
        intro q hq
        simp [hunder q hq]
      rw [List.countP_cons, hzero, if_pos hclosure]
  · rename_i hl
    rw [List.countP_eq_zero]
    intro q hq
    simp [h.free (by simpa using hl) q hq]

/-- What the family promises about a run: the latch is locked while exactly one of its
closures is open, a call that finds it locked panics and changes nothing else, the
continuation of `lock_apply_then` runs on a free latch, and when no call is open the latch
is free and the value is what the closures have made of it, in order. -/
structure Restores (value : U) (l : List (LocalLatch U × Action U)) (u : LocalLatch U) :
    Prop where
  held : ∀ t ∈ Machine.visited l u, t.latch.locked = true ↔ t.openClosures = 1
  single : ∀ t ∈ Machine.visited l u, t.openClosures ≤ 1
  refused : ∀ t m, (t, Action.call m) ∈ l → t.latch.locked = true →
    t.step (.call m) = some { t with control := .unwinding "Latch::lock: already locked" }
  continued : ∀ t ∈ Machine.visited l u, ∀ n below,
    t.stack = ⟨.continuation, n⟩ :: below → t.latch.locked = false
  restored : ∀ t ∈ Machine.visited l u, (∀ f ∈ t.stack, f.code = .main) →
    t.latch.locked = false ∧ t.latch.inner = t.updates.foldl (fun v g => g v) value

theorem call_refused {m : Member} (hs : s.step (.call m) = some s')
    (hl : s.latch.locked = true) :
    s.step (.call m) = some { s with control := .unwinding "Latch::lock: already locked" } := by
  unfold LocalLatch.step at *
  cases hc : s.control with
  | unwinding msg => simp [hc] at hs
  | running => simp [run, LocalLatch.call, Latch.lock, Latch.tryLock, hl]

/-- The `lock_apply` family restores the latch on every path, for every program of nested
calls, continuations and panics. -/
theorem lock_apply_family_restores {l : List (LocalLatch U × Action U)} {u : LocalLatch U}
    (h : Machine.Trace LocalLatch.step (.init value) l u) (hfam : ∀ x ∈ l, x.2.InFamily) :
    Restores value l u := by
  have hall : ∀ t ∈ Machine.visited l u, Single value t :=
    h.always Single.init (fun _ _ _ ht ha hs => ht.step ha hs) hfam
  have hfree : ∀ t ∈ Machine.visited l u, (∀ f ∈ t.stack.head?, f.code.isClosure = false) →
      t.latch.locked = false := by
    intro t ht hhead
    by_contra hl
    obtain ⟨f, hf, hclosure⟩ := (hall t ht).locked.mp (by simpa using hl)
    simp [hhead f hf] at hclosure
  refine ⟨fun t ht => ?_, fun t ht => ?_, fun t m hx hl => ?_, fun t ht n below hstack => ?_,
    fun t ht hmain => ⟨?_, (hall t ht).current⟩⟩
  · rw [(hall t ht).openClosures]
    split <;> simp_all
  · rw [(hall t ht).openClosures]
    split <;> omega
  · obtain ⟨l₁, l₂, rfl⟩ := List.append_of_mem hx
    obtain ⟨_, v, hv, _⟩ := h.split
    exact call_refused hv hl
  · exact hfree t ht (by simp [hstack, Code.isClosure])
  · refine hfree t ht (fun f hf => ?_)
    rw [hmain f (List.mem_of_mem_head? hf)]
    rfl

def nestedCalls : List (Action Nat) :=
  [.call .lockApply, .update (· + 1), .catch_, .call .lockWith, .unwind, .update (· * 2), .ret,
    .call .lockApplyThen, .update (· + 3), .ret, .call .lockApplyWith, .update (· * 5),
    .panic "gave up", .unwind, .unwind, .unwind]

theorem lock_apply_family_restores_nestedCalls :
    ∃ (l : List (LocalLatch Nat × Action Nat)) (u : LocalLatch Nat),
      Machine.Trace LocalLatch.step (.init 1) l u ∧ l.map Prod.snd = nestedCalls ∧
        u.stack = [] ∧ u.latch = ⟨false, 35⟩ ∧ Restores 1 l u := by
  obtain ⟨u, hrun, hstack, hlatch⟩ : ∃ u, Machine.run LocalLatch.step (.init 1) nestedCalls =
      some u ∧ u.stack = [] ∧ u.latch = ⟨false, 35⟩ := ⟨_, rfl, rfl, rfl⟩
  obtain ⟨l, hl, hscript⟩ := Machine.run_trace hrun
  have hfam : ∀ a ∈ nestedCalls, a.InFamily := by simp [nestedCalls, Action.InFamily]
  exact ⟨l, u, hl, hscript, hstack, hlatch, lock_apply_family_restores hl
    (fun x hx => hfam x.2 (hscript ▸ List.mem_map_of_mem hx))⟩

def Reaches (s : LocalLatch U) : Action U → Prop
  | .update _ | .read | .guarded _ | .getMut _ | .replace _ => True
  | .call _ | .tryLock | .lock => s.latch.locked = false
  | _ => False

def others (s : LocalLatch U) : Action U → List CallFrame
  | .update _ | .read => s.stack.tail
  | _ => s.stack

/-- Nobody but a closure that holds `&mut U` reaches the value while that closure is open. -/
def Fine (s : LocalLatch U) (a : Action U) : Prop :=
  s.Reaches a → ∀ f ∈ s.others a, f.exclusive = false

def Action.Bypasses : Action U → Prop
  | .getMut _ | .replace _ => True
  | _ => False

/-- It does so while a closure that holds `&mut U` is open. -/
def Clashes (s : LocalLatch U) (a : Action U) : Prop :=
  a.Bypasses ∧ ∃ f ∈ s.stack, f.exclusive = true

structure Guarded (s : LocalLatch U) : Prop where
  locked : ∀ f ∈ s.stack, f.exclusive = true → s.latch.locked = true
  above : s.stack.Pairwise (fun f g => g.exclusive = true → f.quiet = true)

theorem Guarded.init : Guarded (init value) where
  locked := by simp [LocalLatch.init, CallFrame.exclusive]
  above := List.pairwise_singleton _ _

theorem Guarded.free (h : s.Guarded) (hl : s.latch.locked = false) :
    ∀ f ∈ s.stack, f.exclusive = false := by
  intro f hf
  by_contra hn
  have hlocked := h.locked f hf (by simpa using hn)
  simp [hl] at hlocked

theorem Guarded.below (h : s.Guarded) {f : CallFrame} {below : List CallFrame}
    (htop : s.stack = f :: below) (hf : f.quiet = false) :
    ∀ g ∈ below, g.exclusive = false := by
  intro g hg
  have habove := h.above
  rw [htop, List.pairwise_cons] at habove
  by_contra hn
  have hquiet := habove.1 g hg (by simpa using hn)
  simp [hf] at hquiet

theorem Guarded.of_none (h : ∀ f ∈ s.stack, f.exclusive = false) : s.Guarded where
  locked f hf he := by simp [h f hf] at he
  above := List.pairwise_of_forall_mem_list (fun _ _ g hg he => by simp [h g hg] at he)

theorem Guarded.step (h : s.Guarded) (hok : ¬ s.Clashes a) (hs : s.step a = some s') :
    s'.Guarded := by
  have hlocked := h.locked
  have habove := h.above
  cases (step_moves hs).1 with
  | stays hl hstack => exact ⟨by rw [hstack, hl]; exact hlocked, by rw [hstack]; exact habove⟩
  | opens m _ hfree hl hstack =>
    refine ⟨fun _ _ _ => hl, ?_⟩
    rw [hstack, List.pairwise_cons]
    exact ⟨fun g hg he => by simp [h.free hfree g hg] at he, habove⟩
  | hands op n _ hl hstack =>
    rw [← hl] at hlocked
    refine ⟨?_, ?_⟩
    · rw [hstack]
      simpa [CallFrame.exclusive] using hlocked
    · rw [hstack, List.pairwise_cons]
      exact ⟨fun _ _ _ => rfl, habove⟩
  | nests code n n' below hl htop hstack =>
    rw [htop] at hlocked habove
    rw [← hl] at hlocked
    refine ⟨?_, ?_⟩
    · rw [hstack]
      simpa [CallFrame.exclusive] using hlocked
    · rw [hstack]
      simpa [CallFrame.quiet] using habove
  | takes op left n catches below hfree htop hstack =>
    have hnone := h.free hfree
    rw [htop] at hnone
    refine .of_none ?_
    rw [hstack]
    simpa [CallFrame.exclusive] using hnone
  | drops op left n catches below htop hstack =>
    -- whoever has a guard is not above such a closure
    have hnone := h.below htop rfl
    refine .of_none ?_
    rw [hstack]
    simpa [CallFrame.exclusive] using hnone
  | leaves code above below hlatch hnext htop hstack =>
    rw [htop] at hlocked habove
    obtain ⟨hquiet, hbelow⟩ := List.pairwise_cons.mp habove
    have hfresh : ∀ f ∈ above, f.quiet = true ∧ f.exclusive = false := by
      rcases hnext with rfl | rfl
      · simp
      · exact Code.next_quiet
    have hpair : above.Pairwise (fun f g => g.exclusive = true → f.quiet = true) := by
      rcases hnext with rfl | rfl
      · exact .nil
      · exact Code.next_pairwise _
    refine ⟨?_, ?_⟩
    · rw [hstack]
      intro f hf he
      rcases List.mem_append.mp hf with hf | hf
      · simp [(hfresh f hf).2] at he
      · have hsame : code.leave s.latch = s.latch := Code.leave_quiet (hquiet f hf he) _
        rw [hlatch, hsame]
        exact hlocked f (List.mem_cons_of_mem _ hf) he
    · rw [hstack, List.pairwise_append]
      exact ⟨hpair, hbelow, fun f hf _ _ _ => (hfresh f hf).1⟩
  | replaces l hcall hstack =>
    subst hcall
    refine .of_none ?_
    rw [hstack]
    intro f hf
    by_contra hn
    exact hok ⟨trivial, f, hf, by simpa using hn⟩

theorem step_own (ha : (∃ g, a = .update g) ∨ a = .read) (hs : s.step a = some s') :
    ∃ m n below, s.stack = ⟨.closure m, n⟩ :: below := by
  unfold LocalLatch.step at hs
  rcases ha with ⟨g, rfl⟩ | rfl
  all_goals
    cases hc : s.control with
    | unwinding msg => simp [hc] at hs
    | running =>
      simp only [hc, run] at hs
      split at hs
      · rename_i hstack
        exact ⟨_, _, _, hstack⟩
      · simp at hs

theorem step_guarded {g : U → U} (hs : s.step (.guarded g) = some s') :
    ∃ op left n catches below, s.stack = ⟨.raw op left (n + 1), catches⟩ :: below := by
  unfold LocalLatch.step at hs
  cases hc : s.control with
  | unwinding msg => simp [hc] at hs
  | running =>
    simp only [hc, run] at hs
    split at hs
    · rename_i hstack
      exact ⟨_, _, _, _, _, hstack⟩
    · simp at hs

/-- Calls, guards and references are in order by themselves: only what bypasses the latch
clashes. -/
theorem Guarded.fine_iff (h : s.Guarded) (hs : s.step a = some s') :
    s.Fine a ↔ ¬ s.Clashes a := by
  have harmless : ¬ a.Bypasses → (s.Reaches a → ∀ f ∈ s.others a, f.exclusive = false) →
      (s.Fine a ↔ ¬ s.Clashes a) :=
    fun hnot hfine => iff_of_true hfine (fun hc => hnot hc.1)
  cases a with
  | getMut g | replace l =>
    constructor
    · rintro hfine ⟨_, f, hf, he⟩
      simp [hfine trivial f hf] at he
    · intro hok _ f hf
      by_contra hn
      exact hok ⟨trivial, f, hf, by simpa using hn⟩
  | call m | tryLock | lock => exact harmless id (fun hfree => h.free hfree)
  | update g =>
    refine harmless id (fun _ => ?_)
    obtain ⟨m, n, below, htop⟩ := step_own (.inl ⟨g, rfl⟩) hs
    have hbelow := h.below htop rfl
    simpa [others, htop] using hbelow
  | read =>
    refine harmless id (fun _ => ?_)
    obtain ⟨m, n, below, htop⟩ := step_own (.inr rfl) hs
    have hbelow := h.below htop rfl
    simpa [others, htop] using hbelow
  | guarded g =>
    refine harmless id (fun _ => ?_)
    obtain ⟨op, left, n, catches, below, htop⟩ := step_guarded hs
    have hbelow := h.below htop rfl
    simpa [others, htop, CallFrame.exclusive] using hbelow
  | raw op | forget | catch_ | caught | ret | panic msg | dropGuard | unwind =>
    exact harmless id False.elim

/-- The critical section of a closure that holds `&mut U` is exclusive, for every program of
nested calls, exactly if no raw closure below which such a closure is open gets at the value
or overwrites the latch through its `&mut Latch<U>`. -/
theorem critical_section_exclusive_iff {l : List (LocalLatch U × Action U)} {u : LocalLatch U}
    (h : Machine.Trace LocalLatch.step (.init value) l u) :
    (∀ x ∈ l, x.1.Fine x.2) ↔ ∀ x ∈ l, ¬ x.1.Clashes x.2 :=
  @Machine.Trace.exact_steps _ _ _ _ _ _ Guarded Fine (fun t a => ¬ t.Clashes a) Guarded.init
    (fun _ _ _ ht hok hs => ht.step hok hs) (fun _ _ _ ht hs => ht.fine_iff hs) h

def mixedCalls : List (Action Nat) :=
  [.call .lockApply, .update (· + 1), .raw .with_, .tryLock, .ret, .raw .apply, .ret, .ret,
    .raw (.applyBatchMut 2), .getMut (· * 3), .ret, .getMut (· * 3), .ret]

theorem critical_section_exclusive_iff_mixedCalls :
    ∃ (l : List (LocalLatch Nat × Action Nat)) (u : LocalLatch Nat),
      l.map Prod.snd = mixedCalls ∧ u.latch = ⟨false, 18⟩ ∧
        ((∀ x ∈ l, x.1.Fine x.2) ↔ ∀ x ∈ l, ¬ x.1.Clashes x.2) := by
  obtain ⟨u, hrun, hlatch⟩ : ∃ u, Machine.run LocalLatch.step (.init 1) mixedCalls = some u ∧
      u.latch = ⟨false, 18⟩ := ⟨_, rfl, rfl⟩
  obtain ⟨l, hl, hscript⟩ := Machine.run_trace hrun
  exact ⟨l, u, hscript, hlatch, critical_section_exclusive_iff hl⟩

def getMutInside : List (Action Nat) := [.call .lockApply, .raw .apply, .getMut (· + 1)]

theorem getMutInside_not_exclusive : ¬ ∀ (value : Nat) (l : List (LocalLatch Nat × Action Nat))
    (u : LocalLatch Nat), Machine.Trace LocalLatch.step (.init value) l u →
      ∀ x ∈ l, x.1.Fine x.2 := by
  intro h
  obtain ⟨u, hrun⟩ : ∃ u, Machine.run LocalLatch.step (.init 0) getMutInside = some u :=
    ⟨_, rfl⟩
  have hfine := h 0 _ u (Machine.run_trail hrun)
  have hlast := hfine
    (⟨⟨true, 0⟩, [⟨.raw .apply 0 0, 0⟩, ⟨.closure .lockApply, 0⟩, ⟨.main, 0⟩], .running, []⟩,
      .getMut (· + 1)) (.tail _ (.tail _ (.head _)))
  have houter := hlast trivial ⟨.closure .lockApply, 0⟩ (.tail _ (.head _))
  simp [CallFrame.exclusive, Member.exclusive] at houter

end LocalLatch

end TrustTee
