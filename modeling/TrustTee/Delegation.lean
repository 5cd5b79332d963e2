import TrustTee.Slots
import TrustTee.Machine
import TrustTee.AtomicObject

/-!
One runtime: its channels, the clients that delegate through them, the trustee loop of
`Runtime::spawn_with_pin` and the fibers it launches. Every load or store of a header
word, every access to a payload and both ends of a closure are steps of their own.
-/

set_option autoImplicit false

namespace TrustTee
open Header

inductive Outcome (R : Type) where
  | returned : R → Outcome R
  | panicked : Outcome R
  deriving DecidableEq, Repr

def Outcome.map {R S : Type} (g : R → S) : Outcome R → Outcome S
  | .returned r => .returned (g r)
  | .panicked => .panicked

/-- A closure as a function of the property: what it leaves there and how it ends. A
closure that gets `&T` may still change `T` through interior mutability. -/
abbrev Body (T R : Type) := T → T × Outcome R

def Body.lift {T R S : Type} (g : R → S) (f : Body T R) : Body T S :=
  fun t => ((f t).1, (f t).2.map g)

inductive Access where
  | shared | exclusive
  deriving DecidableEq, Repr

/-- An environment in a slot together with the code its vtable names. `none` is the
unit result of a closure that writes nothing back. -/
structure Closure (T R : Type) where
  access : Access
  call : List UInt8 → Body T (Option R)

/-- `bincode`: `serialize` may fail, and so may `deserialize` on foreign bytes. -/
structure Bincode (V : Type) where
  serialize : V → Option (List UInt8)
  deserialize : List UInt8 → Option V

def Bincode.RoundTrips {V : Type} (bin : Bincode V) : Prop :=
  ∀ v bytes, bin.serialize v = some bytes → bin.deserialize bytes = some v

inductive PropertyPtr where
  | callMutRetUnit | callMutOutPtr | callMutArgsOutPtr | intoInner | launch | terminate
  deriving DecidableEq, Repr

structure RecordHeader where
  propertyPtr : PropertyPtr
  repeatCount : Word
  deriving DecidableEq, Repr

/-- A record as the trustee finds it: the header, and the environment and argument
bytes the header points to. `seq` is a ghost: which request of its client this is. -/
structure Record (T R : Type) where
  hdr : RecordHeader
  env : Closure T R
  args : List UInt8
  seq : Nat

/-- Zero-initialised slot bytes: operation code 0, repeated zero times, and no vtable
to call. -/
def Record.zeroed {T R : Type} : Record T R :=
  ⟨⟨.callMutRetUnit, 0⟩, ⟨.exclusive, fun _ t => (t, .panicked)⟩, [], 0⟩

/-- What the response payload holds from offset `HEADER_BYTES` on. -/
inductive Payload (T R : Type) where
  | zeroed : Payload T R
  | result : Option R → Payload T R
  | moved : T → Payload T R

/-- The operations of a handle, and the request that `Runtime::drop` sends. -/
inductive Op (T V R : Type) where
  | apply : Body T R → Op T V R
  | applyWith : (V → Body T R) → V → Op T V R
  | with_ : Body T R → Op T V R
  | applyBatchMut : Body T Unit → UInt8 → Op T V R
  | launch : Body T R → Op T V R
  | intoInner : Op T V R
  | terminate : Op T V R

variable {T V R : Type}

def Op.encode (bin : Bincode V) (seq : Nat) : Op T V R → Option (Record T R)
  | .apply f => some ⟨⟨.callMutOutPtr, 1⟩, ⟨.exclusive, fun _ => f.lift some⟩, [], seq⟩
  | .applyWith f w => do
      let args ← bin.serialize w
      some ⟨⟨.callMutArgsOutPtr, 1⟩,
        ⟨.exclusive, fun bytes => match bin.deserialize bytes with
          | some v => (f v).lift some
          | none => fun t => (t, .panicked)⟩, args, seq⟩
  | .with_ f => some ⟨⟨.callMutOutPtr, 1⟩, ⟨.shared, fun _ => f.lift some⟩, [], seq⟩
  | .applyBatchMut f n =>
      some ⟨⟨.callMutRetUnit, BitVec.ofNat 32 n.toNat⟩,
        ⟨.exclusive, fun _ => f.lift (fun _ => none)⟩, [], seq⟩
  | .launch f => some ⟨⟨.launch, 1⟩, ⟨.shared, fun _ => f.lift some⟩, [], seq⟩
  | .intoInner =>
      some ⟨⟨.intoInner, 1⟩, ⟨.exclusive, fun _ t => (t, .returned none)⟩, [], seq⟩
  | .terminate => some ⟨⟨.terminate, 0⟩, Record.zeroed.env, [], seq⟩

def Op.hdr : Op T V R → RecordHeader
  | .apply _ | .with_ _ => ⟨.callMutOutPtr, 1⟩
  | .applyWith _ _ => ⟨.callMutArgsOutPtr, 1⟩
  | .applyBatchMut _ n => ⟨.callMutRetUnit, BitVec.ofNat 32 n.toNat⟩
  | .launch _ => ⟨.launch, 1⟩
  | .intoInner => ⟨.intoInner, 1⟩
  | .terminate => ⟨.terminate, 0⟩

theorem Op.encode_hdr {bin : Bincode V} {seq : Nat} {op : Op T V R} {r : Record T R}
    (h : op.encode bin seq = some r) : r.hdr = op.hdr ∧ r.seq = seq := by
  cases op with
  | applyWith f w =>
    obtain ⟨args, _, h⟩ := Option.bind_eq_some_iff.mp h
    obtain rfl := Option.some.inj h
    exact ⟨rfl, rfl⟩
  | _ => obtain rfl := Option.some.inj h; exact ⟨rfl, rfl⟩

def Op.reply : Op T V R → Payload T R → Payload T R
  | .applyBatchMut _ _, _ => .result none
  | _, d => d

structure ChannelPair (T R : Type) where
  reqWord : Word
  records : Usize → Record T R
  respWord : Word
  respData : Payload T R

def ChannelPair.default : ChannelPair T R :=
  ⟨0, fun _ => Record.zeroed, 0, .zeroed⟩

/-- Where every client writes its record header: 8, the first 8-aligned offset after
the flags. -/
def hdrOffset : Usize :=
  nextBoundaryOffset headerBytes recordHeaderSize recordHeaderAlign

structure ClientPair where
  chan : Nat
  pendingLaunch : Bool
  launchReqReady : Bool
  deriving DecidableEq, Repr

inductive ClientPc (T V R : Type) where
  | idle : ClientPc T V R
  | encoded : Op T V R → ClientPc T V R
  | loaded : Op T V R → Bool → ClientPc T V R
  | waiting : Op T V R → Bool → ClientPc T V R
  | reading : Op T V R → ClientPc T V R
  | owning : Payload T R → ClientPc T V R
  | gone : ClientPc T V R

structure Client (T V R : Type) where
  seq : Nat
  pc : ClientPc T V R

inductive Exit where
  | intoInner | terminate | panicked
  deriving DecidableEq, Repr

structure Batch where
  n : Nat
  offs : Nat
  idx : Nat
  chan : Nat
  reqReady : Bool
  left : Nat
  cursor : Usize
  processed : Nat
  deferred : Bool
  deriving DecidableEq, Repr

def Batch.advance (b : Batch) : Batch :=
  { b with left := b.left - 1, cursor := b.cursor + recordHeaderSize,
           processed := b.processed + 1 }

inductive TrusteePc (T R : Type) where
  | loop : TrusteePc T R
  | drain (drained : Nat) : TrusteePc T R
  | sweep (n offs : Nat) : TrusteePc T R
  | loadedReq (n offs idx chan : Nat) (reqWord : Word) : TrusteePc T R
  | record (b : Batch) : TrusteePc T R
  | calling (b : Batch) (hdr : RecordHeader) (k : Nat) : TrusteePc T R
  | inClosure (b : Batch) (hdr : RecordHeader) (k : Nat) (env : Closure T R)
      (args : List UInt8) (seq : Nat) : TrusteePc T R
  | writeOut (b : Batch) (r : Option R) : TrusteePc T R
  | moveOut (b : Batch) : TrusteePc T R
  | moveLoad (b : Batch) : TrusteePc T R
  | moveStore (b : Batch) (reqReady : Bool) : TrusteePc T R
  | respond (b : Batch) : TrusteePc T R
  | joining (b : Batch) : TrusteePc T R
  | exited (cause : Exit) : TrusteePc T R

/-- A launch job: what its closure captured from the trustee's visit. The environment
itself stays in the request slot until the fiber reads it. -/
structure Job where
  chan : Nat
  cursor : Usize
  seq : Nat
  reqReady : Bool
  deriving DecidableEq, Repr

/-- Progress of the fiber that runs a job. `guard` is the completion guard's drop. -/
inductive FiberPc (T R : Type) where
  | queued : FiberPc T R
  | running (env : Closure T R) (args : List UInt8) (seq : Nat) : FiberPc T R
  | writing (r : Option R) : FiberPc T R
  | guard : FiberPc T R
  | signalled : FiberPc T R
  | finished : FiberPc T R

def FiberPc.isFinished {T R : Type} : FiberPc T R → Bool
  | .finished => true
  | _ => false

def FiberPc.open_ {T R : Type} : FiberPc T R → Bool
  | .signalled | .finished => false
  | _ => true

/-- What a run has done so far (a ghost). `app` logs the function of the property that
a finished closure was. -/
abbrev Event (T V R : Type) :=
  AtomicObject.Event Nat (Op T V R) T (Outcome (Option R)) (Payload T R)

structure Sys (T V R : Type) where
  prop : T
  /-- strong count of the property's `Arc`, and how often a `T` has been destroyed -/
  strong : Nat
  destroyed : Nat
  created : Nat
  chan : Nat → ChannelPair T R
  client : Nat → Client T V R
  reg : List ClientPair
  clients : List ClientPair
  startIdx : Nat
  loopCounter : Nat
  pc : TrusteePc T R
  jobs : List Job
  fiber : Nat → FiberPc T R
  hist : List (Event T V R)

namespace Sys

def init (value : T) : Sys T V R where
  prop := value
  strong := 1
  destroyed := 0
  created := 0
  chan := fun _ => ChannelPair.default
  client := fun _ => ⟨0, .idle⟩
  reg := []
  clients := []
  startIdx := 0
  loopCounter := 0
  pc := .loop
  jobs := []
  fiber := fun _ => .queued
  hist := []

def setChan (s : Sys T V R) (c : Nat) (ch : ChannelPair T R) : Sys T V R :=
  { s with chan := Function.update s.chan c ch }

def setClient (s : Sys T V R) (c : Nat) (cl : Client T V R) : Sys T V R :=
  { s with client := Function.update s.client c cl }

def setFiber (s : Sys T V R) (j : Nat) (f : FiberPc T R) : Sys T V R :=
  { s with fiber := Function.update s.fiber j f }

def goto (s : Sys T V R) (pc : TrusteePc T R) : Sys T V R := { s with pc := pc }

def log (s : Sys T V R) (e : Event T V R) : Sys T V R := { s with hist := s.hist ++ [e] }

def exited (s : Sys T V R) : Bool :=
  match s.pc with
  | .exited _ => true
  | _ => false

def dropArc (s : Sys T V R) : Sys T V R :=
  { s with strong := s.strong - 1,
           destroyed := s.destroyed + if s.strong = 1 then 1 else 0 }

def exit (s : Sys T V R) (cause : Exit) : Sys T V R := s.dropArc.goto (.exited cause)

/-- `Remote::clone`, `Runtime::entrust` and the other constructors: a fresh channel is
pushed to the registration queue. -/
def register (s : Sys T V R) : Sys T V R :=
  { s with created := s.created + 1, reg := s.reg ++ [⟨s.created, false, false⟩] }

def issue (bin : Bincode V) (s : Sys T V R) (c : Nat) (op : Op T V R) :
    Option (Sys T V R) :=
  match (s.client c).pc with
  | .idle =>
    if c < s.created then do
      let rec_ ← op.encode bin (s.client c).seq
      let ch := s.chan c
      some (((s.setChan c { ch with records := Function.update ch.records hdrOffset rec_ }
        ).setClient c ⟨(s.client c).seq, .encoded op⟩).log (.call c (s.client c).seq op))
    else none
  | _ => none

def clientStep (s : Sys T V R) (c : Nat) : Option (Sys T V R) :=
  let cl := s.client c
  let ch := s.chan c
  match cl.pc with
  | .encoded op => some (s.setClient c ⟨cl.seq, .loaded op (!ready ch.respWord)⟩)
  | .loaded op reqReady =>
    some ((s.setChan c { ch with reqWord := packReadyCount reqReady 1 }).setClient c
      ⟨cl.seq, .waiting op reqReady⟩)
  | .waiting .terminate _ =>
    -- `handle.join()` returns once the worker has; `Runtime::drop` does nothing after it
    if s.exited then some s else none
  | .waiting op reqReady =>
    if ready ch.respWord = reqReady then some (s.setClient c ⟨cl.seq, .reading op⟩)
    else some s
  | .reading .intoInner =>
    some ((s.setClient c ⟨cl.seq + 1, .owning ch.respData⟩).log (.ret c cl.seq ch.respData))
  | .reading op =>
    some ((s.setClient c ⟨cl.seq + 1, .idle⟩).log (.ret c cl.seq (op.reply ch.respData)))
  | _ => none

def dropValue (s : Sys T V R) (c : Nat) : Option (Sys T V R) :=
  match (s.client c).pc with
  | .owning _ =>
    some { s.setClient c ⟨(s.client c).seq, .gone⟩ with destroyed := s.destroyed + 1 }
  | _ => none

def dropHandle (s : Sys T V R) (c : Nat) : Option (Sys T V R) :=
  match (s.client c).pc with
  | .idle => if c < s.created then some (s.setClient c ⟨(s.client c).seq, .gone⟩) else none
  | _ => none

def enterSweep (s : Sys T V R) : Sys T V R :=
  s.goto (if s.clients.isEmpty then .loop else .sweep s.clients.length 0)

/-- Both words of the visited client are loaded: the `pending_launch` branches, the
ready test, and the start of the record loop. -/
def visit (s : Sys T V R) (n offs idx : Nat) (cp : ClientPair) (reqWord respWord : Word) :
    Sys T V R :=
  let reqReady := ready reqWord
  let respReady := ready respWord
  let done := { s with clients := s.clients.set idx { cp with pendingLaunch := false } }
  let b : Batch := ⟨n, offs, idx, cp.chan, reqReady, (count reqWord).toNat, headerBytes, 0, false⟩
  if cp.pendingLaunch then
    if reqReady = respReady then done.goto (.sweep n (offs + 1))
    else if reqReady ≠ cp.launchReqReady then done.goto (.record b)
    else s.goto (.sweep n (offs + 1))
  else if reqReady = respReady then s.goto (.sweep n (offs + 1))
  else s.goto (.record b)

def served (s : Sys T V R) (b : Batch) : Sys T V R :=
  { s with startIdx := (b.idx + 1) % b.n, pc := .sweep b.n (b.offs + 1) }

/-- The `Launch` arm: flag the client and hand the job to a fiber. -/
def dispatch (s : Sys T V R) (b : Batch) (rec_ : Record T R) : Sys T V R :=
  { s with
    clients := s.clients.set b.idx ⟨b.chan, true, b.reqReady⟩
    strong := s.strong + 1
    jobs := s.jobs ++ [⟨b.chan, b.cursor, rec_.seq, b.reqReady⟩]
    fiber := Function.update s.fiber s.jobs.length .queued
    pc := .record { b with deferred := true }.advance }

def recordStep (s : Sys T V R) (b : Batch) : Sys T V R :=
  if b.left = 0 then
    if b.deferred then s.served b else s.goto (.respond b)
  else
    let b := { b with cursor := nextBoundaryOffset b.cursor recordHeaderSize recordHeaderAlign }
    let rec_ := (s.chan b.chan).records b.cursor
    match rec_.hdr.propertyPtr with
    | .intoInner => s.goto (.moveOut b)
    | .launch => s.dispatch b rec_
    | .terminate => s.goto (.joining b)
    | _ => s.goto (.calling b rec_.hdr 0)

def fibersDone (s : Sys T V R) : Bool :=
  (List.range s.jobs.length).all (fun j => (s.fiber j).isFinished)

def trusteeStep (s : Sys T V R) : Option (Sys T V R) :=
  match s.pc with
  | .loop =>
    let s := { s with loopCounter := (s.loopCounter + 1) % 2 ^ 64 }
    if s.clients.isEmpty ∨ s.loopCounter % 16 = 0 then some (s.goto (.drain 0))
    else some s.enterSweep
  | .drain drained =>
    if drained < 256 then
      match s.reg with
      | cp :: reg =>
        some { s with clients := s.clients ++ [cp], reg := reg, pc := .drain (drained + 1) }
      | [] => some s.enterSweep
    else some s.enterSweep
  | .sweep n offs =>
    if offs < n then
      let idx := if s.startIdx + offs ≥ n then s.startIdx + offs - n else s.startIdx + offs
      match s.clients[idx]? with
      | some cp => some (s.goto (.loadedReq n offs idx cp.chan (s.chan cp.chan).reqWord))
      | none => some (s.exit .panicked)
    else some (s.goto .loop)
  | .loadedReq n offs idx _ reqWord =>
    match s.clients[idx]? with
    | some cp => some (s.visit n offs idx cp reqWord (s.chan cp.chan).respWord)
    | none => none
  | .record b => some (s.recordStep b)
  | .calling b hdr k =>
    if hdr.propertyPtr = .callMutRetUnit ∧ ¬ k < hdr.repeatCount.toNat then
      some (s.goto (.record b.advance))
    else
      let rec_ := (s.chan b.chan).records b.cursor
      some (s.goto (.inClosure b hdr k rec_.env rec_.args rec_.seq))
  | .inClosure b hdr k env args seq =>
    let out := env.call args s.prop
    let s := { s with prop := out.1 }.log (.app b.chan seq (env.call args))
    match out.2 with
    | .panicked => some (s.exit .panicked)
    | .returned r =>
      if hdr.propertyPtr = .callMutRetUnit then some (s.goto (.calling b hdr (k + 1)))
      else some (s.goto (.writeOut b r))
  | .writeOut b r =>
    some ((s.setChan b.chan { s.chan b.chan with respData := .result r }).goto
      (.record b.advance))
  | .moveOut b =>
    some ((s.setChan b.chan { s.chan b.chan with respData := .moved s.prop }).goto
      (.moveLoad b))
  | .moveLoad b => some (s.goto (.moveStore b (ready (s.chan b.chan).reqWord)))
  | .moveStore b reqReady =>
    some ((s.setChan b.chan
      { s.chan b.chan with respWord := packReadyCount reqReady 1 }).exit .intoInner)
  | .respond b =>
    some ((s.setChan b.chan { s.chan b.chan with
      respWord := packReadyCount b.reqReady (BitVec.ofNat 32 b.processed) }).served b)
  | .joining _ => if s.fibersDone then some (s.exit .terminate) else none
  | .exited _ => none

def fiberStep (s : Sys T V R) (j : Nat) : Option (Sys T V R) :=
  match s.jobs[j]? with
  | none => none
  | some job =>
    let ch := s.chan job.chan
    match s.fiber j with
    | .queued =>
      let rec_ := ch.records job.cursor
      some (s.setFiber j (.running rec_.env rec_.args rec_.seq))
    | .running env args seq =>
      let out := env.call args s.prop
      let s := { s with prop := out.1 }.log (.app job.chan seq (env.call args))
      match out.2 with
      | .returned r => some (s.setFiber j (.writing r))
      | .panicked => some (s.setFiber j .guard)
    | .writing r =>
      some ((s.setChan job.chan { ch with respData := .result r }).setFiber j .guard)
    | .guard =>
      some ((s.setChan job.chan { ch with
        respWord := packReadyCount job.reqReady 1 }).setFiber j .signalled)
    | .signalled => some (s.dropArc.setFiber j .finished)
    | .finished => none

theorem visit_frame (s : Sys T V R) (n offs idx : Nat) (cp : ClientPair) (w w' : Word) :
    ∃ clients pc, (pc = .sweep n (offs + 1) ∨ ∃ b, pc = .record b) ∧
      s.visit n offs idx cp w w' = { s with clients := clients, pc := pc } := by
  unfold visit
  dsimp only
  split
  · split
    · exact ⟨_, _, .inl rfl, rfl⟩
    · split
      · exact ⟨_, _, .inr ⟨_, rfl⟩, rfl⟩
      · exact ⟨_, _, .inl rfl, rfl⟩
  · split
    · exact ⟨_, _, .inl rfl, rfl⟩
    · exact ⟨_, _, .inr ⟨_, rfl⟩, rfl⟩

theorem recordStep_frame (s : Sys T V R) (b : Batch) :
    (s.recordStep b).hist = s.hist ∧ (s.recordStep b).prop = s.prop ∧
      (s.recordStep b).destroyed = s.destroyed ∧ (s.recordStep b).created = s.created ∧
      (s.recordStep b).chan = s.chan ∧ (s.recordStep b).client = s.client ∧
      (s.recordStep b).reg = s.reg := by
  unfold recordStep
  dsimp only
  split
  · split <;> exact ⟨rfl, rfl, rfl, rfl, rfl, rfl, rfl⟩
  · split <;> exact ⟨rfl, rfl, rfl, rfl, rfl, rfl, rfl⟩

end Sys

inductive Action (T V R : Type) where
  | register : Action T V R
  | issue (c : Nat) (op : Op T V R) : Action T V R
  | client (c : Nat) : Action T V R
  | trustee : Action T V R
  | fiber (j : Nat) : Action T V R
  | dropValue (c : Nat) : Action T V R
  | dropHandle (c : Nat) : Action T V R

def Sys.step (bin : Bincode V) (s : Sys T V R) : Action T V R → Option (Sys T V R)
  | .register => some s.register
  | .issue c op => s.issue bin c op
  | .client c => s.clientStep c
  | .trustee => s.trusteeStep
  | .fiber j => s.fiberStep j
  | .dropValue c => s.dropValue c
  | .dropHandle c => s.dropHandle c

abbrev Workload (T V R : Type) := Nat → Op T V R → Prop

def Workload.permits (w : Workload T V R) : Action T V R → Prop
  | .issue c op => w c op
  | _ => True

/-- What a runtime that starts with `value` can reach under a workload. -/
def Reachable (bin : Bincode V) (w : Workload T V R) (value : T) (s : Sys T V R) : Prop :=
  Machine.Reach (Sys.step bin) (fun _ a => w.permits a) (Sys.init value) s

theorem Reachable.scripted {bin : Bincode V} {w : Workload T V R} {value : T}
    {s : Sys T V R} {script : List (Action T V R)}
    (h : Machine.run (Sys.step bin) (Sys.init value) script = some s)
    (hw : ∀ a ∈ script, w.permits a) : Reachable bin w value s :=
  (Machine.run_reach h).weaken (fun _ a ha => hw a ha)

end TrustTee
