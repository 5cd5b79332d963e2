import TrustTee.RequestRecord
import TrustTee.Exclusion

/-!
The runtime down to the bytes of its slots. A client encodes its request in steps of its
own, the trustee and the fibers find headers, environments and arguments as bytes, and
results go through the response slot as bytes.
-/

set_option autoImplicit false

namespace TrustTee
open Header

variable {T V R : Type}

def Op.env (bin : Bincode V) : Op T V R → Closure T R
  | .apply f => ⟨.exclusive, fun _ => f.lift some⟩
  | .applyWith f _ => ⟨.exclusive, fun bytes => match bin.deserialize bytes with
      | some v => (f v).lift some
      | none => fun t => (t, .panicked)⟩
  | .with_ f => ⟨.shared, fun _ => f.lift some⟩
  | .applyBatchMut f _ => ⟨.exclusive, fun _ => f.lift (fun _ => none)⟩
  | .launch f => ⟨.shared, fun _ => f.lift some⟩
  | .intoInner => ⟨.exclusive, fun _ t => (t, .returned none)⟩
  | .terminate => Record.zeroed.env

def Op.args (bin : Bincode V) : Op T V R → Option (List UInt8)
  | .applyWith _ w => bin.serialize w
  | _ => some []

theorem Op.encode_eq (bin : Bincode V) (seq : Nat) (op : Op T V R) :
    op.encode bin seq = (op.args bin).map (fun args => ⟨op.hdr, op.env bin, args, seq⟩) := by
  cases op with
  | applyWith f w =>
    cases hs : bin.serialize w with
    | none => simp [Op.encode, Op.args, hs]
    | some args =>
      simp only [Op.encode, Op.args, hs, Option.map_some]
      rfl
  | _ => rfl

/-- The code behind vtables: the size of each closure type, and the closure that the bytes of
an environment are. -/
structure Image (T R : Type) where
  envSize : Usize → Nat
  call : Usize → List UInt8 → Closure T R

/-- What a runtime rests on: `bincode`, the code of its closures, the addresses of its
request slots, and the layouts of the results and of the property. -/
structure Platform (T V R : Type) where
  bin : Bincode V
  image : Image T R
  base : Nat → Usize
  result : Layout R
  value : Layout T

/-- An operation as it is compiled: its closure's vtable and capture. Neither the capture nor
the arguments are larger than a Rust object can be. -/
structure Compiled (P : Platform T V R) where
  op : Op T V R
  vtable : Usize
  capture : Capture
  handle : op ≠ .terminate
  envSize : P.image.envSize vtable = capture.size.toNat
  code : P.image.call vtable capture.bytes = op.env P.bin
  align : ∃ k, capture.align.toNat = 2 ^ k
  captureSize : capture.size.toNat < 2 ^ 63
  argsSize : ∀ args, op.args P.bin = some args → args.length < 2 ^ 63

def Compiled.header {P : Platform T V R} (x : Compiled P) (base : Usize) (args : List UInt8)
    (env pos : Usize) : RequestRecordHeader where
  data := if x.capture.size = 0 then dangling else base + env
  vtable := x.vtable
  propertyPtr := x.op.hdr.propertyPtr
  capturedLen := x.capture.size.setWidth 32
  argsLen := BitVec.ofNat 32 args.length
  argsOffset := pos.setWidth 32
  repeatCount := x.op.hdr.repeatCount

inductive Stage (P : Platform T V R) where
  | idle : Stage P
  | serialize (x : Compiled P) : Stage P
  | env (x : Compiled P) (args : List UInt8) : Stage P
  | args (x : Compiled P) (args : List UInt8) (env : Usize) : Stage P
  | header (x : Compiled P) (args : List UInt8) (env pos : Usize) : Stage P
  | issued (x : Compiled P) (args : List UInt8) : Stage P
  | panicked (msg : String) : Stage P

/-- The slots' bytes beside the machine of `Sys`. `header` and `env` are locals of the
trustee loop, `jobHeader` is what each launch job has captured, and `replies` logs the bytes
each client has read as results. The records in `sys` are ghosts: the worker goes by what it
finds in `request`. -/
structure Slotted (P : Platform T V R) where
  sys : Sys T V R
  request : Nat → Bytes
  response : Nat → Bytes
  stage : Nat → Stage P
  header : RequestRecordHeader
  env : Option (List UInt8)
  jobHeader : Nat → RequestRecordHeader
  replies : Nat → List (List UInt8)

/-- What is read from the header is what the record loop goes by. -/
def Sys.findHeader (s : Sys T V R) (c : Nat) (cursor : Usize) (h : RequestRecordHeader) :
    Sys T V R :=
  let ch := s.chan c
  let rec_ := { ch.records cursor with hdr := ⟨h.propertyPtr, h.repeatCount⟩ }
  s.setChan c { ch with records := Function.update ch.records cursor rec_ }

def Sys.findClosure (s : Sys T V R) (c : Nat) (cursor : Usize) (env : Closure T R)
    (args : List UInt8) : Sys T V R :=
  let ch := s.chan c
  let rec_ := { ch.records cursor with env := env, args := args }
  s.setChan c { ch with records := Function.update ch.records cursor rec_ }

namespace Slotted

variable {P : Platform T V R}

inductive Action (P : Platform T V R) where
  | register : Action P
  | begin_ (c : Nat) (x : Compiled P) : Action P
  | client (c : Nat) : Action P
  | trustee : Action P
  | fiber (j : Nat) : Action P
  | dropValue (c : Nat) : Action P
  | dropHandle (c : Nat) : Action P

def init (header : RequestRecordHeader) (value : T) : Slotted P where
  sys := Sys.init value
  request := fun _ _ => 0
  response := fun _ _ => 0
  stage := fun _ => .idle
  header := header
  env := none
  jobHeader := fun _ => header
  replies := fun _ => []

def setStage (b : Slotted P) (c : Nat) (st : Stage P) : Slotted P :=
  { b with stage := Function.update b.stage c st }

def setRequest (b : Slotted P) (c : Nat) (m : Bytes) : Slotted P :=
  { b with request := Function.update b.request c m }

def setResponse (b : Slotted P) (c : Nat) (m : Bytes) : Slotted P :=
  { b with response := Function.update b.response c m }

def beginCall (b : Slotted P) (c : Nat) (x : Compiled P) : Option (Slotted P) :=
  match b.stage c, (b.sys.client c).pc with
  | .idle, .idle => if c < b.sys.created then some (b.setStage c (.serialize x)) else none
  | _, _ => none

def replyBytes (b : Slotted P) (c : Nat) : Op T V R → List UInt8
  | .applyBatchMut _ _ => []
  | .intoInner => (b.response c).read headerBytes.toNat P.value.size
  | _ => (b.response c).read headerBytes.toNat P.result.size

/-- The next step of a client: serialization, the reservation and the write of the
environment, those of the arguments, the write of the header, and then the handshake. -/
def clientStep (b : Slotted P) (c : Nat) : Option (Slotted P) :=
  match b.stage c with
  | .idle => none
  | .serialize x =>
    match x.op.args P.bin with
    | none => some (b.setStage c (.panicked "bincode serialize"))
    | some args => some (b.setStage c (.env x args))
  | .env x args =>
    let w : SlotWriter := ⟨b.request c, slotBytes, hdrOffset + recordHeaderSize⟩
    match (w.allocAligned x.capture.size x.capture.align).2 with
    | .error msg => some (b.setStage c (.panicked msg))
    | .ok env =>
      let m := if x.capture.size ≠ 0 then (b.request c).write env.toNat x.capture.bytes
        else b.request c
      some ((b.setRequest c m).setStage c (.args x args env))
  | .args x args env =>
    let w : SlotWriter := ⟨b.request c, slotBytes, env + x.capture.size⟩
    match (w.allocAligned (BitVec.ofNat 64 args.length) 1).2 with
    | .error msg => some (b.setStage c (.panicked msg))
    | .ok pos =>
      some ((b.setRequest c ((b.request c).write pos.toNat args)).setStage c
        (.header x args env pos))
  | .header x args env pos => do
    let sys ← b.sys.issue P.bin c x.op
    let hdr := x.header (P.base c) args env pos
    some ({ b.setRequest c ((b.request c).write hdrOffset.toNat hdr.bytes) with
      sys := sys }.setStage c (.issued x args))
  | .issued x _ => do
    let sys ← b.sys.clientStep c
    match (b.sys.client c).pc with
    | .reading _ =>
      let replies := Function.update b.replies c (b.replies c ++ [b.replyBytes c x.op])
      some ({ b with sys := sys, replies := replies }.setStage c .idle)
    | _ => some { b with sys := sys }
  | .panicked _ => some (b.setStage c .idle)

def withSys (b : Slotted P) (sys : Option (Sys T V R)) : Option (Slotted P) :=
  sys.map (fun sys => { b with sys := sys })

def readEnv (b : Slotted P) (c : Nat) (h : RequestRecordHeader) : List UInt8 :=
  (b.request c).read (h.data - P.base c).toNat (P.image.envSize h.vtable)

def writeResult (b : Slotted P) (c : Nat) : Option R → Slotted P
  | some r => b.setResponse c ((b.response c).write headerBytes.toNat (P.result.bytes r))
  | none => b

/-- The trustee loop: it copies the header of a record, reads the environment for each call
and the arguments behind it, and writes results and the moved value. -/
def trusteeStep (b : Slotted P) : Option (Slotted P) :=
  match b.sys.pc with
  | .record batch =>
    if batch.left = 0 then b.withSys b.sys.trusteeStep
    else
      let c := batch.chan
      let cursor := nextBoundaryOffset batch.cursor recordHeaderSize recordHeaderAlign
      match RequestRecordHeader.ofBytes
        ((b.request c).read cursor.toNat recordHeaderSize.toNat) with
      | none => none
      | some h =>
        let jobHeader := if h.propertyPtr = .launch
          then Function.update b.jobHeader b.sys.jobs.length h else b.jobHeader
        { b with header := h, jobHeader := jobHeader }.withSys
          (b.sys.findHeader c cursor h).trusteeStep
  | .calling batch hdr k =>
    if hdr.propertyPtr = .callMutRetUnit ∧ ¬ k < hdr.repeatCount.toNat then
      b.withSys b.sys.trusteeStep
    else
      let c := batch.chan
      match b.env with
      | none => some { b with env := some (b.readEnv c b.header) }
      | some bytes =>
        let args := (b.request c).read b.header.argsOffset.toNat b.header.argsLen.toNat
        let env := P.image.call b.header.vtable bytes
        { b with env := none }.withSys
          (b.sys.findClosure c batch.cursor env args).trusteeStep
  | .writeOut batch r => (b.writeResult batch.chan r).withSys b.sys.trusteeStep
  | .moveOut batch =>
    (b.setResponse batch.chan ((b.response batch.chan).write headerBytes.toNat
      (P.value.bytes b.sys.prop))).withSys b.sys.trusteeStep
  | _ => b.withSys b.sys.trusteeStep

/-- A launch job's fiber goes by the header its job has captured. -/
def fiberStep (b : Slotted P) (j : Nat) : Option (Slotted P) :=
  match b.sys.jobs[j]? with
  | none => none
  | some job =>
    match b.sys.fiber j with
    | .queued =>
      let h := b.jobHeader j
      let env := P.image.call h.vtable (b.readEnv job.chan h)
      b.withSys ((b.sys.findClosure job.chan job.cursor env []).fiberStep j)
    | .writing r => (b.writeResult job.chan r).withSys (b.sys.fiberStep j)
    | _ => b.withSys (b.sys.fiberStep j)

def dropHandle (b : Slotted P) (c : Nat) : Option (Slotted P) :=
  match b.stage c with
  | .idle => b.withSys (b.sys.dropHandle c)
  | _ => none

def step (b : Slotted P) : Action P → Option (Slotted P)
  | .register => some { b with sys := b.sys.register }
  | .begin_ c x => b.beginCall c x
  | .client c => b.clientStep c
  | .trustee => b.trusteeStep
  | .fiber j => b.fiberStep j
  | .dropValue c => b.withSys (b.sys.dropValue c)
  | .dropHandle c => b.dropHandle c

end Slotted

/-! Closures whose captures are single bytes, for runs. -/

def adding (d : UInt8) : Body Nat Nat := fun t => (t + d.toNat, .returned t)

def doubling : Body Nat Unit := fun t => (2 * t, .returned ())

def byteImage : Image Nat Nat where
  envSize vtable := if vtable = 1 ∨ vtable = 2 then 1 else if vtable = 5 then 4096 else 0
  call vtable bytes :=
    match vtable.toNat, bytes with
    | 1, [d] => (Op.apply (adding d)).env byteBincode
    | 2, [d] => (Op.launch (adding d)).env byteBincode
    | 3, _ => (Op.applyWith adding 0).env byteBincode
    | 4, _ => (Op.applyBatchMut doubling 0).env byteBincode
    | 5, _ => (Op.with_ (adding 0)).env byteBincode
    | _, _ => Op.intoInner.env byteBincode

def wordLayout : Layout Nat := ⟨8, LittleEndian.bytes 8, LittleEndian.length_bytes 8⟩

def bytePlatform : Platform Nat UInt8 Nat where
  bin := byteBincode
  image := byteImage
  base c := BitVec.ofNat 64 (4096 * (c + 1))
  result := wordLayout
  value := wordLayout

def Compiled.applyAdding (d : UInt8) : Compiled bytePlatform where
  op := .apply (adding d)
  vtable := 1
  capture := ⟨1, 1, [d], rfl⟩
  handle := by simp
  envSize := rfl
  code := rfl
  align := ⟨0, rfl⟩
  captureSize := by simp
  argsSize := by rintro _ ⟨⟩; simp

def Compiled.launchAdding (d : UInt8) : Compiled bytePlatform where
  op := .launch (adding d)
  vtable := 2
  capture := ⟨1, 1, [d], rfl⟩
  handle := by simp
  envSize := rfl
  code := rfl
  align := ⟨0, rfl⟩
  captureSize := by simp
  argsSize := by rintro _ ⟨⟩; simp

def Compiled.oversized : Compiled bytePlatform where
  op := .with_ (adding 0)
  vtable := 5
  capture := ⟨4096, 1, List.replicate 4096 0, List.length_replicate⟩
  handle := by simp
  envSize := rfl
  code := rfl
  align := ⟨0, rfl⟩
  captureSize := by simp
  argsSize := by rintro _ ⟨⟩; simp

end TrustTee
