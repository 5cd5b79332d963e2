import TrustTee.Slotted

set_option autoImplicit false

namespace TrustTee
open Header

variable {T V R : Type} {P : Platform T V R}

def Compiled.record (x : Compiled P) (base : Usize) (args : List UInt8) : RequestRecordHeader :=
  x.header base args (envOffset x.capture) (argsOffset x.capture args)

/-- The slot's bytes are the record of `x`, read the way the worker reads it. -/
structure Written (x : Compiled P) (base : Usize) (args : List UInt8) (m : Bytes) : Prop where
  header : RequestRecordHeader.ofBytes (m.read hdrOffset.toNat recordHeaderSize.toNat) =
    some (x.record base args)
  env : m.read ((x.record base args).data - base).toNat (P.image.envSize x.vtable) =
    x.capture.bytes
  args : m.read (x.record base args).argsOffset.toNat (x.record base args).argsLen.toNat = args

theorem Compiled.written (x : Compiled P) (base : Usize) {args : List UInt8} (m : Bytes)
    (hargs : x.op.args P.bin = some args) (henv : envOffset x.capture + x.capture.size ≤ slotBytes)
    (hpos : argsOffset x.capture args + BitVec.ofNat 64 args.length ≤ slotBytes) :
    Written x base args (((m.write (envOffset x.capture).toNat x.capture.bytes).write
      (argsOffset x.capture args).toNat args).write hdrOffset.toNat
        (x.record base args).bytes) := by
  obtain ⟨k, hk⟩ := x.align
  have henc : encodeRecord base x.vtable x.op.hdr.propertyPtr x.op.hdr.repeatCount m x.capture
      args = (((m.write (envOffset x.capture).toNat x.capture.bytes).write
        (argsOffset x.capture args).toNat args).write hdrOffset.toNat
          (x.record base args).bytes, .ok (x.record base args)) := by
    rw [encodeRecord_eq]
    simp only [if_pos henv, if_pos hpos]
    rfl
  have hok : (encodeRecord base x.vtable x.op.hdr.propertyPtr x.op.hdr.repeatCount m x.capture
      args).2 = .ok (x.record base args) := by
    rw [henc]
  have hread := (encodeRecord_wellPlaced hk x.captureSize (x.argsSize args hargs) hok).readBack
  rw [henc] at hread
  have hcursor : nextBoundaryOffset headerBytes recordHeaderSize recordHeaderAlign = hdrOffset :=
    rfl
  unfold readRecord at hread
  rw [hcursor] at hread
  obtain ⟨h, hh, htuple⟩ := Option.map_eq_some_iff.mp hread
  simp only [Prod.mk.injEq] at htuple
  obtain ⟨rfl, hbytes, hargs'⟩ := htuple
  exact ⟨hh, by rw [x.envSize]; exact hbytes, hargs'⟩

namespace Slotted

def StageOk (b : Slotted P) (c : Nat) : Prop :=
  match b.stage c with
  | .idle => (b.sys.client c).pc.op? = none
  | .serialize _ | .panicked _ => (b.sys.client c).pc = .idle
  | .env x args => (b.sys.client c).pc = .idle ∧ x.op.args P.bin = some args
  | .args x args env => (b.sys.client c).pc = .idle ∧ x.op.args P.bin = some args ∧
      env = envOffset x.capture ∧ env + x.capture.size ≤ slotBytes ∧
      ∃ m : Bytes, b.request c = m.write env.toNat x.capture.bytes
  | .header x args env pos => (b.sys.client c).pc = .idle ∧ x.op.args P.bin = some args ∧
      env = envOffset x.capture ∧ env + x.capture.size ≤ slotBytes ∧
      pos = argsOffset x.capture args ∧ pos + BitVec.ofNat 64 args.length ≤ slotBytes ∧
      ∃ m : Bytes, b.request c = (m.write env.toNat x.capture.bytes).write pos.toNat args
  | .issued x args => (b.sys.client c).pc.op? = some x.op ∧ x.op.args P.bin = some args ∧
      Written x (P.base c) args (b.request c)

def ReplyOk (b : Slotted P) (c : Nat) : Prop :=
  match (b.sys.chan c).respData with
  | .result (some r) =>
    (b.response c).read headerBytes.toNat P.result.size = P.result.bytes r
  | .moved t => (b.response c).read headerBytes.toNat P.value.size = P.value.bytes t
  | _ => True

def Copied (b : Slotted P) (c : Nat) (h : RequestRecordHeader) : Prop :=
  ∃ x args, b.stage c = .issued x args ∧ h = x.record (P.base c) args

structure Inv (value : T) (b : Slotted P) : Prop where
  reach : Reachable P.bin (fun _ _ => True) value b.sys
  stage : ∀ c, b.StageOk c
  reply : ∀ c, b.ReplyOk c
  header : ∀ batch, b.sys.pc.called? = some batch → b.Copied batch.chan b.header
  env : ∀ bytes, b.env = some bytes → ∃ batch hdr k x args, b.sys.pc = .calling batch hdr k ∧
    ¬ (hdr.propertyPtr = .callMutRetUnit ∧ ¬ k < hdr.repeatCount.toNat) ∧
    b.stage batch.chan = .issued x args ∧ bytes = x.capture.bytes
  job : ∀ j job, b.sys.jobs[j]? = some job → b.sys.fiber j = .queued →
    b.Copied job.chan (b.jobHeader j)

section Steps

variable {value : T} {b b' : Slotted P}

theorem Inv.init (header : RequestRecordHeader) (value : T) :
    Inv value (Slotted.init header value : Slotted P) where
  reach := .start
  stage := fun _ => rfl
  reply := fun _ => trivial
  header := by simp [Slotted.init, Sys.init, TrusteePc.called?]
  env := by simp [Slotted.init]
  job := by simp [Slotted.init, Sys.init]

theorem Inv.issued (h : Inv value b) {c : Nat} {op : Op T V R}
    (hop : (b.sys.client c).pc.op? = some op) : ∃ x args, b.stage c = .issued x args ∧
      x.op = op ∧ x.op.args P.bin = some args ∧ Written x (P.base c) args (b.request c) := by
  have hst := h.stage c
  unfold StageOk at hst
  cases hs : b.stage c with
  | idle => simp [hs, hop] at hst
  | serialize x => simp [hs] at hst; simp [hst, ClientPc.op?] at hop
  | panicked msg => simp [hs] at hst; simp [hst, ClientPc.op?] at hop
  | env x args => simp [hs] at hst; simp [hst.1, ClientPc.op?] at hop
  | args x args env => simp only [hs] at hst; simp [hst.1, ClientPc.op?] at hop
  | header x args env pos => simp only [hs] at hst; simp [hst.1, ClientPc.op?] at hop
  | issued x args =>
    simp only [hs] at hst
    obtain ⟨hop', hargs, hw⟩ := hst
    exact ⟨x, args, rfl, Option.some.inj (hop'.symm.trans hop), hargs, hw⟩

/-- The ghost record of a published request is the one its bytes encode. -/
theorem Inv.ghost (h : Inv value b) {c : Nat} {op : Op T V R} {r : Bool}
    (hpc : (b.sys.client c).pc = .waiting op r) : ∃ x args, b.stage c = .issued x args ∧
      x.op = op ∧ Written x (P.base c) args (b.request c) ∧
      (b.sys.chan c).records hdrOffset =
        ⟨x.op.hdr, x.op.env P.bin, args, (b.sys.client c).seq⟩ := by
  have hop : (b.sys.client c).pc.op? = some op := by simp [hpc, ClientPc.op?]
  obtain ⟨x, args, hs, rfl, hargs, hw⟩ := h.issued hop
  refine ⟨x, args, hs, rfl, hw, ?_⟩
  have hcl := h.reach.inv.client c
  simp only [ClientOk, hpc] at hcl
  have hholds : x.op.encode P.bin (b.sys.client c).seq = some _ := hcl.2.2.1
  rw [Op.encode_eq, hargs] at hholds
  exact (Option.some.inj hholds).symm

end Steps

end Slotted

theorem Sys.setChan_self (s : Sys T V R) (c : Nat) : s.setChan c (s.chan c) = s := by
  simp [Sys.setChan]

theorem Sys.findHeader_self {s : Sys T V R} {c : Nat} {cursor : Usize} {h : RequestRecordHeader}
    (hh : ((s.chan c).records cursor).hdr = ⟨h.propertyPtr, h.repeatCount⟩) :
    s.findHeader c cursor h = s := by
  unfold Sys.findHeader
  dsimp only
  rw [← hh]
  simp only [Function.update_eq_self]
  exact s.setChan_self c

theorem Sys.findClosure_self {s : Sys T V R} {c : Nat} {cursor : Usize} {env : Closure T R}
    {args : List UInt8} (henv : ((s.chan c).records cursor).env = env)
    (hargs : ((s.chan c).records cursor).args = args) : s.findClosure c cursor env args = s := by
  unfold Sys.findClosure
  dsimp only
  rw [← henv, ← hargs]
  simp only [Function.update_eq_self]
  exact s.setChan_self c

namespace Slotted

/-- The trustee loop by the operations that the clients are in, not by their bytes. -/
def trusteeSpec (b : Slotted P) : Option (Slotted P) :=
  match b.sys.pc with
  | .record batch =>
    if batch.left = 0 then b.withSys b.sys.trusteeStep
    else
      match b.stage batch.chan with
      | .issued x args =>
        let h := x.record (P.base batch.chan) args
        let jobHeader := if h.propertyPtr = .launch
          then Function.update b.jobHeader b.sys.jobs.length h else b.jobHeader
        { b with header := h, jobHeader := jobHeader }.withSys b.sys.trusteeStep
      | _ => none
  | .calling batch hdr k =>
    if hdr.propertyPtr = .callMutRetUnit ∧ ¬ k < hdr.repeatCount.toNat then
      b.withSys b.sys.trusteeStep
    else
      match b.env, b.stage batch.chan with
      | none, .issued x _ => some { b with env := some x.capture.bytes }
      | none, _ => none
      | some _, _ => { b with env := none }.withSys b.sys.trusteeStep
  | .writeOut batch r => (b.writeResult batch.chan r).withSys b.sys.trusteeStep
  | .moveOut batch =>
    (b.setResponse batch.chan ((b.response batch.chan).write headerBytes.toNat
      (P.value.bytes b.sys.prop))).withSys b.sys.trusteeStep
  | _ => b.withSys b.sys.trusteeStep

def fiberSpec (b : Slotted P) (j : Nat) : Option (Slotted P) :=
  match b.sys.jobs[j]?, b.sys.fiber j with
  | some job, .writing r => (b.writeResult job.chan r).withSys (b.sys.fiberStep j)
  | _, _ => b.withSys (b.sys.fiberStep j)

section Spec

variable {value : T} {b b' : Slotted P}

theorem Inv.trusteeStep_eq (h : Inv value b) : b.trusteeStep = b.trusteeSpec := by
  have hi := h.reach.inv
  unfold trusteeStep trusteeSpec
  cases hpc : b.sys.pc with
  | record batch =>
    by_cases hleft : batch.left = 0
    · simp only [if_pos hleft]
    · simp only [if_neg hleft]
      obtain ⟨op, ho, _, _⟩ := hi.recordStep_taken hpc hleft
      obtain ⟨x, args, hs, rfl, hw, hrec⟩ := h.ghost ho.1
      obtain ⟨_, _, _, hcursor⟩ := hi.at_record hpc hleft
      have hfind : b.sys.findHeader batch.chan hdrOffset (x.record (P.base batch.chan) args) =
          b.sys := Sys.findHeader_self (by rw [hrec]; rfl)
      simp only [hcursor, hw.header, hs, hfind]
  | calling batch hdr k =>
    have hb : b.sys.pc.batch? = some batch := by rw [hpc]; rfl
    obtain ⟨op, hsv, _⟩ := hi.serving batch hb
    obtain ⟨x, args, hs, rfl, hw, hrec⟩ := h.ghost hsv.1
    obtain ⟨x', args', hs', hcopy⟩ := h.header batch (by rw [hpc]; rfl)
    obtain ⟨rfl, rfl⟩ := Stage.issued.inj (hs'.symm.trans hs)
    have hcursor : batch.cursor = hdrOffset := by
      have hshape := hi.shape
      simp only [hpc, Shape] at hshape
      exact hshape.2.2.1
    by_cases hfin : hdr.propertyPtr = .callMutRetUnit ∧ ¬ k < hdr.repeatCount.toNat
    · simp only [if_pos hfin]
    · simp only [if_neg hfin]
      cases henv : b.env with
      | none =>
        have hread : b.readEnv batch.chan b.header = x'.capture.bytes := by
          unfold readEnv
          rw [hcopy]
          exact hw.env
        simp only [hs, hread]
      | some bytes =>
        obtain ⟨batch', _, _, y, _, hpc', _, hy, rfl⟩ := h.env bytes henv
        obtain rfl : batch' = batch := by
          rw [hpc] at hpc'
          exact (TrusteePc.calling.inj hpc').1.symm
        obtain ⟨rfl, _⟩ := Stage.issued.inj (hy.symm.trans hs)
        have hcode : P.image.call b.header.vtable y.capture.bytes = y.op.env P.bin := by
          rw [hcopy]
          exact y.code
        have hargs : (b.request batch'.chan).read b.header.argsOffset.toNat
            b.header.argsLen.toNat = args' := by
          rw [hcopy]
          exact hw.args
        have hfind : b.sys.findClosure batch'.chan batch'.cursor (y.op.env P.bin) args' =
            b.sys := Sys.findClosure_self (by rw [hcursor, hrec]) (by rw [hcursor, hrec])
        simp only [hargs, hcode, hfind]
  | _ => rfl

theorem Inv.fiberStep_eq (h : Inv value b) (j : Nat) : b.fiberStep j = b.fiberSpec j := by
  have hi := h.reach.inv
  unfold fiberStep fiberSpec
  cases hj : b.sys.jobs[j]? with
  | none =>
    have hnone : b.sys.fiberStep j = none := by simp [Sys.fiberStep, hj]
    simp [withSys, hnone]
  | some job =>
    cases hpc : b.sys.fiber j with
    | queued =>
      obtain ⟨_, hcursor, hopen, _⟩ := (hi.job j job hj).2
      obtain ⟨_, _, f, hwait⟩ := hopen (by rw [hpc]; rfl)
      obtain ⟨x, args, hs, hop, hw, hrec⟩ := h.ghost hwait
      obtain ⟨x', args', hs', hcopy⟩ := h.job j job hj hpc
      obtain ⟨rfl, rfl⟩ := Stage.issued.inj (hs'.symm.trans hs)
      have hread : b.readEnv job.chan (b.jobHeader j) = x'.capture.bytes := by
        unfold readEnv
        rw [hcopy]
        exact hw.env
      have hcode : P.image.call (b.jobHeader j).vtable x'.capture.bytes = x'.op.env P.bin := by
        rw [hcopy]
        exact x'.code
      -- a launch has no arguments
      have hargs : args' = [] := by
        have hst := h.stage job.chan
        simp only [StageOk, hs, hop, Op.args, Option.some.injEq] at hst
        exact hst.2.1.symm
      have hfind : b.sys.findClosure job.chan job.cursor (x'.op.env P.bin) [] = b.sys :=
        Sys.findClosure_self (by rw [hcursor, hrec]) (by rw [hcursor, hrec, hargs])
      simp only [hread, hcode, hfind]
    | _ => rfl

theorem Inv.called_waits (h : Inv value b) {batch : Batch}
    (hb : b.sys.pc.called? = some batch) :
    ∃ op r, (b.sys.client batch.chan).pc = .waiting op r := by
  have hb' : b.sys.pc.batch? = some batch := by
    cases hpc : b.sys.pc <;> simp only [hpc, TrusteePc.called?, reduceCtorEq] at hb
    all_goals exact hb
  obtain ⟨op, hsv, _⟩ := h.reach.inv.serving batch hb'
  exact ⟨op, batch.reqReady, hsv.1⟩

theorem Inv.queued_waits (h : Inv value b) {j : Nat} {job : Job}
    (hj : b.sys.jobs[j]? = some job) (hq : b.sys.fiber j = .queued) :
    ∃ op r, (b.sys.client job.chan).pc = .waiting op r := by
  obtain ⟨_, _, hopen, _⟩ := (h.reach.inv.job j job hj).2
  obtain ⟨_, _, f, hwait⟩ := hopen (by rw [hq]; rfl)
  exact ⟨_, _, hwait⟩

theorem Inv.beside (h : Inv value b) (c : Nat)
    (hreach : Reachable P.bin (fun _ _ => True) value b'.sys)
    (hpc : b'.sys.pc = b.sys.pc) (hjobs : b'.sys.jobs = b.sys.jobs)
    (hfiber : b'.sys.fiber = b.sys.fiber)
    (hdata : ∀ c, (b'.sys.chan c).respData = (b.sys.chan c).respData)
    (hresp : b'.response = b.response) (hheader : b'.header = b.header) (henv : b'.env = b.env)
    (hjobHeader : b'.jobHeader = b.jobHeader)
    (hother : ∀ c', c' ≠ c → b'.stage c' = b.stage c' ∧ b'.request c' = b.request c' ∧
      b'.sys.client c' = b.sys.client c')
    (hok : b'.StageOk c)
    (hkept : (∃ op r, (b.sys.client c).pc = .waiting op r) → b'.stage c = b.stage c) :
    Inv value b' := by
  have hcopied : ∀ c' hdr, (∃ op r, (b.sys.client c').pc = .waiting op r) →
      b.Copied c' hdr → b'.Copied c' hdr := by
    intro c' hdr hwait ⟨x, args, hs, he⟩
    refine ⟨x, args, ?_, he⟩
    by_cases hc : c' = c
    · subst hc
      rw [hkept hwait, hs]
    · rw [(hother c' hc).1, hs]
  refine ⟨hreach, fun c' => ?_, fun c' => ?_, fun batch hb => ?_, fun bytes hb => ?_,
    fun j job hj hq => ?_⟩
  · by_cases hc : c' = c
    · exact hc ▸ hok
    · obtain ⟨hs, hr, hcl⟩ := hother c' hc
      have hst := h.stage c'
      unfold StageOk at *
      rw [hs, hr, hcl]
      exact hst
  · have hrep := h.reply c'
    unfold ReplyOk at *
    rw [hdata, hresp]
    exact hrep
  · rw [hpc] at hb
    rw [hheader]
    exact hcopied batch.chan _ (h.called_waits hb) (h.header batch hb)
  · rw [henv] at hb
    obtain ⟨batch, hdr, k, x, args, hcall, hfin, hs, rfl⟩ := h.env bytes hb
    have hcalled : b.sys.pc.called? = some batch := by rw [hcall]; rfl
    have hwait := h.called_waits hcalled
    refine ⟨batch, hdr, k, x, args, hpc.trans hcall, hfin, ?_, rfl⟩
    by_cases hc : batch.chan = c
    · subst hc
      rw [hkept hwait, hs]
    · rw [(hother _ hc).1, hs]
  · rw [hjobs] at hj
    rw [hfiber] at hq
    rw [hjobHeader]
    exact hcopied job.chan _ (h.queued_waits hj hq) (h.job j job hj hq)

theorem Inv.outside (h : Inv value b) {a : TrustTee.Action T V R} {sys : Sys T V R} (c : Nat)
    (hs : b.sys.step P.bin a = some sys) (hbeside : b.sys.Beside a sys)
    (hother : ∀ c', c' ≠ c → sys.client c' = b.sys.client c')
    (hstage : b.stage c = .idle ∨ sys.client c = b.sys.client c)
    (hpc : (sys.client c).pc.op? = none ∨ sys.client c = b.sys.client c) :
    Inv value { b with sys := sys } := by
  obtain ⟨hp, _, _, hjobs, hfiber⟩ := hbeside.worker
  refine h.beside c (h.reach.next (by cases a <;> trivial) hs) hp hjobs hfiber hbeside.respData
    rfl rfl rfl rfl (fun c' hc => ⟨rfl, rfl, hother c' hc⟩) ?_ (fun _ => rfl)
  have hst := h.stage c
  unfold StageOk at *
  rcases hpc with hop | hcl
  · rcases hstage with hidle | hcl
    · simp only [hidle]
      exact hop
    · dsimp only
      rw [hcl]
      exact hst
  · dsimp only
    rw [hcl]
    exact hst

theorem Inv.encoding (h : Inv value b) {c : Nat} (hpc : (b.sys.client c).pc = .idle)
    (m : Bytes) {st : Stage P} (hok : ((b.setRequest c m).setStage c st).StageOk c) :
    Inv value ((b.setRequest c m).setStage c st) := by
  refine h.beside c h.reach rfl rfl rfl (fun _ => rfl) rfl rfl rfl rfl (fun c' hc => ?_) hok ?_
  · simp [setRequest, setStage, Function.update_of_ne hc]
  · rintro ⟨op, r, hw⟩
    simp [hpc] at hw

theorem setRequest_self (b : Slotted P) (c : Nat) : b.setRequest c (b.request c) = b := by
  simp [setRequest]

theorem Inv.staged (h : Inv value b) {c : Nat} (hpc : (b.sys.client c).pc = .idle)
    {st : Stage P} (hok : (b.setStage c st).StageOk c) : Inv value (b.setStage c st) := by
  have hsame := b.setRequest_self c
  have hk : Inv value ((b.setRequest c (b.request c)).setStage c st) :=
    h.encoding hpc (b.request c) (by rw [hsame]; exact hok)
  rwa [hsame] at hk

theorem Inv.beginCall (h : Inv value b) {c : Nat} {x : Compiled P}
    (hs : b.beginCall c x = some b') : Inv value b' := by
  unfold Slotted.beginCall at hs
  split at hs
  · rename_i hpc
    split at hs <;> simp only [Option.some.injEq, reduceCtorEq] at hs
    subst hs
    exact h.staged hpc (by simpa [StageOk, setStage] using hpc)
  · simp at hs

theorem allocAligned_ok {w : SlotWriter} {size align pos : Usize}
    (h : (w.allocAligned size align).2 = .ok pos) :
    pos = nextBoundaryOffset w.cursor size align ∧ pos + size ≤ w.len := by
  unfold SlotWriter.allocAligned at h
  dsimp only at h
  split at h
  · rename_i hfit
    obtain rfl := Except.ok.inj h
    exact ⟨rfl, hfit⟩
  · simp at h

theorem Inv.publish (h : Inv value b) {c : Nat} {x : Compiled P} {args : List UInt8}
    {env pos : Usize} {sys : Sys T V R} (hst : b.stage c = .header x args env pos)
    (hs : b.sys.issue P.bin c x.op = some sys) :
    Inv value ({ b.setRequest c ((b.request c).write hdrOffset.toNat
      (x.header (P.base c) args env pos).bytes) with sys := sys }.setStage c
        (.issued x args)) := by
  have hok := h.stage c
  simp only [StageOk, hst] at hok
  obtain ⟨hpc, hargs, rfl, henv, rfl, hpos, m, hm⟩ := hok
  have hstep : b.sys.step P.bin (.issue c x.op) = some sys := hs
  have hbeside := Sys.issue_beside hs
  obtain ⟨hp, _, _, hjobs, hfiber⟩ := hbeside.worker
  obtain ⟨_, _, hencoded, hclient⟩ := Sys.issue_spec hs
  refine h.beside c (h.reach.next (by trivial) hstep) hp hjobs hfiber hbeside.respData rfl rfl
    rfl rfl (fun c' hc => ?_) ?_ ?_
  · simp [setRequest, setStage, Function.update_of_ne hc, hclient c' hc]
  · have hw := x.written (P.base c) m hargs henv hpos
    rw [← hm] at hw
    simpa [StageOk, setRequest, setStage, hencoded, ClientPc.op?] using ⟨hargs, hw⟩
  · rintro ⟨op, r, hw⟩
    simp [hpc] at hw

theorem op?_handshake {c : Nat} {pc pc' : ClientPc T V R}
    (h : ClientPc.Next c (.client c) pc pc') (hread : ∀ op, pc ≠ .reading op) :
    pc'.op? = pc.op? := by
  cases h with
  | load op r | publish op r | answered op r _ => rfl
  | returned op _ => exact absurd rfl (hread op)
  | taken d => exact absurd rfl (hread .intoInner)

theorem Inv.handshake (h : Inv value b) {c : Nat} {x : Compiled P} {args : List UInt8}
    {sys : Sys T V R} (hst : b.stage c = .issued x args) (hs : b.sys.clientStep c = some sys)
    (hread : ∀ op, (b.sys.client c).pc ≠ .reading op) : Inv value { b with sys := sys } := by
  have hstep : b.sys.step P.bin (.client c) = some sys := hs
  have hbeside := Sys.clientStep_beside hs
  obtain ⟨hp, _, _, hjobs, hfiber⟩ := hbeside.worker
  refine h.beside c (h.reach.next (by trivial) hstep) hp hjobs hfiber hbeside.respData rfl rfl
    rfl rfl (fun c' hc => ⟨rfl, rfl, (Sys.clientStep_frame hs hc).1⟩) ?_ (fun _ => rfl)
  have hok := h.stage c
  simp only [StageOk, hst] at hok ⊢
  refine ⟨?_, hok.2⟩
  rw [← hok.1]
  rcases hbeside.client c with ⟨hcl, _⟩ | ⟨hnext, _⟩
  · rw [hcl]
  · exact op?_handshake hnext hread

theorem Inv.answered (h : Inv value b) {c : Nat} {op : Op T V R} {sys : Sys T V R}
    (hpc : (b.sys.client c).pc = .reading op) (hs : b.sys.clientStep c = some sys)
    (replies : Nat → List (List UInt8)) :
    Inv value ({ b with sys := sys, replies := replies }.setStage c .idle) := by
  have hstep : b.sys.step P.bin (.client c) = some sys := hs
  have hbeside := Sys.clientStep_beside hs
  obtain ⟨hp, _, _, hjobs, hfiber⟩ := hbeside.worker
  have hnone : (sys.client c).pc.op? = none := by
    simp only [Sys.clientStep, hpc] at hs
    cases op <;> obtain rfl := Option.some.inj hs <;> simp [Sys.log, Sys.setClient, ClientPc.op?]
  refine h.beside c (h.reach.next (by trivial) hstep) hp hjobs hfiber hbeside.respData rfl rfl
    rfl rfl (fun c' hc => ?_) ?_ ?_
  · simp [setStage, Function.update_of_ne hc, (Sys.clientStep_frame hs hc).1]
  · simpa [StageOk, setStage] using hnone
  · rintro ⟨op', r, hw⟩
    simp [hpc] at hw

theorem Inv.clientStep (h : Inv value b) {c : Nat} (hs : b.clientStep c = some b') :
    Inv value b' := by
  have hok := h.stage c
  unfold Slotted.clientStep at hs
  cases hst : b.stage c with
  | idle => simp [hst] at hs
  | serialize x =>
    simp only [StageOk, hst] at hok
    simp only [hst] at hs
    split at hs <;> obtain rfl := Option.some.inj hs
    · exact h.staged hok (by simpa [StageOk, setStage] using hok)
    · rename_i args hargs
      exact h.staged hok (by simpa [StageOk, setStage] using ⟨hok, hargs⟩)
  | env x args =>
    simp only [StageOk, hst] at hok
    obtain ⟨hpc, hargs⟩ := hok
    simp only [hst] at hs
    split at hs <;> obtain rfl := Option.some.inj hs
    · exact h.staged hpc (by simpa [StageOk, setStage] using hpc)
    · rename_i env henv
      obtain ⟨rfl, hfit⟩ := allocAligned_ok henv
      refine h.encoding hpc _ ?_
      simp only [StageOk, setStage, setRequest, Function.update_self]
      refine ⟨hpc, hargs, rfl, hfit, b.request c, ?_⟩
      split
      · rfl
      · rename_i hzero
        rw [Capture.bytes_nil (not_not.mp hzero), Bytes.write_nil]
  | args x args env =>
    simp only [StageOk, hst] at hok
    obtain ⟨hpc, hargs, rfl, hfit, m, hm⟩ := hok
    simp only [hst] at hs
    split at hs <;> obtain rfl := Option.some.inj hs
    · exact h.staged hpc (by simpa [StageOk, setStage] using hpc)
    · rename_i pos hpos
      obtain ⟨rfl, hfit'⟩ := allocAligned_ok hpos
      refine h.encoding hpc _ ?_
      simp only [StageOk, setStage, setRequest, Function.update_self]
      exact ⟨hpc, hargs, trivial, hfit, rfl, hfit', m, by rw [hm]⟩
  | header x args env pos =>
    simp only [hst] at hs
    obtain ⟨sys, hsys, hs⟩ := Option.bind_eq_some_iff.mp hs
    obtain rfl := Option.some.inj hs
    exact h.publish hst hsys
  | issued x args =>
    simp only [hst] at hs
    obtain ⟨sys, hsys, hs⟩ := Option.bind_eq_some_iff.mp hs
    split at hs <;> obtain rfl := Option.some.inj hs
    · exact h.answered ‹_› hsys _
    · exact h.handshake hst hsys (by assumption)
  | panicked msg =>
    simp only [StageOk, hst] at hok
    simp only [hst, Option.some.injEq] at hs
    subst hs
    exact h.staged hok (by simp [StageOk, setStage, hok, ClientPc.op?])

theorem Inv.worked (h : Inv value b) (hs : b.sys.trusteeStep = some b'.sys)
    (hstage : b'.stage = b.stage) (hreq : b'.request = b.request) (henv : b'.env = none)
    (hreply : ∀ c, b'.ReplyOk c)
    (hheader : ∀ batch, b'.sys.pc.called? = some batch → b'.Copied batch.chan b'.header)
    (hjob : ∀ j job, b'.sys.jobs[j]? = some job → b'.sys.fiber j = .queued →
      b'.Copied job.chan (b'.jobHeader j)) : Inv value b' := by
  have hstep : b.sys.step P.bin .trustee = some b'.sys := hs
  refine ⟨h.reach.next (by trivial) hstep, fun c => ?_, hreply, hheader, by simp [henv], hjob⟩
  have hok := h.stage c
  unfold StageOk at *
  rw [hstage, hreq, (Sys.trusteeStep_frame hs).1]
  exact hok

theorem Copied.congr {c : Nat} {hdr : RequestRecordHeader} (h : b.Copied c hdr)
    (hstage : b'.stage = b.stage) : b'.Copied c hdr := by
  obtain ⟨x, args, hs, he⟩ := h
  exact ⟨x, args, by rw [hstage, hs], he⟩

theorem Inv.plain (h : Inv value b) (hs : b.sys.trusteeStep = some b'.sys)
    (hrec : ∀ batch, b.sys.pc = .record batch → batch.left = 0)
    (hstage : b'.stage = b.stage) (hreq : b'.request = b.request) (henv : b'.env = none)
    (hheader : b'.header = b.header) (hjobHeader : b'.jobHeader = b.jobHeader)
    (hreply : ∀ c, b'.ReplyOk c) : Inv value b' := by
  obtain ⟨hjobs, hfiber⟩ := Sys.trusteeStep_jobs_kept hs hrec
  refine h.worked hs hstage hreq henv hreply (fun batch hb => ?_) (fun j job hj hq => ?_)
  · rw [hheader]
    rcases Sys.trusteeStep_called hs hb with ⟨batch', hpc, hleft⟩ | hb'
    · exact absurd (hrec batch' hpc) hleft
    · exact (h.header batch hb').congr hstage
  · rw [hjobHeader]
    exact (h.job j job (hjobs ▸ hj) (hfiber ▸ hq)).congr hstage

theorem Inv.env_none (h : Inv value b) (hpc : ∀ batch hdr k, b.sys.pc = .calling batch hdr k →
    hdr.propertyPtr = .callMutRetUnit ∧ ¬ k < hdr.repeatCount.toNat) : b.env = none := by
  cases henv : b.env with
  | none => rfl
  | some bytes =>
    obtain ⟨batch, hdr, k, _, _, hcall, hfin, _⟩ := h.env bytes henv
    exact absurd (hpc batch hdr k hcall) hfin

theorem ReplyOk.congr {c : Nat} (h : b.ReplyOk c)
    (hdata : (b'.sys.chan c).respData = (b.sys.chan c).respData)
    (hresp : b'.response c = b.response c) : b'.ReplyOk c := by
  unfold ReplyOk at *
  rw [hdata, hresp]
  exact h

theorem ReplyOk.written (h : ∀ c, b.ReplyOk c) {c : Nat} {r : Option R} {sys : Sys T V R}
    (hother : ∀ c', c' ≠ c → (sys.chan c').respData = (b.sys.chan c').respData)
    (hdata : (sys.chan c).respData = .result r) (c' : Nat) :
    ({ b.writeResult c r with sys := sys } : Slotted P).ReplyOk c' := by
  by_cases hc : c' = c
  · subst hc
    unfold ReplyOk
    cases r with
    | none => simp [hdata]
    | some r =>
      simp only [hdata, writeResult, setResponse, Function.update_self]
      rw [← P.result.length_bytes r]
      exact Bytes.read_write _ _ _
  · refine (h c').congr (hother c' hc) ?_
    cases r with
    | none => rfl
    | some r => simp [writeResult, setResponse, Function.update_of_ne hc]

theorem ReplyOk.movedOut (h : ∀ c, b.ReplyOk c) {c : Nat} {t : T} {sys : Sys T V R}
    (hother : ∀ c', c' ≠ c → (sys.chan c').respData = (b.sys.chan c').respData)
    (hdata : (sys.chan c).respData = .moved t) (c' : Nat) :
    ({ b.setResponse c ((b.response c).write headerBytes.toNat (P.value.bytes t)) with
      sys := sys } : Slotted P).ReplyOk c' := by
  by_cases hc : c' = c
  · subst hc
    unfold ReplyOk
    simp only [hdata, setResponse, Function.update_self]
    rw [← P.value.length_bytes t]
    exact Bytes.read_write _ _ _
  · exact (h c').congr (hother c' hc) (by simp [setResponse, Function.update_of_ne hc])

theorem Inv.takeUp (h : Inv value b) {batch : Batch} (hpc : b.sys.pc = .record batch)
    (hleft : batch.left ≠ 0) {x : Compiled P} {args : List UInt8}
    (hst : b.stage batch.chan = .issued x args) {sys : Sys T V R}
    (hs : b.sys.trusteeStep = some sys) :
    Inv value { b with
      sys := sys
      header := x.record (P.base batch.chan) args
      jobHeader := if (x.record (P.base batch.chan) args).propertyPtr = .launch
        then Function.update b.jobHeader b.sys.jobs.length (x.record (P.base batch.chan) args)
        else b.jobHeader } := by
  obtain ⟨op, ho, htaken, _⟩ := h.reach.inv.recordStep_taken hpc hleft
  obtain ⟨x', args', hst', rfl, _⟩ := h.ghost ho.1
  obtain ⟨rfl, rfl⟩ := Stage.issued.inj (hst'.symm.trans hst)
  have hsys : sys = b.sys.taken { batch with cursor := hdrOffset } x'.op := by
    simp only [Sys.trusteeStep, hpc, Option.some.injEq] at hs
    rw [← hs, htaken]
  have hdata := Sys.trusteeStep_respData hs (by simp [hpc]) (by simp [hpc])
  have hcopy : ∀ b'' : Slotted P, b''.stage = b.stage →
      b''.Copied batch.chan (x'.record (P.base batch.chan) args') :=
    fun b'' hb => ⟨x', args', by rw [hb, hst], rfl⟩
  refine h.worked hs rfl rfl (h.env_none (by simp [hpc]))
    (fun c => (h.reply c).congr (hdata c) rfl) (fun batch' hb => ?_) (fun j job hj hq => ?_)
  · have hchan : batch'.chan = batch.chan := by
      rw [hsys] at hb
      cases hop : x'.op <;> simp only [hop, Sys.taken, Sys.goto, Sys.dispatch,
        TrusteePc.called?, Option.some.injEq, reduceCtorEq] at hb <;> rw [← hb]
    rw [hchan]
    exact hcopy _ rfl
  · have hptr : (x'.record (P.base batch.chan) args').propertyPtr = x'.op.hdr.propertyPtr := rfl
    dsimp only at hj hq ⊢
    rw [hsys] at hj hq
    cases hop : x'.op with
    | launch f =>
      rw [if_pos (by rw [hptr, hop]; rfl)]
      simp only [hop, Sys.taken, Sys.dispatch] at hj hq
      by_cases hlt : j < b.sys.jobs.length
      · rw [List.getElem?_append_left hlt] at hj
        rw [Function.update_of_ne (Nat.ne_of_lt hlt)] at hq ⊢
        exact (h.job j job hj hq).congr rfl
      · obtain rfl : j = b.sys.jobs.length := by
          have := (List.getElem?_eq_some_iff.mp hj).1
          simp only [List.length_append, List.length_singleton] at this
          omega
        simp only [List.getElem?_append_right (Nat.le_refl _), Nat.sub_self,
          List.getElem?_cons_zero, Option.some.injEq] at hj
        subst hj
        rw [Function.update_self]
        exact hcopy _ rfl
    | terminate => exact absurd hop x'.handle
    | _ =>
      rw [if_neg (by rw [hptr, hop]; simp [Op.hdr])]
      simp only [hop, Sys.taken, Sys.goto] at hj hq
      exact (h.job j job hj hq).congr rfl

theorem Inv.trusteeSpec (h : Inv value b) (hs : b.trusteeSpec = some b') : Inv value b' := by
  unfold Slotted.trusteeSpec at hs
  cases hpc : b.sys.pc with
  | record batch =>
    simp only [hpc] at hs
    split at hs
    · rename_i hleft
      obtain ⟨sys, hsys, rfl⟩ := Option.map_eq_some_iff.mp hs
      exact h.plain hsys (by simp [hpc, hleft]) rfl rfl (h.env_none (by simp [hpc])) rfl rfl
        (fun c => (h.reply c).congr
          (Sys.trusteeStep_respData hsys (by simp [hpc]) (by simp [hpc]) c) rfl)
    · rename_i hleft
      split at hs
      · rename_i x args hst
        obtain ⟨sys, hsys, rfl⟩ := Option.map_eq_some_iff.mp hs
        exact h.takeUp hpc hleft hst hsys
      · simp at hs
  | calling batch hdr k =>
    simp only [hpc] at hs
    split at hs
    · rename_i hfin
      obtain ⟨sys, hsys, rfl⟩ := Option.map_eq_some_iff.mp hs
      refine h.plain hsys (by simp [hpc]) rfl rfl (h.env_none ?_) rfl rfl
        (fun c => (h.reply c).congr
          (Sys.trusteeStep_respData hsys (by simp [hpc]) (by simp [hpc]) c) rfl)
      rintro _ _ _ he
      obtain ⟨rfl, rfl, rfl⟩ := TrusteePc.calling.inj (hpc.symm.trans he)
      exact hfin
    · rename_i hfin
      split at hs
      · rename_i x args _ hst
        obtain rfl := Option.some.inj hs
        exact ⟨h.reach, h.stage, h.reply, h.header, fun bytes hb =>
          ⟨batch, hdr, k, x, args, hpc, hfin, hst, (Option.some.inj hb).symm⟩, h.job⟩
      · simp at hs
      · obtain ⟨sys, hsys, rfl⟩ := Option.map_eq_some_iff.mp hs
        exact h.plain hsys (by simp [hpc]) rfl rfl rfl rfl rfl
          (fun c => (h.reply c).congr
            (Sys.trusteeStep_respData hsys (by simp [hpc]) (by simp [hpc]) c) rfl)
  | writeOut batch r =>
    simp only [hpc] at hs
    obtain ⟨sys, hsys, rfl⟩ := Option.map_eq_some_iff.mp hs
    have he := hsys
    simp only [Sys.trusteeStep, hpc, Option.some.injEq] at he
    subst he
    have hnone := h.env_none (by simp [hpc])
    refine h.plain hsys (by simp [hpc]) ?_ ?_ ?_ ?_ ?_ (ReplyOk.written h.reply
      (fun c hc => by simp [Sys.goto, Sys.setChan, Function.update_of_ne hc])
      (by simp [Sys.goto, Sys.setChan]))
    all_goals cases r <;> first | rfl | exact hnone
  | moveOut batch =>
    simp only [hpc] at hs
    obtain ⟨sys, hsys, rfl⟩ := Option.map_eq_some_iff.mp hs
    have he := hsys
    simp only [Sys.trusteeStep, hpc, Option.some.injEq] at he
    subst he
    exact h.plain hsys (by simp [hpc]) rfl rfl (h.env_none (by simp [hpc])) rfl rfl
      (ReplyOk.movedOut h.reply
        (fun c hc => by simp [Sys.goto, Sys.setChan, Function.update_of_ne hc])
        (by simp [Sys.goto, Sys.setChan]))
  | _ =>
    simp only [hpc] at hs
    obtain ⟨sys, hsys, rfl⟩ := Option.map_eq_some_iff.mp hs
    exact h.plain hsys (by simp [hpc]) rfl rfl (h.env_none (by simp [hpc])) rfl rfl
      (fun c => (h.reply c).congr
        (Sys.trusteeStep_respData hsys (by simp [hpc]) (by simp [hpc]) c) rfl)

theorem Inv.ran (h : Inv value b) {j : Nat} (hs : b.sys.fiberStep j = some b'.sys)
    (hstage : b'.stage = b.stage) (hreq : b'.request = b.request) (henv : b'.env = b.env)
    (hheader : b'.header = b.header) (hjobHeader : b'.jobHeader = b.jobHeader)
    (hreply : ∀ c, b'.ReplyOk c) : Inv value b' := by
  have hstep : b.sys.step P.bin (.fiber j) = some b'.sys := hs
  obtain ⟨hpc, _⟩ := Sys.fiberStep_aside hs
  obtain ⟨_, _, hclient, hjobs, _, hother, _⟩ := Sys.fiberStep_frame hs
  have hleft := (Sys.fiberStep_payload hs).1
  refine ⟨h.reach.next (by trivial) hstep, fun c => ?_, hreply, fun batch hb => ?_,
    fun bytes hb => ?_, fun i job hi hq => ?_⟩
  · have hok := h.stage c
    unfold StageOk at *
    rw [hstage, hreq, hclient]
    exact hok
  · rw [hheader]
    exact (h.header batch (hpc ▸ hb)).congr hstage
  · rw [henv] at hb
    obtain ⟨batch, hdr, k, x, args, hcall, hfin, hst, he⟩ := h.env bytes hb
    exact ⟨batch, hdr, k, x, args, hpc.trans hcall, hfin, by rw [hstage, hst], he⟩
  · have hij : i ≠ j := by
      rintro rfl
      exact hleft hq
    rw [hjobHeader]
    exact (h.job i job (hjobs ▸ hi) (hother i hij ▸ hq)).congr hstage

theorem Inv.fiberSpec (h : Inv value b) {j : Nat} (hs : b.fiberSpec j = some b') :
    Inv value b' := by
  unfold Slotted.fiberSpec at hs
  split at hs
  · rename_i job r hj hw
    obtain ⟨sys, hsys, rfl⟩ := Option.map_eq_some_iff.mp hs
    obtain ⟨_, hdata⟩ := Sys.fiberStep_payload hsys
    have hresult : ∀ c, c ≠ job.chan → (sys.chan c).respData = (b.sys.chan c).respData := by
      intro c hc
      rcases hdata c with hsame | ⟨job', _, hj', hjc, _⟩
      · exact hsame
      · obtain rfl := Option.some.inj (hj'.symm.trans hj)
        exact absurd hjc.symm hc
    have hhere : (sys.chan job.chan).respData = .result r := by
      simp only [Sys.fiberStep, hj, hw, Option.some.injEq] at hsys
      rw [← hsys]
      simp [Sys.setFiber, Sys.setChan]
    refine h.ran hsys ?_ ?_ ?_ ?_ ?_ (ReplyOk.written h.reply hresult hhere)
    all_goals cases r <;> rfl
  · rename_i hnot
    obtain ⟨sys, hsys, rfl⟩ := Option.map_eq_some_iff.mp hs
    refine h.ran hsys rfl rfl rfl rfl rfl (fun c => (h.reply c).congr ?_ rfl)
    rcases (Sys.fiberStep_payload hsys).2 c with hsame | ⟨job, r, hj, _, hw, _⟩
    · exact hsame
    · exact absurd hw (hnot job r hj)

theorem Inv.idle_of_owning (h : Inv value b) {c : Nat} {d : Payload T R}
    (hpc : (b.sys.client c).pc = .owning d) : b.stage c = .idle := by
  have hok := h.stage c
  unfold StageOk at hok
  cases hst : b.stage c <;> simp [hst, hpc, ClientPc.op?] at hok ⊢

theorem Inv.step (h : Inv value b) {a : Action P} (hs : b.step a = some b') :
    Inv value b' := by
  cases a with
  | register =>
    obtain rfl := Option.some.inj hs
    exact h.outside (a := .register) 0 rfl .register (fun _ _ => rfl) (.inr rfl) (.inr rfl)
  | begin_ c x => exact h.beginCall hs
  | client c => exact h.clientStep hs
  | trustee =>
    have hs' : b.trusteeStep = some b' := hs
    rw [h.trusteeStep_eq] at hs'
    exact h.trusteeSpec hs'
  | fiber j =>
    have hs' : b.fiberStep j = some b' := hs
    rw [h.fiberStep_eq] at hs'
    exact h.fiberSpec hs'
  | dropValue c =>
    obtain ⟨sys, hsys, rfl⟩ := Option.map_eq_some_iff.mp hs
    have hbeside := Sys.dropValue_beside hsys
    unfold Sys.dropValue at hsys
    split at hsys <;> simp only [Option.some.injEq, reduceCtorEq] at hsys
    rename_i d hown
    have hsys' : b.sys.step P.bin (.dropValue c) = some sys := by
      rw [← hsys]
      simp [Sys.step, Sys.dropValue, hown]
    refine h.outside (a := .dropValue c) c hsys' hbeside (fun c' hc => ?_)
      (.inl (h.idle_of_owning hown)) (.inl ?_)
    · rw [← hsys]
      exact Function.update_of_ne hc _ _
    · rw [← hsys]
      simp [Sys.setClient, ClientPc.op?]
  | dropHandle c =>
    simp only [Slotted.step, Slotted.dropHandle] at hs
    split at hs
    · rename_i hidle
      obtain ⟨sys, hsys, rfl⟩ := Option.map_eq_some_iff.mp hs
      have hbeside := Sys.dropHandle_beside hsys
      have hsys' : b.sys.step P.bin (.dropHandle c) = some sys := hsys
      unfold Sys.dropHandle at hsys
      split at hsys
      · split at hsys <;> simp only [Option.some.injEq, reduceCtorEq] at hsys
        refine h.outside (a := .dropHandle c) c hsys' hbeside (fun c' hc => ?_) (.inl hidle)
          (.inl ?_)
        · rw [← hsys]
          exact Function.update_of_ne hc _ _
        · rw [← hsys]
          simp [Sys.setClient, ClientPc.op?]
      · simp at hsys
    · simp at hs

theorem Inv.step_sys (h : Inv value b) {a : Action P} (hs : b.step a = some b') :
    b'.sys = b.sys ∨ ∃ a', b.sys.step P.bin a' = some b'.sys := by
  have within : ∀ (x : Slotted P) (a' : TrustTee.Action T V R),
      x.withSys (b.sys.step P.bin a') = some b' →
      b'.sys = b.sys ∨ ∃ a', b.sys.step P.bin a' = some b'.sys := by
    intro x a' hx
    obtain ⟨sys, hsys, rfl⟩ := Option.map_eq_some_iff.mp hx
    exact .inr ⟨a', hsys⟩
  cases a with
  | register =>
    obtain rfl := Option.some.inj hs
    exact .inr ⟨.register, rfl⟩
  | begin_ c x =>
    simp only [Slotted.step, Slotted.beginCall] at hs
    split at hs
    · split at hs <;> simp only [Option.some.injEq, reduceCtorEq] at hs
      exact .inl (hs ▸ rfl)
    · simp at hs
  | client c =>
    simp only [Slotted.step, Slotted.clientStep] at hs
    split at hs
    · simp at hs
    · split at hs <;> obtain rfl := Option.some.inj hs <;> exact .inl rfl
    · split at hs <;> obtain rfl := Option.some.inj hs <;> exact .inl rfl
    · split at hs <;> obtain rfl := Option.some.inj hs <;> exact .inl rfl
    · rename_i x _ _ _ _
      obtain ⟨sys, hsys, hs⟩ := Option.bind_eq_some_iff.mp hs
      obtain rfl := Option.some.inj hs
      exact .inr ⟨.issue c x.op, hsys⟩
    · obtain ⟨sys, hsys, hs⟩ := Option.bind_eq_some_iff.mp hs
      split at hs <;> obtain rfl := Option.some.inj hs <;> exact .inr ⟨.client c, hsys⟩
    · obtain rfl := Option.some.inj hs
      exact .inl rfl
  | trustee =>
    have hs' : b.trusteeStep = some b' := hs
    rw [h.trusteeStep_eq] at hs'
    unfold Slotted.trusteeSpec at hs'
    split at hs'
    · split at hs'
      · exact within _ .trustee hs'
      · split at hs'
        · exact within _ .trustee hs'
        · simp at hs'
    · split at hs'
      · exact within _ .trustee hs'
      · split at hs'
        · exact .inl (Option.some.inj hs' ▸ rfl)
        · simp at hs'
        · exact within _ .trustee hs'
    · exact within _ .trustee hs'
    · exact within _ .trustee hs'
    · exact within _ .trustee hs'
  | fiber j =>
    have hs' : b.fiberStep j = some b' := hs
    rw [h.fiberStep_eq] at hs'
    unfold Slotted.fiberSpec at hs'
    split at hs' <;> exact within _ (.fiber j) hs'
  | dropValue c => exact within _ (.dropValue c) hs
  | dropHandle c =>
    simp only [Slotted.step, Slotted.dropHandle] at hs
    split at hs
    · exact within _ (.dropHandle c) hs
    · simp at hs

theorem Inv.of_trace {header : RequestRecordHeader} {l : List (Slotted P × Action P)}
    (h : Machine.Trace Slotted.step (Slotted.init header value) l b) : Inv value b :=
  @Machine.Trace.invariant _ _ _ _ _ _ (Inv value) (fun _ _ => True) (Inv.init header value)
    (fun _ _ _ hb _ hs => hb.step hs) h (fun _ _ => trivial)

def Reachable (value : T) (b : Slotted P) : Prop :=
  ∃ header, Machine.Reach step (fun _ _ => True) (init header value) b

theorem Reachable.inv (h : Reachable value b) : Inv value b := by
  obtain ⟨header, l, hl, _⟩ := h
  exact .of_trace hl

theorem Reachable.scripted {header : RequestRecordHeader} {script : List (Action P)}
    (h : Machine.run step (init header value) script = some b) : Reachable value b :=
  ⟨header, (Machine.run_reach h).weaken (fun _ _ _ => trivial)⟩

end Spec

end Slotted

end TrustTee
