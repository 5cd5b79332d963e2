import TrustTee.Phases

/-!
Encodings that fail. The panic comes before anything is published, and a channel whose
request slot has been scribbled on behaves like the channel before.
-/

set_option autoImplicit false

namespace TrustTee
open Header

variable {T V R : Type} {P : Platform T V R}

/-- `bincode::serialize` fails, or the slot is too small for the environment or for the
arguments behind it. -/
def Compiled.Fails (x : Compiled P) : Prop :=
  ∀ args, x.op.args P.bin = some args →
    ¬ (envOffset x.capture + x.capture.size ≤ slotBytes ∧
      argsOffset x.capture args + BitVec.ofNat 64 args.length ≤ slotBytes)

def Compiled.failure (x : Compiled P) : String :=
  match x.op.args P.bin with
  | none => "bincode serialize"
  | some _ => "slot overflow"

def Compiled.attempt (x : Compiled P) : Nat :=
  match x.op.args P.bin with
  | none => 1
  | some _ => if envOffset x.capture + x.capture.size ≤ slotBytes then 3 else 2

/-- A client in such a stage has failed with `msg` in `n` steps, the one that catches the
panic included. -/
inductive Doomed : Nat → String → Stage P → Prop where
  | panicked (msg : String) : Doomed 1 msg (.panicked msg)
  | serialize {x : Compiled P} (h : x.op.args P.bin = none) :
      Doomed 2 "bincode serialize" (.serialize x)
  | env {x : Compiled P} {args : List UInt8}
      (h : ¬ envOffset x.capture + x.capture.size ≤ slotBytes) :
      Doomed 2 "slot overflow" (.env x args)
  | args {x : Compiled P} {args : List UInt8}
      (h : ¬ argsOffset x.capture args + BitVec.ofNat 64 args.length ≤ slotBytes) :
      Doomed 2 "slot overflow" (.args x args (envOffset x.capture))
  | serialized {x : Compiled P} {args : List UInt8} {n : Nat} {msg : String}
      (h : x.op.args P.bin = some args) (hd : Doomed n msg (.env x args)) :
      Doomed (n + 1) msg (.serialize x)
  | reserved {x : Compiled P} {args : List UInt8} {n : Nat} {msg : String}
      (h : envOffset x.capture + x.capture.size ≤ slotBytes)
      (hd : Doomed n msg (.args x args (envOffset x.capture))) : Doomed (n + 1) msg (.env x args)

theorem Compiled.Fails.doomed {x : Compiled P} (h : x.Fails) :
    Doomed (x.attempt + 1) x.failure (.serialize x) := by
  unfold Compiled.attempt Compiled.failure
  cases hargs : x.op.args P.bin with
  | none => exact .serialize hargs
  | some args =>
    dsimp only
    split
    · rename_i hfit
      exact .serialized hargs (.reserved hfit (.args (fun hfit' => h args hargs ⟨hfit, hfit'⟩)))
    · rename_i hfit
      exact .serialized hargs (.env hfit)

theorem Doomed.pos {n : Nat} {msg : String} {st : Stage P} (h : Doomed n msg st) : 0 < n := by
  cases h <;> omega

theorem Doomed.last {msg : String} {st : Stage P} (h : Doomed 1 msg st) :
    st = .panicked msg := by
  cases h with
  | panicked msg => rfl
  | serialized _ hd => exact absurd hd.pos (by omega)
  | reserved _ hd => exact absurd hd.pos (by omega)

theorem Doomed.unissued {n : Nat} {msg : String} {st : Stage P} (h : Doomed n msg st) :
    st ≠ .idle ∧ ∀ x args, st ≠ .issued x args := by
  cases h <;> simp

namespace Slotted

variable {value : T} {b t u v w : Slotted P} {c : Nat} {m : Bytes} {st : Stage P}

@[simp] theorem setRequest_setRequest (m' : Bytes) :
    (v.setRequest c m).setRequest c m' = v.setRequest c m' := by
  simp [setRequest]

@[simp] theorem setStage_setRequest (c' : Nat) :
    (v.setStage c' st).setRequest c m = (v.setRequest c m).setStage c' st := rfl

section Scribbled

theorem setRequest_withSys (o : Option (Sys T V R)) :
    (v.setRequest c m).withSys o = (v.withSys o).map (fun w => w.setRequest c m) := by
  cases o <;> rfl

theorem setRequest_writeResult (c' : Nat) (r : Option R) :
    (v.setRequest c m).writeResult c' r = (v.writeResult c' r).setRequest c m := by
  cases r <;> rfl

theorem trusteeSpec_setRequest :
    (v.setRequest c m).trusteeSpec = v.trusteeSpec.map (fun w => w.setRequest c m) := by
  have hsys : (v.setRequest c m).sys = v.sys := rfl
  have hstage : (v.setRequest c m).stage = v.stage := rfl
  have henv : (v.setRequest c m).env = v.env := rfl
  unfold trusteeSpec
  rw [hsys, hstage, henv]
  cases v.sys.pc with
  | record batch =>
    dsimp only
    split
    · exact setRequest_withSys _
    · split
      · cases v.sys.trusteeStep <;> rfl
      · rfl
  | calling batch hdr k =>
    dsimp only
    split
    · exact setRequest_withSys _
    · split
      · rfl
      · rfl
      · cases v.sys.trusteeStep <;> rfl
  | writeOut batch r =>
    dsimp only
    rw [setRequest_writeResult]
    exact setRequest_withSys _
  | moveOut batch =>
    dsimp only
    cases v.sys.trusteeStep <;> rfl
  | _ => exact setRequest_withSys _

theorem fiberSpec_setRequest (j : Nat) :
    (v.setRequest c m).fiberSpec j = (v.fiberSpec j).map (fun w => w.setRequest c m) := by
  have hsys : (v.setRequest c m).sys = v.sys := rfl
  unfold fiberSpec
  rw [hsys]
  split
  · rw [setRequest_writeResult]
    exact setRequest_withSys _
  · exact setRequest_withSys _

theorem clientStep_setRequest_of_ne {c' : Nat} (h : c' ≠ c) :
    (v.setRequest c m).clientStep c' = (v.clientStep c').map (fun w => w.setRequest c m) := by
  have hstage : (v.setRequest c m).stage = v.stage := rfl
  have hreq : (v.setRequest c m).request c' = v.request c' := by
    simp [setRequest, Function.update_of_ne h]
  have hsys : (v.setRequest c m).sys = v.sys := rfl
  unfold clientStep
  rw [hstage, hreq, hsys]
  cases v.stage c' with
  | idle | panicked msg => rfl
  | serialize x =>
    dsimp only
    split <;> rfl
  | env x args =>
    dsimp only
    split
    · rfl
    · simp [setRequest, setStage, Function.update_comm h]
  | args x args env =>
    dsimp only
    split
    · rfl
    · simp [setRequest, setStage, Function.update_comm h]
  | header x args env pos =>
    dsimp only
    cases v.sys.issue P.bin c' x.op with
    | none => rfl
    | some sys => simp [setRequest, setStage, Function.update_comm h]
  | issued x args =>
    dsimp only
    cases v.sys.clientStep c' with
    | none => rfl
    | some sys =>
      simp only [Option.bind_eq_bind, Option.bind_some]
      split <;> rfl

theorem clientStep_setRequest (v : Slotted P) (c : Nat) (m : Bytes) :
    ∃ m', (v.setRequest c m).clientStep c =
      (v.clientStep c).map (fun w => w.setRequest c m') := by
  have hstage : (v.setRequest c m).stage = v.stage := rfl
  have hreq : (v.setRequest c m).request c = m := by simp [setRequest]
  have hsys : (v.setRequest c m).sys = v.sys := rfl
  unfold clientStep
  rw [hstage, hreq, hsys]
  cases v.stage c with
  | idle | panicked msg => exact ⟨m, rfl⟩
  | serialize x =>
    refine ⟨m, ?_⟩
    dsimp only
    split <;> rfl
  | env x args =>
    have halloc : ((⟨m, slotBytes, hdrOffset + recordHeaderSize⟩ : SlotWriter).allocAligned
        x.capture.size x.capture.align).2 = ((⟨v.request c, slotBytes,
          hdrOffset + recordHeaderSize⟩ : SlotWriter).allocAligned x.capture.size
            x.capture.align).2 := rfl
    dsimp only
    rw [halloc]
    split
    · exact ⟨m, rfl⟩
    · rename_i env _
      refine ⟨if x.capture.size ≠ 0 then m.write env.toNat x.capture.bytes else m, ?_⟩
      simp only [Option.map_some, setStage_setRequest, setRequest_setRequest]
  | args x args env =>
    have halloc : ((⟨m, slotBytes, env + x.capture.size⟩ : SlotWriter).allocAligned
        (BitVec.ofNat 64 args.length) 1).2 = ((⟨v.request c, slotBytes,
          env + x.capture.size⟩ : SlotWriter).allocAligned (BitVec.ofNat 64 args.length)
            1).2 := rfl
    dsimp only
    rw [halloc]
    split
    · exact ⟨m, rfl⟩
    · rename_i pos _
      refine ⟨m.write pos.toNat args, ?_⟩
      simp only [Option.map_some, setStage_setRequest, setRequest_setRequest]
  | header x args env pos =>
    refine ⟨m.write hdrOffset.toNat (x.header (P.base c) args env pos).bytes, ?_⟩
    dsimp only
    cases v.sys.issue P.bin c x.op with
    | none => rfl
    | some sys => simp [setRequest, setStage]
  | issued x args =>
    refine ⟨m, ?_⟩
    dsimp only
    cases v.sys.clientStep c with
    | none => rfl
    | some sys =>
      simp only [Option.bind_eq_bind, Option.bind_some]
      split <;> rfl

/-- Whatever the request slot of a channel holds, the same steps can be taken, and they do
the same but to these bytes. -/
theorem Inv.step_setRequest (h : Inv value v) (hm : Inv value (v.setRequest c m))
    (a : Action P) : ∃ m', (v.setRequest c m).step a =
      (v.step a).map (fun w => w.setRequest c m') := by
  cases a with
  | register => exact ⟨m, rfl⟩
  | begin_ c' x =>
    refine ⟨m, ?_⟩
    have hstage : (v.setRequest c m).stage = v.stage := rfl
    have hsys : (v.setRequest c m).sys = v.sys := rfl
    simp only [Slotted.step, Slotted.beginCall, hstage, hsys]
    split
    · split <;> rfl
    · rfl
  | client c' =>
    by_cases hc : c' = c
    · subst hc
      exact v.clientStep_setRequest c' m
    · exact ⟨m, clientStep_setRequest_of_ne hc⟩
  | trustee =>
    refine ⟨m, ?_⟩
    simp only [Slotted.step, h.trusteeStep_eq, hm.trusteeStep_eq, trusteeSpec_setRequest]
  | fiber j =>
    refine ⟨m, ?_⟩
    simp only [Slotted.step, h.fiberStep_eq, hm.fiberStep_eq, fiberSpec_setRequest]
  | dropValue c' => exact ⟨m, setRequest_withSys _⟩
  | dropHandle c' =>
    refine ⟨m, ?_⟩
    have hstage : (v.setRequest c m).stage = v.stage := rfl
    simp only [Slotted.step, dropHandle, hstage]
    split
    · exact setRequest_withSys _
    · rfl

theorem Inv.run_setRequest (as : List (Action P)) {v : Slotted P} {m : Bytes}
    (h : Inv value v) (hm : Inv value (v.setRequest c m)) :
    ∃ m', Machine.run Slotted.step (v.setRequest c m) as =
      (Machine.run Slotted.step v as).map (fun w => w.setRequest c m') := by
  induction as generalizing v m with
  | nil => exact ⟨m, rfl⟩
  | cons a as ih =>
    obtain ⟨m', hstep⟩ := h.step_setRequest hm a
    cases hs : v.step a with
    | none => exact ⟨m, by simp [Machine.run, hstep, hs]⟩
    | some w =>
      have hs' : (v.setRequest c m).step a = some (w.setRequest c m') := by rw [hstep, hs]; rfl
      obtain ⟨m'', hrun⟩ := ih (h.step hs) (hm.step hs')
      exact ⟨m'', by simpa [Machine.run, hs, hs'] using hrun⟩

end Scribbled

section Attempts

theorem setStage_withSys (o : Option (Sys T V R)) :
    (w.setStage c st).withSys o = (w.withSys o).map (fun u => u.setStage c st) := by
  cases o <;> rfl

theorem setStage_writeResult (c' : Nat) (r : Option R) :
    (w.setStage c st).writeResult c' r = (w.writeResult c' r).setStage c st := by
  cases r <;> rfl

theorem trusteeStep_setStage :
    (w.setStage c st).trusteeStep = w.trusteeStep.map (fun u => u.setStage c st) := by
  have hsys : (w.setStage c st).sys = w.sys := rfl
  have hreq : (w.setStage c st).request = w.request := rfl
  have henv : (w.setStage c st).env = w.env := rfl
  have hheader : (w.setStage c st).header = w.header := rfl
  unfold trusteeStep
  rw [hsys, hreq, henv, hheader]
  cases w.sys.pc with
  | record batch =>
    dsimp only
    split
    · exact setStage_withSys _
    · split
      · rfl
      · rename_i hdr _
        cases (w.sys.findHeader batch.chan _ hdr).trusteeStep <;> rfl
  | calling batch hdr k =>
    dsimp only
    split
    · exact setStage_withSys _
    · split
      · rfl
      · cases (w.sys.findClosure batch.chan _ _ _).trusteeStep <;> rfl
  | writeOut batch r =>
    dsimp only
    rw [setStage_writeResult]
    exact setStage_withSys _
  | moveOut batch =>
    dsimp only
    cases w.sys.trusteeStep <;> rfl
  | _ => exact setStage_withSys _

theorem fiberStep_setStage (j : Nat) :
    (w.setStage c st).fiberStep j = (w.fiberStep j).map (fun u => u.setStage c st) := by
  have hsys : (w.setStage c st).sys = w.sys := rfl
  unfold fiberStep
  rw [hsys]
  split
  · rfl
  · split
    · exact setStage_withSys _
    · rw [setStage_writeResult]
      exact setStage_withSys _
    · exact setStage_withSys _

theorem clientStep_setStage_of_ne {c' : Nat} (h : c' ≠ c) :
    (w.setStage c st).clientStep c' = (w.clientStep c').map (fun u => u.setStage c st) := by
  have hstage : (w.setStage c st).stage c' = w.stage c' := by
    simp [setStage, Function.update_of_ne h]
  have hreq : (w.setStage c st).request = w.request := rfl
  have hsys : (w.setStage c st).sys = w.sys := rfl
  unfold clientStep
  rw [hstage, hreq, hsys]
  cases w.stage c' with
  | idle => rfl
  | panicked msg => simp [setStage, Function.update_comm h]
  | serialize x =>
    dsimp only
    split <;> simp [setStage, Function.update_comm h]
  | env x args =>
    dsimp only
    split <;> simp [setRequest, setStage, Function.update_comm h]
  | args x args env =>
    dsimp only
    split <;> simp [setRequest, setStage, Function.update_comm h]
  | header x args env pos =>
    dsimp only
    cases w.sys.issue P.bin c' x.op with
    | none => rfl
    | some sys => simp [setRequest, setStage, Function.update_comm h]
  | issued x args =>
    dsimp only
    cases w.sys.clientStep c' with
    | none => rfl
    | some sys =>
      simp only [Option.bind_eq_bind, Option.bind_some]
      split
      · simp [setStage, Function.update_comm h, replyBytes]
      · rfl

def Action.own (c : Nat) : Action P → Prop
  | .begin_ c' _ | .client c' | .dropHandle c' => c' = c
  | _ => False

theorem step_setStage {a : Action P} (ha : ¬ a.own c) :
    (w.setStage c st).step a = (w.step a).map (fun u => u.setStage c st) := by
  have hsys : (w.setStage c st).sys = w.sys := rfl
  have hstage : ∀ c', c' ≠ c → (w.setStage c st).stage c' = w.stage c' := by
    intro c' hc
    simp [setStage, Function.update_of_ne hc]
  cases a with
  | register => rfl
  | begin_ c' x =>
    have hc : c' ≠ c := ha
    simp only [step, beginCall, hstage c' hc, hsys]
    split
    · split
      · simp [setStage, Function.update_comm hc]
      · rfl
    · rfl
  | client c' => exact clientStep_setStage_of_ne ha
  | trustee => exact trusteeStep_setStage
  | fiber j => exact fiberStep_setStage j
  | dropValue c' => exact setStage_withSys _
  | dropHandle c' =>
    have hc : c' ≠ c := ha
    simp only [step, dropHandle, hstage c' hc]
    split
    · exact setStage_withSys _
    · rfl

theorem step_stage_kept {a : Action P} (ha : ¬ a.own c) (hs : w.step a = some u) :
    u.stage c = w.stage c := by
  have hself : w.setStage c (w.stage c) = w := by simp [setStage]
  have hset : (w.setStage c (w.stage c)).step a =
      (w.step a).map (fun u => u.setStage c (w.stage c)) := step_setStage ha
  rw [hself, hs] at hset
  have hu : u = u.setStage c (w.stage c) := Option.some.inj hset
  rw [hu]
  simp [setStage]

@[simp] theorem setStage_setStage (st' : Stage P) :
    (v.setStage c st).setStage c st' = v.setStage c st' := by
  simp [setStage]

theorem allocAligned_env (m : Bytes) (f : Capture) :
    ((⟨m, slotBytes, hdrOffset + recordHeaderSize⟩ : SlotWriter).allocAligned f.size f.align).2 =
      if envOffset f + f.size ≤ slotBytes then .ok (envOffset f)
      else .error "slot overflow" := rfl

theorem allocAligned_args (m : Bytes) (f : Capture) (args : List UInt8) :
    ((⟨m, slotBytes, envOffset f + f.size⟩ : SlotWriter).allocAligned
      (BitVec.ofNat 64 args.length) 1).2 =
      if argsOffset f args + BitVec.ofNat 64 args.length ≤ slotBytes then .ok (argsOffset f args)
      else .error "slot overflow" := rfl

theorem doomed_step {n : Nat} {msg : String} (hd : Doomed (n + 1) msg st)
    (hidle : v.stage c = .idle) (m : Bytes) :
    ∃ m', (n = 0 ∧ ((v.setRequest c m).setStage c st).clientStep c = some (v.setRequest c m')) ∨
      ∃ st', Doomed n msg st' ∧ ((v.setRequest c m).setStage c st).clientStep c =
        some ((v.setRequest c m').setStage c st') := by
  have hstage : ((v.setRequest c m).setStage c st).stage c = st := by simp [setStage]
  unfold clientStep
  rw [hstage]
  cases hd with
  | panicked msg =>
    refine ⟨m, .inl ⟨rfl, ?_⟩⟩
    have hself : (v.setRequest c m).setStage c .idle = v.setRequest c m := by
      rw [← hidle]
      simp [setStage, setRequest]
    simp only [setStage_setStage, hself]
  | serialize hargs =>
    exact ⟨m, .inr ⟨_, .panicked "bincode serialize", by simp [hargs]⟩⟩
  | env hfit =>
    refine ⟨m, .inr ⟨_, .panicked "slot overflow", ?_⟩⟩
    simp only [allocAligned_env, if_neg hfit, setStage_setStage]
  | args hfit =>
    refine ⟨m, .inr ⟨_, .panicked "slot overflow", ?_⟩⟩
    simp only [allocAligned_args, if_neg hfit, setStage_setStage]
  | serialized hargs hd =>
    exact ⟨m, .inr ⟨_, hd, by simp [hargs]⟩⟩
  | @reserved x args n _ hfit hd =>
    refine ⟨if x.capture.size ≠ 0 then m.write (envOffset x.capture).toNat x.capture.bytes
      else m, .inr ⟨_, hd, ?_⟩⟩
    have hreq : ((v.setRequest c m).setStage c (.env x args)).request c = m := by
      simp [setStage, setRequest]
    simp only [allocAligned_env, if_pos hfit, hreq, setStage_setRequest, setRequest_setRequest,
      setStage_setStage]

theorem doomed_run (n : Nat) {msg : String} {st : Stage P} (m : Bytes)
    (hd : Doomed (n + 1) msg st) (hidle : v.stage c = .idle) :
    ∃ m', Machine.run step ((v.setRequest c m).setStage c st) (List.replicate n (.client c)) =
      some ((v.setRequest c m').setStage c (.panicked msg)) := by
  induction n generalizing st m with
  | zero =>
    obtain rfl := hd.last
    exact ⟨m, rfl⟩
  | succ n ih =>
    obtain ⟨m', ⟨hn, _⟩ | ⟨st', hd', hs⟩⟩ := doomed_step hd hidle m
    · omega
    · obtain ⟨m'', hrun⟩ := ih m' hd'
      refine ⟨m'', ?_⟩
      rw [List.replicate_succ, Machine.run]
      simpa [step, hs] using hrun

def Action.isClient (c : Nat) : Action P → Bool
  | .client c' => c' == c
  | _ => false

def skip (c : Nat) : Nat → List (Action P) → List (Action P)
  | n + 1, a :: as => if a.isClient c then skip c n as else a :: skip c (n + 1) as
  | _, as => as

/-- `u` is `v` but for an attempt of a client that has `n` steps left, and for what it has
written into the request slot. -/
def Aside (c n : Nat) (msg : String) (u v : Slotted P) : Prop :=
  ∃ m, (n = 0 ∧ u = v.setRequest c m) ∨
    ∃ st, Doomed n msg st ∧ v.stage c = .idle ∧ u = (v.setRequest c m).setStage c st

theorem Inv.scribbled (h : Inv value v) (hidle : v.stage c = .idle)
    (hpc : (v.sys.client c).pc = .idle) (m : Bytes) : Inv value (v.setRequest c m) := by
  have hself : (v.setRequest c m).setStage c .idle = v.setRequest c m := by
    rw [← hidle]
    simp [setStage, setRequest]
  have hk : Inv value ((v.setRequest c m).setStage c .idle) :=
    h.encoding hpc m (by simp [StageOk, setStage, setRequest, hpc, ClientPc.op?])
  rwa [hself] at hk

theorem Inv.doomed_idle (h : Inv value u) {n : Nat} {msg : String} (hd : Doomed n msg (u.stage c)) :
    (u.sys.client c).pc = .idle := by
  have hok := h.stage c
  unfold StageOk at hok
  generalize u.stage c = st at *
  cases hd with
  | panicked | serialize _ | serialized _ _ => exact hok
  | env _ | args _ | reserved _ _ => exact hok.1

/-- A step beside an attempt is a step without it, and a step of the attempt is none. -/
theorem Aside.step {n : Nat} {msg : String} (hu : Inv value u) (hv : Inv value v)
    (h : Aside c n msg u v) {a : Action P} {u' : Slotted P} (hs : u.step a = some u') :
    (n ≠ 0 ∧ a.isClient c ∧ Aside c (n - 1) msg u' v) ∨
      (n = 0 ∨ ¬ a.isClient c) ∧ ∃ v', v.step a = some v' ∧ Aside c n msg u' v' := by
  obtain ⟨m, ⟨rfl, rfl⟩ | ⟨st, hd, hidle, rfl⟩⟩ := h
  · obtain ⟨m', hstep⟩ := hv.step_setRequest hu a
    rw [hs] at hstep
    obtain ⟨v', hv', rfl⟩ := Option.map_eq_some_iff.mp hstep.symm
    exact .inr ⟨.inl rfl, v', hv', m', .inl ⟨rfl, rfl⟩⟩
  · have hst : ((v.setRequest c m).setStage c st).stage c = st := by simp [setStage]
    have hpos := hd.pos
    by_cases hown : a.own c
    · cases a with
      | client c' =>
        obtain rfl : c' = c := hown
        obtain ⟨n, rfl⟩ := Nat.exists_eq_succ_of_ne_zero (Nat.ne_of_gt hpos)
        refine .inl ⟨by simp, by simp [Action.isClient], ?_⟩
        obtain ⟨m', ⟨hn, hs'⟩ | ⟨st', hd', hs'⟩⟩ := doomed_step hd hidle m
        · obtain rfl := Option.some.inj (hs.symm.trans hs')
          exact ⟨m', .inl ⟨hn, rfl⟩⟩
        · obtain rfl := Option.some.inj (hs.symm.trans hs')
          exact ⟨m', .inr ⟨st', hd', hidle, rfl⟩⟩
      | begin_ c' x =>
        -- there is an operation going on
        obtain rfl : c' = c := hown
        simp only [Slotted.step, Slotted.beginCall, hst] at hs
        split at hs
        · exact absurd rfl hd.unissued.1
        · simp at hs
      | dropHandle c' =>
        obtain rfl : c' = c := hown
        simp only [Slotted.step, Slotted.dropHandle, hst] at hs
        split at hs
        · exact absurd rfl hd.unissued.1
        · simp at hs
      | _ => exact absurd hown (by simp [Action.own])
    · have hpc : (v.sys.client c).pc = .idle := hu.doomed_idle (hst.symm ▸ hd)
      obtain ⟨m', hreq⟩ := hv.step_setRequest (hv.scribbled hidle hpc m) a
      rw [step_setStage hown, hreq] at hs
      obtain ⟨w, hw, rfl⟩ := Option.map_eq_some_iff.mp hs
      obtain ⟨v', hv', rfl⟩ := Option.map_eq_some_iff.mp hw
      refine .inr ⟨.inr ?_, v', hv', m', .inr ⟨st, hd, ?_, rfl⟩⟩
      · cases a with
        | client c' => simpa [Action.isClient, Action.own] using hown
        | _ => simp [Action.isClient]
      · rw [step_stage_kept hown hv', hidle]

theorem Aside.run (as : List (Action P)) {n : Nat} {msg : String} {u v u' : Slotted P}
    (hu : Inv value u) (hv : Inv value v) (h : Aside c n msg u v)
    (hs : Machine.run Slotted.step u as = some u') :
    Inv value u' ∧ ∃ v', Machine.run Slotted.step v (skip c n as) = some v' ∧ Inv value v' ∧
      Aside c (n - as.countP (Action.isClient c)) msg u' v' := by
  induction as generalizing n u v with
  | nil =>
    obtain rfl := Option.some.inj hs
    have hskip : skip c n ([] : List (Action P)) = [] := by cases n <;> rfl
    exact ⟨hu, v, by rw [hskip]; rfl, hv, by simpa using h⟩
  | cons a as ih =>
    obtain ⟨w, hw, hs⟩ := Option.bind_eq_some_iff.mp hs
    rcases h.step hu hv hw with ⟨hn, hc, h'⟩ | ⟨hn, v', hv', h'⟩
    · obtain ⟨hu', v', hrun, hv', haside⟩ := ih (hu.step hw) hv h' hs
      obtain ⟨n, rfl⟩ := Nat.exists_eq_succ_of_ne_zero hn
      refine ⟨hu', v', ?_, hv', ?_⟩
      · simpa [skip, hc] using hrun
      · rw [List.countP_cons_of_pos hc, Nat.succ_sub_succ]
        exact haside
    · obtain ⟨hu', v'', hrun, hv'', haside⟩ := ih (hu.step hw) (hv.step hv') h' hs
      refine ⟨hu', v'', ?_, hv'', ?_⟩
      · have hskip : skip c n (a :: as) = a :: skip c n as := by
          cases n with
          | zero => cases as <;> rfl
          | succ n => simp [skip, hn.resolve_left (by simp)]
        rw [hskip, Machine.run, hv']
        exact hrun
      · rcases hn with rfl | hc
        · simpa using haside
        · simpa [hc] using haside

end Attempts

end Slotted

open Slotted

/-- An operation whose encoding fails panics before it has changed anything but the bytes of
its own request slot, and once the panic is caught every run goes on as if there had been no
attempt. This is so whatever the other parties do meanwhile. -/
theorem failed_encoding_leaves_channel {value : T} {b t : Slotted P} {c : Nat} {x : Compiled P}
    (h : Slotted.Reachable value b) (hx : x.Fails) (hs : b.step (.begin_ c x) = some t) :
    (∃ m, Machine.run Slotted.step t (List.replicate x.attempt (.client c)) =
      some ((b.setRequest c m).setStage c (.panicked x.failure)) ∧
      Machine.run Slotted.step t (List.replicate (x.attempt + 1) (.client c)) =
        some (b.setRequest c m) ∧
      ∀ as, ∃ m', Machine.run Slotted.step (b.setRequest c m) as =
        (Machine.run Slotted.step b as).map (fun v => v.setRequest c m')) ∧
    ∀ as u, Machine.run Slotted.step t as = some u →
      ∃ v, Machine.run Slotted.step b (skip c (x.attempt + 1) as) = some v ∧
        Aside c (x.attempt + 1 - as.countP (Action.isClient c)) x.failure u v ∧
        (x.attempt < as.countP (Action.isClient c) →
          ∀ as', ∃ m', Machine.run Slotted.step u as' =
            (Machine.run Slotted.step v as').map (fun v => v.setRequest c m')) := by
  have hinv := h.inv
  have hstep := hinv.step hs
  simp only [Slotted.step, Slotted.beginCall] at hs
  split at hs
  · rename_i hidle hpc
    split at hs
    · obtain rfl := Option.some.inj hs
      have haside : Aside c (x.attempt + 1) x.failure (b.setStage c (.serialize x)) b :=
        ⟨b.request c, .inr ⟨_, hx.doomed, hidle, by rw [setRequest_self]⟩⟩
      refine ⟨?_, fun as u hu => ?_⟩
      · obtain ⟨m, hrun⟩ := doomed_run x.attempt (b.request c) hx.doomed hidle
        rw [setRequest_self] at hrun
        refine ⟨m, hrun, ?_, fun as => ?_⟩
        · rw [List.replicate_succ', Machine.run_append, hrun]
          simp [Machine.run, Slotted.step, Slotted.clientStep, setStage, setRequest, ← hidle]
        · exact hinv.run_setRequest as (hinv.scribbled hidle hpc m)
      · obtain ⟨hu', v, hv, hv', hlast⟩ := haside.run as hstep hinv hu
        refine ⟨v, hv, hlast, fun hover as' => ?_⟩
        -- the attempt is over
        rw [Nat.sub_eq_zero_of_le hover] at hlast
        obtain ⟨m, ⟨_, rfl⟩ | ⟨st, hd, _⟩⟩ := hlast
        · exact hv'.run_setRequest as' hu'
        · exact absurd hd.pos (by omega)
    · simp at hs
  · simp at hs

theorem oversized_fails : Compiled.oversized.Fails := by
  rintro args - ⟨henv, -⟩
  revert henv
  decide

/-- A `with` that does not fit, after a launch and an `apply` on the same channel. -/
theorem failed_encoding_leaves_channel_oversized :
    ∃ b t : Slotted bytePlatform, ∃ m,
      Machine.run Slotted.step (Slotted.init ⟨0, 0, .terminate, 0, 0, 0, 0⟩ 5) launchThenAdd =
        some b ∧
      b.step (.begin_ 0 .oversized) = some t ∧
      Machine.run Slotted.step t [.client 0, .client 0] =
        some ((b.setRequest 0 m).setStage 0 (.panicked "slot overflow")) := by
  obtain ⟨b, t, hb, ht⟩ : ∃ b t, Machine.run Slotted.step (Slotted.init
      ⟨0, 0, .terminate, 0, 0, 0, 0⟩ 5) launchThenAdd = some b ∧
      b.step (.begin_ 0 .oversized) = some t := ⟨_, _, rfl, rfl⟩
  obtain ⟨⟨m, hrun, _⟩, _⟩ :=
    failed_encoding_leaves_channel (.scripted hb) oversized_fails ht
  exact ⟨b, t, m, hb, ht, hrun⟩

end TrustTee
