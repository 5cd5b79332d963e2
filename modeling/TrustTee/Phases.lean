import TrustTee.Written
import TrustTee.Sweep

set_option autoImplicit false

namespace TrustTee
open Header

variable {T V R : Type} {P : Platform T V R}

inductive Side where
  | client | worker
  deriving DecidableEq, Repr

/-- An access to a payload: whose channel, by which side, and for which request of its
client. -/
structure PayloadAccess where
  chan : Nat
  side : Side
  request : Nat
  deriving DecidableEq, Repr

namespace Slotted

def current (b : Slotted P) (c : Nat) : Nat := (b.sys.client c).seq

/-- The payload that a step reads or writes: the environment, the arguments and the header
of a record, and what is written and read as a result. -/
def access? (b : Slotted P) : Action P → Option PayloadAccess
  | .client c =>
    match b.stage c, (b.sys.client c).pc with
    | .env _ _, _ | .args _ _ _, _ | .header _ _ _ _, _ => some ⟨c, .client, b.current c⟩
    | .issued _ _, .reading _ => some ⟨c, .client, b.current c⟩
    | _, _ => none
  | .trustee =>
    match b.sys.pc with
    | .record batch =>
      if batch.left = 0 then none else some ⟨batch.chan, .worker, b.current batch.chan⟩
    | .calling batch hdr k =>
      if hdr.propertyPtr = .callMutRetUnit ∧ ¬ k < hdr.repeatCount.toNat then none
      else some ⟨batch.chan, .worker, b.current batch.chan⟩
    | .writeOut batch _ | .moveOut batch =>
      some ⟨batch.chan, .worker, b.current batch.chan⟩
    | _ => none
  | .fiber j =>
    match b.sys.jobs[j]?, b.sys.fiber j with
    | some job, .queued | some job, .writing _ => some ⟨job.chan, .worker, job.seq⟩
    | _, _ => none
  | _ => none

def withPayload (b : Slotted P) (c : Nat) (request response : Bytes) : Slotted P :=
  (b.setRequest c request).setResponse c response

/-- The ready bits of a channel agree. -/
def Level (b : Slotted P) (c : Nat) : Prop :=
  ready (b.sys.chan c).reqWord = ready (b.sys.chan c).respWord

section

variable {value : T} {b b' : Slotted P} {c : Nat}

theorem Inv.level_of_idle (h : Inv value b) (hpc : (b.sys.client c).pc = .idle) : b.Level c := by
  have hcl := h.reach.inv.client c
  simp only [ClientOk, hpc] at hcl
  exact hcl.1

theorem Inv.client_level (h : Inv value b) {a : Action P} {k : Nat}
    (ha : b.access? a = some ⟨c, .client, k⟩) : b.Level c := by
  cases a with
  | client c' =>
    have hok := h.stage c'
    simp only [access?] at ha
    split at ha <;> simp only [Option.some.injEq, PayloadAccess.mk.injEq, reduceCtorEq] at ha
    · obtain ⟨rfl, _⟩ := ha
      simp only [StageOk, *] at hok
      exact h.level_of_idle hok.1
    · obtain ⟨rfl, _⟩ := ha
      simp only [StageOk, *] at hok
      exact h.level_of_idle hok.1
    · obtain ⟨rfl, _⟩ := ha
      simp only [StageOk, *] at hok
      exact h.level_of_idle hok.1
    · rename_i hpc
      obtain ⟨rfl, _⟩ := ha
      have hcl := h.reach.inv.client c'
      simp only [ClientOk, hpc] at hcl
      exact hcl.1
  | trustee =>
    simp only [access?] at ha
    split at ha
    · split at ha <;> simp at ha
    · split at ha <;> simp at ha
    · simp at ha
    · simp at ha
    · simp at ha
  | fiber j =>
    simp only [access?] at ha
    split at ha <;> simp at ha
  | _ => simp [access?] at ha

theorem Inv.worker_differs (h : Inv value b) {a : Action P} {k : Nat}
    (ha : b.access? a = some ⟨c, .worker, k⟩) : ∃ op r, (b.sys.client c).pc = .waiting op r ∧
      ready (b.sys.chan c).reqWord = r ∧ ready (b.sys.chan c).respWord = (!r) ∧
      k = b.current c := by
  have hi := h.reach.inv
  have serving : ∀ batch, b.sys.pc.batch? = some batch →
      ∃ op r, (b.sys.client batch.chan).pc = .waiting op r ∧
        ready (b.sys.chan batch.chan).reqWord = r ∧
        ready (b.sys.chan batch.chan).respWord = (!r) := by
    intro batch hb
    obtain ⟨op, ⟨hpc, hresp, _⟩, _⟩ := hi.serving batch hb
    have hcl := hi.client batch.chan
    simp only [ClientOk, hpc] at hcl
    exact ⟨op, batch.reqReady, hpc, hcl.1, hresp⟩
  have working : ∀ batch, b.sys.pc.batch? = some batch →
      (⟨batch.chan, .worker, b.current batch.chan⟩ : PayloadAccess) = ⟨c, .worker, k⟩ →
      ∃ op r, (b.sys.client c).pc = .waiting op r ∧ ready (b.sys.chan c).reqWord = r ∧
        ready (b.sys.chan c).respWord = (!r) ∧ k = b.current c := by
    rintro batch hb he
    obtain ⟨rfl, _, rfl⟩ := PayloadAccess.mk.inj he
    obtain ⟨op, r, hpc, hreq, hresp⟩ := serving batch hb
    exact ⟨op, r, hpc, hreq, hresp, rfl⟩
  have running : ∀ j job, b.sys.jobs[j]? = some job → (b.sys.fiber j).open_ = true →
      (⟨job.chan, .worker, job.seq⟩ : PayloadAccess) = ⟨c, .worker, k⟩ →
      ∃ op r, (b.sys.client c).pc = .waiting op r ∧ ready (b.sys.chan c).reqWord = r ∧
        ready (b.sys.chan c).respWord = (!r) ∧ k = b.current c := by
    rintro j job hj ho he
    obtain ⟨rfl, _, rfl⟩ := PayloadAccess.mk.inj he
    obtain ⟨_, _, hopen, _⟩ := (hi.job j job hj).2
    obtain ⟨hseq, hresp, f, hpc⟩ := hopen ho
    have hcl := hi.client job.chan
    simp only [ClientOk, hpc] at hcl
    exact ⟨_, _, hpc, hcl.1, hresp, hseq⟩
  cases a with
  | client c' =>
    simp only [access?] at ha
    split at ha <;> simp at ha
  | trustee =>
    simp only [access?] at ha
    split at ha
    · rename_i batch hpc
      split at ha
      · simp at ha
      · rename_i hleft
        exact working batch (by simp [hpc, TrusteePc.batch?, hleft]) (Option.some.inj ha)
    · rename_i batch hdr k' hpc
      split at ha
      · simp at ha
      · exact working batch (by simp [hpc, TrusteePc.batch?]) (Option.some.inj ha)
    · rename_i batch r hpc
      exact working batch (by simp [hpc, TrusteePc.batch?]) (Option.some.inj ha)
    · rename_i batch hpc
      exact working batch (by simp [hpc, TrusteePc.batch?]) (Option.some.inj ha)
    · simp at ha
  | fiber j =>
    simp only [access?] at ha
    split at ha
    · rename_i job hj hf
      exact running j job hj (by rw [hf]; rfl) (Option.some.inj ha)
    · rename_i job r hj hf
      exact running j job hj (by rw [hf]; rfl) (Option.some.inj ha)
    · simp at ha
  | _ => simp [access?] at ha

section Outside

variable {m m' : Bytes}

theorem withPayload_request {c' : Nat} (h : c' ≠ c) :
    (b.withPayload c m m').request c' = b.request c' := by
  simp [withPayload, setRequest, setResponse, h]

theorem withPayload_response {c' : Nat} (h : c' ≠ c) :
    (b.withPayload c m m').response c' = b.response c' := by
  simp [withPayload, setRequest, setResponse, h]

theorem withPayload_setResponse {c' : Nat} (h : c' ≠ c) (n : Bytes) :
    (b.withPayload c m m').setResponse c' n = (b.setResponse c' n).withPayload c m m' := by
  simp [withPayload, setRequest, setResponse, Function.update_comm h]

theorem withPayload_writeResult {c' : Nat} (h : c' ≠ c) (r : Option R) :
    (b.withPayload c m m').writeResult c' r = (b.writeResult c' r).withPayload c m m' := by
  cases r with
  | none => rfl
  | some r =>
    simp only [writeResult, withPayload_response h]
    exact withPayload_setResponse h _

theorem withPayload_withSys (o : Option (Sys T V R)) :
    (b.withPayload c m m').withSys o = (b.withSys o).map (fun v => v.withPayload c m m') := by
  cases o <;> rfl

theorem clientStep_outside {c' : Nat}
    (ha : ∀ side k, b.access? (.client c') ≠ some ⟨c, side, k⟩) :
    (b.withPayload c m m').clientStep c' =
      (b.clientStep c').map (fun v => v.withPayload c m m') := by
  have hne : ∀ k, b.access? (.client c') = some ⟨c', .client, k⟩ → c' ≠ c := by
    rintro k hk rfl
    exact ha _ _ hk
  have hst : (b.withPayload c m m').stage c' = b.stage c' := rfl
  unfold clientStep
  rw [hst]
  cases hs : b.stage c' with
  | idle => rfl
  | panicked msg => rfl
  | serialize x =>
    dsimp only
    split <;> rfl
  | env x args =>
    have hc : c' ≠ c := hne _ (by simp only [access?, hs]; rfl)
    dsimp only
    rw [withPayload_request hc]
    split
    · rfl
    · simp [withPayload, setRequest, setResponse, setStage, Function.update_comm hc]
  | args x args env =>
    have hc : c' ≠ c := hne _ (by simp only [access?, hs]; rfl)
    dsimp only
    rw [withPayload_request hc]
    split
    · rfl
    · simp [withPayload, setRequest, setResponse, setStage, Function.update_comm hc]
  | header x args env pos =>
    have hc : c' ≠ c := hne _ (by simp only [access?, hs]; rfl)
    dsimp only
    rw [withPayload_request hc]
    have hsys : (b.withPayload c m m').sys = b.sys := rfl
    rw [hsys]
    cases b.sys.issue P.bin c' x.op with
    | none => rfl
    | some sys =>
      simp [withPayload, setRequest, setResponse, setStage, Function.update_comm hc]
  | issued x args =>
    dsimp only
    have hsys : (b.withPayload c m m').sys = b.sys := rfl
    rw [hsys]
    cases b.sys.clientStep c' with
    | none => rfl
    | some sys =>
      simp only [Option.bind_eq_bind, Option.bind_some]
      cases hpc : (b.sys.client c').pc with
      | reading op =>
        have hc : c' ≠ c := hne _ (by simp only [access?, hs, hpc]; rfl)
        have hreply : (b.withPayload c m m').replyBytes c' x.op = b.replyBytes c' x.op := by
          unfold replyBytes
          rw [withPayload_response hc]
        dsimp only
        rw [hreply]
        rfl
      | _ => rfl

theorem trusteeStep_outside (ha : ∀ side k, b.access? .trustee ≠ some ⟨c, side, k⟩) :
    (b.withPayload c m m').trusteeStep = b.trusteeStep.map (fun v => v.withPayload c m m') := by
  have hne : ∀ c' k, b.access? .trustee = some ⟨c', .worker, k⟩ → c' ≠ c := by
    rintro _ k hk rfl
    exact ha _ _ hk
  have hsys : (b.withPayload c m m').sys = b.sys := rfl
  unfold trusteeStep
  rw [hsys]
  cases hpc : b.sys.pc with
  | record batch =>
    dsimp only
    split
    · exact withPayload_withSys _
    · rename_i hleft
      have hc : batch.chan ≠ c := hne _ _ (by simp only [access?, hpc, if_neg hleft]; rfl)
      rw [withPayload_request hc]
      split
      · rfl
      · rename_i hdr _
        cases (b.sys.findHeader batch.chan _ hdr).trusteeStep <;> rfl
  | calling batch hdr k =>
    dsimp only
    split
    · exact withPayload_withSys _
    · rename_i hlast
      have hc : batch.chan ≠ c := hne _ _ (by simp only [access?, hpc, if_neg hlast]; rfl)
      have henv : (b.withPayload c m m').env = b.env := rfl
      have hheader : (b.withPayload c m m').header = b.header := rfl
      rw [withPayload_request hc, henv, hheader]
      cases b.env with
      | none =>
        simp only [readEnv, withPayload_request hc]
        rfl
      | some bytes =>
        dsimp only
        cases (b.sys.findClosure batch.chan _ _ _).trusteeStep <;> rfl
  | writeOut batch r =>
    have hc : batch.chan ≠ c := hne _ _ (by simp only [access?, hpc]; rfl)
    dsimp only
    rw [withPayload_writeResult hc]
    exact withPayload_withSys _
  | moveOut batch =>
    have hc : batch.chan ≠ c := hne _ _ (by simp only [access?, hpc]; rfl)
    dsimp only
    rw [withPayload_response hc, withPayload_setResponse hc]
    exact withPayload_withSys _
  | _ => exact withPayload_withSys _

theorem fiberStep_outside {j : Nat} (ha : ∀ side k, b.access? (.fiber j) ≠ some ⟨c, side, k⟩) :
    (b.withPayload c m m').fiberStep j =
      (b.fiberStep j).map (fun v => v.withPayload c m m') := by
  have hne : ∀ c' k, b.access? (.fiber j) = some ⟨c', .worker, k⟩ → c' ≠ c := by
    rintro _ k hk rfl
    exact ha _ _ hk
  have hsys : (b.withPayload c m m').sys = b.sys := rfl
  unfold fiberStep
  rw [hsys]
  cases hj : b.sys.jobs[j]? with
  | none => rfl
  | some job =>
    dsimp only
    cases hf : b.sys.fiber j with
    | queued =>
      have hc : job.chan ≠ c := hne _ _ (by simp only [access?, hj, hf]; rfl)
      have hread : (b.withPayload c m m').readEnv job.chan
          ((b.withPayload c m m').jobHeader j) = b.readEnv job.chan (b.jobHeader j) := by
        simp only [readEnv, withPayload_request hc]
        rfl
      dsimp only
      rw [hread]
      exact withPayload_withSys _
    | writing r =>
      have hc : job.chan ≠ c := hne _ _ (by simp only [access?, hj, hf]; rfl)
      dsimp only
      rw [withPayload_writeResult hc]
      exact withPayload_withSys _
    | _ => exact withPayload_withSys _

theorem step_outside {a : Action P} (ha : ∀ side k, b.access? a ≠ some ⟨c, side, k⟩) :
    (b.withPayload c m m').step a = (b.step a).map (fun v => v.withPayload c m m') := by
  cases a with
  | register => rfl
  | begin_ c' x =>
    have hst : (b.withPayload c m m').stage c' = b.stage c' := rfl
    have hsys : (b.withPayload c m m').sys = b.sys := rfl
    simp only [step, beginCall, hst, hsys]
    split
    · split <;> rfl
    · rfl
  | client c' => exact clientStep_outside ha
  | trustee => exact trusteeStep_outside ha
  | fiber j => exact fiberStep_outside ha
  | dropValue c' => exact withPayload_withSys _
  | dropHandle c' =>
    have hst : (b.withPayload c m m').stage c' = b.stage c' := rfl
    simp only [step, dropHandle, hst]
    split
    · exact withPayload_withSys _
    · rfl

end Outside

theorem Inv.answers (h : Inv value b) (h' : Inv value b') {a : Action P}
    (hs : b.step a = some b') (hdiff : ¬ b.Level c) (hlevel : b'.Level c) :
    Answered (b'.sys.client c) (b'.sys.chan c) (b.current c) := by
  have hi := h.reach.inv
  have hcl := hi.client c
  -- a client that is not waiting has level bits
  obtain ⟨op, r, hpc⟩ : ∃ op r, (b.sys.client c).pc = .waiting op r := by
    cases hpc : (b.sys.client c).pc with
    | waiting op r => exact ⟨op, r, rfl⟩
    | encoded op | loaded op r =>
      simp only [ClientOk, hpc] at hcl
      exact absurd hcl.1.1 hdiff
    | _ =>
      simp only [ClientOk, hpc] at hcl
      exact absurd hcl.1 hdiff
  simp only [ClientOk, hpc] at hcl
  rcases h.step_sys hs with hsame | ⟨a', hs'⟩
  · rw [Level, hsame] at hlevel
    exact absurd hlevel hdiff
  have hsame : b'.sys.client c = b.sys.client c := by
    rcases Sys.step_client hs' c with hsame | ⟨hnext, _⟩
    · exact hsame
    · obtain rfl := hnext.waits hpc
      have hne : ready (b.sys.chan c).respWord ≠ r := by
        rintro rfl
        exact hdiff hcl.1
      rw [Sys.clientStep_spins hs' hpc hne]
  have hcl' := h'.reach.inv.client c
  simp only [ClientOk, hsame, hpc] at hcl'
  refine .inr ⟨by rw [hsame]; rfl, .inr ⟨op, r, by rw [hsame, hpc], ?_⟩⟩
  exact hlevel.symm.trans hcl'.1

end

end Slotted

open Slotted

/-- In every run the client writes a request and reads a response while the ready bits of
its channel agree, and the worker reads a request and writes a response while they differ;
once a step has made them equal, whatever the worker touches is for a later request. No
other step depends on the bytes of the payloads, or changes them. -/
theorem slot_ownership_alternates {header : RequestRecordHeader} {value : T}
    {l : List (Slotted P × Slotted.Action P)} {u : Slotted P}
    (h : Machine.Trace Slotted.step (Slotted.init header value) l u) :
    (∀ x ∈ l, ∀ c k, x.1.access? x.2 = some ⟨c, .client, k⟩ → x.1.Level c) ∧
    (∀ x ∈ l, ∀ c k, x.1.access? x.2 = some ⟨c, .worker, k⟩ → ¬ x.1.Level c) ∧
    (∀ l₁ t a l₂ v c, l = l₁ ++ (t, a) :: l₂ → t.step a = some v → ¬ t.Level c → v.Level c →
      ∀ x ∈ l₂, ∀ k, x.1.access? x.2 = some ⟨c, .worker, k⟩ → t.current c < k) ∧
    ∀ x ∈ l, ∀ c, (∀ side k, x.1.access? x.2 ≠ some ⟨c, side, k⟩) →
      ∀ m m', (x.1.withPayload c m m').step x.2 =
        (x.1.step x.2).map (fun v => v.withPayload c m m') := by
  refine ⟨fun x hx c k ha => ?_, fun x hx c k ha hlevel => ?_, ?_,
    fun x _ c ha m m' => step_outside ha⟩
  · obtain ⟨_, hx'⟩ := h.before hx
    exact (Inv.of_trace hx').client_level ha
  · obtain ⟨_, hx'⟩ := h.before hx
    obtain ⟨_, r, _, hreq, hresp, _⟩ := (Inv.of_trace hx').worker_differs ha
    rw [Level, hreq, hresp] at hlevel
    cases r <;> simp at hlevel
  · rintro l₁ t a l₂ v c rfl hs hdiff hlevel x hx k ha
    obtain ⟨hbefore, v', hv, hafter⟩ := h.split
    obtain rfl := Option.some.inj (hs.symm.trans hv)
    have ht := Inv.of_trace hbefore
    have hvinv := ht.step hs
    obtain ⟨l', hx'⟩ := hafter.before hx
    have hkeep : Slotted.Inv value x.1 ∧
        Answered (x.1.sys.client c) (x.1.sys.chan c) (t.current c) := by
      refine @Machine.Trace.invariant _ _ _ _ _ _ (fun b => Slotted.Inv value b ∧
        Answered (b.sys.client c) (b.sys.chan c) (t.current c)) (fun _ _ => True)
        ⟨hvinv, ht.answers hvinv hs hdiff hlevel⟩ ?_ hx' (fun _ _ => trivial)
      rintro b a' b' ⟨hb, hans⟩ - hs'
      refine ⟨hb.step hs', ?_⟩
      rcases hb.step_sys hs' with hsame | ⟨a'', hs''⟩
      · rw [hsame]
        exact hans
      · exact hans.step hb.reach.inv hs''
    obtain ⟨op, r, hpc, _, hresp, rfl⟩ := hkeep.1.worker_differs ha
    -- the request it works for is not answered, so it is not the one that was
    rcases hkeep.2 with hlt | ⟨_, ⟨op', hread⟩ | ⟨op', r', hwait, hr⟩⟩
    · exact hlt
    · simp [hpc] at hread
    · obtain ⟨_, rfl⟩ := ClientPc.waiting.inj (hpc.symm.trans hwait)
      simp [hr] at hresp

def launchThenAdd : List (Slotted.Action bytePlatform) :=
  [.register, .begin_ 0 (.launchAdding 2)] ++ List.replicate 6 (.client 0) ++
    List.replicate 8 .trustee ++ List.replicate 5 (.fiber 0) ++ List.replicate 6 .trustee ++
    List.replicate 2 (.client 0) ++ [.begin_ 0 (.applyAdding 3)] ++
    List.replicate 6 (.client 0) ++ List.replicate 12 .trustee ++ List.replicate 2 (.client 0)

theorem slot_ownership_alternates_launchThenAdd :
    ∃ l : List (Slotted bytePlatform × Slotted.Action bytePlatform), ∃ u,
    Machine.Trace Slotted.step (Slotted.init ⟨0, 0, .terminate, 0, 0, 0, 0⟩ 5) l u ∧
    u.sys.prop = 10 ∧ u.replies 0 = [LittleEndian.bytes 8 5, LittleEndian.bytes 8 7] ∧
    ∀ x ∈ l, ∀ c k, x.1.access? x.2 = some ⟨c, .worker, k⟩ → ¬ x.1.Level c := by
  obtain ⟨u, hrun, hprop, hreplies⟩ : ∃ u, Machine.run Slotted.step
      (Slotted.init ⟨0, 0, .terminate, 0, 0, 0, 0⟩ 5) launchThenAdd = some u ∧
      u.sys.prop = 10 ∧ u.replies 0 = [LittleEndian.bytes 8 5, LittleEndian.bytes 8 7] :=
    ⟨_, rfl, by decide +kernel, by decide +kernel⟩
  have h := Machine.run_trail hrun
  exact ⟨_, u, h, hprop, hreplies, (slot_ownership_alternates h).2.1⟩

end TrustTee
