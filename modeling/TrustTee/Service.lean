import TrustTee.Paths

set_option autoImplicit false

namespace TrustTee
open Header

variable {T V R : Type}

inductive Sys.Works (s s' : Sys T V R) : Prop where
  | trustee (h : s.trusteeStep = some s')
  | fiber (j : Nat) (h : s.fiberStep j = some s')

abbrev Sys.Serves : Sys T V R → Sys T V R → Prop := Relation.ReflTransGen Sys.Works

structure Sys.Rests (s : Sys T V R) (r : Bool) : Prop where
  pc : s.pc = .loop
  reg : s.reg = []
  clients : ∃ pl lr, s.clients = [⟨0, pl, lr⟩] ∧ (pl = true → lr = r)
  startIdx : s.startIdx = 0
  answered : ready (s.chan 0).respWord = r

def Sys.asked (s : Sys T V R) : Record T R := (s.chan 0).records hdrOffset

def Record.Returns (r : Record T R) : Prop := ∀ t, ∃ o, (r.env.call r.args t).2 = .returned o

def Batch.only (q : Bool) : Batch := ⟨1, 0, 0, 0, q, 1, headerBytes, 0, false⟩

def Batch.found (q : Bool) : Batch := { Batch.only q with cursor := hdrOffset }

structure Sys.Inside (s s' : Sys T V R) : Prop where
  reg : s'.reg = s.reg
  clients : s'.clients = s.clients
  client : s'.client = s.client
  created : s'.created = s.created

namespace Sys

variable {s s' : Sys T V R} {q : Bool}

theorem Serves.next {u : Sys T V R} (h : s.Serves s') (hs : s'.trusteeStep = some u) :
    s.Serves u := h.tail (.trustee hs)

theorem Rests.sweeps {r : Bool} (h : s.Rests r) :
    ∃ n, s.Serves { s with loopCounter := n, pc := .sweep 1 0 } := by
  obtain ⟨pl, lr, hcl, _⟩ := h.clients
  refine ⟨(s.loopCounter + 1) % 2 ^ 64, ?_⟩
  by_cases hdrain : (s.loopCounter + 1) % 2 ^ 64 % 16 = 0
  · have hloop : s.trusteeStep =
        some { s with loopCounter := (s.loopCounter + 1) % 2 ^ 64, pc := .drain 0 } := by
      simp only [trusteeStep, h.pc, hdrain, or_true, if_true, goto]
    refine Serves.next (.single (.trustee hloop)) ?_
    simp [trusteeStep, h.reg, enterSweep, hcl, goto]
  · refine .single (.trustee ?_)
    simp only [trusteeStep, h.pc, hdrain, hcl, enterSweep, goto, List.isEmpty_cons,
      Bool.false_eq_true, or_self, if_false, List.length_singleton]

theorem Rests.takes (h : s.Rests (!q)) (hreq : (s.chan 0).reqWord = packReadyCount q 1) :
    ∃ n lr, s.Serves { s with loopCounter := n, clients := [⟨0, false, lr⟩],
                              pc := .record (.only q) } := by
  obtain ⟨n, hsweep⟩ := h.sweeps
  obtain ⟨pl, lr, hcl, hpl⟩ := h.clients
  refine ⟨n, lr, ?_⟩
  have hload : ({ s with loopCounter := n, pc := .sweep 1 0 } : Sys T V R).trusteeStep =
      some { s with loopCounter := n, pc := .loadedReq 1 0 0 0 (packReadyCount q 1) } := by
    simp [trusteeStep, h.startIdx, hcl, goto, hreq]
  refine (hsweep.next hload).next ?_
  have hdiff : q ≠ !q := by cases q <;> simp
  have hcount : (count (packReadyCount q 1)).toNat = 1 := by
    rw [count_packReadyCount_one]
    rfl
  cases pl with
  | true =>
    have hlr : lr = !q := hpl rfl
    simp [trusteeStep, hcl, visit, h.answered, goto, hlr, Batch.only]
    exact hcount
  | false =>
    simp [trusteeStep, hcl, visit, h.answered, goto, Batch.only]
    exact hcount

theorem recordStep_only : s.recordStep (.only q) =
    match s.asked.hdr.propertyPtr with
    | .intoInner => s.goto (.moveOut (.found q))
    | .launch => s.dispatch (.found q) s.asked
    | .terminate => s.goto (.joining (.found q))
    | _ => s.goto (.calling (.found q) s.asked.hdr 0) := by
  have hcursor : nextBoundaryOffset (Batch.only q).cursor recordHeaderSize recordHeaderAlign =
      hdrOffset := rfl
  have hfound : ({ Batch.only q with cursor := hdrOffset } : Batch) = .found q := rfl
  unfold recordStep
  rw [if_neg (by simp [Batch.only])]
  simp only [hcursor, hfound]
  rfl

theorem Inside.trans {u : Sys T V R} (h : s.Inside s') (h' : s'.Inside u) : s.Inside u :=
  ⟨h'.reg.trans h.reg, h'.clients.trans h.clients, h'.client.trans h.client,
    h'.created.trans h.created⟩

theorem calls_closure {b : Batch} {hdr : RecordHeader} {k : Nat} (hpc : s.pc = .calling b hdr k)
    (hmore : hdr.propertyPtr = .callMutRetUnit → k < hdr.repeatCount.toNat)
    (hret : ((s.chan b.chan).records b.cursor).Returns) :
    ∃ s' o, s.Serves s' ∧ s.Inside s' ∧ s'.chan = s.chan ∧
      s'.pc = if hdr.propertyPtr = .callMutRetUnit then .calling b hdr (k + 1) else .writeOut b o := by
  generalize hrec : (s.chan b.chan).records b.cursor = rec_ at hret
  obtain ⟨o, ho⟩ := hret s.prop
  have hgo : ¬ (hdr.propertyPtr = .callMutRetUnit ∧ ¬ k < hdr.repeatCount.toNat) :=
    fun h => h.2 (hmore h.1)
  have hcall : s.trusteeStep =
      some (s.goto (.inClosure b hdr k rec_.env rec_.args rec_.seq)) := by
    simp only [trusteeStep, hpc, if_neg hgo, hrec]
  let u := { s with prop := (rec_.env.call rec_.args s.prop).1 }.log
    (.app b.chan rec_.seq (rec_.env.call rec_.args))
  have hend : (s.goto (.inClosure b hdr k rec_.env rec_.args rec_.seq)).trusteeStep =
      some (u.goto (if hdr.propertyPtr = .callMutRetUnit then .calling b hdr (k + 1)
        else .writeOut b o)) := by
    simp only [trusteeStep, goto, ho]
    split <;> rfl
  exact ⟨_, o, Serves.next (.single (.trustee hcall)) hend,
    ⟨rfl, rfl, rfl, rfl⟩, rfl, rfl⟩

theorem calls_once (hpc : s.pc = .record (.only q))
    (hop : s.asked.hdr.propertyPtr = .callMutOutPtr ∨
      s.asked.hdr.propertyPtr = .callMutArgsOutPtr) (hret : s.asked.Returns) :
    ∃ s', s.Serves s' ∧ s'.pc = .record (Batch.found q).advance ∧ s.Inside s' := by
  have hunit : s.asked.hdr.propertyPtr ≠ .callMutRetUnit := by
    rcases hop with h | h <;> simp [h]
  have hfind : s.trusteeStep = some (s.goto (.calling (.found q) s.asked.hdr 0)) := by
    simp only [trusteeStep, hpc, recordStep_only]
    rcases hop with h | h <;> simp only [h]
  obtain ⟨u, o, hserves, hin, _, hpc'⟩ := calls_closure
    (s := s.goto (.calling (.found q) s.asked.hdr 0)) rfl (fun h => absurd h hunit) hret
  rw [if_neg hunit] at hpc'
  have hwrite : u.trusteeStep = some ((u.setChan (Batch.found q).chan
      { u.chan (Batch.found q).chan with respData := .result o }).goto
        (.record (Batch.found q).advance)) := by
    simp only [trusteeStep, hpc']
  exact ⟨_, Serves.next (hserves.head (.trustee hfind)) hwrite, rfl, hin.reg, hin.clients,
    hin.client, hin.created⟩

theorem calls_batch {b : Batch} {hdr : RecordHeader} (hunit : hdr.propertyPtr = .callMutRetUnit)
    (d : Nat) {k : Nat} {s : Sys T V R} (hd : d = hdr.repeatCount.toNat - k)
    (hpc : s.pc = .calling b hdr k) (hret : ((s.chan b.chan).records b.cursor).Returns) :
    ∃ s', s.Serves s' ∧ s'.pc = .record b.advance ∧ s.Inside s' := by
  induction d generalizing k s with
  | zero =>
    have hdone : s.trusteeStep = some (s.goto (.record b.advance)) := by
      have hk : ¬ k < hdr.repeatCount.toNat := by omega
      simp only [trusteeStep, hpc, hunit, hk, not_false_iff, and_self, if_true]
    exact ⟨_, .single (.trustee hdone), rfl, rfl, rfl, rfl, rfl⟩
  | succ d ih =>
    obtain ⟨u, o, hserves, hin, hchan, hpc'⟩ := calls_closure hpc (fun _ => by omega) hret
    rw [if_pos hunit] at hpc'
    obtain ⟨s', hrest, hend, hin'⟩ := ih (by omega) hpc' (hchan ▸ hret)
    exact ⟨s', hserves.trans hrest, hend, hin.trans hin'⟩

theorem responds {lr : Bool} (hpc : s.pc = .record (Batch.found q).advance) (hreg : s.reg = [])
    (hcl : s.clients = [⟨0, false, lr⟩]) :
    ∃ s', s.Serves s' ∧ s'.Rests q ∧ s'.client = s.client ∧ s'.created = s.created := by
  have hleft : s.trusteeStep = some (s.goto (.respond (Batch.found q).advance)) := by
    simp only [trusteeStep, hpc]
    rfl
  refine ⟨_, Serves.next (Serves.next (.single (.trustee hleft)) rfl) rfl, ?_, rfl, rfl⟩
  refine ⟨rfl, hreg, ⟨false, lr, hcl, by simp⟩, ?_, ?_⟩
  · simp [served, goto, Batch.advance, Batch.found, Batch.only]
  · simp [served, setChan, goto, Batch.advance, Batch.found, Batch.only]

theorem dispatches (hpc : s.pc = .record (.only q)) (hop : s.asked.hdr.propertyPtr = .launch) :
    s.Serves { s.dispatch (.found q) s.asked with startIdx := 0, pc := .loop } := by
  have hfind : s.trusteeStep = some (s.dispatch (.found q) s.asked) := by
    simp only [trusteeStep, hpc, recordStep_only, hop]
  have hleft : (s.dispatch (.found q) s.asked).trusteeStep =
      some { s.dispatch (.found q) s.asked with startIdx := 0, pc := .sweep 1 1 } := by
    simp [trusteeStep, dispatch, recordStep, served, Batch.advance, Batch.found, Batch.only]
  exact Serves.next (Serves.next (.single (.trustee hfind)) hleft) rfl

theorem runs_job {j : Nat} {job : Job} (hj : s.jobs[j]? = some job) (hf : s.fiber j = .queued)
    (hret : ((s.chan job.chan).records job.cursor).Returns) :
    ∃ s', s.Serves s' ∧ s'.pc = s.pc ∧ s'.startIdx = s.startIdx ∧
      (s'.chan job.chan).respWord = packReadyCount job.reqReady 1 ∧ s.Inside s' := by
  generalize hrec : (s.chan job.chan).records job.cursor = rec_ at hret
  obtain ⟨r, hr⟩ := hret s.prop
  let u := { s with prop := (rec_.env.call rec_.args s.prop).1 }.log
    (.app job.chan rec_.seq (rec_.env.call rec_.args))
  let v := u.setChan job.chan { s.chan job.chan with respData := .result r }
  let w := v.setChan job.chan { v.chan job.chan with respWord := packReadyCount job.reqReady 1 }
  have htake : s.fiberStep j = some (s.setFiber j (.running rec_.env rec_.args rec_.seq)) := by
    simp only [fiberStep, hj, hf, hrec]
  have hrun : (s.setFiber j (.running rec_.env rec_.args rec_.seq)).fiberStep j =
      some (u.setFiber j (.writing r)) := by
    simp [fiberStep, setFiber, hj, hr, u, log]
  have hwrite : (u.setFiber j (.writing r)).fiberStep j = some (v.setFiber j .guard) := by
    simp [fiberStep, setFiber, hj, u, v, log, setChan]
  have hsignal : (v.setFiber j .guard).fiberStep j = some (w.setFiber j .signalled) := by
    simp [fiberStep, setFiber, hj, u, v, w, log, setChan]
  have hdrop : (w.setFiber j .signalled).fiberStep j = some (w.dropArc.setFiber j .finished) := by
    simp [fiberStep, setFiber, hj, u, v, w, log, setChan, dropArc]
  refine ⟨w.dropArc.setFiber j .finished, ((Relation.ReflTransGen.single (Works.fiber j htake)).tail
    (.fiber j hrun)).tail (.fiber j hwrite) |>.tail (.fiber j hsignal) |>.tail (.fiber j hdrop),
    rfl, rfl, ?_, rfl, rfl, rfl, rfl⟩
  simp [w, v, u, log, setChan, setFiber, dropArc]

theorem launches {lr : Bool} (hpc : s.pc = .record (.only q))
    (hop : s.asked.hdr.propertyPtr = .launch) (hreg : s.reg = [])
    (hcl : s.clients = [⟨0, false, lr⟩]) (hret : s.asked.Returns) :
    ∃ s', s.Serves s' ∧ s'.Rests q ∧ s'.client = s.client ∧ s'.created = s.created := by
  generalize hu : ({ s.dispatch (.found q) s.asked with startIdx := 0, pc := .loop } :
    Sys T V R) = u
  have hdisp : s.Serves u := hu ▸ dispatches hpc hop
  have hjob : u.jobs[s.jobs.length]? = some ⟨0, hdrOffset, s.asked.seq, q⟩ := by
    simp [← hu, dispatch, Batch.found, Batch.only]
  have hqueued : u.fiber s.jobs.length = .queued := by
    simp [← hu, dispatch]
  have hret : ((u.chan 0).records hdrOffset).Returns := by
    rw [← hu]
    exact hret
  obtain ⟨s', hserves, hpc', hstart, hword, hin⟩ := runs_job hjob hqueued hret
  refine ⟨s', hdisp.trans hserves, ⟨?_, ?_, ⟨true, q, ?_, fun _ => rfl⟩, ?_, ?_⟩, ?_, ?_⟩
  · rw [hpc', ← hu]
  · rw [hin.reg, ← hu]
    exact hreg
  · rw [hin.clients, ← hu]
    simp [dispatch, hcl, Batch.found, Batch.only]
  · rw [hstart, ← hu]
  · rw [hword]
    exact ready_packReadyCount q 1
  · rw [hin.client, ← hu]
    rfl
  · rw [hin.created, ← hu]
    rfl

/-- A request that is published is served, whatever its record has the worker do. -/
theorem Rests.serves (h : s.Rests (!q)) (hreq : (s.chan 0).reqWord = packReadyCount q 1)
    (hinto : s.asked.hdr.propertyPtr ≠ .intoInner) (hterm : s.asked.hdr.propertyPtr ≠ .terminate)
    (hret : s.asked.Returns) :
    ∃ s', s.Serves s' ∧ s'.Rests q ∧ s'.client = s.client ∧ s'.created = s.created := by
  obtain ⟨n, lr, htaken⟩ := h.takes hreq
  generalize hu : ({ s with
    loopCounter := n, clients := [⟨0, false, lr⟩], pc := .record (.only q) } : Sys T V R) = u at htaken
  have hpc : u.pc = .record (.only q) := by rw [← hu]
  have hcl : u.clients = [⟨0, false, lr⟩] := by rw [← hu]
  have hreg : u.reg = [] := by rw [← hu]; exact h.reg
  have hasked : u.asked = s.asked := by rw [← hu]; rfl
  have hclient : u.client = s.client := by rw [← hu]
  have hcreated : u.created = s.created := by rw [← hu]
  rw [← hasked] at hinto hterm hret
  -- what is called on the worker's own thread is answered by the worker
  have answered : (∃ v, u.Serves v ∧ v.pc = .record (Batch.found q).advance ∧ u.Inside v) →
      ∃ s', u.Serves s' ∧ s'.Rests q ∧ s'.client = u.client ∧ s'.created = u.created := by
    rintro ⟨v, hserves, hpc', hin⟩
    obtain ⟨s', hrest, hrests, hcl', hcr'⟩ :=
      responds hpc' (hin.reg.trans hreg) (hin.clients.trans hcl)
    exact ⟨s', hserves.trans hrest, hrests, hcl'.trans hin.client, hcr'.trans hin.created⟩
  have hserved : ∃ s', u.Serves s' ∧ s'.Rests q ∧ s'.client = u.client ∧
      s'.created = u.created := by
    cases hop : u.asked.hdr.propertyPtr with
    | callMutRetUnit =>
      have hfind : u.trusteeStep = some (u.goto (.calling (.found q) u.asked.hdr 0)) := by
        simp only [trusteeStep, hpc, recordStep_only, hop]
      obtain ⟨v, hv, hpc', hin⟩ := calls_batch hop _ rfl
        (s := u.goto (.calling (.found q) u.asked.hdr 0)) rfl hret
      exact answered ⟨v, .head (.trustee hfind) hv, hpc', hin.reg, hin.clients, hin.client,
        hin.created⟩
    | callMutOutPtr => exact answered (calls_once hpc (.inl hop) hret)
    | callMutArgsOutPtr => exact answered (calls_once hpc (.inr hop) hret)
    | launch => exact launches hpc hop hreg hcl hret
    | intoInner => exact absurd hop hinto
    | terminate => exact absurd hop hterm
  obtain ⟨s', hserves, hrests, hcl', hcr'⟩ := hserved
  exact ⟨s', htaken.trans hserves, hrests, hcl'.trans hclient, hcr'.trans hcreated⟩

theorem init_rests (value : T) :
    ∃ s', ((init value).register : Sys T V R).Serves s' ∧ s'.Rests false ∧
      s'.client = (init value).client ∧ s'.created = 1 := by
  let entered : Sys T V R := { (init value).register with
    loopCounter := 1, reg := [], clients := [⟨0, false, false⟩], pc := .sweep 1 0 }
  have hdrained : ((init value).register : Sys T V R).Serves entered :=
    Serves.next (Serves.next (.single (.trustee rfl)) rfl) rfl
  have hload : entered.trusteeStep = some (entered.goto (.loadedReq 1 0 0 0 0)) := rfl
  have hvisit : (entered.goto (.loadedReq 1 0 0 0 0)).trusteeStep =
      some (entered.goto (.sweep 1 1)) := by
    simp [trusteeStep, visit, goto, entered, register, init, ChannelPair.default]
  have hend : (entered.goto (.sweep 1 1)).trusteeStep = some (entered.goto .loop) := rfl
  have hanswered : ready ((entered.goto .loop).chan 0).respWord = false :=
    (by decide : ready 0 = false)
  exact ⟨entered.goto .loop, ((hdrained.next hload).next hvisit).next hend,
    ⟨rfl, rfl, ⟨false, false, rfl, by simp⟩, rfl, hanswered⟩, rfl, rfl⟩

theorem Rests.beside {r : Bool} (h : s.Rests r) (hpc : s'.pc = s.pc) (hreg : s'.reg = s.reg)
    (hclients : s'.clients = s.clients) (hstart : s'.startIdx = s.startIdx)
    (hresp : (s'.chan 0).respWord = (s.chan 0).respWord) : s'.Rests r :=
  ⟨hpc.trans h.pc, hreg.trans h.reg, hclients ▸ h.clients, hstart.trans h.startIdx,
    hresp ▸ h.answered⟩

theorem Rests.publishes {bin : Bincode V} {op : Op T V R} {rec_ : Record T R} {r : Bool}
    (h : s.Rests r) (hidle : (s.client 0).pc = .idle) (hcreated : 0 < s.created)
    (henc : op.encode bin (s.client 0).seq = some rec_) :
    ∃ s₁ s₂ s₃, s.issue bin 0 op = some s₁ ∧ (s₁.client 0).pc = .encoded op ∧
      s₁.clientStep 0 = some s₂ ∧ (s₂.client 0).pc = .loaded op (!r) ∧
      s₂.clientStep 0 = some s₃ ∧ (s₃.client 0).pc = .waiting op (!r) ∧
      s₃.Rests r ∧ s₃.asked = rec_ ∧ (s₃.chan 0).reqWord = packReadyCount (!r) 1 ∧
      s₃.created = s.created := by
  let ch := s.chan 0
  let s₁ := ((s.setChan 0 { ch with records := Function.update ch.records hdrOffset rec_ }
    ).setClient 0 ⟨(s.client 0).seq, .encoded op⟩).log (.call 0 (s.client 0).seq op)
  let s₂ := s₁.setClient 0 ⟨(s.client 0).seq, .loaded op (!r)⟩
  let s₃ := (s₂.setChan 0 { s₂.chan 0 with reqWord := packReadyCount (!r) 1 }).setClient 0
    ⟨(s.client 0).seq, .waiting op (!r)⟩
  have hissue : s.issue bin 0 op = some s₁ := by
    simp only [issue, hidle, hcreated, if_true, henc]
    rfl
  have hload : s₁.clientStep 0 = some s₂ := by
    have hans : ready (s.chan 0).respWord = r := h.answered
    simp [clientStep, s₁, s₂, ch, log, setClient, setChan, hans]
  have hstore : s₂.clientStep 0 = some s₃ := by
    simp [clientStep, s₃, s₂, setClient]
  have hrests : s₃.Rests r := by
    apply h.beside <;> simp [s₃, s₂, s₁, ch, log, setClient, setChan]
  refine ⟨s₁, s₂, s₃, hissue, ?_, hload, ?_, hstore, ?_, hrests, ?_, ?_, ?_⟩
  · simp [s₁, setClient, log]
  · simp [s₂, setClient]
  · simp [s₃, setClient]
  · simp [s₃, s₂, s₁, ch, asked, setClient, setChan, log]
  · simp [s₃, setClient, setChan]
  · simp [s₃, s₂, s₁, setClient, setChan, log]

theorem Rests.reads {op : Op T V R} (h : s.Rests q) (hpc : (s.client 0).pc = .waiting op q)
    (hterm : op ≠ .terminate) (hinto : op ≠ .intoInner) :
    ∃ s₁ s₂, s.clientStep 0 = some s₁ ∧ (s₁.client 0).pc = .reading op ∧
      s₁.clientStep 0 = some s₂ ∧ (s₂.client 0).pc = .idle ∧ s₂.Rests q ∧
      s₂.created = s.created := by
  let s₁ := s.setClient 0 ⟨(s.client 0).seq, .reading op⟩
  let y := op.reply (s.chan 0).respData
  let s₂ := (s₁.setClient 0 ⟨(s.client 0).seq + 1, .idle⟩).log (.ret 0 (s.client 0).seq y)
  have hfind : s.clientStep 0 = some s₁ := by
    have hans := h.answered
    cases op <;> simp_all [clientStep, s₁]
  have hread : s₁.clientStep 0 = some s₂ := by
    cases op <;> simp_all [clientStep, s₁, s₂, y, setClient]
  exact ⟨s₁, s₂, hfind, by simp [s₁, setClient], hread, by simp [s₂, setClient, log],
    h.beside rfl rfl rfl rfl rfl, rfl⟩

end Sys

theorem TrustLike.Proper.encoded {bin : Bincode V} {m : TrustLike T V R} (hm : m.Proper bin)
    (hbin : bin.RoundTrips) {seq : Nat} {rec_ : Record T R}
    (henc : m.op.encode bin seq = some rec_) :
    rec_.Returns ∧ rec_.hdr.propertyPtr ≠ .intoInner ∧ rec_.hdr.propertyPtr ≠ .terminate := by
  obtain ⟨hplain, hret, _⟩ := hm
  cases m with
  | intoInner => exact absurd rfl hplain
  | applyWith f w =>
    obtain ⟨args, hargs, henc⟩ := Option.bind_eq_some_iff.mp henc
    obtain rfl := Option.some.inj henc
    refine ⟨fun t => ?_, by simp, by simp⟩
    simp only [hbin w args hargs]
    exact Outcome.returned_of_ne (Body.lift_ne_panicked some hret t)
  | _ =>
    obtain rfl := Option.some.inj henc
    exact ⟨fun t => Outcome.returned_of_ne (Body.lift_ne_panicked _ hret t), by simp, by simp⟩

variable {P : Platform T V R}

/-- An operation of a list, as the program calls it and as it is compiled. It neither panics
nor fails to fit into the slots. -/
structure Request (P : Platform T V R) where
  method : TrustLike T V R
  compiled : Compiled P
  op_eq : compiled.op = method.op
  proper : method.Proper P.bin
  fits : ¬ compiled.Fails
  resultFits : headerBytes.toNat + P.result.size ≤ slotBytes.toNat

namespace Slotted

variable {value : T} {b u v : Slotted P} {xs ys : List (Compiled P)}

/-- Client 0 is idle, and so is the worker, which has answered it last with `r`. -/
structure Resting (value : T) (r : Bool) (b : Slotted P) : Prop where
  inv : Inv value b
  rests : b.sys.Rests r
  stage : b.stage 0 = .idle
  client : (b.sys.client 0).pc = .idle
  created : 0 < b.sys.created

/-- Some run begins the operations `xs`, all of them on channel 0, and leads from `b` to `u`. -/
def Begins (xs : List (Compiled P)) (b u : Slotted P) : Prop :=
  ∃ as, Machine.run Slotted.step b as = some u ∧ Only 0 as ∧ begins as = xs

theorem Begins.refl : Begins [] b b := ⟨[], rfl, by simp [Only], rfl⟩

theorem Begins.trans (h : Begins xs b u) (h' : Begins ys u v) : Begins (xs ++ ys) b v := by
  obtain ⟨as, hrun, honly, rfl⟩ := h
  obtain ⟨as', hrun', honly', rfl⟩ := h'
  refine ⟨as ++ as', ?_, ?_, by simp [begins]⟩
  · rw [Machine.run_append, hrun]
    exact hrun'
  · intro c x hm
    rcases List.mem_append.mp hm with hm | hm
    · exact honly c x hm
    · exact honly' c x hm

theorem Begins.next {a : Action P} (h : Begins xs b u) (hs : u.step a = some v)
    (ha : ∀ c x, a ≠ .begin_ c x) : Begins xs b v := by
  have hone : Begins [] u v := by
    refine ⟨[a], by simp [Machine.run, hs], ?_, ?_⟩
    · intro c x hm
      exact absurd (List.mem_singleton.mp hm).symm (ha c x)
    · cases a with
      | begin_ c x => exact absurd rfl (ha c x)
      | _ => rfl
  simpa using h.trans hone

theorem Begins.inv (h : Begins xs b u) (hi : Inv value b) : Inv value u := by
  obtain ⟨as, hrun, _⟩ := h
  exact (Machine.run_reach hrun).invariant hi (fun _ _ _ hb _ hs => hb.step hs)

theorem Inv.works_at (h : Inv value b) {s' : Sys T V R} (hs : b.sys.trusteeStep = some s')
    (henv : b.env = none → ∀ batch hdr k, b.sys.pc = .calling batch hdr k →
      hdr.propertyPtr = .callMutRetUnit ∧ ¬ k < hdr.repeatCount.toNat) :
    ∃ u, b.trusteeStep = some u ∧ u.sys = s' ∧ u.stage = b.stage := by
  have hi := h.reach.inv
  rw [h.trusteeStep_eq]
  unfold Slotted.trusteeSpec
  cases hpc : b.sys.pc with
  | record batch =>
    by_cases hleft : batch.left = 0
    · simp only [if_pos hleft, hs]
      exact ⟨_, rfl, rfl, rfl⟩
    · obtain ⟨op, ho, _, _⟩ := hi.recordStep_taken hpc hleft
      obtain ⟨x, args, hx, _⟩ := h.ghost ho.1
      simp only [if_neg hleft, hx, hs]
      exact ⟨_, rfl, rfl, rfl⟩
  | calling batch hdr k =>
    by_cases hfin : hdr.propertyPtr = .callMutRetUnit ∧ ¬ k < hdr.repeatCount.toNat
    · simp only [if_pos hfin, hs]
      exact ⟨_, rfl, rfl, rfl⟩
    · cases hnone : b.env with
      | none => exact absurd (henv hnone batch hdr k hpc) hfin
      | some bytes =>
        simp only [if_neg hfin, hs]
        exact ⟨_, rfl, rfl, rfl⟩
  | writeOut batch r =>
    simp only [hs]
    cases r <;> exact ⟨_, rfl, rfl, rfl⟩
  | _ =>
    simp only [hs]
    exact ⟨_, rfl, rfl, rfl⟩

theorem Inv.works (h : Inv value b) {s' : Sys T V R} (hw : b.sys.Works s') :
    ∃ u, Begins [] b u ∧ u.sys = s' ∧ u.stage = b.stage := by
  cases hw with
  | trustee hs =>
    by_cases henv : b.env = none → ∀ batch hdr k, b.sys.pc = .calling batch hdr k →
        hdr.propertyPtr = .callMutRetUnit ∧ ¬ k < hdr.repeatCount.toNat
    · obtain ⟨u, hu, hsys, hstage⟩ := h.works_at hs henv
      exact ⟨u, Begins.refl.next (a := .trustee) hu (by simp), hsys, hstage⟩
    · -- the environment is read first
      obtain ⟨hnone, batch, hdr, k, hpc, hfin⟩ : b.env = none ∧ ∃ batch hdr k,
          b.sys.pc = .calling batch hdr k ∧
          ¬ (hdr.propertyPtr = .callMutRetUnit ∧ ¬ k < hdr.repeatCount.toNat) := by
        by_contra hn
        exact henv (fun hnone batch hdr k hpc => by
          by_contra hfin
          exact hn ⟨hnone, batch, hdr, k, hpc, hfin⟩)
      have hfirst : b.step .trustee =
          some { b with env := some (b.readEnv batch.chan b.header) } := by
        simp only [Slotted.step, Slotted.trusteeStep, hpc, if_neg hfin, hnone]
      obtain ⟨u, hu, hsys, hstage⟩ := (h.step hfirst).works_at hs (fun hn => by simp at hn)
      exact ⟨u, (Begins.refl.next hfirst (by simp)).next (a := .trustee) hu (by simp), hsys, hstage⟩
  | fiber j hs =>
    have hstep : ∃ u, b.fiberStep j = some u ∧ u.sys = s' ∧ u.stage = b.stage := by
      rw [h.fiberStep_eq]
      unfold Slotted.fiberSpec
      split
      · rename_i r _ _
        simp only [hs]
        cases r <;> exact ⟨_, rfl, rfl, rfl⟩
      · simp only [hs]
        exact ⟨_, rfl, rfl, rfl⟩
    obtain ⟨u, hu, hsys, hstage⟩ := hstep
    exact ⟨u, Begins.refl.next (a := .fiber j) hu (by simp), hsys, hstage⟩

theorem Inv.serves (h : Inv value b) {s' : Sys T V R} (hw : b.sys.Serves s') :
    ∃ u, Begins [] b u ∧ u.sys = s' ∧ u.stage = b.stage := by
  induction hw with
  | refl => exact ⟨b, .refl, rfl, rfl⟩
  | tail _ hw ih =>
    obtain ⟨w, hb, rfl, hstage⟩ := ih
    obtain ⟨u, hb', hsys, hstage'⟩ := (hb.inv h).works hw
    exact ⟨u, hb.trans hb', hsys, hstage'.trans hstage⟩

theorem Resting.encodes {r : Bool} (h : Resting value r b) {x : Compiled P} (hx : ¬ x.Fails) :
    ∃ u args env pos, Begins [x] b u ∧ u.sys = b.sys ∧ x.op.args P.bin = some args ∧
      u.stage 0 = .header x args env pos := by
  obtain ⟨args, hargs, henv, hfit⟩ := Compiled.not_fails hx
  let b₁ := b.setStage 0 (.serialize x)
  let b₂ := b₁.setStage 0 (.env x args)
  let m := if x.capture.size ≠ 0
    then (b.request 0).write (envOffset x.capture).toNat x.capture.bytes else b.request 0
  let b₃ := (b₂.setRequest 0 m).setStage 0 (.args x args (envOffset x.capture))
  let b₄ := (b₃.setRequest 0 (m.write (argsOffset x.capture args).toNat args)).setStage 0
    (.header x args (envOffset x.capture) (argsOffset x.capture args))
  have hbegin : b.step (.begin_ 0 x) = some b₁ := by
    simp only [Slotted.step, Slotted.beginCall, h.stage, h.client, h.created, if_true]
    rfl
  have hserialize : b₁.step (.client 0) = some b₂ := by
    simp [Slotted.step, Slotted.clientStep, b₁, b₂, setStage, hargs]
  have henvironment : b₂.step (.client 0) = some b₃ := by
    have hst : b₂.stage 0 = .env x args := by simp [b₂, setStage]
    simp only [Slotted.step, Slotted.clientStep, hst, allocAligned_env, if_pos henv]
    rfl
  have harguments : b₃.step (.client 0) = some b₄ := by
    have hst : b₃.stage 0 = .args x args (envOffset x.capture) := by simp [b₃, setStage]
    have hmem : b₃.request 0 = m := by simp [b₃, setStage, setRequest]
    simp only [Slotted.step, Slotted.clientStep, hst, allocAligned_args, if_pos hfit, hmem]
    rfl
  have hone : Begins [x] b b₁ := by
    refine ⟨[.begin_ 0 x], by simp [Machine.run, hbegin], ?_, rfl⟩
    intro c y hm
    obtain ⟨rfl, rfl⟩ := Action.begin_.inj (List.mem_singleton.mp hm)
    exact ⟨rfl, hx⟩
  exact ⟨b₄, args, envOffset x.capture, argsOffset x.capture args,
    ((hone.next hserialize (by simp)).next henvironment (by simp)).next harguments (by simp),
    rfl, hargs, by simp [b₄, setStage]⟩

theorem issued_step {x : Compiled P} {args : List UInt8} (hst : b.stage 0 = .issued x args)
    {s' : Sys T V R} (hs : b.sys.clientStep 0 = some s')
    (hread : ∀ op, (b.sys.client 0).pc ≠ .reading op) :
    b.step (.client 0) = some { b with sys := s' } := by
  simp only [Slotted.step, Slotted.clientStep, hst, hs, Option.bind_eq_bind, Option.bind_some]

/-- An operation that fits and returns is served, and all is at rest again. -/
theorem Resting.request {r : Bool} (h : Resting value r b) {x : Compiled P} (hx : ¬ x.Fails)
    {m : TrustLike T V R} (hop : x.op = m.op) (hm : m.Proper P.bin) (hbin : P.bin.RoundTrips) :
    ∃ u, Begins [x] b u ∧ Resting value (!r) u := by
  obtain ⟨w, args, env, pos, hw, hsys, hargs, hst⟩ := h.encodes hx
  have henc : x.op.encode P.bin (w.sys.client 0).seq =
      some ⟨x.op.hdr, x.op.env P.bin, args, (w.sys.client 0).seq⟩ := by
    rw [Op.encode_eq, hargs]
    rfl
  obtain ⟨hret, hinto, hterm⟩ := hm.encoded hbin (by rw [← hop]; exact henc)
  obtain ⟨s₁, s₂, s₃, hissue, hpc₁, hload, hpc₂, hstore, hpc₃, hrests, hasked, hword, hcreated⟩ :=
    (hsys ▸ h.rests : w.sys.Rests r).publishes (hsys ▸ h.client) (hsys ▸ h.created) henc
  -- the client writes the header, and hands its record to the worker
  let b₁ := { w.setRequest 0 ((w.request 0).write hdrOffset.toNat
    (x.header (P.base 0) args env pos).bytes) with sys := s₁ }.setStage 0 (.issued x args)
  have hst₁ : b₁.stage 0 = .issued x args := by simp [b₁, setStage]
  have hwrite : w.step (.client 0) = some b₁ := by
    simp only [Slotted.step, Slotted.clientStep, hst, hissue]
    rfl
  have hloads : b₁.step (.client 0) = some { b₁ with sys := s₂ } :=
    issued_step hst₁ hload (by simp [b₁, setStage, hpc₁])
  have hstores : ({ b₁ with sys := s₂ } : Slotted P).step (.client 0) =
      some { b₁ with sys := s₃ } :=
    issued_step (b := { b₁ with sys := s₂ }) hst₁ hstore (by simp [hpc₂])
  have hsent := ((hw.next hwrite (by simp)).next hloads (by simp)).next hstores (by simp)
  -- the worker serves it
  obtain ⟨s₄, hserves, hrests₄, hclient₄, hcreated₄⟩ :=
    (by simpa using hrests : s₃.Rests (!!r)).serves hword (hasked ▸ hinto) (hasked ▸ hterm)
      (hasked ▸ hret)
  obtain ⟨v, hv, rfl, hst₄⟩ := (hsent.inv h.inv).serves hserves
  -- the client reads the answer
  have hpc₄ : (v.sys.client 0).pc = .waiting x.op (!r) := by rw [hclient₄, hpc₃]
  have hplain : x.op ≠ .intoInner := fun hx => hinto (by simp [hx, Op.hdr])
  obtain ⟨s₅, s₆, hfind, hpc₅, hread, hpc₆, hrests₆, hcreated₆⟩ :=
    hrests₄.reads hpc₄ x.handle hplain
  have hst₄ : v.stage 0 = .issued x args := by rw [hst₄]; exact hst₁
  have hfinds : v.step (.client 0) = some { v with sys := s₅ } :=
    issued_step hst₄ hfind (by simp [hpc₄])
  let b₆ := { v with
    sys := s₆
    replies := Function.update v.replies 0 (v.replies 0 ++ [v.replyBytes 0 x.op]) }.setStage 0 .idle
  have hreads : ({ v with sys := s₅ } : Slotted P).step (.client 0) = some b₆ := by
    simp only [Slotted.step, Slotted.clientStep, hst₄, hread, hpc₅]
    rfl
  have hdone := ((hsent.trans hv).next hfinds (by simp)).next hreads (by simp)
  refine ⟨b₆, by simpa using hdone, (hdone.inv h.inv), hrests₆, by simp [b₆, setStage], hpc₆, ?_⟩
  have hcreated : s₆.created = b.sys.created := by rw [hcreated₆, hcreated₄, hcreated, hsys]
  exact hcreated ▸ h.created

theorem Resting.requests (rs : List (Request P)) {r : Bool} (h : Resting value r b)
    (hbin : P.bin.RoundTrips) :
    ∃ u r', Begins (rs.map Request.compiled) b u ∧ Resting value r' u := by
  induction rs generalizing b r with
  | nil => exact ⟨b, r, .refl, h⟩
  | cons q rs ih =>
    obtain ⟨w, hw, hrest⟩ := h.request q.fits q.op_eq q.proper hbin
    obtain ⟨u, r', hu, hend⟩ := ih hrest
    exact ⟨u, r', hw.trans hu, hend⟩

theorem Resting.start (header : RequestRecordHeader) (value : T) :
    ∃ u : Slotted P, Begins [] (Slotted.init header value) u ∧ Resting value false u := by
  obtain ⟨s', hserves, hrests, hclient, hcreated⟩ :=
    @Sys.init_rests T V R value
  have hregister : (Slotted.init header value : Slotted P).step .register =
      some { Slotted.init header value with sys := (Sys.init value).register } := rfl
  have hinv := (Inv.init header value : Inv value (Slotted.init header value : Slotted P)).step
    hregister
  obtain ⟨u, hu, rfl, hstage⟩ := hinv.serves hserves
  have hrun := (Begins.refl.next hregister (by simp)).trans hu
  refine ⟨u, hrun, hrun.inv (.init header value), hrests, ?_, ?_, ?_⟩
  · rw [hstage]
    rfl
  · rw [hclient]
    rfl
  · rw [hcreated]
    exact Nat.one_pos

theorem completes (header : RequestRecordHeader) (value : T) (rs : List (Request P))
    (hbin : P.bin.RoundTrips) :
    ∃ u, Begins (rs.map Request.compiled) (Slotted.init header value) u ∧ u.stage 0 = .idle := by
  obtain ⟨w, hw, hrest⟩ := Resting.start (P := P) header value
  obtain ⟨u, _, hu, hend⟩ := hrest.requests rs hbin
  exact ⟨u, hw.trans hu, hend.stage⟩

end Slotted

end TrustTee
