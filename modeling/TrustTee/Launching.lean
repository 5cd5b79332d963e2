import TrustTee.Requests

set_option autoImplicit false

namespace TrustTee
open Header AtomicObject

variable {T V R : Type}

def Sys.taken (s : Sys T V R) (b : Batch) : Op T V R → Sys T V R
  | .launch _ => s.dispatch b ((s.chan b.chan).records b.cursor)
  | .intoInner => s.goto (.moveOut b)
  | .terminate => s.goto (.joining b)
  | op => s.goto (.calling b op.hdr 0)

/-- A request is published and neither answered nor in the hands of a running fiber. -/
def Outstanding (s : Sys T V R) (c : Nat) (op : Op T V R) (r : Bool) : Prop :=
  (s.client c).pc = .waiting op r ∧ ready (s.chan c).respWord = (!r) ∧ ¬ Busy s c

section Steps

variable {bin : Bincode V} {s s' : Sys T V R} {c : Nat} {op : Op T V R} {r : Bool}

theorem Inv.recordStep_taken (hi : Inv bin s) {b : Batch} (hpc : s.pc = .record b)
    (hleft : b.left ≠ 0) : ∃ op, Outstanding s b.chan op b.reqReady ∧
      s.recordStep b = s.taken { b with cursor := hdrOffset } op ∧
      ((s.chan b.chan).records hdrOffset).seq = (s.client b.chan).seq := by
  obtain ⟨_, _, hdef, hcur⟩ := hi.at_record hpc hleft
  have hb : s.pc.batch? = some b := by simp [hpc, TrusteePc.batch?, hdef]
  obtain ⟨op, hs, _⟩ := hi.serving b hb
  have hcl := hi.client b.chan
  simp only [ClientOk, hs.1] at hcl
  have hhdr := (Op.encode_hdr hcl.2.2.1).1
  refine ⟨op, hs, ?_, (Op.encode_hdr hcl.2.2.1).2⟩
  unfold Sys.recordStep
  rw [if_neg hleft]
  simp only [hcur]
  cases op <;> simp only [hhdr, Op.hdr, Sys.taken]

theorem Inv.keeps_jobs (hi : Inv bin s) {a : Action T V R} (hs : s.step bin a = some s')
    {job : Job} (hj : job ∈ s.jobs) : job ∈ s'.jobs := by
  by_cases ha : a = .trustee
  · subst ha
    rcases (Sys.trusteeStep_frame hs).2.2.2 with he | ⟨b, hpc, hleft, rfl⟩
    · exact he ▸ hj
    · obtain ⟨op, _, he, _⟩ := hi.recordStep_taken hpc hleft
      rw [he]
      cases op with
      | launch f => exact List.mem_append_left _ hj
      | _ => exact hj
  · exact (Sys.step_aside hs ha).2.2.2 ▸ hj

theorem Sys.clientStep_spins (h : s.clientStep c = some s')
    (hpc : (s.client c).pc = .waiting op r) (hne : ready (s.chan c).respWord ≠ r) :
    s' = s := by
  unfold Sys.clientStep at h
  cases op <;> simp only [hpc] at h <;> split at h <;>
    simp only [Option.some.injEq, reduceCtorEq] at h
  all_goals first | exact h.symm | exact absurd ‹_› hne

theorem Outstanding.keep (ho : Outstanding s c op r) {a : Action T V R}
    (h : s.step bin a = some s') (ha : a ≠ .trustee) :
    Outstanding s' c op r ∧ s'.client c = s.client c ∧ s'.chan c = s.chan c := by
  obtain ⟨hpc, hresp, hnb⟩ := ho
  have stay : s'.client c = s.client c → s'.chan c = s.chan c → ¬ Busy s' c →
      Outstanding s' c op r ∧ s'.client c = s.client c ∧ s'.chan c = s.chan c := by
    intro hcl hch hb
    exact ⟨⟨by rw [hcl, hpc], by rw [hch, hresp], hb⟩, hcl, hch⟩
  by_cases hf : ∃ j, a = .fiber j
  · obtain ⟨j, rfl⟩ := hf
    obtain ⟨job, hj, hcl, hjobs, hch, hfib, hshut⟩ := Sys.fiberStep_frame h
    by_cases hc : c = job.chan
    · have ho : (s.fiber j).open_ = false := by
        cases ho : (s.fiber j).open_ with
        | false => rfl
        | true => exact absurd ⟨j, job, hj, hc.symm, ho⟩ hnb
      obtain ⟨ho', hch'⟩ := hshut ho
      refine stay (by rw [hcl]) (by rw [hch']) ?_
      rintro ⟨i, x, hx, hxc, hox⟩
      by_cases hij : i = j
      · subst hij
        simp [ho'] at hox
      · exact hnb ⟨i, x, hjobs ▸ hx, hxc, hfib i hij ▸ hox⟩
    · refine stay (by rw [hcl]) (hch c hc) ?_
      rintro ⟨i, x, hx, hxc, hox⟩
      rw [hjobs] at hx
      have hij : i ≠ j := by
        rintro rfl
        obtain rfl := Option.some.inj (hj.symm.trans hx)
        exact hc hxc.symm
      exact hnb ⟨i, x, hx, hxc, hfib i hij ▸ hox⟩
  · by_cases hac : a = .client c
    · subst hac
      obtain rfl := Sys.clientStep_spins h hpc (by simp [hresp])
      exact stay rfl rfl hnb
    · have hb := Sys.step_beside h ha (fun j hj => hf ⟨j, hj⟩)
      obtain ⟨_, _, _, hjobs, hfib⟩ := hb.worker
      rcases hb.client c with ⟨hcl, hch⟩ | ⟨next, _⟩
      · refine stay hcl hch ?_
        rintro ⟨i, x, hx, hxc, hox⟩
        exact hnb ⟨i, x, hjobs ▸ hx, hxc, hfib ▸ hox⟩
      · exact absurd (next.waits hpc) hac

/-- Whatever `pending_launch` says, an outstanding request is not passed by. -/
theorem Inv.visit_serves (hi : Inv bin s) {n offs idx : Nat} {cp : ClientPair}
    (hcp : s.clients[idx]? = some cp) (ho : Outstanding s cp.chan op r) :
    s.visit n offs idx cp (s.chan cp.chan).reqWord (s.chan cp.chan).respWord =
      { s with clients := s.clients.set idx { cp with pendingLaunch := false },
               pc := .record ⟨n, offs, idx, cp.chan, r, 1, headerBytes, 0, false⟩ } := by
  obtain ⟨hpc, hresp, hnb⟩ := ho
  have hok := hi.client cp.chan
  simp only [ClientOk, hpc] at hok
  obtain ⟨hreq, hcount, _, _⟩ := hok
  have hone : (count (s.chan cp.chan).reqWord).toNat = 1 := by rw [hcount]; rfl
  have hpend := (hi.pair cp (mem_pairs hcp)).2.2
  have hset : cp.pendingLaunch = false →
      s.clients.set idx { cp with pendingLaunch := false } = s.clients := by
    intro hp
    obtain ⟨hlt, he⟩ := List.getElem?_eq_some_iff.mp hcp
    rw [← hp, ← he]
    exact List.set_getElem_self hlt
  cases hp : cp.pendingLaunch with
  | false =>
    rw [hset hp]
    simp [Sys.visit, hp, hreq, hresp, hone, Sys.goto]
  | true =>
    have := (hpend hp).2 hnb
    rw [hresp] at this
    simp [Sys.visit, hp, hreq, hresp, hone, ← this, Sys.goto]

theorem Sys.trusteeStep_loads {n offs idx c : Nat} {reqWord : Word}
    (h : s.trusteeStep = some s') (hpc' : s'.pc = .loadedReq n offs idx c reqWord) :
    ∃ cp, s.clients[idx]? = some cp ∧ cp.chan = c ∧ (s.chan c).reqWord = reqWord ∧
      s' = s.goto (.loadedReq n offs idx c reqWord) := by
  unfold Sys.trusteeStep at h
  cases hpc : s.pc with
  | sweep n' offs' =>
    simp only [hpc] at h
    split at h
    · split at h
      · rename_i cp hcp
        obtain rfl := Option.some.inj h
        simp only [Sys.goto, TrusteePc.loadedReq.injEq] at hpc'
        obtain ⟨rfl, rfl, rfl, rfl, rfl⟩ := hpc'
        exact ⟨cp, hcp, rfl, rfl, rfl⟩
      · obtain rfl := Option.some.inj h
        simp [Sys.exit, Sys.goto] at hpc'
    · obtain rfl := Option.some.inj h
      simp [Sys.goto] at hpc'
  | exited cause => simp [hpc] at h
  | loop =>
    simp only [hpc] at h
    split at h <;> obtain rfl := Option.some.inj h
    · simp [Sys.goto] at hpc'
    · simp only [Sys.enterSweep, Sys.goto] at hpc'
      split at hpc' <;> simp at hpc'
  | drain drained =>
    have sweep : s.enterSweep.pc ≠ .loadedReq n offs idx c reqWord := by
      simp only [Sys.enterSweep, Sys.goto]
      split <;> simp
    simp only [hpc] at h
    split at h
    · split at h <;> obtain rfl := Option.some.inj h
      · simp at hpc'
      · exact absurd hpc' sweep
    · obtain rfl := Option.some.inj h
      exact absurd hpc' sweep
  | loadedReq n' offs' idx' c' w' =>
    simp only [hpc] at h
    split at h <;> simp only [Option.some.injEq, reduceCtorEq] at h
    subst h
    simp only [Sys.visit, Sys.goto] at hpc'
    repeat' split at hpc'
    all_goals simp at hpc'
  | record b =>
    simp only [hpc, Option.some.injEq] at h
    subst h
    simp only [Sys.recordStep, Sys.goto, Sys.served, Sys.dispatch] at hpc'
    repeat' split at hpc'
    all_goals simp at hpc'
  | calling b hdr k =>
    simp only [hpc] at h
    split at h <;> obtain rfl := Option.some.inj h <;> simp [Sys.goto] at hpc'
  | inClosure b hdr k env args seq =>
    simp only [hpc] at h
    split at h
    · obtain rfl := Option.some.inj h
      simp [Sys.exit, Sys.goto] at hpc'
    · split at h <;> obtain rfl := Option.some.inj h <;> simp [Sys.goto] at hpc'
  | joining b =>
    simp only [hpc] at h
    split at h <;> simp only [Option.some.injEq, reduceCtorEq] at h
    subst h
    simp [Sys.exit, Sys.goto] at hpc'
  | _ =>
    simp only [hpc, Option.some.injEq] at h
    subst h
    simp [Sys.exit, Sys.goto, Sys.served] at hpc'

end Steps

/-- Fibers and launches correspond: each job was called for, and a launch whose closure
has been executed has its job. -/
structure Dispatched (s : Sys T V R) : Prop where
  called : ∀ job ∈ s.jobs, ∃ f, Event.call job.chan job.seq (.launch f) ∈ s.hist
  executed : ∀ c k g, Event.app c k g ∈ s.hist → ∃ op, Event.call c k op ∈ s.hist ∧
    ((∃ f, op = .launch f) → ∃ job ∈ s.jobs, job.chan = c ∧ job.seq = k)

section Runs

variable {bin : Bincode V} {w : Workload T V R} {value : T} {s s' : Sys T V R}

theorem Dispatched.grow (hd : Dispatched s) {a : Action T V R} (hs : s.step bin a = some s')
    (hjobs : ∀ job ∈ s'.jobs, job ∈ s.jobs ∨
      ∃ f, Event.call job.chan job.seq (.launch f) ∈ s.hist)
    (hkept : ∀ job ∈ s.jobs, job ∈ s'.jobs)
    (happ : ∀ c k g, Event.app c k g ∈ s'.hist → Event.app c k g ∈ s.hist ∨
      ∃ op, Event.call c k op ∈ s.hist ∧
        ((∃ f, op = .launch f) → ∃ job ∈ s.jobs, job.chan = c ∧ job.seq = k)) :
    Dispatched s' := by
  constructor
  · intro job hj
    rcases hjobs job hj with hj | ⟨f, hf⟩
    · obtain ⟨f, hf⟩ := hd.called job hj
      exact ⟨f, Sys.step_hist_mono hs hf⟩
    · exact ⟨f, Sys.step_hist_mono hs hf⟩
  · intro c k g hg
    have key : ∃ op, Event.call c k op ∈ s.hist ∧
        ((∃ f, op = .launch f) → ∃ job ∈ s.jobs, job.chan = c ∧ job.seq = k) := by
      rcases happ c k g hg with hg | h
      · exact hd.executed c k g hg
      · exact h
    obtain ⟨op, hop, hl⟩ := key
    refine ⟨op, Sys.step_hist_mono hs hop, ?_⟩
    intro hf
    obtain ⟨job, hj, hjk⟩ := hl hf
    exact ⟨job, hkept job hj, hjk⟩

theorem Reachable.dispatched (h : Reachable bin w value s) : Dispatched s := by
  refine (h.invariant (P := fun s => Reachable bin w value s ∧ Dispatched s)
    ⟨Machine.Reach.start, by simp [Sys.init], by simp [Sys.init]⟩ ?_).2
  rintro t a v ⟨ht, hd⟩ ha hs
  refine ⟨ht.next ha hs, ?_⟩
  have hi := ht.inv
  by_cases hat : a = .trustee
  · subst hat
    refine hd.grow hs ?_ ?_ ?_
    · intro job hj
      rcases (Sys.trusteeStep_frame hs).2.2.2 with he | ⟨b, hpc, hleft, rfl⟩
      · exact .inl (he ▸ hj)
      · obtain ⟨op, ho, he, hseq⟩ := hi.recordStep_taken hpc hleft
        rw [he] at hj
        cases op with
        | launch f =>
          rcases List.mem_append.mp hj with hj | hj
          · exact .inl hj
          · obtain rfl := List.mem_singleton.mp hj
            refine .inr ⟨f, ?_⟩
            have := ht.waiting_called ho.1
            rwa [← hseq] at this
        | _ => exact .inl hj
    · exact fun job hj => hi.keeps_jobs hs hj
    · intro c k g hg
      rcases Sys.step_logged hs hg with hg | hg
      · exact .inl hg
      · cases hg with
        | trustee hpc =>
          -- what the trustee itself executes is no launch
          rename_i b hdr i env args
          obtain ⟨op, hsv, hok⟩ := hi.serving b (by simp [hpc, TrusteePc.batch?])
          have hcl := hi.client b.chan
          simp only [ClientOk, hsv.1] at hcl
          obtain ⟨hhdr, hseq⟩ := Op.encode_hdr hcl.2.2.1
          simp only [hpc, PcOk] at hok
          obtain ⟨hdr_eq, hcalled, _, _, seq_eq⟩ := hok
          refine .inr ⟨op, ?_, ?_⟩
          · rw [seq_eq, hseq]
            exact ht.waiting_called hsv.1
          · rintro ⟨f, rfl⟩
            simp [hdr_eq, hhdr, Op.hdr, RecordHeader.called] at hcalled
  · obtain ⟨_, _, _, hjobs⟩ := Sys.step_aside hs hat
    refine hd.grow hs (fun job hj => .inl (hjobs ▸ hj)) (fun job hj => hjobs ▸ hj) ?_
    intro c k g hg
    rcases Sys.step_logged hs hg with hg | hg
    · exact .inl hg
    · cases hg with
      | trustee hpc => exact absurd rfl hat
      | fiber hj hpc =>
        rename_i j job env args
        obtain ⟨_, _, _, hopen, _, hrun⟩ := hi.job j job hj
        obtain ⟨hseq, _, f, hcl⟩ := hopen (by simp [hpc, FiberPc.open_])
        have hok := hi.client job.chan
        simp only [ClientOk, hcl] at hok
        have hk : k = (t.client job.chan).seq := by
          rw [(hrun env args k hpc).2.2, (Op.encode_hdr hok.2.2.1).2]
        refine .inr ⟨.launch f, hk ▸ ht.waiting_called hcl, fun _ => ?_⟩
        exact ⟨job, List.mem_of_getElem? hj, rfl, by rw [hseq, hk]⟩

def Left (s : Sys T V R) (c k : Nat) (op : Op T V R) : Prop :=
  Event.call c k op ∈ s.hist ∧
    (k < (s.client c).seq ∨ (k = (s.client c).seq ∧ (s.client c).pc = .reading op))

theorem Reachable.left_executed (h : Reachable bin w value s) {c k : Nat} {op : Op T V R}
    (hl : Left s c k op) : apps c k s.hist = op.reps := by
  obtain ⟨hcall, hk | ⟨rfl, hpc⟩⟩ := hl
  · obtain ⟨o, hi, hr⟩ := h.refines
    obtain ⟨y, hy⟩ := hi.past c k (by rw [hr.seq]; exact hk)
    obtain ⟨i, hy⟩ := exists_at hy
    obtain ⟨j, op', _, hj, happs⟩ := hi.complete i c k y hy
    rw [hr.hist] at hj happs
    obtain ⟨m, hm⟩ := exists_at hcall
    obtain rfl := (h.history.call_unique m j c k op op' hm hj).2
    exact happs
  · exact (h.executed hpc).2

/-- From the load of its request word to the load of its response word, a channel with an
outstanding request keeps it, whatever clients and fibers do in between. -/
theorem Inv.visit_outstanding (hi : Inv bin s) {c : Nat} {op : Op T V R} {r : Bool}
    {l : List (Sys T V R × Action T V R)} (ho : Outstanding s c op r)
    (ht : Machine.Trace (Sys.step bin) s l s') (hl : ∀ x ∈ l, x.2 ≠ .trustee) :
    Inv bin s' ∧ Outstanding s' c op r ∧ s'.chan c = s.chan c ∧ s'.pc = s.pc ∧
      s'.clients = s.clients := by
  let P : Sys T V R → Prop := fun t => Inv bin t ∧ Outstanding t c op r ∧
    t.chan c = s.chan c ∧ t.pc = s.pc ∧ t.clients = s.clients
  have keep : ∀ t a v, P t → a ≠ .trustee → Sys.step bin t a = some v → P v := by
    rintro t a v ⟨hit, hot, hch, hpc, hcl⟩ ha hs
    obtain ⟨ho', _, hch'⟩ := hot.keep hs ha
    obtain ⟨hpc', hcl', _⟩ := Sys.step_aside hs ha
    exact ⟨hit.step hs, ho', hch'.trans hch, hpc'.trans hpc, hcl'.trans hcl⟩
  exact @Machine.Trace.invariant _ _ _ _ _ _ P (fun _ a => a ≠ .trustee)
    ⟨hi, ho, rfl, rfl, rfl⟩ keep ht hl

/-- What the handshake of launches promises in a state: one job for each launch and no
other; a cleared flag means a quiet channel; a visit whose two loads both come after the
publication serves the request; and who has left the wait loop has been executed. -/
structure LaunchHandshake (bin : Bincode V) (s : Sys T V R) : Prop where
  once : (s.jobs.map (fun j => (j.chan, j.seq))).Nodup
  launched : ∀ job ∈ s.jobs, ∃ f, Event.call job.chan job.seq (.launch f) ∈ s.hist
  dispatched : ∀ c k f, Left s c k (.launch f) →
    ∃ job ∈ s.jobs, job.chan = c ∧ job.seq = k
  flagged : ∀ cp ∈ s.pairs, cp.pendingLaunch = false → ¬ Busy s cp.chan
  serves : ∀ s₁ s₂ n offs idx c reqWord op r l, Outstanding s c op r →
    s.trusteeStep = some s₁ → s₁.pc = .loadedReq n offs idx c reqWord →
    Machine.Trace (Sys.step bin) s₁ l s₂ → (∀ x ∈ l, x.2 ≠ .trustee) →
    ∃ s₃ b, s₂.trusteeStep = some s₃ ∧ s₃.pc = .record b ∧ b.chan = c ∧
      s₃.trusteeStep = some (s₃.taken { b with cursor := hdrOffset } op)
  finished : ∀ c k op, Left s c k op → apps c k s.hist = op.reps

theorem Inv.visit_takes (hi : Inv bin s) {s₁ s₂ : Sys T V R} {n offs idx c : Nat}
    {reqWord : Word} {op : Op T V R} {r : Bool} {l : List (Sys T V R × Action T V R)}
    (ho : Outstanding s c op r) (hs : s.trusteeStep = some s₁)
    (hpc : s₁.pc = .loadedReq n offs idx c reqWord)
    (ht : Machine.Trace (Sys.step bin) s₁ l s₂) (hl : ∀ x ∈ l, x.2 ≠ .trustee) :
    ∃ s₃ b, s₂.trusteeStep = some s₃ ∧ s₃.pc = .record b ∧ b.chan = c ∧
      s₃.trusteeStep = some (s₃.taken { b with cursor := hdrOffset } op) := by
  obtain ⟨cp, hcp, rfl, rfl, rfl⟩ := Sys.trusteeStep_loads hs hpc
  obtain ⟨hi₂, ho₂, hch, hpc₂, hcl⟩ := Inv.visit_outstanding (hi.trusteeStep hs) ho ht hl
  have hcp₂ : s₂.clients[idx]? = some cp := by rw [hcl]; exact hcp
  have hstep : s₂.trusteeStep = some (s₂.visit n offs idx cp (s₂.chan cp.chan).reqWord
      (s₂.chan cp.chan).respWord) := by
    simp only [Sys.trusteeStep, hpc₂, Sys.goto, hcp₂, hch]
  rw [hi₂.visit_serves hcp₂ ho₂] at hstep
  have hi₃ := hi₂.trusteeStep hstep
  obtain ⟨op', ho₃, htaken, _⟩ := hi₃.recordStep_taken rfl (by simp)
  obtain ⟨rfl, _⟩ := ClientPc.waiting.inj (ho₂.1.symm.trans ho₃.1)
  exact ⟨_, _, hstep, rfl, rfl, by simp only [Sys.trusteeStep, htaken]⟩

/-- The handshake keeps its promises in every state of every run, however the clients mix
launches with the other operations. -/
theorem launch_handshake (h : Reachable bin w value s) : LaunchHandshake bin s where
  once := h.inv.jobs_nodup
  launched := h.dispatched.called
  dispatched := by
    intro c k f hl
    have happs := h.left_executed hl
    obtain ⟨g, hg⟩ := apps_pos (show 0 < apps c k s.hist by rw [happs]; exact Nat.one_pos)
    obtain ⟨op, hop, hjob⟩ := h.dispatched.executed c k g hg
    obtain ⟨i, hi⟩ := exists_at hl.1
    obtain ⟨j, hj⟩ := exists_at hop
    exact hjob ⟨f, (h.history.call_unique i j c k _ _ hi hj).2.symm⟩
  flagged := fun cp hcp => (h.inv.pair cp hcp).2.1
  serves := fun _ _ _ _ _ _ _ _ _ _ ho hs hpc ht hl => h.inv.visit_takes ho hs hpc ht hl
  finished := fun _ _ _ hl => h.left_executed hl

end Runs

def launchThenApply : List (Action Nat UInt8 Nat) :=
  [.register, .issue 0 (.launch (fun t => (t, .returned t))), .client 0, .client 0] ++
    List.replicate 10 .trustee ++ List.replicate 4 (.fiber 0) ++ [.client 0, .client 0,
    .issue 0 (.apply (fun t => (t + 1, .returned t))), .client 0, .client 0] ++
    List.replicate 10 .trustee ++ [.client 0]

example : (Machine.run (Sys.step byteBincode) (Sys.init 5) launchThenApply).map
    (fun s => (s.prop, s.jobs.length)) = some (6, 1) := by decide

theorem launch_handshake_launchThenApply :
    ∃ s, Machine.run (Sys.step byteBincode) (Sys.init 5) launchThenApply = some s ∧
      LaunchHandshake byteBincode s := by
  obtain ⟨s, hs⟩ := Machine.run_exists (show (Machine.run (Sys.step byteBincode)
    (Sys.init 5) launchThenApply).isSome = true by decide)
  have hr : Reachable byteBincode (fun _ _ => True) 5 s :=
    .scripted hs (fun a _ => by cases a <;> trivial)
  exact ⟨s, hs, launch_handshake hr⟩

end TrustTee
