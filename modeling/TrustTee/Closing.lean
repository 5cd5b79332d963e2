import TrustTee.Liveness
import TrustTee.Authenticity

set_option autoImplicit false

namespace TrustTee
open Header AtomicObject

variable {T V R : Type}

section States

variable {bin : Bincode V} {w : Workload T V R} {value : T} {s s' : Sys T V R} {c d k : Nat}
  {op : Op T V R}

theorem Reachable.stays_called (h : Reachable bin w value s) (hx : s.exited = false)
    (hcall : Event.call c k op ∈ s.hist) (hop : op = .intoInner ∨ op = .terminate) :
    (s.client c).pc.op? = some op := by
  refine (h.invariant (P := fun s => Reachable bin w value s ∧ (s.exited = false →
    ∀ c k op, Event.call c k op ∈ s.hist → (op = .intoInner ∨ op = .terminate) →
      (s.client c).pc.op? = some op)) ⟨.start, by simp [Sys.init]⟩ ?_).2 hx c k op hcall hop
  rintro t a v ⟨hr, ht⟩ ha hs
  refine ⟨hr.next ha hs, fun hx c k op hcall hop => ?_⟩
  have hxt : t.exited = false := Sys.step_alive hs hx
  rcases Sys.step_logged hs hcall with hold | hnew
  · have hpc := ht hxt c k op hold hop
    rcases Sys.step_client hs c with hcl | ⟨next, _⟩
    · rw [hcl]
      exact hpc
    · generalize hcp : (t.client c).pc = pc at next hpc
      generalize (v.client c).pc = pc' at next
      cases next with
      | load op' r | publish op' r | answered op' r hne => exact hpc
      | returned op' hne =>
        obtain rfl := Option.some.inj hpc
        obtain rfl := hop.resolve_left hne
        exact absurd hcp (hr.terminate_unread c)
      | taken =>
        have := hr.released_exited (.inr hcp)
        simp [hxt] at this
      | encode | dropValue | dropHandle => simp [ClientPc.op?] at hpc
  · cases hnew with
    | call henc =>
      simp only [Sys.step, Sys.issue] at hs
      split at hs
      · split at hs
        · obtain ⟨r, _, hs⟩ := Option.bind_eq_some_iff.mp hs
          obtain rfl := Option.some.inj hs
          simp [Sys.log, Sys.setClient, ClientPc.op?]
        · simp at hs
      · simp at hs

theorem Reachable.exit_cause (hbin : bin.RoundTrips) (h : Reachable bin returning value s)
    {cause : Exit} (hpc : s.pc = .exited cause) : cause = .terminate ∨ cause = .intoInner ∧
      ∃ d k, Event.call d k .intoInner ∈ s.hist ∧ Answered (s.client d) (s.chan d) k := by
  refine (h.invariant (P := fun s => Reachable bin returning value s ∧ ∀ cause,
    s.pc = .exited cause → cause = .terminate ∨ cause = .intoInner ∧
      ∃ d k, Event.call d k .intoInner ∈ s.hist ∧ Answered (s.client d) (s.chan d) k)
    ⟨.start, by simp [Sys.init]⟩ ?_).2 cause hpc
  rintro t a v ⟨hr, ht⟩ ha hs
  refine ⟨hr.next ha hs, fun cause hpc => ?_⟩
  by_cases hta : a = .trustee
  · subst hta
    have hx : v.exited = true := by simp [Sys.exited, hpc]
    rcases (hr.inv.trusteeStep_exits hs hx).2.2 with
      ⟨b, hdr, k, env, args, seq, hpc', hout, _⟩ | ⟨b, r, hpc', _, hresp⟩ | ⟨b, hpc', _⟩
    · exact absurd hout (hr.closure_returns hbin hpc' _)
    · obtain ⟨op, ho, _, _, hok⟩ := hr.serves (b := b) (by simp [hpc', TrusteePc.batch?])
      simp only [hpc', PcOk] at hok
      obtain ⟨rfl, rfl⟩ := hok
      have hcl := (Sys.trusteeStep_frame hs).1
      simp only [Sys.step, Sys.trusteeStep, hpc', Option.some.injEq] at hs
      rw [← hs] at hpc
      refine .inr ⟨(TrusteePc.exited.inj hpc).symm, b.chan, (t.client b.chan).seq, ?_, ?_⟩
      · rw [← hs]
        exact hr.waiting_called ho.1
      · rw [hcl]
        exact .inr ⟨rfl, .inr ⟨.intoInner, b.reqReady, ho.1, by rw [hresp]; simp⟩⟩
    · simp only [Sys.step, Sys.trusteeStep, hpc'] at hs
      split at hs <;> simp only [Option.some.injEq, reduceCtorEq] at hs
      rw [← hs] at hpc
      exact .inl (TrusteePc.exited.inj hpc).symm
  · rw [(Sys.step_aside hs hta).1] at hpc
    rcases ht cause hpc with hc | ⟨hc, d, k, hcall, hans⟩
    · exact .inl hc
    · exact .inr ⟨hc, d, k, Sys.step_hist_mono hs hcall, hans.step hr.inv hs⟩

def Sys.leaving (s : Sys T V R) : Nat :=
  match s.pc with
  | .moveOut _ => 3
  | .moveLoad _ => 2
  | .moveStore _ _ => 1
  | _ => 0

theorem Sys.leaving_step (h : s.leaving ≠ 0) :
    ∃ t, s.trusteeStep = some t ∧ (t.exited = true ∨ t.leaving ≠ 0 ∧ t.leaving < s.leaving) := by
  unfold Sys.trusteeStep
  cases hpc : s.pc with
  | moveOut b => exact ⟨_, rfl, .inr (by simp [Sys.leaving, hpc, Sys.goto])⟩
  | moveLoad b => exact ⟨_, rfl, .inr (by simp [Sys.leaving, hpc, Sys.goto])⟩
  | moveStore b r => exact ⟨_, rfl, .inl rfl⟩
  | _ => simp [Sys.leaving, hpc] at h

def FiberPc.steps : FiberPc T R → Nat
  | .queued => 5
  | .running _ _ _ => 4
  | .writing _ => 3
  | .guard => 2
  | .signalled => 1
  | .finished => 0

theorem Sys.fiberStep_steps {j : Nat} (hs : s.fiberStep j = some s') :
    (s'.fiber j).steps < (s.fiber j).steps := by
  unfold Sys.fiberStep at hs
  split at hs
  · simp at hs
  · dsimp only at hs
    cases hf : s.fiber j with
    | running env args seq =>
      simp only [hf] at hs
      split at hs <;> obtain rfl := Option.some.inj hs <;> simp [Sys.setFiber, FiberPc.steps]
    | finished => simp [hf] at hs
    | _ =>
      simp only [hf, Option.some.injEq] at hs
      subst hs
      simp [Sys.setFiber, FiberPc.steps]

theorem Sys.fibersDone_iff :
    s.fibersDone = true ↔ ∀ j, j < s.jobs.length → (s.fiber j).isFinished = true := by
  simp [Sys.fibersDone, List.all_eq_true]

end States

/-- The worker has ended and, if it was an `into_inner`, its caller has the value back; or it
waits for a launched closure that is held up. -/
def Closed (held : Nat → Prop) (s : Sys T V R) : Prop :=
  s.pc = .exited .terminate ∨
    (s.pc = .exited .intoInner ∧
      ∃ d k t, Event.call d k .intoInner ∈ s.hist ∧ Event.ret d k (.moved t) ∈ s.hist) ∨
    ∃ b j, s.pc = .joining b ∧ held j ∧ j < s.jobs.length ∧ (s.fiber j).isFinished = false

section Paths

variable {bin : Bincode V} {w : Workload T V R} {value : T} {n d k : Nat} {held : Nat → Prop}
  {p : Machine.Path (Sys.step bin : Sys T V R → Action T V R → Option (Sys T V R))}

theorem hist_path {e : Event T V R} (he : e ∈ (p.state n).hist) {m : Nat} (hm : n ≤ m) :
    e ∈ (p.state m).hist := by
  induction m, hm using Nat.le_induction with
  | base => exact he
  | succ m _ ih => exact Sys.step_hist_mono (p.next m) ih

theorem exited_path {cause : Exit} (hpc : (p.state n).pc = .exited cause) {m : Nat}
    (hm : n ≤ m) : (p.state m).pc = .exited cause := by
  induction m, hm using Nat.le_induction with
  | base => exact hpc
  | succ m _ ih =>
    have hne : p.act m ≠ .trustee := by
      intro ha
      have hs := p.next m
      rw [ha] at hs
      have := Sys.trusteeStep_alive hs
      simp [Sys.exited, ih] at this
    rw [(Sys.step_aside (p.next m) hne).1, ih]

theorem leaves_path (hfair : p.Fair (· = .trustee)) (h : (p.state n).leaving ≠ 0) :
    ∃ m, n ≤ m ∧ (p.state m).exited = true := by
  refine @Machine.Path.variant _ _ _ p (fun _ _ => True) n _ _ _ (fun s => s.leaving ≠ 0)
    (fun s => s.exited = true) _ Sys.leaving hfair (fun _ _ => trivial) ?_ ?_ ?_ n le_rfl h
  · intro s h
    obtain ⟨t, ht, _⟩ := Sys.leaving_step h
    exact ⟨.trustee, rfl, by simp [Sys.step, ht]⟩
  · rintro s a t h _ hs rfl
    obtain ⟨t', ht', hnext⟩ := Sys.leaving_step h
    obtain rfl := Option.some.inj (ht'.symm.trans hs)
    exact hnext
  · intro s a t h _ hs hne
    have heq : t.leaving = s.leaving := by simp only [Sys.leaving, (Sys.step_aside hs hne).1]
    exact .inr ⟨by rwa [heq], heq.le⟩

theorem Answered.pending {s : Sys T V R} (h : Answered (s.client d) (s.chan d) k)
    (hlt : ¬ k < (s.client d).seq) : ((∃ op, (s.client d).pc = .reading op) ∧ s.pending d = 1) ∨
      (∃ op r, (s.client d).pc = .waiting op r) ∧ s.pending d = 2 := by
  obtain ⟨_, ⟨op, hpc⟩ | ⟨op, r, hpc, hready⟩⟩ := h.resolve_left hlt
  · exact .inl ⟨⟨op, hpc⟩, by simp [Sys.pending, hpc]⟩
  · exact .inr ⟨⟨op, r, hpc⟩, by rw [Sys.pending_waiting hpc, if_pos hready]⟩

theorem answer_read (hfair : p.Fair (· = .client d)) (hw : ∀ m, w.permits (p.act m))
    (hr : Reachable bin w value (p.state n))
    (h : Answered ((p.state n).client d) ((p.state n).chan d) k) :
    ∃ m, n ≤ m ∧ k < ((p.state m).client d).seq := by
  by_cases hlt : k < ((p.state n).client d).seq
  · exact ⟨n, le_rfl, hlt⟩
  refine @Machine.Path.variant _ _ _ p (fun _ a => w.permits a) n _ _ _
    (fun s => Reachable bin w value s ∧ Answered (s.client d) (s.chan d) k ∧ ¬ k < (s.client d).seq)
    (fun s => k < (s.client d).seq) _ (fun s => s.pending d) hfair (fun m _ => hw m)
    ?_ ?_ ?_ n le_rfl ⟨hr, h, hlt⟩
  · rintro s ⟨hr, h, hlt⟩
    have hp : s.pending d = 1 ∨ s.pending d = 2 := (h.pending hlt).imp And.right And.right
    obtain ⟨t, ht, _⟩ := hr.client_helps (c := d) (by omega)
    exact ⟨.client d, rfl, by simp [Sys.step, ht]⟩
  · rintro s a t ⟨hr, h, hlt⟩ ha hs rfl
    have hp : s.pending d = 1 ∨ s.pending d = 2 := (h.pending hlt).imp And.right And.right
    obtain ⟨t', ht', hless⟩ := hr.client_helps (c := d) (by omega)
    obtain rfl := Option.some.inj (ht'.symm.trans hs)
    by_cases hlt' : k < (t'.client d).seq
    · exact .inl hlt'
    · exact .inr ⟨⟨hr.next ha hs, h.step hr.inv hs, hlt'⟩, hless⟩
  · rintro s a t ⟨hr, h, hlt⟩ ha hs hne
    have ht : Reachable bin w value t := hr.next ha hs
    have hans := h.step hr.inv hs
    -- nobody else moves the client, and the answer stays
    have hcl : t.client d = s.client d := by
      rcases Sys.step_client hs d with hcl | ⟨next, _⟩
      · exact hcl
      · rcases h.pending hlt with ⟨⟨op, hpc⟩, _⟩ | ⟨⟨op, r, hpc⟩, _⟩ <;> rw [hpc] at next <;>
          generalize (t.client d).pc = pc' at next <;> cases next <;> exact absurd rfl hne
    have hlt' : ¬ k < (t.client d).seq := by rwa [hcl]
    have heq : t.pending d = s.pending d := by
      rcases h.pending hlt with ⟨⟨op, hpc⟩, hp⟩ | ⟨⟨op, r, hpc⟩, hp⟩ <;>
        rcases hans.pending hlt' with ⟨⟨op', hpc'⟩, hp'⟩ | ⟨⟨op', r', hpc'⟩, hp'⟩ <;>
        rw [hcl, hpc] at hpc' <;> simp_all
    exact .inr ⟨⟨ht, hans, hlt'⟩, heq.le⟩

/-- While the worker waits in its `Terminate` arm, a fiber that is not held up comes to the end
of its job. -/
theorem job_ends (hfair : Fairly p held) (hwait : ∀ m, n ≤ m → p.act m ≠ .trustee) {j : Nat}
    (hj : j < (p.state n).jobs.length) (hheld : ¬ held j) :
    ∃ m, n ≤ m ∧ j < (p.state m).jobs.length ∧ ((p.state m).fiber j).isFinished = true := by
  by_cases hf : ((p.state n).fiber j).isFinished = true
  · exact ⟨n, le_rfl, hj, hf⟩
  refine @Machine.Path.variant _ _ _ p (fun _ a => a ≠ .trustee) n _ _ _
    (fun s => j < s.jobs.length ∧ (s.fiber j).isFinished = false)
    (fun s => j < s.jobs.length ∧ (s.fiber j).isFinished = true) _ (fun s => (s.fiber j).steps)
    (hfair.fiber j hheld) hwait ?_ ?_ ?_ n le_rfl ⟨hj, by simpa using hf⟩
  · rintro s ⟨hj, hf⟩
    exact ⟨.fiber j, rfl, Sys.fiberStep_enabled hj hf⟩
  · rintro s a t ⟨hj, _⟩ ha hs rfl
    have hj' : j < t.jobs.length := by rw [(Sys.step_aside hs ha).2.2.2]; exact hj
    cases hf' : (t.fiber j).isFinished with
    | true => exact .inl ⟨hj', rfl⟩
    | false => exact .inr ⟨⟨hj', rfl⟩, Sys.fiberStep_steps hs⟩
  · rintro s a t ⟨hj, hf⟩ ha hs hne
    obtain ⟨hjob, hfiber⟩ := Sys.step_other_fiber hs hne (List.getElem?_eq_getElem hj)
    refine .inr ⟨⟨(List.getElem?_eq_some_iff.mp hjob).1, ?_⟩, ?_⟩
    · rw [hfiber, hf]
    · exact le_of_eq (by rw [hfiber])

theorem finished_path {j : Nat} (hj : j < (p.state n).jobs.length)
    (hf : ((p.state n).fiber j).isFinished = true) {m : Nat} (hm : n ≤ m)
    (hwait : ∀ m, n ≤ m → p.act m ≠ .trustee) :
    j < (p.state m).jobs.length ∧ ((p.state m).fiber j).isFinished = true := by
  induction m, hm using Nat.le_induction with
  | base => exact ⟨hj, hf⟩
  | succ m hm ih =>
    have hs := p.next m
    refine ⟨?_, Sys.step_finished hs ih.1 ih.2⟩
    rw [(Sys.step_aside hs (hwait m hm)).2.2.2]
    exact ih.1

theorem jobs_end (hfair : Fairly p held) (hwait : ∀ m, n ≤ m → p.act m ≠ .trustee) (i : Nat)
    (hi : i ≤ (p.state n).jobs.length) : ∃ M, n ≤ M ∧ ∀ m, M ≤ m → ∀ j, j < i → ¬ held j →
      ((p.state m).fiber j).isFinished = true := by
  induction i with
  | zero => exact ⟨n, le_rfl, fun _ _ j hj => absurd hj (by omega)⟩
  | succ i ih =>
    obtain ⟨M, hM, hdone⟩ := ih (by omega)
    by_cases hheld : held i
    · refine ⟨M, hM, fun m hm j hj hfree => ?_⟩
      by_cases he : j = i
      · exact absurd (he ▸ hheld) hfree
      · exact hdone m hm j (by omega) hfree
    · obtain ⟨M', hM', hlt, hf⟩ := job_ends hfair hwait (j := i) (by omega) hheld
      refine ⟨max M M', hM.trans (le_max_left M M'), fun m hm j hj hfree => ?_⟩
      by_cases he : j = i
      · subst he
        exact (finished_path hlt hf ((le_max_right M M').trans hm)
          (fun m hm => hwait m (hM'.trans hm))).2
      · exact hdone m ((le_max_left M M').trans hm) j (by omega) hfree

theorem waits_held (hfair : Fairly p held)
    (hjoin : ∀ m, n ≤ m → ∃ b, (p.state m).pc = .joining b) :
    ∃ M, ∀ m, M ≤ m → Closed held (p.state m) := by
  have hwait : ∀ m, n ≤ m → p.act m ≠ .trustee := by
    intro m hm ha
    obtain ⟨b, hpc⟩ := hjoin m hm
    obtain ⟨b', hpc'⟩ := hjoin (m + 1) (by omega)
    have hs := p.next m
    rw [ha] at hs
    simp only [Sys.step, Sys.trusteeStep, hpc] at hs
    split at hs <;> simp only [Option.some.injEq, reduceCtorEq] at hs
    rw [← hs] at hpc'
    cases hpc'
  have hjobs : ∀ m, n ≤ m → (p.state m).jobs = (p.state n).jobs := by
    intro m hm
    induction m, hm using Nat.le_induction with
    | base => rfl
    | succ m hm ih => rw [(Sys.step_aside (p.next m) (hwait m hm)).2.2.2, ih]
  have hundone : ∀ m, n ≤ m → (p.state m).fibersDone = false := by
    intro m hm
    by_contra hdone
    rw [Bool.not_eq_false, Sys.fibersDone_iff] at hdone
    obtain ⟨m', hm', hmove⟩ := hfair.trustee m
    obtain ⟨b, hpc⟩ := hjoin m' (hm.trans hm')
    have hdone' : (p.state m').fibersDone = true := by
      refine Sys.fibersDone_iff.mpr (fun j hj => ?_)
      rw [hjobs m' (hm.trans hm'), ← hjobs m hm] at hj
      exact (finished_path hj (hdone j hj) hm' (fun x hx => hwait x (hm.trans hx))).2
    rcases hmove with ha | hnone
    · exact hwait m' (hm.trans hm') ha
    · have := hnone .trustee rfl
      simp [Sys.step, Sys.trusteeStep, hpc, hdone'] at this
  obtain ⟨M, hM, hdone⟩ := jobs_end hfair hwait _ le_rfl
  refine ⟨M, fun m hm => ?_⟩
  obtain ⟨b, hpc⟩ := hjoin m (hM.trans hm)
  obtain ⟨j, hj, hf⟩ : ∃ j, j < (p.state m).jobs.length ∧
      ((p.state m).fiber j).isFinished = false := by
    by_contra hno
    have hall := Sys.fibersDone_iff.mpr (fun j hj => by
      by_contra hf
      exact hno ⟨j, hj, by simpa using hf⟩ : ∀ j, j < (p.state m).jobs.length → _)
    simp [hundone m (hM.trans hm)] at hall
  refine .inr (.inr ⟨b, j, hpc, ?_, hj, hf⟩)
  by_contra hfree
  rw [hjobs m (hM.trans hm)] at hj
  simp [hdone m hm j hj hfree] at hf

theorem joining_path (halive : ∀ m, (p.state m).exited = false) {b : Batch}
    (hpc : (p.state n).pc = .joining b) {m : Nat} (hm : n ≤ m) : (p.state m).pc = .joining b := by
  induction m, hm using Nat.le_induction with
  | base => exact hpc
  | succ m hm ih =>
    by_cases ha : p.act m = .trustee
    · have hs := p.next m
      rw [ha] at hs
      simp only [Sys.step, Sys.trusteeStep, ih] at hs
      split at hs <;> simp only [Option.some.injEq, reduceCtorEq] at hs
      have := halive (m + 1)
      rw [← hs] at this
      cases this
    · rw [(Sys.step_aside (p.next m) ha).1, ih]

/-- A request to end the worker is taken up: if the worker went on for ever, the clients would
come to rest, and so would the one that has made the request. -/
theorem ending_comes (hbin : bin.RoundTrips)
    (hr : ∀ n, Reachable bin returning value (p.state n)) (hfair : Fairly p held) {N : Nat}
    (hok : ∀ k, N ≤ k → Settled (p.state k) (p.act k)) {c m : Nat} {op : Op T V R}
    (hcall : Event.call c k op ∈ (p.state m).hist) (hop : op = .intoInner ∨ op = .terminate) :
    ∃ n, (p.state n).Ending := by
  by_contra hno
  have hwork : ∀ n, Working bin value (p.state n) := fun n => ⟨hr n, fun he => hno ⟨n, he⟩⟩
  have hsteady : ∀ n, N ≤ n → Steady bin (p.state n) (p.act n) := by
    intro n hn
    refine ⟨hok n hn, fun t ht => ?_⟩
    obtain rfl := Option.some.inj ((p.next n).symm.trans ht)
    exact (hwork (n + 1)).goes
  obtain ⟨M, _, hrest⟩ := Working.rests hbin hfair hsteady (fun n _ => hwork n)
  have hpc := (hr (max M m)).stays_called (hwork _).alive (hist_path hcall (le_max_right M m)) hop
  rcases hrest (max M m) (le_max_left M m) c with hzero | ⟨j, _, job, hj, rfl, _, ho⟩
  · cases hcp : ((p.state (max M m)).client c).pc with
    | waiting op r =>
      have := (Sys.pending_bounds hcp).1
      omega
    | encoded op | loaded op r | reading op => simp [Sys.pending, hcp] at hzero
    | idle | owning d | gone => simp [hcp, ClientPc.op?] at hpc
  · obtain ⟨_, _, f, hwaits⟩ := ((hr _).inv.job j job hj).2.2.2.1 ho
    rw [hwaits] at hpc
    obtain rfl := Option.some.inj hpc
    simp at hop

end Paths

/-- Whoever ends the worker gets it to end. Under a fair scheduler, when operations are not
begun without end, a call of `into_inner` or a `Runtime::drop` takes the worker out of its
loop: the call comes back with the value, or the join waits for launched closures that never
come to an end. The closures that the loop itself calls do not panic. -/
theorem worker_ends {bin : Bincode V} (hbin : bin.RoundTrips) {value : T}
    {p : Machine.Path (Sys.step bin : Sys T V R → Action T V R → Option (Sys T V R))}
    (hstart : p.state 0 = Sys.init value)
    (hw : ∀ k, (returning : Workload T V R).permits (p.act k)) {held : Nat → Prop}
    (hfair : Fairly p held) {N : Nat} (hok : ∀ k, N ≤ k → Settled (p.state k) (p.act k))
    {c k m : Nat} {op : Op T V R} (hcall : Event.call c k op ∈ (p.state m).hist)
    (hop : op = .intoInner ∨ op = .terminate) :
    ∃ M, ∀ n, M ≤ n → Closed held (p.state n) := by
  have hr := reachable_path hstart hw
  by_cases hexit : ∃ x cause, (p.state x).pc = .exited cause
  · obtain ⟨x, cause, hpc⟩ := hexit
    rcases (hr x).exit_cause hbin hpc with rfl | ⟨rfl, d, k', hcall', hans⟩
    · exact ⟨x, fun n hn => .inl (exited_path hpc hn)⟩
    · obtain ⟨y, hy, hlt⟩ := answer_read (hfair.client d) hw (hr x) hans
      obtain ⟨r, hret⟩ := ((hr y).returned (hist_path hcall' hy)).resolve_right
        (fun h => by omega)
      obtain ⟨_, _, t, rfl⟩ := (hr y).answers (hist_path hcall' hy) hret
      exact ⟨y, fun n hn => .inr (.inl ⟨exited_path hpc (hy.trans hn), d, k', t,
        hist_path hcall' (hy.trans hn), hist_path hret hn⟩)⟩
  have halive : ∀ n, (p.state n).exited = false := by
    intro n
    unfold Sys.exited
    split
    · exact absurd ⟨n, _, ‹_›⟩ hexit
    · rfl
  obtain ⟨n, hend⟩ := ending_comes hbin hr hfair hok hcall hop
  by_cases hleave : (p.state n).leaving = 0
  · obtain ⟨b, hpc⟩ : ∃ b, (p.state n).pc = .joining b := by
      have := halive n
      cases hpc : (p.state n).pc <;> simp_all [Sys.Ending, Sys.leaving, Sys.exited]
    exact waits_held hfair (fun x hx => ⟨b, joining_path halive hpc hx⟩)
  · obtain ⟨x, _, hx⟩ := leaves_path hfair.trustee hleave
    simp [halive x] at hx

def dropsRuntime : List (Action Nat UInt8 Nat) :=
  [.register, .register, .issue 0 (.launch (fun t => (t, .returned t))), .client 0, .client 0,
    .issue 1 .terminate, .client 1, .client 1] ++ List.replicate 15 .trustee ++
    List.replicate 5 (.fiber 0) ++ [.client 0, .client 0, .trustee]

theorem dropsRuntime_returning :
    ∀ a ∈ dropsRuntime, (returning : Workload Nat UInt8 Nat).permits a := by
  simp [dropsRuntime, Workload.permits, returning, lasting, Op.Launches, or_imp, forall_and]

/-- From there on only the join is left, which comes back as often as it is asked. -/
theorem worker_ends_dropsRuntime :
    ∃ p : Machine.Path (Sys.step byteBincode : Sys Nat UInt8 Nat → _ → _),
      p.state 0 = Sys.init 5 ∧ (p.state 31).jobs.length = 1 ∧
        Event.call 1 0 .terminate ∈ (p.state 31).hist ∧
        ∃ M, ∀ n, M ≤ n → Closed (fun _ => False) (p.state n) := by
  obtain ⟨u, hu, hpc, hjobs, hfiber, hcall, hone, hidle⟩ : ∃ u,
      Machine.run (Sys.step byteBincode) (Sys.init 5) dropsRuntime = some u ∧
        u.pc = .exited .terminate ∧ u.jobs.length = 1 ∧ u.fiber 0 = .finished ∧
        Event.call 1 0 .terminate ∈ u.hist ∧ u.clientStep 1 = some u ∧
        ∀ c, c ≠ 1 → (u.client c).pc = .idle := by
    refine ⟨_, rfl, rfl, rfl, rfl, ?_, rfl, ?_⟩
    · exact .tail _ (.head _)
    · intro c hc
      match c with
      | 0 | c + 2 => rfl
  have hacts : ∀ (n : Nat) (s : Sys Nat UInt8 Nat), s = u →
      ∃ t, s.step byteBincode (.client 1) = some t ∧ t = u := by
    rintro n s rfl
    exact ⟨s, hone, rfl⟩
  obtain ⟨q, hq, hforever⟩ := Machine.Path.forever hacts rfl
  obtain ⟨p, hp, hlater, hsoon⟩ := Machine.Path.scripted hu q hq
  have later : ∀ n, 31 ≤ n → p.act n = .client 1 ∧ p.state n = u := by
    intro n hn
    obtain ⟨k, rfl⟩ := Nat.exists_eq_add_of_le' hn
    exact ⟨(hlater k).2.trans (hforever k).1, (hlater k).1.trans (hforever k).2⟩
  have still : ∀ a, a ≠ .client 1 → (a = .trustee ∨ (∃ j, a = .fiber j) ∨ ∃ c, a = .client c) →
      u.step byteBincode a = none := by
    rintro a ha (rfl | ⟨j, rfl⟩ | ⟨c, rfl⟩)
    · simp [Sys.step, Sys.trusteeStep, hpc]
    · by_cases hj : j = 0
      · subst hj
        simp only [Sys.step, Sys.fiberStep, hfiber]
        split <;> rfl
      · have hnone : u.jobs[j]? = none := by
          rw [List.getElem?_eq_none_iff, hjobs]
          omega
        simp [Sys.step, Sys.fiberStep, hnone]
    · have hc : c ≠ 1 := fun h => ha (by rw [h])
      simp [Sys.step, Sys.clientStep, hidle c hc]
  have fair : ∀ a : Action Nat UInt8 Nat, (a = .trustee ∨ (∃ j, a = .fiber j) ∨
      ∃ c, a = .client c) → p.Fair (· = a) := by
    intro a ha n
    refine ⟨n + 31, by omega, ?_⟩
    obtain ⟨hact, hstate⟩ := later (n + 31) (by omega)
    by_cases hone : a = .client 1
    · exact .inl (hact.trans hone.symm)
    · refine .inr (fun b hb => ?_)
      rw [hstate, hb]
      exact still a hone ha
  have hw : ∀ n, (returning : Workload Nat UInt8 Nat).permits (p.act n) := by
    intro n
    by_cases hn : n < 31
    · exact dropsRuntime_returning _ (hsoon n hn)
    · rw [(later n (by omega)).1]
      trivial
  have hok : ∀ n, 31 ≤ n → Settled (p.state n) (p.act n) := by
    intro n hn c op
    rw [(later n hn).1]
    simp
  have hu' := (later 31 le_rfl).2
  refine ⟨p, hp, by rw [hu', hjobs], by rw [hu']; exact hcall, ?_⟩
  exact worker_ends byteBincode_roundTrips hp hw
    ⟨fair _ (.inl rfl), fun j _ => fair _ (.inr (.inl ⟨j, rfl⟩)),
      fun c => fair _ (.inr (.inr ⟨c, rfl⟩))⟩ hok (by rw [hu']; exact hcall) (.inr rfl)

end TrustTee
