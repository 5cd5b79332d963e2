import TrustTee.Ownership

set_option autoImplicit false

namespace TrustTee
open Header

variable {T V R : Type}

/-- The reference held by a closure in progress: that of the trustee loop (`none`), or
that of the fiber of a job. -/
def Sys.inProgress (s : Sys T V R) : Option Nat → Option Access
  | none => match s.pc with
    | .inClosure _ _ _ env _ _ => some env.access
    | _ => none
  | some j => match s.jobs[j]?, s.fiber j with
    | some _, .running env _ _ => some env.access
    | _, _ => none

/-- While a closure holds `&mut T`, it is the only one in progress. -/
def Exclusive (s : Sys T V R) : Prop :=
  ∀ p q a, s.inProgress p = some .exclusive → s.inProgress q = some a → q = p

theorem inProgress_trustee {s : Sys T V R} {a : Access} (h : s.inProgress none = some a) :
    ∃ b hdr k env args seq, s.pc = .inClosure b hdr k env args seq ∧ env.access = a := by
  simp only [Sys.inProgress] at h
  split at h
  · exact ⟨_, _, _, _, _, _, ‹_›, Option.some.inj h⟩
  · simp at h

theorem inProgress_fiber {s : Sys T V R} {j : Nat} {a : Access}
    (h : s.inProgress (some j) = some a) :
    ∃ job env args seq, s.jobs[j]? = some job ∧ s.fiber j = .running env args seq ∧
      env.access = a := by
  simp only [Sys.inProgress] at h
  split at h
  · exact ⟨_, _, _, _, ‹_›, ‹_›, Option.some.inj h⟩
  · simp at h

/-- Operations whose closure gets `&mut T` and is executed at least once. -/
def Op.Mutates : Op T V R → Prop
  | .apply _ | .applyWith _ _ => True
  | .applyBatchMut _ n => n ≠ 0
  | _ => False

def Op.Launches : Op T V R → Prop
  | .launch _ => True
  | _ => False

def Op.Clashes (op op' : Op T V R) : Prop :=
  (op.Launches ∧ op'.Mutates) ∨ (op.Mutates ∧ op'.Launches)

def ClientPc.op? : ClientPc T V R → Option (Op T V R)
  | .encoded op | .loaded op _ | .waiting op _ | .reading op => some op
  | _ => none

/-- No client starts an operation that clashes with the one another client is inside. -/
def Apart (s : Sys T V R) : Action T V R → Prop
  | .issue c op => ∀ c' op', c' ≠ c → (s.client c').pc.op? = some op' → ¬ op.Clashes op'
  | _ => True

theorem Op.Clashes.symm {op op' : Op T V R} (h : op.Clashes op') : op'.Clashes op := by
  rcases h with ⟨h₁, h₂⟩ | ⟨h₁, h₂⟩
  · exact .inr ⟨h₂, h₁⟩
  · exact .inl ⟨h₂, h₁⟩

theorem Holds.access {bin : Bincode V} {ch : ChannelPair T R} {seq : Nat} {op : Op T V R}
    (h : Holds bin ch seq op) (hc : op.hdr.called = true)
    (he : (ch.records hdrOffset).env.access = .exclusive) (hpos : 0 < op.reps) :
    op.Mutates := by
  unfold Holds at h
  cases op with
  | apply f => trivial
  | applyWith f v => trivial
  | applyBatchMut f n =>
    rintro rfl
    simp [Op.reps] at hpos
  | with_ f =>
    rw [← Option.some.inj h] at he
    simp at he
  | _ => simp [Op.hdr, RecordHeader.called] at hc

theorem Holds.launch_shared {bin : Bincode V} {ch : ChannelPair T R} {seq : Nat}
    {f : Body T R} (h : Holds bin ch seq (.launch f)) :
    (ch.records hdrOffset).env.access = .shared := by
  rw [← Option.some.inj h]

section Steps

variable {bin : Bincode V} {s s' : Sys T V R}

theorem ClientPc.Next.op {c : Nat} {a : Action T V R} {pc pc' : ClientPc T V R}
    (h : ClientPc.Next c a pc pc') {op : Op T V R} (hop : pc'.op? = some op) :
    pc.op? = some op ∨ a = .issue c op := by
  cases h <;> simp_all [ClientPc.op?]

theorem Sys.step_op {a : Action T V R} (h : s.step bin a = some s') {c : Nat}
    {op : Op T V R} (hop : (s'.client c).pc.op? = some op) :
    (s.client c).pc.op? = some op ∨ a = .issue c op := by
  rcases Sys.step_client h c with hcl | ⟨next, _⟩
  · exact .inl (hcl ▸ hop)
  · exact next.op hop

end Steps

section Runs

variable {bin : Bincode V} {value : T} {s : Sys T V R}

theorem Inv.fiber_launches (h : Inv bin s) {j : Nat} {job : Job}
    {env : Closure T R} {args : List UInt8} {seq : Nat} (hj : s.jobs[j]? = some job)
    (hpc : s.fiber j = .running env args seq) : env.access = .shared ∧
      ∃ f, (s.client job.chan).pc = .waiting (.launch f) job.reqReady := by
  obtain ⟨_, _, _, hopen, _, hrun⟩ := h.job j job hj
  obtain ⟨_, _, f, hcl⟩ := hopen (by simp [hpc, FiberPc.open_])
  have hok := h.client job.chan
  simp only [ClientOk, hcl] at hok
  refine ⟨?_, f, hcl⟩
  rw [(hrun env args seq hpc).1]
  exact hok.2.2.1.launch_shared

theorem Refines.trustee_mutates
    {o : AtomicObject.Obj Nat (Op T V R) T (Outcome (Option R)) (Payload T R)}
    (h : Refines bin s o) {b : Batch}
    {hdr : RecordHeader} {k : Nat} {env : Closure T R} {args : List UInt8} {seq : Nat}
    (hpc : s.pc = .inClosure b hdr k env args seq) (he : env.access = .exclusive) :
    ∃ op, (s.client b.chan).pc = .waiting op b.reqReady ∧ op.Mutates := by
  obtain ⟨op, i, last, hs, hok, hh, _, hprog⟩ :=
    h.serving (b := b) (by simp [hpc, TrusteePc.batch?])
  simp only [hpc, PcOk] at hok
  simp only [hpc, TrusteePc.Progress] at hprog
  obtain ⟨hhdr, hcalled, henv, _⟩ := hok
  rw [hhdr, (Op.encode_hdr hh).1] at hcalled
  refine ⟨op, hs.1, hh.access hcalled ?_ (by omega)⟩
  rw [← henv]
  exact he

/-- Different clients are never inside clashing operations, if none starts one. -/
theorem apart_invariant (h : Machine.Reach (Sys.step bin) Apart (Sys.init value) s)
    {c c' : Nat} {op op' : Op T V R} (hc : c ≠ c') (hop : (s.client c).pc.op? = some op)
    (hop' : (s.client c').pc.op? = some op') : ¬ op.Clashes op' := by
  refine h.invariant (P := fun s => ∀ c c' op op', c ≠ c' →
    (s.client c).pc.op? = some op → (s.client c').pc.op? = some op' → ¬ op.Clashes op')
    ?_ ?_ c c' op op' hc hop hop'
  · intro c c' op op' _ hop
    simp [Sys.init, ClientPc.op?] at hop
  · intro t a v ht ha hs c c' op op' hc hop hop'
    rcases Sys.step_op hs hop with h₁ | rfl
    · rcases Sys.step_op hs hop' with h₂ | rfl
      · exact ht c c' op op' hc h₁ h₂
      · exact fun hcl => ha c op hc h₁ hcl.symm
    · rcases Sys.step_op hs hop' with h₂ | h₂
      · exact ha c' op' hc.symm h₂
      · exact absurd (Action.issue.inj h₂).1 hc

theorem Reachable.exclusive {w : Workload T V R} (h : Reachable bin w value s)
    (hapart : ∀ c c' op op', c ≠ c' → (s.client c).pc.op? = some op →
      (s.client c').pc.op? = some op' → ¬ op.Clashes op') : Exclusive s := by
  obtain ⟨o, _, href⟩ := h.refines
  intro p q a hp hq
  cases p with
  | some j =>
    obtain ⟨_, _, _, _, hj, hpc, he⟩ := inProgress_fiber hp
    rw [(h.inv.fiber_launches hj hpc).1] at he
    simp at he
  | none =>
    obtain ⟨b, _, _, _, _, _, hpc, he⟩ := inProgress_trustee hp
    obtain ⟨op, hop, hmut⟩ := href.trustee_mutates hpc he
    cases q with
    | none => rfl
    | some j =>
      obtain ⟨job, _, _, _, hj, hpc', _⟩ := inProgress_fiber hq
      obtain ⟨_, f, hf⟩ := h.inv.fiber_launches hj hpc'
      by_cases hc : b.chan = job.chan
      · -- one client cannot be in a launch and in a mutating operation
        rw [← hc, hop] at hf
        obtain ⟨rfl, _⟩ := ClientPc.waiting.inj hf
        exact absurd hmut id
      · exact absurd (.inr ⟨hmut, trivial⟩)
          (hapart _ _ _ _ hc (show _ = some op by rw [hop]; rfl)
            (show _ = some (.launch f) by rw [hf]; rfl))

/-- Exclusive access holds in every run in which no client starts a launch while another
client is inside a mutating operation, or the other way round. -/
theorem exclusive_access (h : Machine.Reach (Sys.step bin) Apart (Sys.init value) s) :
    Exclusive s := by
  have hr : Reachable bin (fun _ _ => True) value s :=
    h.weaken (fun _ a _ => by cases a <;> trivial)
  exact hr.exclusive (fun _ _ _ _ hc hop hop' => apart_invariant h hc hop hop')

theorem Reachable.permitted {w : Workload T V R} (h : Reachable bin w value s) {c : Nat}
    {op : Op T V R} (hop : (s.client c).pc.op? = some op) : w c op := by
  refine h.invariant (P := fun s => ∀ c op, (s.client c).pc.op? = some op → w c op) ?_ ?_ c op hop
  · simp [Sys.init, ClientPc.op?]
  · intro t a v ht ha hs c op hop
    rcases Sys.step_op hs hop with h' | rfl
    · exact ht c op h'
    · exact ha

end Runs

def Separated (w : Workload T V R) : Prop :=
  ∀ c c' op op', c ≠ c' → w c op → w c' op' → ¬ op.Clashes op'

theorem Separated.apart {bin : Bincode V} {w : Workload T V R} {value : T} {s : Sys T V R}
    (hw : Separated w) (h : Reachable bin w value s) :
    Machine.Reach (Sys.step bin) Apart (Sys.init value) s := by
  refine (h.invariant (P := fun s => Reachable bin w value s ∧
    Machine.Reach (Sys.step bin) Apart (Sys.init value) s) ⟨.start, .start⟩ ?_).2
  rintro t a v ⟨hr, ht⟩ ha hs
  refine ⟨hr.next ha hs, ht.next ?_ hs⟩
  cases a with
  | issue c op => exact fun c' op' hc h' => hw c c' op op' hc.symm ha (hr.permitted h')
  | _ => trivial

def oneWriter : Workload Nat UInt8 Nat := fun c op => c = 0 ∨ ¬ (op.Launches ∨ op.Mutates)

theorem oneWriter_separated : Separated oneWriter := by
  intro c c' op op' hc h h' hcl
  have hop : op.Launches ∨ op.Mutates := hcl.elim (fun h => .inl h.1) (fun h => .inr h.1)
  have hop' : op'.Launches ∨ op'.Mutates := hcl.elim (fun h => .inr h.2) (fun h => .inl h.2)
  have h0 : c = 0 := h.resolve_right (fun hn => hn hop)
  have h0' : c' = 0 := h'.resolve_right (fun hn => hn hop')
  omega

theorem exclusive_access_launchThenApply :
    ∃ s, Machine.run (Sys.step byteBincode) (Sys.init 5) launchThenApply = some s ∧
      Exclusive s := by
  obtain ⟨s, hs⟩ := Machine.run_exists (show (Machine.run (Sys.step byteBincode)
    (Sys.init 5) launchThenApply).isSome = true by decide)
  have hr : Reachable byteBincode oneWriter 5 s := .scripted hs (by
    simp [launchThenApply, Workload.permits, oneWriter, or_imp, forall_and])
  exact ⟨s, hs, exclusive_access (oneWriter_separated.apart hr)⟩

def launchBesideApply : List (Action Nat UInt8 Nat) :=
  [.register, .register, .issue 0 (.launch (fun t => (t, .returned t))), .client 0,
    .client 0, .issue 1 (.apply (fun t => (t + 1, .returned t))), .client 1, .client 1] ++
    List.replicate 9 .trustee ++ [.fiber 0] ++ List.replicate 7 .trustee

/-- The closure of `apply` holds `&mut T` while a fiber holds `&T`. -/
theorem launch_beside_apply_not_exclusive :
    ¬ ∀ s : Sys Nat UInt8 Nat, Reachable byteBincode (fun _ _ => True) 5 s → Exclusive s := by
  intro h
  have hrun : (Machine.run (Sys.step byteBincode) (Sys.init 5) launchBesideApply).map
      (fun s => (s.inProgress none, s.inProgress (some 0))) =
      some (some .exclusive, some .shared) := by decide
  obtain ⟨s, hs, he⟩ := Option.map_eq_some_iff.mp hrun
  obtain ⟨ht, hf⟩ := Prod.mk.inj he
  have hr : Reachable byteBincode (fun _ _ => True) 5 s :=
    .scripted hs (fun a _ => by cases a <;> trivial)
  exact absurd (h s hr none (some 0) .shared ht hf) (by simp)

end TrustTee
