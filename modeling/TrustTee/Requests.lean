import TrustTee.Refinement
import TrustTee.Frames

set_option autoImplicit false

namespace TrustTee
open Header AtomicObject

variable {T V R : Type}

section History

variable {bin : Bincode V} {s s' : Sys T V R}

theorem Sys.clientStep_hist {c : Nat} (h : s.clientStep c = some s') :
    s'.hist = s.hist ∨ ∃ y, s'.hist = s.hist ++ [.ret c (s.client c).seq y] := by
  unfold Sys.clientStep at h
  cases hpc : (s.client c).pc with
  | waiting op r =>
    have hs : s'.hist = s.hist := by
      cases op <;> simp only [hpc] at h <;> split at h <;>
        simp only [Option.some.injEq, reduceCtorEq] at h <;> subst h <;> rfl
    exact .inl hs
  | reading op =>
    cases op <;> simp only [hpc, Option.some.injEq] at h <;> subst h <;>
      exact .inr ⟨_, rfl⟩
  | encoded op => simp only [hpc, Option.some.injEq] at h; subst h; exact .inl rfl
  | loaded op r => simp only [hpc, Option.some.injEq] at h; subst h; exact .inl rfl
  | _ => simp [hpc] at h

theorem Sys.fiberStep_hist {j : Nat} (h : s.fiberStep j = some s') :
    s'.hist = s.hist ∨ ∃ job env args seq, s.jobs[j]? = some job ∧
      s.fiber j = .running env args seq ∧
      s'.hist = s.hist ++ [.app job.chan seq (env.call args)] := by
  unfold Sys.fiberStep at h
  cases hj : s.jobs[j]? with
  | none => simp [hj] at h
  | some job =>
    cases hpc : s.fiber j with
    | running env args seq =>
      refine .inr ⟨job, env, args, seq, rfl, rfl, ?_⟩
      simp only [hj, hpc] at h
      split at h <;> obtain rfl := Option.some.inj h <;> rfl
    | finished => simp [hj, hpc] at h
    | _ => simp only [hj, hpc, Option.some.injEq] at h; subst h; exact .inl rfl

inductive Logged (bin : Bincode V) (s : Sys T V R) : Action T V R → Event T V R → Prop where
  | call {c : Nat} {op : Op T V R} : op.encode bin (s.client c).seq ≠ none →
      Logged bin s (.issue c op) (.call c (s.client c).seq op)
  | ret {c : Nat} {y : Payload T R} :
      Logged bin s (.client c) (.ret c (s.client c).seq y)
  | trustee {b : Batch} {hdr : RecordHeader} {k : Nat} {env : Closure T R}
      {args : List UInt8} {seq : Nat} : s.pc = .inClosure b hdr k env args seq →
      Logged bin s .trustee (.app b.chan seq (env.call args))
  | fiber {j : Nat} {job : Job} {env : Closure T R} {args : List UInt8} {seq : Nat} :
      s.jobs[j]? = some job → s.fiber j = .running env args seq →
      Logged bin s (.fiber j) (.app job.chan seq (env.call args))

theorem Sys.step_hist {a : Action T V R} (h : s.step bin a = some s') :
    s'.hist = s.hist ∨ ∃ e, Logged bin s a e ∧ s'.hist = s.hist ++ [e] := by
  cases a with
  | register =>
    obtain rfl := Option.some.inj h
    exact .inl rfl
  | issue c op =>
    simp only [Sys.step, Sys.issue] at h
    split at h
    · split at h
      · obtain ⟨r, hr, h⟩ := Option.bind_eq_some_iff.mp h
        obtain rfl := Option.some.inj h
        exact .inr ⟨_, .call (by simp [hr]), rfl⟩
      · simp at h
    · simp at h
  | client c =>
    rcases Sys.clientStep_hist h with he | ⟨y, he⟩
    · exact .inl he
    · exact .inr ⟨_, .ret, he⟩
  | trustee =>
    rcases (Sys.trusteeStep_frame h).2.2.1 with he | ⟨_, _, _, _, _, _, hpc, he⟩
    · exact .inl he
    · exact .inr ⟨_, .trustee hpc, he⟩
  | fiber j =>
    rcases Sys.fiberStep_hist h with he | ⟨_, _, _, _, hj, hpc, he⟩
    · exact .inl he
    · exact .inr ⟨_, .fiber hj hpc, he⟩
  | dropValue c =>
    simp only [Sys.step, Sys.dropValue] at h
    split at h <;> simp only [Option.some.injEq, reduceCtorEq] at h
    subst h
    exact .inl rfl
  | dropHandle c =>
    simp only [Sys.step, Sys.dropHandle] at h
    split at h
    · split at h <;> simp only [Option.some.injEq, reduceCtorEq] at h
      subst h
      exact .inl rfl
    · simp at h

theorem Sys.step_logged {a : Action T V R} (h : s.step bin a = some s')
    {e : TrustTee.Event T V R} (he : e ∈ s'.hist) : e ∈ s.hist ∨ Logged bin s a e := by
  rcases Sys.step_hist h with hs | ⟨e', hl, hs⟩
  · exact .inl (hs ▸ he)
  · rw [hs] at he
    rcases List.mem_append.mp he with he | he
    · exact .inl he
    · exact .inr (List.mem_singleton.mp he ▸ hl)

theorem Sys.step_hist_mono {a : Action T V R} (h : s.step bin a = some s')
    {e : TrustTee.Event T V R} (he : e ∈ s.hist) : e ∈ s'.hist := by
  rcases Sys.step_hist h with hs | ⟨e', _, hs⟩
  · exact hs ▸ he
  · simp [hs, he]

theorem Reachable.called {w : Workload T V R} {value : T} (h : Reachable bin w value s)
    {c k : Nat} {op : Op T V R} (hc : Event.call c k op ∈ s.hist) :
    w c op ∧ op.encode bin k ≠ none := by
  refine h.invariant
    (P := fun s => ∀ c k op, Event.call c k op ∈ s.hist → w c op ∧ op.encode bin k ≠ none)
    ?_ ?_ c k op hc
  · intro c k op hc
    simp [Sys.init] at hc
  · intro t a v ht ha hs c k op hc
    rcases Sys.step_logged hs hc with hc | hc
    · exact ht c k op hc
    · cases hc with
      | call henc => exact ⟨ha, henc⟩

theorem Reachable.waiting_called {w : Workload T V R} {value : T}
    (h : Reachable bin w value s) {c : Nat} {op : Op T V R} {r : Bool}
    (hpc : (s.client c).pc = .waiting op r) :
    Event.call c (s.client c).seq op ∈ s.hist := by
  obtain ⟨o, hi, hr⟩ := h.refines
  obtain ⟨i, last, hph, _⟩ := (hr.phase c).waiting hpc
  rw [← hr.seq, ← hr.hist]
  exact (hi.current c op i last hph).1

/-- A client that has left its wait loop has had its closure executed as often as it asked. -/
theorem Reachable.executed {w : Workload T V R} {value : T} (h : Reachable bin w value s)
    {c : Nat} {op : Op T V R} (hpc : (s.client c).pc = .reading op) :
    Event.call c (s.client c).seq op ∈ s.hist ∧
      apps c (s.client c).seq s.hist = op.reps := by
  obtain ⟨o, hi, hr⟩ := h.refines
  have hph := hr.phase c
  simp only [PhaseOk, hpc] at hph
  obtain ⟨last, hph, _⟩ := hph
  obtain ⟨hcall, happs, _⟩ := hi.current c op op.reps last hph
  rw [hr.seq, hr.hist] at hcall happs
  exact ⟨hcall, happs⟩

end History

def Op.meaning : Op T V R → Body T (Option R)
  | .apply f | .with_ f | .launch f => f.lift some
  | .applyWith f w => (f w).lift some
  | .applyBatchMut f _ => f.lift (fun _ => none)
  | .intoInner | .terminate => fun t => (t, .returned none)

theorem Op.ran_eq_meaning {bin : Bincode V} (hbin : bin.RoundTrips) {k : Nat}
    {op : Op T V R} (he : op.encode bin k ≠ none) : op.ran bin = op.meaning := by
  cases op with
  | applyWith f w =>
    cases hs : bin.serialize w with
    | none => simp [Op.encode, hs] at he
    | some bytes => simp [Op.ran, Op.meaning, hs, hbin w bytes hs]
  | _ => rfl

/-- The sequential object behind the operations that run in the trustee loop: a request
is executed in one piece. -/
def requests : Spec (Op T V R) T (Outcome (Option R)) (Payload T R) where
  body := Op.meaning
  reps := Op.reps
  inline := fun _ => true
  answers := Op.Answers

def Body.Returns (f : Body T R) : Prop := ∀ t, (f t).2 ≠ .panicked

/-- Clients that only call `apply`, `apply_with`, `with` and `apply_batch_mut`, with
closures that do not panic. -/
def delegated : Workload T V R := fun _ op =>
  match op with
  | .apply f | .with_ f => f.Returns
  | .applyWith f _ => ∀ v, (f v).Returns
  | .applyBatchMut f _ => f.Returns
  | .launch _ | .intoInner | .terminate => False

theorem delegated_inline {c : Nat} {op : Op T V R} (h : delegated c op) :
    op.inline = true := by
  cases op <;> first | rfl | exact absurd h id

/-- Whatever the interleaving, the runtime behaves as one object whose requests take
effect in one order between their calls and their returns, and a client that leaves its
wait loop has had its request executed. -/
theorem delegated_linearizable {bin : Bincode V} (hbin : bin.RoundTrips) {value : T}
    {s : Sys T V R} (h : Reachable bin delegated value s) :
    Linearizable requests value s.hist s.prop ∧
      ∀ c op, (s.client c).pc = .reading op →
        Event.call c (s.client c).seq op ∈ s.hist ∧
          apps c (s.client c).seq s.hist = op.reps := by
  refine ⟨h.history.congr ?_ ?_ ?_ ?_, fun c op hpc => h.executed hpc⟩
  · intro c k op hc
    exact Op.ran_eq_meaning hbin (h.called hc).2
  · intro c k op _
    rfl
  · intro c k op hc _
    exact delegated_inline (h.called hc).1
  · intro c k op last y _ ha
    exact ha

def byteBincode : Bincode UInt8 where
  serialize b := some [b]
  deserialize
    | [b] => some b
    | _ => none

theorem byteBincode_roundTrips : byteBincode.RoundTrips := by
  intro b bytes h
  obtain rfl := Option.some.inj h
  rfl

def twoRequests : List (Action Nat UInt8 Nat) :=
  [.register, .register, .issue 1 (.apply (fun t => (2 * t, .returned t))), .client 1, .client 1,
    .issue 0 (.applyWith (fun b t => (t + b.toNat, .returned t)) 7), .client 0, .client 0] ++
    List.replicate 24 .trustee ++ [.client 1, .client 1, .client 0, .client 0]

theorem twoRequests_delegated :
    ∀ a ∈ twoRequests, (delegated : Workload Nat UInt8 Nat).permits a := by
  simp [twoRequests, Workload.permits, delegated, Body.Returns, or_imp, forall_and]

theorem delegated_linearizable_twoRequests :
    ∃ s, Machine.run (Sys.step byteBincode) (Sys.init 5) twoRequests = some s ∧ s.prop = 24 ∧
      Linearizable requests 5 s.hist s.prop ∧
      ∀ c op, (s.client c).pc = .reading op →
        Event.call c (s.client c).seq op ∈ s.hist ∧
          apps c (s.client c).seq s.hist = op.reps := by
  obtain ⟨s, hs, hprop⟩ : ∃ s, Machine.run (Sys.step byteBincode) (Sys.init 5) twoRequests =
      some s ∧ s.prop = 24 := ⟨_, rfl, rfl⟩
  exact ⟨s, hs, hprop, delegated_linearizable byteBincode_roundTrips
    (Reachable.scripted hs twoRequests_delegated)⟩

end TrustTee
