import TrustTee.Delegation

set_option autoImplicit false

namespace TrustTee
open Header

variable {T V R : Type}

inductive ClientPc.Next (c : Nat) : Action T V R → ClientPc T V R → ClientPc T V R → Prop where
  | encode (op : Op T V R) : Next c (.issue c op) .idle (.encoded op)
  | load (op : Op T V R) (r : Bool) : Next c (.client c) (.encoded op) (.loaded op r)
  | publish (op : Op T V R) (r : Bool) : Next c (.client c) (.loaded op r) (.waiting op r)
  | answered (op : Op T V R) (r : Bool) : op ≠ .terminate →
      Next c (.client c) (.waiting op r) (.reading op)
  | returned (op : Op T V R) : op ≠ .intoInner → Next c (.client c) (.reading op) .idle
  | taken (d : Payload T R) : Next c (.client c) (.reading .intoInner) (.owning d)
  | dropValue (d : Payload T R) : Next c (.dropValue c) (.owning d) .gone
  | dropHandle : Next c (.dropHandle c) .idle .gone

/-- What a step does that is none of the trustee or of a fiber: nothing, a registration, or
something at one client, of whose channel it leaves the response alone. -/
inductive Sys.Beside (s : Sys T V R) : Action T V R → Sys T V R → Prop where
  | spin (c : Nat) : Beside s (.client c) s
  | register : Beside s .register s.register
  | move {a : Action T V R} {c : Nat} {cl : Client T V R} {w : Word}
      {recs : Usize → Record T R} {destroyed : Nat} {hist : List (Event T V R)}
      (next : ClientPc.Next c a (s.client c).pc cl.pc)
      (created : (s.client c).pc = .idle → c < s.created)
      (kept : (∀ c', a ≠ .dropValue c') → destroyed = s.destroyed) :
      Beside s a { s with
        chan := Function.update s.chan c { s.chan c with reqWord := w, records := recs }
        client := Function.update s.client c cl
        destroyed := destroyed
        hist := hist }

section Clients

variable {bin : Bincode V} {s s' : Sys T V R}

theorem Sys.issue_beside {c : Nat} {op : Op T V R} (h : s.issue bin c op = some s') :
    s.Beside (.issue c op) s' := by
  unfold Sys.issue at h
  split at h
  · rename_i hidle
    split at h
    · rename_i hlt
      obtain ⟨r, _, h⟩ := Option.bind_eq_some_iff.mp h
      obtain rfl := Option.some.inj h
      exact .move (hidle ▸ .encode op) (fun _ => hlt) (fun _ => rfl)
    · simp at h
  · simp at h

theorem Sys.Beside.silent {a : Action T V R} {c : Nat} {cl : Client T V R} {destroyed : Nat}
    {hist : List (Event T V R)} (hnext : ClientPc.Next c a (s.client c).pc cl.pc)
    (hlt : (s.client c).pc = .idle → c < s.created)
    (hd : (∀ c', a ≠ .dropValue c') → destroyed = s.destroyed) :
    s.Beside a { s.setClient c cl with destroyed := destroyed, hist := hist } := by
  have same : s.chan = Function.update s.chan c { s.chan c with
      reqWord := (s.chan c).reqWord, records := (s.chan c).records } :=
    (Function.update_eq_self c s.chan).symm
  have hm : s.Beside a { s.setClient c cl with
      chan := Function.update s.chan c { s.chan c with
        reqWord := (s.chan c).reqWord, records := (s.chan c).records }
      destroyed := destroyed
      hist := hist } := .move hnext hlt hd
  rwa [← same] at hm

theorem Sys.clientStep_beside {c : Nat} (h : s.clientStep c = some s') :
    s.Beside (.client c) s' := by
  unfold Sys.clientStep at h
  cases hpc : (s.client c).pc with
  | encoded op =>
    simp only [hpc, Option.some.injEq] at h
    subst h
    exact .silent (hpc ▸ .load op _) (by simp [hpc]) (fun _ => rfl)
  | loaded op r =>
    simp only [hpc, Option.some.injEq] at h
    subst h
    exact .move (hpc ▸ .publish op r) (by simp [hpc]) (fun _ => rfl)
  | waiting op r =>
    cases op with
    | terminate =>
      simp only [hpc] at h
      split at h <;> simp only [Option.some.injEq, reduceCtorEq] at h
      exact h ▸ .spin c
    | _ =>
      simp only [hpc] at h
      split at h <;> obtain rfl := Option.some.inj h
      · exact .silent (hpc ▸ .answered _ r (by simp)) (by simp [hpc]) (fun _ => rfl)
      · exact .spin c
  | reading op =>
    cases op with
    | intoInner =>
      simp only [hpc, Option.some.injEq] at h
      subst h
      exact .silent (hpc ▸ .taken _) (by simp [hpc]) (fun _ => rfl)
    | _ =>
      simp only [hpc, Option.some.injEq] at h
      subst h
      exact .silent (hpc ▸ .returned _ (by simp)) (by simp [hpc]) (fun _ => rfl)
  | _ => simp [hpc] at h

theorem Sys.dropValue_beside {c : Nat} (h : s.dropValue c = some s') :
    s.Beside (.dropValue c) s' := by
  unfold Sys.dropValue at h
  split at h <;> simp only [Option.some.injEq, reduceCtorEq] at h
  rename_i d hown
  subst h
  exact .silent (hown ▸ .dropValue d) (by simp [hown]) (fun hd => absurd rfl (hd c))

theorem Sys.dropHandle_beside {c : Nat} (h : s.dropHandle c = some s') :
    s.Beside (.dropHandle c) s' := by
  unfold Sys.dropHandle at h
  split at h
  · rename_i hidle
    split at h <;> simp only [Option.some.injEq, reduceCtorEq] at h
    rename_i hlt
    subst h
    exact .silent (hidle ▸ .dropHandle) (fun _ => hlt) (fun _ => rfl)
  · simp at h

theorem Sys.step_beside {a : Action T V R} (h : s.step bin a = some s') (ha : a ≠ .trustee)
    (hf : ∀ j, a ≠ .fiber j) : s.Beside a s' := by
  cases a with
  | register => exact Option.some.inj h ▸ .register
  | issue c op => exact Sys.issue_beside h
  | client c => exact Sys.clientStep_beside h
  | trustee => exact absurd rfl ha
  | fiber j => exact absurd rfl (hf j)
  | dropValue c => exact Sys.dropValue_beside h
  | dropHandle c => exact Sys.dropHandle_beside h

theorem Sys.Beside.worker {a : Action T V R} (h : s.Beside a s') :
    s'.pc = s.pc ∧ s'.clients = s.clients ∧ s'.startIdx = s.startIdx ∧ s'.jobs = s.jobs ∧
      s'.fiber = s.fiber := by
  cases h <;> exact ⟨rfl, rfl, rfl, rfl, rfl⟩

theorem Sys.Beside.respData {a : Action T V R} (h : s.Beside a s') (c : Nat) :
    (s'.chan c).respData = (s.chan c).respData := by
  cases h with
  | spin => rfl
  | register => rfl
  | @move _ c' cl w recs destroyed hist next created =>
    by_cases hc : c = c'
    · subst hc
      simp
    · simp [Function.update_of_ne hc]

theorem ClientPc.Next.client {c c' : Nat} {pc pc' : ClientPc T V R}
    (h : ClientPc.Next c (.client c') pc pc') : c = c' := by
  cases h <;> rfl

theorem Sys.Beside.client {a : Action T V R} (h : s.Beside a s') (c : Nat) :
    (s'.client c = s.client c ∧ s'.chan c = s.chan c) ∨
      ClientPc.Next c a (s.client c).pc (s'.client c).pc ∧
        ((s.client c).pc = .idle → c < s.created) := by
  cases h with
  | spin => exact .inl ⟨rfl, rfl⟩
  | register => exact .inl ⟨rfl, rfl⟩
  | @move _ c' cl w recs destroyed hist next created =>
    by_cases hc : c = c'
    · subst hc
      have hcl : Function.update s.client c cl c = cl := Function.update_self c cl s.client
      exact .inr ⟨by simpa only [hcl] using next, created⟩
    · exact .inl ⟨Function.update_of_ne hc _ _, Function.update_of_ne hc _ _⟩

theorem ClientPc.Next.waits {c : Nat} {a : Action T V R} {pc pc' : ClientPc T V R}
    (h : ClientPc.Next c a pc pc') {op : Op T V R} {r : Bool} (hpc : pc = .waiting op r) :
    a = .client c := by
  cases h <;> first | rfl | cases hpc

theorem Sys.clientStep_frame {c c' : Nat} (h : s.clientStep c' = some s') (hc : c ≠ c') :
    s'.client c = s.client c ∧ s'.chan c = s.chan c := by
  rcases (Sys.clientStep_beside h).client c with hsame | ⟨next, _⟩
  · exact hsame
  · exact absurd next.client hc

theorem Sys.clientStep_created {c : Nat} (h : s.clientStep c = some s') :
    s'.created = s.created := by
  cases Sys.clientStep_beside h <;> rfl

theorem Sys.issue_spec {c : Nat} {op : Op T V R} (hs : s.issue bin c op = some s') :
    (s.client c).pc = .idle ∧ s'.created = s.created ∧ (s'.client c).pc = .encoded op ∧
      ∀ c', c' ≠ c → s'.client c' = s.client c' := by
  unfold Sys.issue at hs
  split at hs
  · rename_i hidle
    split at hs
    · obtain ⟨_, _, hs⟩ := Option.bind_eq_some_iff.mp hs
      obtain rfl := Option.some.inj hs
      refine ⟨hidle, rfl, by simp [Sys.log, Sys.setClient], fun c' hc => ?_⟩
      simp [Sys.log, Sys.setClient, Sys.setChan, Function.update_of_ne hc]
    · simp at hs
  · simp at hs

end Clients

section Worker

variable {bin : Bincode V} {s s' : Sys T V R}

/-- A fiber works on its own channel only, and not at all once it has signalled. -/
theorem Sys.fiberStep_frame {j : Nat} (h : s.fiberStep j = some s') :
    ∃ job, s.jobs[j]? = some job ∧ s'.client = s.client ∧ s'.jobs = s.jobs ∧
      (∀ c, c ≠ job.chan → s'.chan c = s.chan c) ∧ (∀ i, i ≠ j → s'.fiber i = s.fiber i) ∧
      ((s.fiber j).open_ = false → (s'.fiber j).open_ = false ∧ s'.chan = s.chan) := by
  unfold Sys.fiberStep at h
  cases hj : s.jobs[j]? with
  | none => simp [hj] at h
  | some job =>
    refine ⟨job, rfl, ?_⟩
    cases hpc : s.fiber j with
    | finished => simp [hj, hpc] at h
    | queued =>
      simp only [hj, hpc, Option.some.injEq] at h
      subst h
      refine ⟨rfl, rfl, fun _ _ => rfl, fun i hi => ?_, by simp [FiberPc.open_]⟩
      simp [Sys.setFiber, Function.update_of_ne hi]
    | running env args seq =>
      simp only [hj, hpc] at h
      split at h <;> simp only [Option.some.injEq] at h <;> subst h
      all_goals
        refine ⟨rfl, rfl, fun _ _ => rfl, fun i hi => ?_, by simp [FiberPc.open_]⟩
        simp [Sys.setFiber, Sys.log, Function.update_of_ne hi]
    | writing r =>
      simp only [hj, hpc, Option.some.injEq] at h
      subst h
      refine ⟨rfl, rfl, fun c hc => ?_, fun i hi => ?_, by simp [FiberPc.open_]⟩
      · simp [Sys.setFiber, Sys.setChan, Function.update_of_ne hc]
      · simp [Sys.setFiber, Sys.setChan, Function.update_of_ne hi]
    | guard =>
      simp only [hj, hpc, Option.some.injEq] at h
      subst h
      refine ⟨rfl, rfl, fun c hc => ?_, fun i hi => ?_, by simp [FiberPc.open_]⟩
      · simp [Sys.setFiber, Sys.setChan, Function.update_of_ne hc]
      · simp [Sys.setFiber, Sys.setChan, Function.update_of_ne hi]
    | signalled =>
      simp only [hj, hpc, Option.some.injEq] at h
      subst h
      refine ⟨rfl, rfl, fun _ _ => rfl, fun i hi => ?_, fun _ => ⟨?_, rfl⟩⟩
      · simp [Sys.setFiber, Sys.dropArc, Function.update_of_ne hi]
      · simp [Sys.setFiber, FiberPc.open_]

theorem Sys.fiberStep_payload {j : Nat} (h : s.fiberStep j = some s') :
    s'.fiber j ≠ .queued ∧ ∀ c, (s'.chan c).respData = (s.chan c).respData ∨
      ∃ job r, s.jobs[j]? = some job ∧ job.chan = c ∧ s.fiber j = .writing r ∧
        (s'.chan c).respData = .result r := by
  have other : ∀ (c c' : Nat) (ch : ChannelPair T R), c ≠ c' →
      (Function.update s.chan c' ch c).respData = (s.chan c).respData := by
    intro c c' ch hc
    rw [Function.update_of_ne hc]
  unfold Sys.fiberStep at h
  cases hj : s.jobs[j]? with
  | none => simp [hj] at h
  | some job =>
    cases hpc : s.fiber j with
    | finished => simp [hj, hpc] at h
    | queued | signalled =>
      simp only [hj, hpc, Option.some.injEq] at h
      subst h
      exact ⟨by simp [Sys.setFiber], fun _ => .inl rfl⟩
    | running env args seq =>
      simp only [hj, hpc] at h
      split at h <;> simp only [Option.some.injEq] at h <;> subst h <;>
        exact ⟨by simp [Sys.setFiber], fun _ => .inl rfl⟩
    | writing r =>
      simp only [hj, hpc, Option.some.injEq] at h
      subst h
      refine ⟨by simp [Sys.setFiber], fun c => ?_⟩
      by_cases hc : c = job.chan
      · subst hc
        exact .inr ⟨job, r, rfl, rfl, rfl, by simp [Sys.setFiber, Sys.setChan]⟩
      · exact .inl (other c job.chan _ hc)
    | guard =>
      simp only [hj, hpc, Option.some.injEq] at h
      subst h
      refine ⟨by simp [Sys.setFiber], fun c => .inl ?_⟩
      by_cases hc : c = job.chan
      · subst hc
        simp [Sys.setFiber, Sys.setChan]
      · exact other c job.chan _ hc

theorem Sys.fiberStep_aside {j : Nat} (h : s.fiberStep j = some s') :
    s'.pc = s.pc ∧ s'.clients = s.clients ∧ s'.startIdx = s.startIdx ∧
      s'.created = s.created := by
  simp only [Sys.fiberStep] at h
  split at h
  · simp at h
  · split at h
    case h_2 => split at h <;> obtain rfl := Option.some.inj h <;> exact ⟨rfl, rfl, rfl, rfl⟩
    case h_6 => simp at h
    all_goals
      obtain rfl := Option.some.inj h
      exact ⟨rfl, rfl, rfl, rfl⟩

/-- Nobody but the trustee moves the trustee or touches its client list. -/
theorem Sys.step_aside {a : Action T V R} (h : s.step bin a = some s')
    (ha : a ≠ .trustee) : s'.pc = s.pc ∧ s'.clients = s.clients ∧ s'.startIdx = s.startIdx ∧
      s'.jobs = s.jobs := by
  by_cases hf : ∃ j, a = .fiber j
  · obtain ⟨j, rfl⟩ := hf
    obtain ⟨hpc, hclients, hstart, _⟩ := Sys.fiberStep_aside h
    obtain ⟨_, _, _, hjobs, _⟩ := Sys.fiberStep_frame h
    exact ⟨hpc, hclients, hstart, hjobs⟩
  · obtain ⟨hpc, hclients, hstart, hjobs, _⟩ :=
      (Sys.step_beside h ha (fun j hj => hf ⟨j, hj⟩)).worker
    exact ⟨hpc, hclients, hstart, hjobs⟩

theorem Sys.exited_aside {a : Action T V R} (h : s.step bin a = some s') (ha : a ≠ .trustee) :
    s'.exited = s.exited := by
  unfold Sys.exited
  rw [(Sys.step_aside h ha).1]

theorem Sys.trusteeStep_frame (h : s.trusteeStep = some s') :
    s'.client = s.client ∧ s'.created = s.created ∧
    (s'.hist = s.hist ∨ ∃ b hdr k env args seq, s.pc = .inClosure b hdr k env args seq ∧
      s'.hist = s.hist ++ [.app b.chan seq (env.call args)]) ∧
    (s'.jobs = s.jobs ∨ ∃ b, s.pc = .record b ∧ b.left ≠ 0 ∧ s' = s.recordStep b) := by
  unfold Sys.trusteeStep at h
  cases hpc : s.pc with
  | record b =>
    simp only [hpc, Option.some.injEq] at h
    subst h
    obtain ⟨hhist, _, _, hcr, _, hcl, _⟩ := s.recordStep_frame b
    refine ⟨hcl, hcr, .inl hhist, ?_⟩
    by_cases hleft : b.left = 0
    · left
      unfold Sys.recordStep
      rw [if_pos hleft]
      split <;> rfl
    · exact .inr ⟨b, rfl, hleft, rfl⟩
  | inClosure b hdr k env args seq =>
    simp only [hpc] at h
    split at h
    · obtain rfl := Option.some.inj h
      exact ⟨rfl, rfl, .inr ⟨b, hdr, k, env, args, seq, rfl, rfl⟩, .inl rfl⟩
    · split at h <;> obtain rfl := Option.some.inj h <;>
        exact ⟨rfl, rfl, .inr ⟨b, hdr, k, env, args, seq, rfl, rfl⟩, .inl rfl⟩
  | exited cause => simp [hpc] at h
  | loop =>
    simp only [hpc] at h
    split at h <;> obtain rfl := Option.some.inj h <;> exact ⟨rfl, rfl, .inl rfl, .inl rfl⟩
  | drain drained =>
    simp only [hpc] at h
    split at h
    · split at h <;> obtain rfl := Option.some.inj h <;> exact ⟨rfl, rfl, .inl rfl, .inl rfl⟩
    · obtain rfl := Option.some.inj h
      exact ⟨rfl, rfl, .inl rfl, .inl rfl⟩
  | sweep n offs =>
    simp only [hpc] at h
    split at h
    · split at h <;> obtain rfl := Option.some.inj h <;> exact ⟨rfl, rfl, .inl rfl, .inl rfl⟩
    · obtain rfl := Option.some.inj h
      exact ⟨rfl, rfl, .inl rfl, .inl rfl⟩
  | loadedReq n offs idx c w =>
    simp only [hpc] at h
    split at h <;> simp only [Option.some.injEq, reduceCtorEq] at h
    subst h
    obtain ⟨_, _, _, he⟩ := s.visit_frame n offs idx _ w _
    rw [he]
    exact ⟨rfl, rfl, .inl rfl, .inl rfl⟩
  | calling b hdr k =>
    simp only [hpc] at h
    split at h <;> obtain rfl := Option.some.inj h <;> exact ⟨rfl, rfl, .inl rfl, .inl rfl⟩
  | joining b =>
    simp only [hpc] at h
    split at h <;> simp only [Option.some.injEq, reduceCtorEq] at h
    subst h
    exact ⟨rfl, rfl, .inl rfl, .inl rfl⟩
  | _ =>
    simp only [hpc, Option.some.injEq] at h
    subst h
    exact ⟨rfl, rfl, .inl rfl, .inl rfl⟩

theorem Sys.recordStep_launches (s : Sys T V R) (b : Batch) :
    ((s.recordStep b).jobs = s.jobs ∧ (s.recordStep b).fiber = s.fiber) ∨
    (∃ job, (s.recordStep b).jobs = s.jobs ++ [job] ∧
      (s.recordStep b).fiber = Function.update s.fiber s.jobs.length .queued ∧
      (s.recordStep b).exited = false) := by
  unfold Sys.recordStep
  dsimp only
  split
  · split <;> exact .inl ⟨rfl, rfl⟩
  · split
    · exact .inl ⟨rfl, rfl⟩
    · exact .inr ⟨_, rfl, rfl, rfl⟩
    · exact .inl ⟨rfl, rfl⟩
    · exact .inl ⟨rfl, rfl⟩

theorem Sys.trusteeStep_launches (h : s.trusteeStep = some s') :
    (s'.jobs = s.jobs ∧ s'.fiber = s.fiber) ∨
    (∃ job, s'.jobs = s.jobs ++ [job] ∧
      s'.fiber = Function.update s.fiber s.jobs.length .queued ∧ s'.exited = false) := by
  unfold Sys.trusteeStep at h
  cases hpc : s.pc with
  | record b =>
    simp only [hpc, Option.some.injEq] at h
    exact h ▸ s.recordStep_launches b
  | loadedReq n offs idx c w =>
    simp only [hpc] at h
    split at h <;> simp only [Option.some.injEq, reduceCtorEq] at h
    subst h
    obtain ⟨_, _, _, he⟩ := s.visit_frame n offs idx _ w _
    rw [he]
    exact .inl ⟨rfl, rfl⟩
  | exited cause => simp [hpc] at h
  | inClosure b hdr k env args seq =>
    simp only [hpc] at h
    split at h
    · obtain rfl := Option.some.inj h
      exact .inl ⟨rfl, rfl⟩
    · split at h <;> obtain rfl := Option.some.inj h <;> exact .inl ⟨rfl, rfl⟩
  | drain drained =>
    simp only [hpc] at h
    repeat' split at h
    all_goals
      obtain rfl := Option.some.inj h
      exact .inl ⟨rfl, rfl⟩
  | loop | calling b hdr k =>
    simp only [hpc] at h
    split at h <;> obtain rfl := Option.some.inj h <;> exact .inl ⟨rfl, rfl⟩
  | sweep n offs =>
    simp only [hpc] at h
    repeat' split at h
    all_goals
      obtain rfl := Option.some.inj h
      exact .inl ⟨rfl, rfl⟩
  | joining b =>
    simp only [hpc] at h
    split at h <;> simp only [Option.some.injEq, reduceCtorEq] at h
    subst h
    exact .inl ⟨rfl, rfl⟩
  | _ =>
    simp only [hpc, Option.some.injEq] at h
    subst h
    exact .inl ⟨rfl, rfl⟩

theorem Sys.trusteeStep_jobs_kept (h : s.trusteeStep = some s')
    (hrec : ∀ b, s.pc = .record b → b.left = 0) : s'.jobs = s.jobs ∧ s'.fiber = s.fiber := by
  rcases Sys.trusteeStep_launches h with hsame | ⟨job, hjobs, _⟩
  · exact hsame
  · rcases (Sys.trusteeStep_frame h).2.2.2 with he | ⟨b, hpc, hleft, _⟩
    · rw [he] at hjobs
      exact absurd (congrArg List.length hjobs) (by simp)
    · exact absurd (hrec b hpc) hleft

theorem Sys.trusteeStep_respData (h : s.trusteeStep = some s') (hw : ∀ b r, s.pc ≠ .writeOut b r)
    (hm : ∀ b, s.pc ≠ .moveOut b) (c : Nat) : (s'.chan c).respData = (s.chan c).respData := by
  have kept : ∀ (c' : Nat) (w : Word), (Function.update s.chan c'
      { s.chan c' with respWord := w } c).respData = (s.chan c).respData := by
    intro c' w
    by_cases hc : c = c'
    · subst hc
      simp
    · rw [Function.update_of_ne hc]
  unfold Sys.trusteeStep at h
  cases hpc : s.pc with
  | writeOut b r => exact absurd hpc (hw b r)
  | moveOut b => exact absurd hpc (hm b)
  | moveStore b r | respond b =>
    simp only [hpc, Option.some.injEq] at h
    subst h
    exact kept b.chan _
  | record b =>
    simp only [hpc, Option.some.injEq] at h
    subst h
    rw [(s.recordStep_frame b).2.2.2.2.1]
  | loadedReq n offs idx c' w =>
    simp only [hpc] at h
    split at h <;> simp only [Option.some.injEq, reduceCtorEq] at h
    subst h
    obtain ⟨_, _, _, he⟩ := s.visit_frame n offs idx _ w _
    rw [he]
  | joining b =>
    simp only [hpc] at h
    split at h <;> simp only [Option.some.injEq, reduceCtorEq] at h
    exact h ▸ rfl
  | moveLoad b =>
    simp only [hpc, Option.some.injEq] at h
    exact h ▸ rfl
  | exited cause => simp [hpc] at h
  | loop | drain | sweep | calling | inClosure =>
    simp only [hpc] at h
    repeat' split at h
    all_goals
      obtain rfl := Option.some.inj h
      rfl

def TrusteePc.called? : TrusteePc T R → Option Batch
  | .calling b _ _ | .inClosure b _ _ _ _ _ => some b
  | _ => none

theorem Sys.trusteeStep_called (h : s.trusteeStep = some s') {b : Batch}
    (hb : s'.pc.called? = some b) :
    (∃ b', s.pc = .record b' ∧ b'.left ≠ 0) ∨ s.pc.called? = some b := by
  have sweep : ∀ x : Sys T V R, x.enterSweep.pc.called? = none := by
    intro x
    unfold Sys.enterSweep
    split <;> rfl
  unfold Sys.trusteeStep at h
  cases hpc : s.pc with
  | record b' =>
    simp only [hpc, Option.some.injEq] at h
    subst h
    by_cases hleft : b'.left = 0
    · unfold Sys.recordStep at hb
      rw [if_pos hleft] at hb
      split at hb <;> cases hb
    · exact .inl ⟨b', rfl, hleft⟩
  | calling b' hdr k =>
    simp only [hpc] at h
    split at h <;> obtain rfl := Option.some.inj h
    · cases hb
    · exact .inr hb
  | inClosure b' hdr k env args seq =>
    simp only [hpc] at h
    split at h
    · obtain rfl := Option.some.inj h
      cases hb
    · split at h <;> obtain rfl := Option.some.inj h
      · exact .inr hb
      · cases hb
  | loop =>
    simp only [hpc] at h
    split at h <;> obtain rfl := Option.some.inj h
    · cases hb
    · simp only [sweep, reduceCtorEq] at hb
  | drain drained =>
    simp only [hpc] at h
    split at h
    · split at h <;> obtain rfl := Option.some.inj h
      · cases hb
      · simp [sweep] at hb
    · obtain rfl := Option.some.inj h
      simp [sweep] at hb
  | sweep n offs =>
    simp only [hpc] at h
    repeat' split at h
    all_goals
      obtain rfl := Option.some.inj h
      cases hb
  | loadedReq n offs idx c' w =>
    simp only [hpc] at h
    split at h <;> simp only [Option.some.injEq, reduceCtorEq] at h
    subst h
    obtain ⟨_, _, hnext, he⟩ := s.visit_frame n offs idx _ w _
    rw [he] at hb
    rcases hnext with rfl | ⟨_, rfl⟩ <;> cases hb
  | joining b' =>
    simp only [hpc] at h
    split at h <;> simp only [Option.some.injEq, reduceCtorEq] at h
    subst h
    cases hb
  | exited cause => simp [hpc] at h
  | _ =>
    simp only [hpc, Option.some.injEq] at h
    subst h
    cases hb

theorem Sys.step_created {a : Action T V R} (h : s.step bin a = some s') :
    s.created ≤ s'.created := by
  by_cases ha : a = .trustee
  · subst ha
    exact Nat.le_of_eq (Sys.trusteeStep_frame h).2.1.symm
  by_cases hf : ∃ j, a = .fiber j
  · obtain ⟨j, rfl⟩ := hf
    exact Nat.le_of_eq (Sys.fiberStep_aside h).2.2.2.symm
  cases Sys.step_beside h ha (fun j hj => hf ⟨j, hj⟩) with
  | register => exact Nat.le_succ _
  | _ => exact Nat.le_refl _

theorem Sys.step_client {a : Action T V R} (h : s.step bin a = some s') (c : Nat) :
    s'.client c = s.client c ∨ ClientPc.Next c a (s.client c).pc (s'.client c).pc ∧
      ((s.client c).pc = .idle → c < s.created) := by
  by_cases ha : a = .trustee
  · subst ha
    exact .inl (by rw [(Sys.trusteeStep_frame h).1])
  by_cases hf : ∃ j, a = .fiber j
  · obtain ⟨j, rfl⟩ := hf
    obtain ⟨_, _, hcl, _⟩ := Sys.fiberStep_frame h
    exact .inl (by rw [hcl])
  · exact ((Sys.step_beside h ha (fun j hj => hf ⟨j, hj⟩)).client c).imp_left And.left

end Worker

end TrustTee
