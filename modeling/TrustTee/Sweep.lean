import TrustTee.Launching
import TrustTee.RoundRobin

set_option autoImplicit false

namespace TrustTee
open Header

variable {T V R : Type}

def ClientPair.found (cp : ClientPair) (reqWord respWord : Word) : Bool :=
  ready reqWord ≠ ready respWord ∧
    (cp.pendingLaunch = true → ready reqWord ≠ cp.launchReqReady)

def visited? : Sys T V R × Action T V R → Option Nat
  | (s, .trustee) => match s.pc with
    | .sweep n offs => if offs < n then some (RoundRobin.index n s.startIdx offs) else none
    | _ => none
  | _ => none

/-- What the ready test says, at the step that makes it. -/
def found? : Sys T V R × Action T V R → Option Bool
  | (s, .trustee) => match s.pc with
    | .loadedReq _ _ idx _ reqWord =>
      (s.clients[idx]?).map (fun cp => cp.found reqWord (s.chan cp.chan).respWord)
    | _ => none
  | _ => none

def TrusteePc.visiting? : TrusteePc T R → Option Batch
  | .record b | .calling b _ _ | .inClosure b _ _ _ _ _ | .writeOut b _ | .moveOut b
  | .moveLoad b | .moveStore b _ | .respond b | .joining b => some b
  | _ => none

inductive Sys.Sweeps (s s' : Sys T V R) : Prop where
  | between : s.pc = .loop ∨ (∃ d, s.pc = .drain d) → Sweeps s s'
  | load {n offs : Nat} {cp : ClientPair} {w : Word} : s.pc = .sweep n offs → offs < n →
      s.clients[RoundRobin.index n s.startIdx offs]? = some cp →
      s'.pc = .loadedReq n offs (RoundRobin.index n s.startIdx offs) cp.chan w →
      s'.startIdx = s.startIdx → Sweeps s s'
  | finish {n offs : Nat} : s.pc = .sweep n offs → ¬ offs < n → s'.pc = .loop → Sweeps s s'
  | pass {n offs idx c : Nat} {cp : ClientPair} {w : Word} :
      s.pc = .loadedReq n offs idx c w → s.clients[idx]? = some cp →
      cp.found w (s.chan cp.chan).respWord = false →
      s'.pc = .sweep n (offs + 1) → s'.startIdx = s.startIdx → Sweeps s s'
  | take {n offs idx c : Nat} {cp : ClientPair} {w : Word} {b : Batch} :
      s.pc = .loadedReq n offs idx c w → s.clients[idx]? = some cp →
      cp.found w (s.chan cp.chan).respWord = true →
      s'.pc = .record b → b.n = n → b.offs = offs → b.idx = idx → Sweeps s s'
  | serve {b b' : Batch} : s.pc.visiting? = some b → s'.pc.visiting? = some b' →
      b'.n = b.n → b'.offs = b.offs → b'.idx = b.idx → Sweeps s s'
  | served {b : Batch} : s.pc.visiting? = some b → s'.pc = .sweep b.n (b.offs + 1) →
      s'.startIdx = (b.idx + 1) % b.n → Sweeps s s'
  | exit {cause : Exit} : s'.pc = .exited cause → Sweeps s s'

section Steps

variable {bin : Bincode V} {s s' : Sys T V R}

theorem Sys.visit_found {n offs idx : Nat} {cp : ClientPair} {w w' : Word}
    (h : cp.found w w' = true) : (s.visit n offs idx cp w w').pc =
      .record ⟨n, offs, idx, cp.chan, ready w, (count w).toNat, headerBytes, 0, false⟩ := by
  obtain ⟨hne, hpend⟩ := of_decide_eq_true h
  unfold Sys.visit
  cases hp : cp.pendingLaunch with
  | false => simp [hne, Sys.goto]
  | true => simp [hne, hpend hp, Sys.goto]

theorem Sys.visit_not_found {n offs idx : Nat} {cp : ClientPair} {w w' : Word}
    (h : cp.found w w' = false) : (s.visit n offs idx cp w w').pc = .sweep n (offs + 1) ∧
      (s.visit n offs idx cp w w').startIdx = s.startIdx := by
  have hn := of_decide_eq_false h
  unfold Sys.visit
  by_cases heq : ready w = ready w'
  · cases hp : cp.pendingLaunch <;> simp [heq, Sys.goto]
  · have hp : cp.pendingLaunch = true ∧ ready w = cp.launchReqReady := by
      simpa [heq] using hn
    have heq' : ¬ cp.launchReqReady = ready w' := hp.2 ▸ heq
    simp [hp.1, hp.2, heq', Sys.goto]

theorem Sys.visit_sweeps {n offs idx c : Nat} {cp : ClientPair} {w : Word}
    (hpc : s.pc = .loadedReq n offs idx c w) (hcp : s.clients[idx]? = some cp) :
    s.Sweeps (s.visit n offs idx cp w (s.chan cp.chan).respWord) := by
  cases hf : cp.found w (s.chan cp.chan).respWord with
  | true => exact .take hpc hcp hf (Sys.visit_found hf) rfl rfl rfl
  | false =>
    obtain ⟨hpc', hstart⟩ := @Sys.visit_not_found _ _ _ s n offs idx cp w _ hf
    exact .pass hpc hcp hf hpc' hstart

theorem Sys.trusteeStep_sweeps (h : s.trusteeStep = some s') : s.Sweeps s' := by
  unfold Sys.trusteeStep at h
  cases hpc : s.pc with
  | loop => exact .between (.inl hpc)
  | drain d => exact .between (.inr ⟨d, hpc⟩)
  | sweep n offs =>
    simp only [hpc] at h
    split at h
    · rename_i hlt
      split at h <;> obtain rfl := Option.some.inj h
      · rename_i cp hcp
        exact .load hpc hlt hcp rfl rfl
      · exact .exit rfl
    · rename_i hlt
      obtain rfl := Option.some.inj h
      exact .finish hpc hlt rfl
  | loadedReq n offs idx c w =>
    simp only [hpc] at h
    split at h <;> simp only [Option.some.injEq, reduceCtorEq] at h
    rename_i cp hcp
    subst h
    exact Sys.visit_sweeps hpc hcp
  | record b =>
    simp only [hpc, Option.some.injEq] at h
    subst h
    have hv : s.pc.visiting? = some b := by rw [hpc]; rfl
    unfold Sys.recordStep
    split
    · split
      · exact .served hv rfl rfl
      · exact .serve hv rfl rfl rfl rfl
    · dsimp only
      split <;> exact .serve hv rfl rfl rfl rfl
  | calling b hdr k =>
    simp only [hpc] at h
    have hv : s.pc.visiting? = some b := by rw [hpc]; rfl
    split at h <;> obtain rfl := Option.some.inj h <;> exact .serve hv rfl rfl rfl rfl
  | inClosure b hdr k env args seq =>
    simp only [hpc] at h
    have hv : s.pc.visiting? = some b := by rw [hpc]; rfl
    split at h
    · obtain rfl := Option.some.inj h
      exact .exit rfl
    · split at h <;> obtain rfl := Option.some.inj h <;> exact .serve hv rfl rfl rfl rfl
  | joining b =>
    simp only [hpc] at h
    split at h <;> simp only [Option.some.injEq, reduceCtorEq] at h
    subst h
    exact .exit rfl
  | respond b =>
    simp only [hpc, Option.some.injEq] at h
    subst h
    exact .served (b := b) (by rw [hpc]; rfl) rfl rfl
  | moveStore b r =>
    simp only [hpc, Option.some.injEq] at h
    subst h
    exact .exit rfl
  | exited cause => simp [hpc] at h
  | writeOut b r | moveOut b | moveLoad b =>
    simp only [hpc, Option.some.injEq] at h
    subst h
    exact .serve (b := b) (by rw [hpc]; rfl) rfl rfl rfl rfl

/-- A response word changes only at the hands of the trustee that serves the channel or of
a fiber that has still to answer on it. -/
theorem Sys.trusteeStep_respWord (h : s.trusteeStep = some s') (c : Nat) :
    (s'.chan c).respWord = (s.chan c).respWord ∨
      ∃ b, s.pc.batch? = some b ∧ b.chan = c := by
  have other : ∀ (b : Batch) (ch : ChannelPair T R), s.pc.batch? = some b →
      (Function.update s.chan b.chan ch c).respWord = (s.chan c).respWord ∨
        ∃ b, s.pc.batch? = some b ∧ b.chan = c := by
    intro b ch hb
    by_cases hc : b.chan = c
    · exact .inr ⟨b, hb, hc⟩
    · exact .inl (by rw [Function.update_of_ne (Ne.symm hc)])
  unfold Sys.trusteeStep at h
  cases hpc : s.pc with
  | loop =>
    simp only [hpc] at h
    split at h <;> obtain rfl := Option.some.inj h <;> exact .inl rfl
  | drain drained =>
    simp only [hpc] at h
    split at h
    · split at h <;> obtain rfl := Option.some.inj h <;> exact .inl rfl
    · obtain rfl := Option.some.inj h
      exact .inl rfl
  | sweep n offs =>
    simp only [hpc] at h
    split at h
    · split at h <;> obtain rfl := Option.some.inj h <;> exact .inl rfl
    · obtain rfl := Option.some.inj h
      exact .inl rfl
  | loadedReq n offs idx c' w =>
    simp only [hpc] at h
    split at h <;> simp only [Option.some.injEq, reduceCtorEq] at h
    subst h
    obtain ⟨_, _, _, he⟩ := s.visit_frame n offs idx _ w _
    exact .inl (by rw [he])
  | record b =>
    simp only [hpc, Option.some.injEq] at h
    subst h
    obtain ⟨_, _, _, _, hch, _⟩ := s.recordStep_frame b
    exact .inl (by rw [hch])
  | calling b hdr k =>
    simp only [hpc] at h
    split at h <;> obtain rfl := Option.some.inj h <;> exact .inl rfl
  | inClosure b hdr k env args seq =>
    simp only [hpc] at h
    split at h
    · obtain rfl := Option.some.inj h
      exact .inl rfl
    · split at h <;> obtain rfl := Option.some.inj h <;> exact .inl rfl
  | joining b =>
    simp only [hpc] at h
    split at h <;> simp only [Option.some.injEq, reduceCtorEq] at h
    subst h
    exact .inl rfl
  | moveLoad b =>
    simp only [hpc, Option.some.injEq] at h
    subst h
    exact .inl rfl
  | exited cause => simp [hpc] at h
  | writeOut b r | moveOut b | moveStore b r | respond b =>
    simp only [hpc, Option.some.injEq] at h
    subst h
    exact hpc ▸ other b _ (by rw [hpc]; rfl)

end Steps

def Answered (cl : Client T V R) (ch : ChannelPair T R) (k : Nat) : Prop :=
  k < cl.seq ∨ cl.seq = k ∧ ((∃ op, cl.pc = .reading op) ∨
    ∃ op r, cl.pc = .waiting op r ∧ ready ch.respWord = r)

def Served (s : Sys T V R) (c k : Nat) : Prop :=
  (∃ job ∈ s.jobs, job.chan = c ∧ job.seq = k) ∨ Answered (s.client c) (s.chan c) k

section Serving

variable {bin : Bincode V} {s s' : Sys T V R} {c k : Nat}

theorem Answered.later {cl cl' : Client T V R} {ch ch' : ChannelPair T R}
    (h : Answered cl ch k) (hseq : cl.seq ≤ cl'.seq)
    (hr : ∀ op, cl.pc ≠ .reading op) (hw : ∀ op r, cl.pc ≠ .waiting op r) :
    Answered cl' ch' k := by
  rcases h with h | ⟨_, ⟨op, h⟩ | ⟨op, r, h, _⟩⟩
  · exact .inl (by omega)
  · exact absurd h (hr op)
  · exact absurd h (hw op r)

theorem Answered.clientStep (h : Answered (s.client c) (s.chan c) k) {c' : Nat}
    (hs : s.clientStep c' = some s') : Answered (s'.client c) (s'.chan c) k := by
  by_cases hc : c = c'
  · subst hc
    unfold Sys.clientStep at hs
    cases hpc : (s.client c).pc with
    | encoded op | loaded op r =>
      simp only [hpc, Option.some.injEq] at hs
      subst hs
      exact h.later (by simp [Sys.setClient]) (by simp [hpc]) (by simp [hpc])
    | waiting op r =>
      have hread : Answered (⟨(s.client c).seq, .reading op⟩ : Client T V R) (s.chan c) k := by
        rcases h with h | ⟨hk, _⟩
        · exact .inl h
        · exact .inr ⟨hk, .inl ⟨op, rfl⟩⟩
      cases op <;> simp only [hpc] at hs <;> split at hs <;>
        simp only [Option.some.injEq, reduceCtorEq] at hs <;> subst hs
      all_goals first | exact h | simpa [Sys.setClient] using hread
    | reading op =>
      have hlt : k < (s.client c).seq + 1 := by
        rcases h with h | ⟨hk, _⟩ <;> omega
      cases op <;> simp only [hpc, Option.some.injEq] at hs <;> subst hs <;>
        exact .inl (by simpa [Sys.setClient, Sys.log] using hlt)
    | _ => simp [hpc] at hs
  · obtain ⟨hcl, hch⟩ := Sys.clientStep_frame hs hc
    rwa [hcl, hch]

theorem Answered.beside (h : Answered (s.client c) (s.chan c) k) {a : Action T V R}
    (hs : s.step bin a = some s') (ha : a ≠ .trustee) (hf : ∀ j, a ≠ .fiber j) :
    Answered (s'.client c) (s'.chan c) k := by
  have at_rest : ∀ c' pc, (s.client c').pc = pc → (∀ op, pc ≠ .reading op) →
      (∀ op r, pc ≠ .waiting op r) → ∀ pc' ch, (c ≠ c' → ch = s.chan c) →
      Answered (Function.update s.client c' ⟨(s.client c').seq, pc'⟩ c) ch k := by
    intro c' pc hpc hr hw pc' ch hch
    by_cases hc : c = c'
    · subst hc
      exact h.later (by simp) (hpc ▸ hr) (hpc ▸ hw)
    · rw [Function.update_of_ne hc, hch hc]
      exact h
  cases a with
  | register => exact Option.some.inj hs ▸ h
  | client c' => exact h.clientStep hs
  | trustee => exact absurd rfl ha
  | fiber j => exact absurd rfl (hf j)
  | issue c' op =>
    simp only [Sys.step, Sys.issue] at hs
    split at hs
    · rename_i hpc
      split at hs
      · obtain ⟨r, _, hs⟩ := Option.bind_eq_some_iff.mp hs
        obtain rfl := Option.some.inj hs
        refine at_rest c' _ hpc (by simp) (by simp) _ _ (fun hc => ?_)
        simp [Sys.log, Sys.setClient, Sys.setChan, Function.update_of_ne hc]
      · simp at hs
    · simp at hs
  | dropValue c' =>
    simp only [Sys.step, Sys.dropValue] at hs
    split at hs <;> simp only [Option.some.injEq, reduceCtorEq] at hs
    subst hs
    exact at_rest c' _ ‹_› (by simp) (by simp) _ _ (fun _ => rfl)
  | dropHandle c' =>
    simp only [Sys.step, Sys.dropHandle] at hs
    split at hs
    · split at hs <;> simp only [Option.some.injEq, reduceCtorEq] at hs
      subst hs
      exact at_rest c' _ ‹_› (by simp) (by simp) _ _ (fun _ => rfl)
    · simp at hs

theorem Answered.step (h : Answered (s.client c) (s.chan c) k) (hi : Inv bin s)
    {a : Action T V R} (hs : s.step bin a = some s') : Answered (s'.client c) (s'.chan c) k := by
  have same : s'.client c = s.client c → (∀ op r, (s.client c).pc = .waiting op r →
      ready (s.chan c).respWord = r → (s'.chan c).respWord = (s.chan c).respWord) →
      Answered (s'.client c) (s'.chan c) k := by
    intro hcl hw
    rw [hcl]
    rcases h with h | ⟨hk, h | ⟨op, r, hpc, hr⟩⟩
    · exact .inl h
    · exact .inr ⟨hk, .inl h⟩
    · exact .inr ⟨hk, .inr ⟨op, r, hpc, by rw [hw op r hpc hr]; exact hr⟩⟩
  by_cases ha : a = .trustee
  · subst ha
    refine same (by rw [(Sys.trusteeStep_frame hs).1]) (fun op r hpc hr => ?_)
    rcases Sys.trusteeStep_respWord hs c with he | ⟨b, hb, rfl⟩
    · exact he
    · obtain ⟨op', ⟨hpc', hr', _⟩, _⟩ := hi.serving b hb
      obtain ⟨_, rfl⟩ := ClientPc.waiting.inj (hpc.symm.trans hpc')
      simp [hr] at hr'
  by_cases hf : ∃ j, a = .fiber j
  · obtain ⟨j, rfl⟩ := hf
    obtain ⟨job, hj, hcl, _, hch, _, hshut⟩ := Sys.fiberStep_frame hs
    refine same (by rw [hcl]) (fun op r hpc hr => ?_)
    by_cases hc : c = job.chan
    · subst hc
      cases ho : (s.fiber j).open_ with
      | false => rw [(hshut ho).2]
      | true =>
        obtain ⟨_, _, _, hopen, _⟩ := hi.job j job hj
        obtain ⟨_, hr', f, hpc'⟩ := hopen ho
        obtain ⟨_, rfl⟩ := ClientPc.waiting.inj (hpc.symm.trans hpc')
        simp [hr] at hr'
    · rw [hch c hc]
  · exact h.beside hs ha (fun j hj => hf ⟨j, hj⟩)

theorem Served.step (h : Served s c k) (hi : Inv bin s) {a : Action T V R}
    (hs : s.step bin a = some s') : Served s' c k := by
  rcases h with ⟨job, hj, hjk⟩ | h
  · exact .inl ⟨job, hi.keeps_jobs hs hj, hjk⟩
  · exact .inr (h.step hi hs)

theorem Inv.outstanding_or_served (hi : Inv bin s) {op : Op T V R} {r : Bool}
    (hpc : (s.client c).pc = .waiting op r) :
    Outstanding s c op r ∨ Served s c (s.client c).seq := by
  by_cases hr : ready (s.chan c).respWord = r
  · exact .inr (.inr (.inr ⟨rfl, .inr ⟨op, r, hpc, hr⟩⟩))
  by_cases hb : Busy s c
  · obtain ⟨j, job, hj, rfl, ho⟩ := hb
    obtain ⟨_, _, _, hopen, _⟩ := hi.job j job hj
    exact .inr (.inl ⟨job, List.mem_of_getElem? hj, rfl, (hopen ho).1⟩)
  · exact .inl ⟨hpc, by cases r <;> simpa using hr, hb⟩

theorem Inv.serves (hi : Inv bin s) {b : Batch} (hb : s.pc.batch? = some b)
    (hs : s.trusteeStep = some s') :
    (∃ b', s'.pc.batch? = some b' ∧ b'.chan = b.chan) ∨
      Served s' b.chan (s.client b.chan).seq ∨ ∃ cause, s'.pc = .exited cause := by
  have hshape := hi.shape
  obtain ⟨op, ⟨hcl, _⟩, _⟩ := hi.serving b hb
  unfold Sys.trusteeStep at hs
  cases hpc : s.pc with
  | loop | drain d | sweep n offs | loadedReq n offs idx c w | exited cause =>
    simp [hpc, TrusteePc.batch?] at hb
  | record b₀ =>
    simp only [hpc, Option.some.injEq] at hs
    subst hs
    simp only [hpc, TrusteePc.batch?] at hb
    split at hb <;> simp only [Option.some.injEq, reduceCtorEq] at hb
    rename_i hopen
    subst hb
    by_cases hleft : b₀.left = 0
    · have hdef : b₀.deferred = false := by simpa [hleft] using hopen
      refine .inl ⟨b₀, ?_, rfl⟩
      simp [Sys.recordStep, hleft, hdef, Sys.goto, TrusteePc.batch?]
    · obtain ⟨op, _, he, hseq⟩ := hi.recordStep_taken hpc hleft
      rw [he]
      cases op with
      | launch f => exact .inr (.inl (.inl ⟨_, List.mem_append_right _ (.head _), rfl, hseq⟩))
      | _ => exact .inl ⟨_, rfl, rfl⟩
  | calling b₀ hdr k =>
    obtain rfl : b₀ = b := by simpa [hpc, TrusteePc.batch?] using hb
    simp only [hpc, Shape, InRecord] at hshape
    simp only [hpc] at hs
    split at hs <;> obtain rfl := Option.some.inj hs
    · refine .inl ⟨b₀.advance, ?_, rfl⟩
      simp [Sys.goto, TrusteePc.batch?, Batch.advance, hshape.2.2.2.2]
    · exact .inl ⟨_, rfl, rfl⟩
  | inClosure b₀ hdr k env args seq =>
    obtain rfl : b₀ = b := by simpa [hpc, TrusteePc.batch?] using hb
    simp only [hpc] at hs
    split at hs
    · obtain rfl := Option.some.inj hs
      exact .inr (.inr ⟨_, rfl⟩)
    · split at hs <;> obtain rfl := Option.some.inj hs <;> exact .inl ⟨_, rfl, rfl⟩
  | writeOut b₀ x =>
    obtain rfl : b₀ = b := by simpa [hpc, TrusteePc.batch?] using hb
    simp only [hpc, Shape, InRecord] at hshape
    simp only [hpc, Option.some.injEq] at hs
    subst hs
    refine .inl ⟨b₀.advance, ?_, rfl⟩
    simp [Sys.goto, TrusteePc.batch?, Batch.advance, hshape.2.2.2.2]
  | moveOut b₀ | moveLoad b₀ =>
    obtain rfl : b₀ = b := by simpa [hpc, TrusteePc.batch?] using hb
    simp only [hpc, Option.some.injEq] at hs
    subst hs
    exact .inl ⟨_, rfl, rfl⟩
  | moveStore b₀ x =>
    simp only [hpc, Option.some.injEq] at hs
    subst hs
    exact .inr (.inr ⟨_, rfl⟩)
  | joining b₀ =>
    simp only [hpc] at hs
    split at hs <;> simp only [Option.some.injEq, reduceCtorEq] at hs
    subst hs
    exact .inr (.inr ⟨_, rfl⟩)
  | respond b₀ =>
    obtain rfl : b₀ = b := by simpa [hpc, TrusteePc.batch?] using hb
    simp only [hpc, Option.some.injEq] at hs
    subst hs
    refine .inr (.inl (.inr (.inr ⟨rfl, .inr ⟨op, b₀.reqReady, hcl, ?_⟩⟩)))
    simp [Sys.served, Sys.setChan]

end Serving

section Rounds

variable {bin : Bincode V} {w : Workload T V R} {value : T} {s t u v : Sys T V R}
  {l : List (Sys T V R × Action T V R)} {n : Nat}

def sweepVisits (l : List (Sys T V R × Action T V R)) : List Nat := l.filterMap visited?

def sweepFound (l : List (Sys T V R × Action T V R)) : List Bool := l.filterMap found?

/-- A run through one execution of the loop over the clients. -/
structure Sweep (bin : Bincode V) (n : Nat) (s : Sys T V R)
    (l : List (Sys T V R × Action T V R)) (u : Sys T V R) : Prop where
  run : Machine.Trace (Sys.step bin) s l u
  enters : s.pc = .sweep n 0
  ends : u.pc = .sweep n n
  within : ∀ x ∈ l, x.1.pc ≠ .loop

structure Swept (n : Nat) (st : Nat × List Nat) (visits : List Nat) (t : Sys T V R) : Prop where
  drain : ∀ d, t.pc ≠ .drain d
  between : ∀ m offs, t.pc = .sweep m offs →
    m = n ∧ st.2.length = offs ∧ visits = st.2 ∧ t.startIdx = st.1
  loaded : ∀ m offs idx c reqWord, t.pc = .loadedReq m offs idx c reqWord →
    m = n ∧ st.2.length = offs ∧ idx = RoundRobin.index n st.1 offs ∧
      visits = st.2 ++ [idx] ∧ t.startIdx = st.1
  serving : ∀ b, t.pc.visiting? = some b → b.n = n ∧ st.2.length = b.offs + 1 ∧
    st.1 = (b.idx + 1) % n ∧ visits = st.2

theorem sweepVisits_concat (x : Sys T V R × Action T V R) :
    sweepVisits (l ++ [x]) = sweepVisits l ++ (visited? x).toList := by
  simp [sweepVisits, List.filterMap_append, List.filterMap_cons]
  cases visited? x <;> rfl

theorem sweepFound_concat (x : Sys T V R × Action T V R) :
    sweepFound (l ++ [x]) = sweepFound l ++ (found? x).toList := by
  simp [sweepFound, List.filterMap_append, List.filterMap_cons]
  cases found? x <;> rfl

section At

variable {st : Nat × List Nat} {visits : List Nat}

theorem Swept.at_sweep {offs : Nat} (hpc : v.pc = .sweep n offs) (hlen : st.2.length = offs)
    (hv : visits = st.2) (hst : v.startIdx = st.1) : Swept n st visits v := by
  constructor <;> simp only [hpc, TrusteePc.visiting?, reduceCtorEq, IsEmpty.forall_iff,
    implies_true, TrusteePc.sweep.injEq, and_imp, ne_eq, not_false_eq_true]
  rintro m offs' rfl rfl
  exact ⟨rfl, hlen, hv, hst⟩

theorem Swept.at_loaded {offs idx c : Nat} {reqWord : Word}
    (hpc : v.pc = .loadedReq n offs idx c reqWord) (hlen : st.2.length = offs)
    (hidx : idx = RoundRobin.index n st.1 offs) (hv : visits = st.2 ++ [idx])
    (hst : v.startIdx = st.1) : Swept n st visits v := by
  constructor <;> simp only [hpc, TrusteePc.visiting?, reduceCtorEq, IsEmpty.forall_iff,
    implies_true, TrusteePc.loadedReq.injEq, and_imp, ne_eq, not_false_eq_true]
  rintro m offs' idx' c' reqWord' rfl rfl rfl rfl rfl
  exact ⟨rfl, hlen, hidx, hv, hst⟩

theorem Swept.at_serving {b : Batch} (hpc : v.pc.visiting? = some b) (hn : b.n = n)
    (hlen : st.2.length = b.offs + 1) (hst : st.1 = (b.idx + 1) % n) (hv : visits = st.2) :
    Swept n st visits v := by
  constructor
  · intro d h
    simp [h, TrusteePc.visiting?] at hpc
  · intro m offs h
    simp [h, TrusteePc.visiting?] at hpc
  · intro m offs idx c reqWord h
    simp [h, TrusteePc.visiting?] at hpc
  · intro b' h
    obtain rfl := Option.some.inj (hpc.symm.trans h)
    exact ⟨hn, hlen, hst, hv⟩

theorem Swept.at_end (hpc : v.pc = .loop ∨ ∃ cause, v.pc = .exited cause) :
    Swept n st visits v := by
  rcases hpc with hpc | ⟨cause, hpc⟩ <;> constructor <;> simp [hpc, TrusteePc.visiting?]

end At

theorem visited?_serving {b : Batch} (hb : t.pc.visiting? = some b) :
    visited? (t, Action.trustee (T := T) (V := V) (R := R)) = none ∧
      found? (t, Action.trustee (T := T) (V := V) (R := R)) = none := by
  cases hpc : t.pc <;> simp [hpc, TrusteePc.visiting?] at hb <;> simp [visited?, found?, hpc]

theorem visited?_some {i : Nat} (h : visited? (t, Action.trustee (V := V)) = some i) :
    ∃ m offs, t.pc = .sweep m offs ∧ offs < m ∧ i = RoundRobin.index m t.startIdx offs := by
  simp only [visited?] at h
  split at h
  · rename_i m offs hpc
    split at h <;> simp only [Option.some.injEq, reduceCtorEq] at h
    exact ⟨m, offs, hpc, ‹_›, h.symm⟩
  · simp at h

theorem Swept.step {start : Nat} {a : Action T V R}
    (h : Swept n (RoundRobin.sweep n start (sweepFound l)) (sweepVisits l) t)
    (hloop : t.pc ≠ .loop) (hs : t.step bin a = some v) :
    Swept n (RoundRobin.sweep n start (sweepFound (l ++ [(t, a)])))
      (sweepVisits (l ++ [(t, a)])) v := by
  rw [sweepVisits_concat, sweepFound_concat]
  by_cases ha : a = .trustee
  · subst ha
    cases Sys.trusteeStep_sweeps hs with
    | between hpc =>
      rcases hpc with hpc | ⟨d, hpc⟩
      · exact absurd hpc hloop
      · exact absurd hpc (h.drain d)
    | @load m offs cp reqWord hpc hlt hcp hpc' hstart =>
      obtain ⟨rfl, hlen, hv, hst⟩ := h.between _ _ hpc
      have hidx : visited? (t, Action.trustee) =
          some (RoundRobin.index m t.startIdx offs) := by simp only [visited?, hpc, if_pos hlt]
      have hf : found? (t, Action.trustee) = none := by simp only [found?, hpc]
      rw [hidx, hf, Option.toList_none, List.append_nil]
      exact .at_loaded hpc' hlen (by rw [hst]) (by rw [hv]; rfl) (by rw [hstart, hst])
    | finish hpc hlt hpc' => exact .at_end (.inl hpc')
    | @pass m offs idx c cp reqWord hpc hcp hfound hpc' hstart =>
      obtain ⟨rfl, hlen, hidx, hv, hst⟩ := h.loaded _ _ _ _ _ hpc
      have hf : found? (t, Action.trustee) = some false := by
        simp only [found?, hpc, hcp, Option.map_some, hfound]
      have hvis : visited? (t, Action.trustee) = none := by simp only [visited?, hpc]
      rw [hf, hvis, Option.toList_some, RoundRobin.sweep_concat]
      refine .at_sweep hpc' (by simp [RoundRobin.visit, ← hlen]) ?_ ?_
      · simp [RoundRobin.visit, hv, hidx, ← hlen]
      · simp [RoundRobin.visit, hstart, hst]
    | @take m offs idx c cp reqWord b hpc hcp hfound hpc' hn hoffs hidx' =>
      obtain ⟨rfl, hlen, hidx, hv, hst⟩ := h.loaded _ _ _ _ _ hpc
      have hf : found? (t, Action.trustee) = some true := by
        simp only [found?, hpc, hcp, Option.map_some, hfound]
      have hvis : visited? (t, Action.trustee) = none := by simp only [visited?, hpc]
      rw [hf, hvis, Option.toList_some, RoundRobin.sweep_concat]
      refine .at_serving (b := b) (by rw [hpc']; rfl) hn ?_ ?_ ?_
      · simp [RoundRobin.visit, ← hlen, hoffs]
      · simp [RoundRobin.visit, hidx', hidx, ← hlen]
      · simp [RoundRobin.visit, hv, hidx, ← hlen]
    | serve hb hb' hn hoffs hidx =>
      obtain ⟨rfl, hlen, hst, hv⟩ := h.serving _ hb
      obtain ⟨hvis, hf⟩ := visited?_serving hb
      rw [hvis, hf, Option.toList_none, Option.toList_none, List.append_nil, List.append_nil]
      exact .at_serving hb' hn (by rw [hlen, hoffs]) (by rw [hst, hidx]) hv
    | served hb hpc' hstart =>
      obtain ⟨rfl, hlen, hst, hv⟩ := h.serving _ hb
      obtain ⟨hvis, hf⟩ := visited?_serving hb
      rw [hvis, hf, Option.toList_none, Option.toList_none, List.append_nil, List.append_nil]
      exact .at_sweep hpc' hlen hv (by rw [hstart, hst])
    | exit hpc' => exact .at_end (.inr ⟨_, hpc'⟩)
  · have hv : visited? (t, a) = none := by cases a <;> first | rfl | exact absurd rfl ha
    have hf : found? (t, a) = none := by cases a <;> first | rfl | exact absurd rfl ha
    obtain ⟨hpc, _, hstart, _⟩ := Sys.step_aside hs ha
    rw [hv, hf]
    simp only [Option.toList_none, List.append_nil]
    constructor
    · exact hpc ▸ h.drain
    · exact hpc ▸ hstart ▸ h.between
    · exact hpc ▸ hstart ▸ h.loaded
    · exact hpc ▸ h.serving

theorem Sweep.round (h : Sweep bin n s l u) :
    sweepVisits l = (RoundRobin.sweep n s.startIdx (sweepFound l)).2 ∧
      (sweepFound l).length = n := by
  have key : ∀ {l : List (Sys T V R × Action T V R)} {u : Sys T V R},
      Machine.Trace (Sys.step bin) s l u → (∀ x ∈ l, x.1.pc ≠ .loop) →
      Swept n (RoundRobin.sweep n s.startIdx (sweepFound l)) (sweepVisits l) u := by
    intro l u ht
    induction ht with
    | start => exact fun _ => .at_sweep h.enters rfl rfl rfl
    | @next l t v a _ hs ih =>
      intro hl
      exact (ih (fun x hx => hl x (by simp [hx]))).step (hl (t, a) (by simp)) hs
  obtain ⟨_, hlen, hv, _⟩ := (key h.run h.within).between _ _ h.ends
  exact ⟨hv, by simpa using hlen⟩

/-- Where a sweep stands with one request that was published before it began: the request
word that is loaded for it is the one its client has stored. -/
def Due (s : Sys T V R) (visits : List Nat) (i c k : Nat) : Prop :=
  (s.client c).seq = k ∧ (∃ op r, Outstanding s c op r) ∧ (i ∉ visits ∨
    (∃ m offs c', s.pc = .loadedReq m offs i c' (s.chan c).reqWord) ∨
    ∃ b, s.pc.batch? = some b ∧ b.chan = c)

theorem Sys.trusteeStep_located (hi : Inv bin t) (h : t.trusteeStep = some v) {i c : Nat}
    (hl : Located t.clients i c) : Located v.clients i c := by
  have hshape := hi.shape
  have same : v.clients = t.clients → Located v.clients i c := fun he => he ▸ hl
  unfold Sys.trusteeStep at h
  cases hpc : t.pc with
  | loop =>
    simp only [hpc] at h
    split at h <;> obtain rfl := Option.some.inj h <;> exact hl
  | drain drained =>
    simp only [hpc] at h
    split at h
    · split at h <;> obtain rfl := Option.some.inj h
      · obtain ⟨cp, hcp, hc⟩ := hl
        obtain ⟨hlt, _⟩ := List.getElem?_eq_some_iff.mp hcp
        exact ⟨cp, by rw [List.getElem?_append_left hlt, hcp], hc⟩
      · exact hl
    · obtain rfl := Option.some.inj h
      exact hl
  | sweep n offs =>
    simp only [hpc] at h
    split at h
    · split at h <;> obtain rfl := Option.some.inj h <;> exact hl
    · obtain rfl := Option.some.inj h
      exact hl
  | loadedReq n offs idx c' reqWord =>
    simp only [hpc] at h
    split at h <;> simp only [Option.some.injEq, reduceCtorEq] at h
    rename_i cp hcp
    subst h
    have hset : Located (t.clients.set idx { cp with pendingLaunch := false }) i c :=
      located_set hcp rfl hl
    unfold Sys.visit
    dsimp only
    split
    · split
      · exact hset
      · split
        · exact hset
        · exact hl
    · split <;> exact hl
  | record b =>
    simp only [hpc, Option.some.injEq] at h
    simp only [hpc, Shape] at hshape
    obtain ⟨⟨_, _, cp, hcp, hc⟩, _⟩ := hshape
    subst h
    unfold Sys.recordStep
    split
    · split <;> exact hl
    · dsimp only
      split
      case h_2 => exact located_set hcp hc.symm hl
      all_goals exact hl
  | calling b hdr k =>
    simp only [hpc] at h
    split at h <;> obtain rfl := Option.some.inj h <;> exact hl
  | inClosure b hdr k env args seq =>
    simp only [hpc] at h
    split at h
    · obtain rfl := Option.some.inj h
      exact hl
    · split at h <;> obtain rfl := Option.some.inj h <;> exact hl
  | joining b =>
    simp only [hpc] at h
    split at h <;> simp only [Option.some.injEq, reduceCtorEq] at h
    exact same (h ▸ rfl)
  | exited cause => simp [hpc] at h
  | _ =>
    simp only [hpc, Option.some.injEq] at h
    exact same (h ▸ rfl)

theorem Due.step {i c k : Nat} {a : Action T V R} (hi : Inv bin t)
    (hl : Located t.clients i c) (h : Due t (sweepVisits l) i c k)
    (hs : t.step bin a = some v) : Due v (sweepVisits (l ++ [(t, a)])) i c k ∨
      Served v c k ∨ ∃ cause, v.pc = .exited cause := by
  obtain ⟨rfl, ⟨op, r, ho⟩, hwhere⟩ := h
  rw [sweepVisits_concat]
  by_cases ha : a = .trustee
  · subst ha
    have hi' := hi.step hs
    have hcl := (Sys.trusteeStep_frame hs).1
    have hwait : (v.client c).pc = .waiting op r := by rw [hcl]; exact ho.1
    rcases hi'.outstanding_or_served hwait with ho' | hserved
    swap
    · rw [hcl] at hserved
      exact .inr (.inl hserved)
    rcases hwhere with hnot | ⟨m, offs, c', hpc⟩ | ⟨b, hb, rfl⟩
    · by_cases hidx : visited? (t, Action.trustee (V := V)) = some i
      · -- the visit begins: the word that is loaded is the published one
        obtain ⟨m, offs, hpc, hlt, rfl⟩ := visited?_some hidx
        obtain ⟨cp, hcp, rfl⟩ := hl
        have hv : v = t.goto (.loadedReq m offs (RoundRobin.index m t.startIdx offs) cp.chan
            (t.chan cp.chan).reqWord) := by
          unfold RoundRobin.index at hcp ⊢
          simp only [Sys.step, Sys.trusteeStep, hpc, if_pos hlt, hcp, Option.some.injEq] at hs
          exact hs.symm
        subst hv
        exact .inl ⟨rfl, ⟨op, r, ho'⟩, .inr (.inl ⟨m, offs, cp.chan, rfl⟩)⟩
      · refine .inl ⟨by rw [hcl], ⟨op, r, ho'⟩, .inl ?_⟩
        rintro hmem
        rcases List.mem_append.mp hmem with hmem | hmem
        · exact hnot hmem
        · exact hidx (Option.mem_toList.mp hmem)
    · obtain ⟨cp, hcp, rfl⟩ := hl
      have hv : v = t.visit m offs i cp (t.chan cp.chan).reqWord (t.chan cp.chan).respWord := by
        simpa [Sys.step, Sys.trusteeStep, hpc, hcp] using hs.symm
      rw [hi.visit_serves hcp ho] at hv
      subst hv
      exact .inl ⟨rfl, ⟨op, r, ho'⟩, .inr (.inr ⟨_, rfl, rfl⟩)⟩
    · rcases hi.serves hb hs with ⟨b', hb', hc⟩ | h | h
      · exact .inl ⟨by rw [hcl], ⟨op, r, ho'⟩, .inr (.inr ⟨b', hb', hc⟩)⟩
      · exact .inr (.inl h)
      · exact .inr (.inr h)
  · obtain ⟨ho', hcl, hch⟩ := ho.keep hs ha
    have hv : visited? (t, a) = none := by cases a <;> first | rfl | exact absurd rfl ha
    rw [hv, Option.toList_none, List.append_nil]
    refine .inl ⟨by rw [hcl], ⟨op, r, ho'⟩, ?_⟩
    rw [(Sys.step_aside hs ha).1, hch]
    exact hwhere

/-- The rule for a whole sweep: a published request is due until it is served. -/
theorem Sweep.due {i c : Nat} {op : Op T V R} {r : Bool} (hi : Inv bin s)
    (h : Machine.Trace (Sys.step bin) s l u) (hl : Located s.clients i c)
    (hpc : (s.client c).pc = .waiting op r) :
    Due u (sweepVisits l) i c (s.client c).seq ∨ Served u c (s.client c).seq ∨
      ∃ cause, u.pc = .exited cause := by
  suffices hall : Inv bin u ∧ Located u.clients i c ∧
      (Due u (sweepVisits l) i c (s.client c).seq ∨ Served u c (s.client c).seq ∨
        ∃ cause, u.pc = .exited cause) from hall.2.2
  induction h with
  | start =>
    refine ⟨hi, hl, ?_⟩
    rcases hi.outstanding_or_served hpc with ho | hserved
    · exact .inl ⟨rfl, ⟨op, r, ho⟩, .inl (by simp [sweepVisits])⟩
    · exact .inr (.inl hserved)
  | @next l t v a _ hs ih =>
    obtain ⟨hit, hlt, hcase⟩ := ih
    refine ⟨hit.step hs, ?_, ?_⟩
    · by_cases ha : a = .trustee
      · subst ha
        exact Sys.trusteeStep_located hit hs hlt
      · rw [(Sys.step_aside hs ha).2.1]
        exact hlt
    · rcases hcase with hdue | hserved | ⟨cause, hexit⟩
      · exact hdue.step hit hlt hs
      · exact .inr (.inl (hserved.step hit hs))
      · have ha : a ≠ .trustee := by
          rintro rfl
          simp [Sys.step, Sys.trusteeStep, hexit] at hs
        exact .inr (.inr ⟨cause, by rw [(Sys.step_aside hs ha).1]; exact hexit⟩)

/-- What one sweep is for: every client is visited once, so none is passed over, and every
request published before the sweep is answered or its launch dispatched when it ends. -/
structure VisitsAll (n : Nat) (s : Sys T V R) (l : List (Sys T V R × Action T V R))
    (u : Sys T V R) : Prop where
  once : (sweepVisits l).Perm (List.range n)
  served : ∀ cp ∈ s.clients, ∀ op r, (s.client cp.chan).pc = .waiting op r →
    Served u cp.chan (s.client cp.chan).seq

/-- A sweep does so exactly if nothing is found ready before its last visit: `start_idx`
moves under the loop that adds its offsets to it. -/
theorem sweep_visits_all_iff (h : Reachable bin w value s) (hs : Sweep bin n s l u) :
    VisitsAll n s l u ↔ true ∉ (sweepFound l).dropLast := by
  obtain ⟨hvisits, hlen⟩ := hs.round
  have hshape := h.inv.shape
  simp only [hs.enters, Shape] at hshape
  obtain ⟨hn, hstart⟩ := hshape
  have hperm : (sweepVisits l).Perm (List.range n) ↔ true ∉ (sweepFound l).dropLast := by
    rw [hvisits]
    exact RoundRobin.sweep_perm_iff hstart hlen
  refine ⟨fun hv => hperm.mp hv.once, fun hf => ⟨hperm.mpr hf, ?_⟩⟩
  intro cp hcp op r hpc
  obtain ⟨i, hi⟩ := List.mem_iff_getElem?.mp hcp
  rcases Sweep.due h.inv hs.run ⟨cp, hi, rfl⟩ hpc with ⟨_, _, hwhere⟩ | hserved | ⟨_, hexit⟩
  · rcases hwhere with hnot | ⟨m, offs, c', hpc⟩ | ⟨b, hb, _⟩
    · refine absurd ((hperm.mpr hf).mem_iff.mpr ?_) hnot
      rw [List.mem_range, hn]
      exact (List.getElem?_eq_some_iff.mp hi).1
    · simp [hs.ends] at hpc
    · simp [hs.ends, TrusteePc.batch?] at hb
  · exact hserved
  · simp [hs.ends] at hexit

instance (pc : TrusteePc T R) : Decidable (pc = .loop) :=
  match pc with
  | .loop => isTrue rfl
  | .drain _ | .sweep _ _ | .loadedReq _ _ _ _ _ | .record _ | .calling _ _ _
  | .inClosure _ _ _ _ _ _ | .writeOut _ _ | .moveOut _ | .moveLoad _ | .moveStore _ _
  | .respond _ | .joining _ | .exited _ => isFalse (by simp)

end Rounds

def published (clients : Nat) (senders : List Nat) : List (Action Nat UInt8 Nat) :=
  List.replicate clients .register ++
    senders.flatMap (fun c =>
      [.issue c (.apply (fun t => (t + 1, .returned t))), .client c, .client c]) ++
    List.replicate (clients + 2) .trustee

theorem published_reachable {clients : Nat} {senders : List Nat} {s : Sys Nat UInt8 Nat}
    (h : Machine.run (Sys.step byteBincode) (Sys.init 5) (published clients senders) = some s) :
    Reachable byteBincode (fun _ _ => True) 5 s :=
  .scripted h (fun a _ => by cases a <;> trivial)

theorem sweep_visits_all_iff_published : ∃ (s u : Sys Nat UInt8 Nat)
    (l : List (Sys Nat UInt8 Nat × Action Nat UInt8 Nat)),
    Sweep byteBincode 3 s l u ∧ sweepFound l = [false, false, true] ∧
      (VisitsAll 3 s l u ↔ true ∉ (sweepFound l).dropLast) := by
  obtain ⟨s, u, hs, hu, henters, hends, hwithin, hfound⟩ : ∃ s u,
      Machine.run (Sys.step byteBincode) (Sys.init 5) (published 3 [2]) = some s ∧
      Machine.run (Sys.step byteBincode) s (List.replicate 12 .trustee) = some u ∧
      s.pc = .sweep 3 0 ∧ u.pc = .sweep 3 3 ∧
      (∀ x ∈ Machine.trail (Sys.step byteBincode) s (List.replicate 12 .trustee),
        x.1.pc ≠ .loop) ∧
      sweepFound (Machine.trail (Sys.step byteBincode) s (List.replicate 12 .trustee)) =
        [false, false, true] :=
    ⟨_, _, rfl, rfl, rfl, rfl, by decide +kernel, rfl⟩
  have hsweep : Sweep byteBincode 3 s _ u := ⟨Machine.run_trail hu, henters, hends, hwithin⟩
  exact ⟨s, u, _, hsweep, hfound, sweep_visits_all_iff (published_reachable hs) hsweep⟩

/-- With all three clients ready the first is served, then the third, and the last visit
is to the third again. -/
theorem third_visited_twice : ∃ (s u : Sys Nat UInt8 Nat)
    (l : List (Sys Nat UInt8 Nat × Action Nat UInt8 Nat)),
    Reachable byteBincode (fun _ _ => True) 5 s ∧ Sweep byteBincode 3 s l u ∧
      sweepVisits l = [0, 2, 2] ∧ ¬ VisitsAll 3 s l u := by
  have hv : ∀ (s u : Sys Nat UInt8 Nat) l, sweepVisits l = [0, 2, 2] → ¬ VisitsAll 3 s l u := by
    intro s u l hl hv
    have hperm := hv.once
    rw [hl] at hperm
    exact absurd hperm (by decide)
  refine ⟨_, _, Machine.trail (Sys.step byteBincode) _ (List.replicate 18 .trustee),
    @published_reachable 3 [0, 1, 2] _ rfl,
    ⟨Machine.run_trail rfl, rfl, rfl, by decide +kernel⟩, rfl, hv _ _ _ rfl⟩

end TrustTee
