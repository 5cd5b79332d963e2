import TrustTee.Delegation

/-!
The invariant that ties the ready bits of every channel to the client's position, the
trustee's cached words and pending flags, and the fibers that still have to answer.
-/

set_option autoImplicit false

namespace TrustTee
open Header

variable {T V R : Type}

def Busy (s : Sys T V R) (c : Nat) : Prop :=
  ∃ j job, s.jobs[j]? = some job ∧ job.chan = c ∧ (s.fiber j).open_ = true

def Sys.pairs (s : Sys T V R) : List ClientPair := s.clients ++ s.reg

def Quiet (ch : ChannelPair T R) (busy : Prop) : Prop :=
  ready ch.reqWord = ready ch.respWord ∧ ¬ busy

def Holds (bin : Bincode V) (ch : ChannelPair T R) (seq : Nat) (op : Op T V R) : Prop :=
  op.encode bin seq = some (ch.records hdrOffset)

def ClientOk (bin : Bincode V) (ch : ChannelPair T R) (cl : Client T V R) (busy : Prop) :
    Prop :=
  match cl.pc with
  | .encoded op => Quiet ch busy ∧ Holds bin ch cl.seq op
  | .loaded op r => Quiet ch busy ∧ Holds bin ch cl.seq op ∧ r = !ready ch.respWord
  | .waiting op r => ready ch.reqWord = r ∧ count ch.reqWord = 1 ∧ Holds bin ch cl.seq op ∧
      (ready ch.respWord = r → ¬ busy)
  | _ => Quiet ch busy

/-- A fiber that has not signalled works for the launch its client waits for; one that
has is never mistaken for it again. -/
def JobOk (pc : FiberPc T R) (job : Job) (ch : ChannelPair T R) (cl : Client T V R) : Prop :=
  job.seq ≤ cl.seq ∧ job.cursor = hdrOffset ∧
  (pc.open_ = true → job.seq = cl.seq ∧ ready ch.respWord = !job.reqReady ∧
    ∃ f, cl.pc = .waiting (.launch f) job.reqReady) ∧
  (pc.open_ = false → job.seq = cl.seq → ∃ f,
    (cl.pc = .waiting (.launch f) job.reqReady ∧ ready ch.respWord = job.reqReady) ∨
    cl.pc = .reading (.launch f)) ∧
  (∀ env args seq, pc = .running env args seq → env = (ch.records hdrOffset).env ∧
    args = (ch.records hdrOffset).args ∧ seq = (ch.records hdrOffset).seq)

def PairOk (cp : ClientPair) (ch : ChannelPair T R) (busy : Prop) : Prop :=
  (cp.pendingLaunch = false → ¬ busy) ∧
  (cp.pendingLaunch = true → (busy → ready ch.respWord = !cp.launchReqReady) ∧
    (¬ busy → ready ch.respWord = cp.launchReqReady))

/-- The request word the trustee loaded is still current, or it was loaded before the
client published and equals the response. -/
def Fresh (ch : ChannelPair T R) (busy : Prop) (w : Word) : Prop :=
  w = ch.reqWord ∨
    (ready ch.reqWord = (!ready w) ∧ ready ch.respWord = ready w ∧ ¬ busy)

def Serving (ch : ChannelPair T R) (cl : Client T V R) (busy : Prop) (b : Batch)
    (op : Op T V R) : Prop :=
  cl.pc = .waiting op b.reqReady ∧ ready ch.respWord = (!b.reqReady) ∧ ¬ busy

def RecordHeader.called (hdr : RecordHeader) : Bool :=
  match hdr.propertyPtr with
  | .callMutRetUnit | .callMutOutPtr | .callMutArgsOutPtr => true
  | _ => false

/-- The visit whose request is still unanswered and not handed to a fiber. -/
def TrusteePc.batch? : TrusteePc T R → Option Batch
  | .record b => if b.left = 0 ∧ b.deferred = true then none else some b
  | .calling b _ _ | .inClosure b _ _ _ _ _ | .writeOut b _ | .moveOut b | .moveLoad b
  | .moveStore b _ | .respond b | .joining b => some b
  | _ => none

def PcOk (pc : TrusteePc T R) (rec_ : Record T R) (op : Op T V R) : Prop :=
  match pc with
  | .calling _ hdr _ => hdr = rec_.hdr ∧ hdr.called = true
  | .inClosure _ hdr _ env args seq =>
    hdr = rec_.hdr ∧ hdr.called = true ∧ env = rec_.env ∧ args = rec_.args ∧ seq = rec_.seq
  | .writeOut _ _ => rec_.hdr.called = true
  | .moveOut _ | .moveLoad _ => op = .intoInner
  | .moveStore b r => op = .intoInner ∧ r = b.reqReady
  | .joining _ => op = .terminate
  | .record b => b.left = 0 → rec_.hdr.called = true
  | .respond _ => rec_.hdr.called = true
  | _ => True

def Located (clients : List ClientPair) (idx chan : Nat) : Prop :=
  ∃ cp, clients[idx]? = some cp ∧ cp.chan = chan

def Visiting (clients : List ClientPair) (startIdx : Nat) (b : Batch) : Prop :=
  b.n = clients.length ∧ startIdx < b.n ∧ Located clients b.idx b.chan

def InRecord (b : Batch) : Prop :=
  b.left = 1 ∧ b.cursor = hdrOffset ∧ b.processed = 0 ∧ b.deferred = false

def Shape (pc : TrusteePc T R) (clients : List ClientPair) (startIdx : Nat) : Prop :=
  match pc with
  | .loop | .drain _ => startIdx = 0 ∨ startIdx < clients.length
  | .sweep n _ => n = clients.length ∧ startIdx < n
  | .loadedReq n _ idx c _ => n = clients.length ∧ startIdx < n ∧ Located clients idx c
  | .record b => Visiting clients startIdx b ∧
      ((b.left = 1 ∧ b.cursor = headerBytes ∧ b.processed = 0 ∧ b.deferred = false) ∨
        (b.left = 0 ∧ (b.deferred = false → b.processed = 1)))
  | .respond b => Visiting clients startIdx b ∧ b.processed = 1
  | .calling b _ _ | .inClosure b _ _ _ _ _ | .writeOut b _ | .moveOut b | .moveLoad b
  | .moveStore b _ | .joining b => Visiting clients startIdx b ∧ InRecord b
  | .exited _ => True

structure Inv (bin : Bincode V) (s : Sys T V R) : Prop where
  client : ∀ c, ClientOk bin (s.chan c) (s.client c) (Busy s c)
  job : ∀ j job, s.jobs[j]? = some job → job.chan < s.created ∧
    JobOk (s.fiber j) job (s.chan job.chan) (s.client job.chan)
  pair : ∀ cp ∈ s.pairs, cp.chan < s.created ∧
    PairOk cp (s.chan cp.chan) (Busy s cp.chan)
  chans_nodup : (s.pairs.map ClientPair.chan).Nodup
  jobs_nodup : (s.jobs.map (fun j => (j.chan, j.seq))).Nodup
  shape : Shape s.pc s.clients s.startIdx
  fresh : ∀ n offs idx c w, s.pc = .loadedReq n offs idx c w →
    Fresh (s.chan c) (Busy s c) w
  serving : ∀ b, s.pc.batch? = some b → ∃ op,
    Serving (s.chan b.chan) (s.client b.chan) (Busy s b.chan) b op ∧
      PcOk s.pc ((s.chan b.chan).records hdrOffset) op
  unflagged : ∀ b, s.pc.batch? = some b → ∀ cp ∈ s.pairs, cp.chan = b.chan →
    cp.pendingLaunch = false

theorem Inv.init (bin : Bincode V) (value : T) : Inv bin (Sys.init value : Sys T V R) := by
  have hb : ∀ c, ¬ Busy (Sys.init value : Sys T V R) c := by
    rintro c ⟨j, job, hj, _⟩
    simp [Sys.init] at hj
  constructor
  · intro c
    exact ⟨rfl, hb c⟩
  · intro j job hj
    simp [Sys.init] at hj
  · intro cp hcp
    simp [Sys.init, Sys.pairs] at hcp
  · simp [Sys.init, Sys.pairs]
  · simp [Sys.init]
  · exact .inl rfl
  · intro n offs idx c w h
    simp [Sys.init] at h
  · intro b h
    simp [Sys.init, TrusteePc.batch?] at h
  · intro b h
    simp [Sys.init, TrusteePc.batch?] at h

section Frame

variable {bin : Bincode V} {s s' : Sys T V R}

theorem Inv.touch (hi : Inv bin s) (c : Nat)
    (hjobs : s'.jobs = s.jobs) (hfiber : s'.fiber = s.fiber) (hcr : s'.created = s.created)
    (hcl : s'.clients = s.clients) (hreg : s'.reg = s.reg) (hst : s'.startIdx = s.startIdx)
    (hpc : s'.pc = s.pc) (hch : ∀ c', c' ≠ c → s'.chan c' = s.chan c')
    (hct : ∀ c', c' ≠ c → s'.client c' = s.client c')
    (client : ClientOk bin (s'.chan c) (s'.client c) (Busy s c))
    (job : ∀ j job, s.jobs[j]? = some job → job.chan = c →
      JobOk (s.fiber j) job (s.chan c) (s.client c) →
      JobOk (s.fiber j) job (s'.chan c) (s'.client c))
    (pair : ∀ cp ∈ s.pairs, cp.chan = c → PairOk cp (s.chan c) (Busy s c) →
      PairOk cp (s'.chan c) (Busy s c))
    (fresh : ∀ w, Fresh (s.chan c) (Busy s c) w → Fresh (s'.chan c) (Busy s c) w)
    (serving : ∀ b op, s.pc.batch? = some b →
      Serving (s.chan c) (s.client c) (Busy s c) b op →
      s'.chan c = s.chan c ∧ s'.client c = s.client c) : Inv bin s' := by
  have hb : ∀ c', Busy s' c' ↔ Busy s c' := by
    intro c'
    simp [Busy, hjobs, hfiber]
  have hp : s'.pairs = s.pairs := by simp [Sys.pairs, hcl, hreg]
  constructor
  · intro c'
    rw [propext (hb c')]
    by_cases h : c' = c
    · exact h ▸ client
    · rw [hch c' h, hct c' h]
      exact hi.client c'
  · intro j jb hj
    rw [hjobs] at hj
    obtain ⟨hlt, hok⟩ := hi.job j jb hj
    refine ⟨hcr ▸ hlt, ?_⟩
    rw [hfiber]
    by_cases h : jb.chan = c
    · rw [h] at hok ⊢
      exact job j jb hj h hok
    · rw [hch _ h, hct _ h]
      exact hok
  · intro cp hcp
    rw [hp] at hcp
    obtain ⟨hlt, hok⟩ := hi.pair cp hcp
    refine ⟨hcr ▸ hlt, ?_⟩
    rw [propext (hb cp.chan)]
    by_cases h : cp.chan = c
    · rw [h] at hok ⊢
      exact pair cp hcp h hok
    · rw [hch _ h]
      exact hok
  · rw [hp]
    exact hi.chans_nodup
  · rw [hjobs]
    exact hi.jobs_nodup
  · rw [hpc, hcl, hst]
    exact hi.shape
  · intro n offs idx c' w h
    rw [hpc] at h
    have hf := hi.fresh n offs idx c' w h
    rw [propext (hb c')]
    by_cases h' : c' = c
    · rw [h'] at hf ⊢
      exact fresh w hf
    · rw [hch _ h']
      exact hf
  · intro b h
    rw [hpc] at h ⊢
    obtain ⟨op, hs, hok⟩ := hi.serving b h
    refine ⟨op, ?_⟩
    rw [propext (hb b.chan)]
    by_cases h' : b.chan = c
    · rw [h'] at hs hok ⊢
      obtain ⟨e₁, e₂⟩ := serving b op h hs
      rw [e₁, e₂]
      exact ⟨hs, hok⟩
    · rw [hch _ h', hct _ h']
      exact ⟨hs, hok⟩
  · intro b h
    rw [hpc] at h
    rw [hp]
    exact hi.unflagged b h

theorem Inv.goto (hi : Inv bin s) {pc : TrusteePc T R}
    (shape : Shape pc s.clients s.startIdx)
    (fresh : ∀ n offs idx c w, pc = .loadedReq n offs idx c w →
      Fresh (s.chan c) (Busy s c) w)
    (serving : ∀ b, pc.batch? = some b → (∃ op,
      Serving (s.chan b.chan) (s.client b.chan) (Busy s b.chan) b op ∧
        PcOk pc ((s.chan b.chan).records hdrOffset) op) ∧
      ∀ cp ∈ s.pairs, cp.chan = b.chan → cp.pendingLaunch = false) :
    Inv bin (s.goto pc) :=
  ⟨hi.client, hi.job, hi.pair, hi.chans_nodup, hi.jobs_nodup, shape, fresh,
    fun b h => (serving b h).1, fun b h => (serving b h).2⟩

theorem Inv.ghost (hi : Inv bin s) (prop : T) (strong destroyed loopCounter : Nat)
    (hist : List (Event T V R)) :
    Inv bin { s with prop := prop, strong := strong, destroyed := destroyed,
                     loopCounter := loopCounter, hist := hist } :=
  ⟨hi.client, hi.job, hi.pair, hi.chans_nodup, hi.jobs_nodup, hi.shape, hi.fresh,
    hi.serving, hi.unflagged⟩

theorem Inv.respData (hi : Inv bin s) (c : Nat) (d : Payload T R) :
    Inv bin (s.setChan c { s.chan c with respData := d }) := by
  have hch : ∀ c', ∃ d', (s.setChan c { s.chan c with respData := d }).chan c' =
      { s.chan c' with respData := d' } := by
    intro c'
    by_cases h : c' = c
    · exact ⟨d, by simp [Sys.setChan, h]⟩
    · exact ⟨(s.chan c').respData, by simp [Sys.setChan, Function.update_of_ne h]⟩
  constructor
  · intro c'
    obtain ⟨d', h⟩ := hch c'
    rw [h]
    exact hi.client c'
  · intro j job hj
    obtain ⟨d', h⟩ := hch job.chan
    rw [h]
    exact hi.job j job hj
  · intro cp hcp
    obtain ⟨d', h⟩ := hch cp.chan
    rw [h]
    exact hi.pair cp hcp
  · exact hi.chans_nodup
  · exact hi.jobs_nodup
  · exact hi.shape
  · intro n offs idx c' w hpc
    obtain ⟨d', h⟩ := hch c'
    rw [h]
    exact hi.fresh n offs idx c' w hpc
  · intro b hb
    obtain ⟨d', h⟩ := hch b.chan
    rw [h]
    exact hi.serving b hb
  · exact hi.unflagged

theorem Inv.exit (hi : Inv bin s) (cause : Exit) : Inv bin (s.exit cause) := by
  have h := hi.ghost s.prop (s.strong - 1) (s.destroyed + if s.strong = 1 then 1 else 0)
    s.loopCounter s.hist
  refine h.goto trivial ?_ ?_
  · intro n offs idx c w hpc
    simp at hpc
  · intro b hb
    simp [TrusteePc.batch?] at hb

end Frame

section Clients

variable {bin : Bincode V} {s s' : Sys T V R}

theorem JobOk.done {pc : FiberPc T R} {job : Job} {ch : ChannelPair T R}
    {cl : Client T V R} (h : JobOk pc job ch cl)
    (hw : ∀ f, cl.pc ≠ .waiting (.launch f) job.reqReady)
    (hr : ∀ f, cl.pc ≠ .reading (.launch f)) : pc.open_ = false ∧ job.seq < cl.seq := by
  obtain ⟨hle, _, hopen, hshut, _⟩ := h
  cases ho : pc.open_ with
  | true =>
    obtain ⟨_, _, f, hf⟩ := hopen ho
    exact absurd hf (hw f)
  | false =>
    refine ⟨rfl, Nat.lt_of_le_of_ne hle ?_⟩
    intro he
    obtain ⟨f, hf | hf⟩ := hshut ho he
    · exact hw f hf.1
    · exact hr f hf

theorem JobOk.past {pc : FiberPc T R} {job : Job} {ch ch' : ChannelPair T R}
    {cl cl' : Client T V R} (h : JobOk pc job ch cl) (ho : pc.open_ = false)
    (hlt : job.seq < cl'.seq) : JobOk pc job ch' cl' := by
  refine ⟨Nat.le_of_lt hlt, h.2.1, ?_, ?_, ?_⟩
  · intro ho'
    simp [ho] at ho'
  · intro _ he
    omega
  · intro env args seq hpc
    simp [hpc, FiberPc.open_] at ho

theorem Inv.register (hi : Inv bin s) : Inv bin s.register := by
  have hbusy : ¬ Busy s s.created := by
    rintro ⟨j, job, hj, hc, _⟩
    have := (hi.job j job hj).1
    omega
  have hp : s.register.pairs = s.pairs ++ [⟨s.created, false, false⟩] := by
    simp [Sys.pairs, Sys.register]
  constructor
  · exact hi.client
  · intro j job hj
    obtain ⟨hlt, hok⟩ := hi.job j job hj
    exact ⟨Nat.lt_succ_of_lt hlt, hok⟩
  · intro cp hcp
    rw [hp] at hcp
    rcases List.mem_append.mp hcp with hcp | hcp
    · obtain ⟨hlt, hok⟩ := hi.pair cp hcp
      exact ⟨Nat.lt_succ_of_lt hlt, hok⟩
    · obtain rfl := List.mem_singleton.mp hcp
      exact ⟨Nat.lt_succ_self _, fun _ => hbusy, by simp⟩
  · rw [hp, List.map_append, List.nodup_append]
    refine ⟨hi.chans_nodup, by simp, ?_⟩
    intro x hx y hy
    obtain ⟨cp, hcp, rfl⟩ := List.mem_map.mp hx
    have := (hi.pair cp hcp).1
    simp only [List.map_cons, List.map_nil, List.mem_singleton] at hy
    omega
  · exact hi.jobs_nodup
  · exact hi.shape
  · exact hi.fresh
  · exact hi.serving
  · intro b hb cp hcp hc
    rw [hp] at hcp
    rcases List.mem_append.mp hcp with hcp | hcp
    · exact hi.unflagged b hb cp hcp hc
    · obtain rfl := List.mem_singleton.mp hcp
      rfl

/-- A client that is not waiting keeps its channel quiet, and may move between such
positions, or scribble on its slot, without disturbing anyone. -/
theorem Inv.rest (hi : Inv bin s) (c : Nat) (recs : Usize → Record T R)
    (cl : Client T V R)
    (hw : ∀ op r, (s.client c).pc ≠ .waiting op r) (hseq : (s.client c).seq ≤ cl.seq)
    (hrd : ∀ f, (s.client c).pc = .reading (.launch f) → (s.client c).seq < cl.seq)
    (hok : ClientOk bin { s.chan c with records := recs } cl (Busy s c)) :
    Inv bin ((s.setChan c { s.chan c with records := recs }).setClient c cl) := by
  refine hi.touch c rfl rfl rfl rfl rfl rfl rfl ?_ ?_ ?_ ?_ ?_ ?_ ?_
  · intro c' h
    simp [Sys.setChan, Sys.setClient, Function.update_of_ne h]
  · intro c' h
    simp [Sys.setChan, Sys.setClient, Function.update_of_ne h]
  all_goals simp only [Sys.setChan, Sys.setClient, Function.update_self]
  · exact hok
  · intro j job hj hc h
    cases ho : (s.fiber j).open_ with
    | true =>
      obtain ⟨_, _, f, hf⟩ := h.2.2.1 ho
      exact absurd hf (hw _ _)
    | false =>
      refine h.past ho ?_
      rcases Nat.lt_or_eq_of_le h.1 with hlt | he
      · omega
      · obtain ⟨f, hf | hf⟩ := h.2.2.2.1 ho he
        · exact absurd hf.1 (hw _ _)
        · have := hrd f hf
          omega
  · exact fun cp _ _ h => h
  · exact fun w h => h
  · intro b op _ h
    exact absurd h.1 (hw _ _)

theorem Inv.move (hi : Inv bin s) (c : Nat) (cl : Client T V R)
    (hw : ∀ op r, (s.client c).pc ≠ .waiting op r) (hseq : (s.client c).seq ≤ cl.seq)
    (hrd : ∀ f, (s.client c).pc = .reading (.launch f) → (s.client c).seq < cl.seq)
    (hok : ClientOk bin (s.chan c) cl (Busy s c)) : Inv bin (s.setClient c cl) := by
  have h := hi.rest c (s.chan c).records cl hw hseq hrd hok
  have he : s.setChan c { s.chan c with records := (s.chan c).records } = s := by
    simp [Sys.setChan]
  rwa [he] at h

theorem Inv.issue {c : Nat} {op : Op T V R} (hi : Inv bin s)
    (h : s.issue bin c op = some s') : Inv bin s' := by
  have hok := hi.client c
  unfold Sys.issue at h
  cases hpc : (s.client c).pc with
  | idle =>
    simp only [hpc] at h
    split at h
    · cases he : op.encode bin (s.client c).seq with
      | none => simp [he] at h
      | some r =>
        simp only [he, Option.bind_eq_bind, Option.bind_some, Option.some.injEq] at h
        subst h
        simp only [ClientOk, hpc] at hok
        have := hi.rest c (Function.update (s.chan c).records hdrOffset r)
          ⟨(s.client c).seq, .encoded op⟩ (by simp [hpc]) (Nat.le_refl _)
          (by simp [hpc]) ⟨hok, by simp [Holds, he]⟩
        exact this.ghost _ _ _ _ _
    · simp at h
  | _ => simp [hpc] at h

theorem Inv.clientStep {c : Nat} (hi : Inv bin s) (h : s.clientStep c = some s') :
    Inv bin s' := by
  have hok := hi.client c
  unfold Sys.clientStep at h
  cases hpc : (s.client c).pc with
  | encoded op =>
    simp only [hpc, Option.some.injEq] at h
    subst h
    simp only [ClientOk, hpc] at hok
    exact hi.move c _ (by simp [hpc]) (Nat.le_refl _) (by simp [hpc])
      ⟨hok.1, hok.2, rfl⟩
  | loaded op r =>
    simp only [hpc, Option.some.injEq] at h
    subst h
    simp only [ClientOk, hpc] at hok
    obtain ⟨⟨hq, hb⟩, hh, hr⟩ := hok
    refine hi.touch c rfl rfl rfl rfl rfl rfl rfl ?_ ?_ ?_ ?_ ?_ ?_ ?_
    · intro c' h
      simp [Sys.setChan, Sys.setClient, Function.update_of_ne h]
    · intro c' h
      simp [Sys.setChan, Sys.setClient, Function.update_of_ne h]
    all_goals simp only [Sys.setChan, Sys.setClient, Function.update_self]
    · exact ⟨ready_packReadyCount _ _, count_packReadyCount_one _, hh, fun _ => hb⟩
    · intro j job _ _ hj
      obtain ⟨ho, hlt⟩ := hj.done (by simp [hpc]) (by simp [hpc])
      exact hj.past ho hlt
    · exact fun cp _ _ h => h
    · rintro w (rfl | ⟨hw, hw', _⟩)
      · -- loaded before the publication
        exact .inr ⟨by simp [hr, hq], hq.symm, hb⟩
      · rw [hq, hw'] at hw
        simp at hw
    · intro b op' _ hs
      simp [Serving, hpc] at hs
  | waiting op r =>
    have hstep : s' = s ∨ (ready (s.chan c).respWord = r ∧ op ≠ .terminate ∧
        s' = s.setClient c ⟨(s.client c).seq, .reading op⟩) := by
      by_cases ht : op = .terminate
      · subst ht
        simp only [hpc] at h
        split at h <;> simp at h
        exact .inl h.symm
      · have h' : (if ready (s.chan c).respWord = r then
            some (s.setClient c ⟨(s.client c).seq, .reading op⟩) else some s) = some s' := by
          cases op with
          | terminate => exact absurd rfl ht
          | _ => simpa only [hpc] using h
        split at h' <;> simp only [Option.some.injEq] at h'
        · exact .inr ⟨‹_›, ht, h'.symm⟩
        · exact .inl h'.symm
    rcases hstep with rfl | ⟨hr, _, rfl⟩
    · exact hi
    simp only [ClientOk, hpc] at hok
    obtain ⟨hreq, _, _, hb⟩ := hok
    refine hi.touch c rfl rfl rfl rfl rfl rfl rfl (fun _ _ => rfl) ?_ ?_ ?_ ?_ ?_ ?_
    · intro c' h
      simp [Sys.setClient, Function.update_of_ne h]
    all_goals simp only [Sys.setClient, Function.update_self]
    · exact ⟨by rw [hreq]; exact hr.symm, hb hr⟩
    · intro j job _ _ hj
      obtain ⟨hle, hcur, hopen, hshut, hrun⟩ := hj
      refine ⟨hle, hcur, ?_, ?_, hrun⟩
      · intro ho
        obtain ⟨_, hq, f, hf⟩ := hopen ho
        simp only [hpc, ClientPc.waiting.injEq] at hf
        rw [hr, hf.2] at hq
        simp at hq
      · intro ho he
        obtain ⟨f, hf | hf⟩ := hshut ho he
        · simp only [hpc, ClientPc.waiting.injEq] at hf
          exact ⟨f, .inr (by rw [hf.1.1])⟩
        · simp [hpc] at hf
    · exact fun cp _ _ h => h
    · exact fun w h => h
    · intro b op' _ hs
      obtain ⟨hs, hq, _⟩ := hs
      simp only [hpc, ClientPc.waiting.injEq] at hs
      rw [hr, hs.2] at hq
      simp at hq
  | reading op =>
    simp only [ClientOk, hpc] at hok
    have key : ∀ pc, ClientOk bin (s.chan c) ⟨(s.client c).seq + 1, pc⟩ (Busy s c) →
        Inv bin (s.setClient c ⟨(s.client c).seq + 1, pc⟩) := by
      intro pc hk
      exact hi.move c _ (by simp [hpc]) (Nat.le_succ _) (fun _ _ => Nat.lt_succ_self _) hk
    cases op <;> simp only [hpc, Option.some.injEq] at h <;> subst h
    all_goals
      refine Inv.ghost (key _ ?_) _ _ _ _ _
      exact hok
  | _ => simp [hpc] at h

theorem Inv.dropValue {c : Nat} (hi : Inv bin s) (h : s.dropValue c = some s') :
    Inv bin s' := by
  have hok := hi.client c
  unfold Sys.dropValue at h
  cases hpc : (s.client c).pc with
  | owning d =>
    simp only [hpc, Option.some.injEq] at h
    simp only [ClientOk, hpc] at hok
    subst h
    exact (hi.move c ⟨(s.client c).seq, .gone⟩ (by simp [hpc]) (Nat.le_refl _)
      (by simp [hpc]) hok).ghost _ _ _ _ _
  | _ => simp [hpc] at h

theorem Inv.dropHandle {c : Nat} (hi : Inv bin s) (h : s.dropHandle c = some s') :
    Inv bin s' := by
  have hok := hi.client c
  unfold Sys.dropHandle at h
  cases hpc : (s.client c).pc with
  | idle =>
    simp only [hpc] at h
    simp only [ClientOk, hpc] at hok
    split at h
    · simp only [Option.some.injEq] at h
      subst h
      exact hi.move c ⟨(s.client c).seq, .gone⟩ (by simp [hpc]) (Nat.le_refl _)
        (by simp [hpc]) hok
    · simp at h
  | _ => simp [hpc] at h

end Clients
end TrustTee
