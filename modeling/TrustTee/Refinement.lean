import TrustTee.ToggleWorker

/-!
A runtime refines an atomic object: the requests are the operations of its clients, and
an application is the moment a closure ends, on the trustee or on a launched fiber.
-/

set_option autoImplicit false

namespace TrustTee
open Header AtomicObject

variable {T V R : Type}

/-- What one execution of the encoded closure does to the property: `apply_with` reads
its argument back from the serialized bytes. -/
def Op.ran (bin : Bincode V) : Op T V R → Body T (Option R)
  | .apply f | .with_ f | .launch f => f.lift some
  | .applyWith f w => match (bin.serialize w).bind bin.deserialize with
    | some v => (f v).lift some
    | none => fun t => (t, .panicked)
  | .applyBatchMut f _ => f.lift (fun _ => none)
  | .intoInner | .terminate => fun t => (t, .returned none)

def Op.reps : Op T V R → Nat
  | .applyBatchMut _ n => n.toNat
  | .intoInner | .terminate => 0
  | _ => 1

/-- Executed inside the trustee loop, not on a fiber beside it. -/
def Op.inline : Op T V R → Bool
  | .launch _ => false
  | _ => true

/-- The answers an operation may give. A launch whose closure panicked is completed by
the guard, and then nothing is said about the payload. -/
def Op.Answers : Op T V R → Option (Outcome (Option R)) → Payload T R → Prop
  | .applyBatchMut _ _, _, d => d = .result none
  | .intoInner, _, d => ∃ t, d = .moved t
  | .terminate, _, _ => False
  | .launch _, last, d => ∃ out, last = some out ∧ ∀ r, out = .returned r → d = .result r
  | _, last, d => ∃ r, last = some (.returned r) ∧ d = .result r

def delegation (bin : Bincode V) :
    Spec (Op T V R) T (Outcome (Option R)) (Payload T R) where
  body := Op.ran bin
  reps := Op.reps
  inline := Op.inline
  answers := Op.Answers

theorem Op.reps_batch {op : Op T V R} (h : op.hdr.propertyPtr = .callMutRetUnit) :
    op.reps = op.hdr.repeatCount.toNat ∧
      ∀ last (d : Payload T R), op.Answers last (op.reply d) := by
  cases op <;> simp [Op.hdr] at h
  rename_i f n
  refine ⟨?_, fun _ _ => rfl⟩
  have : n.toNat < 256 := n.toNat_lt
  simp only [Op.reps, Op.hdr, BitVec.toNat_ofNat]
  omega

theorem Op.reps_single {op : Op T V R} (hc : op.hdr.called = true)
    (h : op.hdr.propertyPtr ≠ .callMutRetUnit) :
    op.reps = 1 ∧ ∀ r, op.Answers (some (.returned r)) (op.reply (.result r)) := by
  cases op <;> simp [Op.hdr, RecordHeader.called] at hc h
  all_goals exact ⟨rfl, fun r => ⟨r, rfl, rfl⟩⟩

theorem Holds.ran {bin : Bincode V} {ch : ChannelPair T R} {seq : Nat} {op : Op T V R}
    (h : Holds bin ch seq op) :
    (op ≠ .terminate → (ch.records hdrOffset).env.call (ch.records hdrOffset).args =
      op.ran bin) ∧ (ch.records hdrOffset).seq = seq := by
  unfold Holds at h
  refine ⟨?_, (Op.encode_hdr h).2⟩
  generalize ch.records hdrOffset = r at h
  intro ht
  cases op with
  | applyWith f w =>
    obtain ⟨args, ha, h⟩ := Option.bind_eq_some_iff.mp h
    obtain rfl := Option.some.inj h
    cases hd : bin.deserialize args <;> simp [Op.ran, ha, hd]
  | terminate => exact absurd rfl ht
  | _ => obtain rfl := Option.some.inj h; rfl

def TrusteePc.Progress (pc : TrusteePc T R) (d : Payload T R) (op : Op T V R) (i : Nat)
    (last : Option (Outcome (Option R))) : Prop :=
  match pc with
  | .record b => if b.left = 0 then i = op.reps ∧ op.Answers last (op.reply d)
      else i = 0 ∧ last = none
  | .calling _ hdr k => i = k ∧ k ≤ op.reps ∧ (hdr.propertyPtr ≠ .callMutRetUnit → k = 0) ∧
      (k = 0 → last = none)
  | .inClosure _ hdr k _ _ _ => i = k ∧ k < op.reps ∧
      (hdr.propertyPtr ≠ .callMutRetUnit → k = 0)
  | .writeOut _ r => i = op.reps ∧ last = some (.returned r) ∧
      op.hdr.propertyPtr ≠ .callMutRetUnit
  | .respond _ => i = op.reps ∧ op.Answers last (op.reply d)
  | .moveOut _ | .joining _ => i = 0 ∧ last = none
  | .moveLoad _ | .moveStore _ _ => i = 0 ∧ last = none ∧ ∃ t, d = .moved t
  | _ => True

def FiberPc.Progress (pc : FiberPc T R) (d : Payload T R) (op : Op T V R) (i : Nat)
    (last : Option (Outcome (Option R))) : Prop :=
  match pc with
  | .queued | .running _ _ _ => i = 0 ∧ last = none
  | .writing r => i = 1 ∧ last = some (.returned r)
  | .guard => i = 1 ∧ op.Answers last (op.reply d)
  | _ => True

def PhaseOk (s : Sys T V R) (c : Nat)
    (ph : AtomicObject.Phase (Op T V R) (Outcome (Option R))) : Prop :=
  match (s.client c).pc with
  | .encoded op | .loaded op _ => ph = .active op 0 none
  | .waiting op r => ∃ i last, ph = .active op i last ∧
      (ready (s.chan c).respWord = r →
        i = op.reps ∧ op.Answers last (op.reply (s.chan c).respData)) ∧
      (ready (s.chan c).respWord ≠ r →
        (∀ b, s.pc.batch? = some b → b.chan = c →
          s.pc.Progress (s.chan c).respData op i last) ∧
        (∀ j job, s.jobs[j]? = some job → job.chan = c → (s.fiber j).open_ = true →
          (s.fiber j).Progress (s.chan c).respData op i last) ∧
        (¬ Busy s c → (∀ b, s.pc.batch? = some b → b.chan ≠ c) → s.exited = false →
          i = 0 ∧ last = none))
  | .reading op => ∃ last, ph = .active op op.reps last ∧
      op.Answers last (op.reply (s.chan c).respData)
  | _ => ph = .idle

structure Refines (bin : Bincode V) (s : Sys T V R)
    (o : Obj Nat (Op T V R) T (Outcome (Option R)) (Payload T R)) : Prop where
  inv : Inv bin s
  value : o.value = s.prop
  hist : o.hist = s.hist
  seq : ∀ c, o.seq c = (s.client c).seq
  phase : ∀ c, PhaseOk s c (o.phase c)

section Frame

variable {bin : Bincode V} {s s' : Sys T V R} {c : Nat}
  {ph : AtomicObject.Phase (Op T V R) (Outcome (Option R))}

theorem PhaseOk.frame (h : PhaseOk s c ph) (hcl : s'.client c = s.client c)
    (hch : s'.chan c = s.chan c)
    (hfib : ∀ j job, s'.jobs[j]? = some job → job.chan = c → (s'.fiber j).open_ = true →
      s.jobs[j]? = some job ∧ s'.fiber j = s.fiber j)
    (hbusy : Busy s c → Busy s' c)
    (hpc : s'.pc = s.pc ∨ ((∀ b, s.pc.batch? = some b → b.chan ≠ c) ∧
      ∀ b, s'.pc.batch? = some b → b.chan ≠ c))
    (hex : s'.exited = false → s.exited = false) : PhaseOk s' c ph := by
  unfold PhaseOk at h ⊢
  rw [hcl, hch]
  cases hp : (s.client c).pc with
  | waiting op r =>
    simp only [hp] at h ⊢
    obtain ⟨i, last, rfl, hans, hun⟩ := h
    refine ⟨i, last, rfl, hans, ?_⟩
    intro hne
    obtain ⟨htr, hfb, hrest⟩ := hun hne
    refine ⟨?_, ?_, ?_⟩
    · intro b hb hbc
      rcases hpc with hpc | ⟨_, hpc⟩
      · rw [hpc] at hb ⊢
        exact htr b hb hbc
      · exact absurd hbc (hpc b hb)
    · intro j job hj hjc ho
      obtain ⟨hj', he⟩ := hfib j job hj hjc ho
      rw [he] at ho ⊢
      exact hfb j job hj' hjc ho
    · intro hb hno he
      refine hrest (fun h => hb (hbusy h)) ?_ (hex he)
      rcases hpc with hpc | ⟨hpc, _⟩
      · rw [← hpc]
        exact hno
      · exact hpc
  | _ => simp only [hp] at h ⊢; exact h

theorem Refines.init (bin : Bincode V) (value : T) :
    Refines bin (Sys.init value : Sys T V R) (Obj.init value) :=
  ⟨Inv.init bin value, rfl, rfl, fun _ => rfl, fun _ => rfl⟩

theorem Refines.stutter {o : Obj Nat (Op T V R) T (Outcome (Option R)) (Payload T R)}
    (h : Refines bin s o) (hi : Inv bin s') (hprop : s'.prop = s.prop)
    (hhist : s'.hist = s.hist) (hseq : ∀ c, (s'.client c).seq = (s.client c).seq)
    (hphase : ∀ c, PhaseOk s c (o.phase c) → PhaseOk s' c (o.phase c)) :
    Refines bin s' o :=
  ⟨hi, h.value.trans hprop.symm, h.hist.trans hhist.symm,
    fun c => (h.seq c).trans (hseq c).symm, fun c => hphase c (h.phase c)⟩

end Frame

section Positions

variable {bin : Bincode V} {s : Sys T V R} {c : Nat} {op : Op T V R} {r : Bool} {i : Nat}
  {last : Option (Outcome (Option R))}

theorem PhaseOk.waiting {ph : AtomicObject.Phase (Op T V R) (Outcome (Option R))}
    (h : PhaseOk s c ph)
    (hcl : (s.client c).pc = .waiting op r) : ∃ i last, ph = .active op i last ∧
      (ready (s.chan c).respWord = r →
        i = op.reps ∧ op.Answers last (op.reply (s.chan c).respData)) ∧
      (ready (s.chan c).respWord ≠ r →
        (∀ b, s.pc.batch? = some b → b.chan = c →
          s.pc.Progress (s.chan c).respData op i last) ∧
        (∀ j job, s.jobs[j]? = some job → job.chan = c → (s.fiber j).open_ = true →
          (s.fiber j).Progress (s.chan c).respData op i last) ∧
        (¬ Busy s c → (∀ b, s.pc.batch? = some b → b.chan ≠ c) → s.exited = false →
          i = 0 ∧ last = none)) := by
  simpa only [PhaseOk, hcl] using h

theorem PhaseOk.answered (hcl : (s.client c).pc = .waiting op r)
    (hresp : ready (s.chan c).respWord = r)
    (ha : op.Answers last (op.reply (s.chan c).respData)) :
    PhaseOk s c (.active op op.reps last) := by
  simp only [PhaseOk, hcl]
  exact ⟨op.reps, last, rfl, fun _ => ⟨rfl, ha⟩, fun h => absurd hresp h⟩

theorem PhaseOk.served {b : Batch} (hcl : (s.client c).pc = .waiting op r)
    (hresp : ready (s.chan c).respWord = !r) (hnb : ¬ Busy s c)
    (hb : s.pc.batch? = some b) (hc : b.chan = c)
    (hp : s.pc.Progress (s.chan c).respData op i last) :
    PhaseOk s c (.active op i last) := by
  simp only [PhaseOk, hcl]
  refine ⟨i, last, rfl, ?_, fun _ => ⟨fun _ _ _ => hp, ?_, ?_⟩⟩
  · intro h
    simp [hresp] at h
  · exact fun j job hj hjc ho => absurd ⟨j, job, hj, hjc, ho⟩ hnb
  · exact fun _ hno _ => absurd hc (hno b hb)

theorem PhaseOk.launched {j : Nat} {job : Job} (hi : Inv bin s)
    (hcl : (s.client c).pc = .waiting op r) (hresp : ready (s.chan c).respWord = !r)
    (hj : s.jobs[j]? = some job) (hc : job.chan = c) (ho : (s.fiber j).open_ = true)
    (hp : (s.fiber j).Progress (s.chan c).respData op i last) :
    PhaseOk s c (.active op i last) := by
  have hbusy : Busy s c := ⟨j, job, hj, hc, ho⟩
  simp only [PhaseOk, hcl]
  refine ⟨i, last, rfl, ?_, fun _ => ⟨?_, ?_, fun hnb => absurd hbusy hnb⟩⟩
  · intro h
    simp [hresp] at h
  · intro b hb hbc
    obtain ⟨_, hs, _⟩ := hi.serving b hb
    exact absurd (hbc ▸ hbusy) hs.2.2
  · intro j' job' hj' hjc' ho'
    obtain rfl := hi.open_unique hj hj' (hc.trans hjc'.symm) ho ho'
    exact hp

/-- The request has been published and nobody has taken it up, or nobody ever will. -/
theorem PhaseOk.pending (hcl : (s.client c).pc = .waiting op r)
    (hresp : ready (s.chan c).respWord = !r) (hnb : ¬ Busy s c)
    (hno : ∀ b, s.pc.batch? = some b → b.chan ≠ c)
    (hz : s.exited = false → i = 0 ∧ last = none) : PhaseOk s c (.active op i last) := by
  simp only [PhaseOk, hcl]
  refine ⟨i, last, rfl, ?_, fun _ => ⟨?_, ?_, fun _ _ he => hz he⟩⟩
  · intro h
    simp [hresp] at h
  · exact fun b hb hbc => absurd hbc (hno b hb)
  · exact fun j job hj hjc ho => absurd ⟨j, job, hj, hjc, ho⟩ hnb

variable {o : Obj Nat (Op T V R) T (Outcome (Option R)) (Payload T R)}

theorem Refines.serving (h : Refines bin s o) {b : Batch} (hb : s.pc.batch? = some b) :
    ∃ op i last, Serving (s.chan b.chan) (s.client b.chan) (Busy s b.chan) b op ∧
      PcOk s.pc ((s.chan b.chan).records hdrOffset) op ∧
      Holds bin (s.chan b.chan) (s.client b.chan).seq op ∧
      o.phase b.chan = .active op i last ∧
      s.pc.Progress (s.chan b.chan).respData op i last := by
  obtain ⟨op, hs, hok⟩ := h.inv.serving b hb
  have hcl := h.inv.client b.chan
  simp only [ClientOk, hs.1] at hcl
  obtain ⟨i, last, hph, _, hun⟩ := (h.phase b.chan).waiting hs.1
  have hne : ready (s.chan b.chan).respWord ≠ b.reqReady := by simp [hs.2.1]
  exact ⟨op, i, last, hs, hok, hcl.2.2.1, hph, (hun hne).1 b hb rfl⟩

theorem Refines.job (h : Refines bin s o) {j : Nat} {job : Job}
    (hj : s.jobs[j]? = some job) (ho : (s.fiber j).open_ = true) :
    ∃ f i last, (s.client job.chan).pc = .waiting (.launch f) job.reqReady ∧
      ready (s.chan job.chan).respWord = (!job.reqReady) ∧
      Holds bin (s.chan job.chan) (s.client job.chan).seq (.launch f) ∧
      o.phase job.chan = .active (.launch f) i last ∧
      (s.fiber j).Progress (s.chan job.chan).respData (.launch f : Op T V R) i last := by
  obtain ⟨_, hresp, f, hcl⟩ := (h.inv.job j job hj).2.2.2.1 ho
  have hok := h.inv.client job.chan
  simp only [ClientOk, hcl] at hok
  obtain ⟨i, last, hph, _, hun⟩ := (h.phase job.chan).waiting hcl
  have hne : ready (s.chan job.chan).respWord ≠ job.reqReady := by simp [hresp]
  exact ⟨f, i, last, hcl, hresp, hok.2.2.1, hph, (hun hne).2.1 j job hj rfl ho⟩

/-- While the trustee is in a closure, no other client's request is half done. -/
theorem Refines.not_midBatch (h : Refines bin s o) {b : Batch} (hb : s.pc.batch? = some b)
    (he : s.exited = false) {c : Nat} (hc : c ≠ b.chan) :
    ¬ o.MidBatch (delegation bin) c := by
  rintro ⟨op, i, last, hph, hin, hpos, hlt⟩
  have hi := h.phase c
  rw [hph] at hi
  cases hpc : (s.client c).pc with
  | waiting op' r =>
    obtain ⟨i', last', hact, hans, hun⟩ := hi.waiting hpc
    obtain ⟨rfl, rfl, rfl⟩ := AtomicObject.Phase.active.inj hact
    have hlt : i < op.reps := hlt
    by_cases hr : ready (s.chan c).respWord = r
    · have := (hans hr).1
      omega
    · have hnb : ¬ Busy s c := by
        intro hbusy
        obtain ⟨f, r', hcl, _⟩ := h.inv.busy_waiting hbusy
        rw [hpc] at hcl
        obtain ⟨rfl, rfl⟩ := ClientPc.waiting.inj hcl
        simp [delegation, Op.inline] at hin
      have := (hun hr).2.2 hnb (fun b' hb' => by
        rw [hb] at hb'
        obtain rfl := Option.some.inj hb'
        exact hc.symm) he
      omega
  | reading op' =>
    simp only [PhaseOk, hpc] at hi
    obtain ⟨_, hact, _⟩ := hi
    obtain ⟨rfl, rfl, _⟩ := AtomicObject.Phase.active.inj hact
    exact absurd hlt (Nat.lt_irrefl _)
  | encoded op' =>
    simp only [PhaseOk, hpc, AtomicObject.Phase.active.injEq] at hi
    omega
  | loaded op' r =>
    simp only [PhaseOk, hpc, AtomicObject.Phase.active.injEq] at hi
    omega
  | _ => simp [PhaseOk, hpc] at hi

end Positions

def Follows (bin : Bincode V) (o : Obj Nat (Op T V R) T (Outcome (Option R)) (Payload T R))
    (s' : Sys T V R) : Prop :=
  ∃ o', Relation.ReflTransGen (Step (delegation bin)) o o' ∧ Refines bin s' o'

section Clients

variable {bin : Bincode V} {s s' : Sys T V R} {c : Nat}
  {o : Obj Nat (Op T V R) T (Outcome (Option R)) (Payload T R)}

theorem PhaseOk.aside {ph : AtomicObject.Phase (Op T V R) (Outcome (Option R))} (h : PhaseOk s c ph)
    (hjobs : s'.jobs = s.jobs) (hfiber : s'.fiber = s.fiber) (hpc : s'.pc = s.pc)
    (hcl : s'.client c = s.client c) (hch : s'.chan c = s.chan c) : PhaseOk s' c ph := by
  refine h.frame hcl hch ?_ ?_ (.inl hpc) ?_
  · intro j job hj _ _
    exact ⟨hjobs ▸ hj, by rw [hfiber]⟩
  · rintro ⟨j, job, hj, hc, ho⟩
    exact ⟨j, job, hjobs ▸ hj, hc, hfiber ▸ ho⟩
  · intro he
    simpa only [Sys.exited, hpc] using he

theorem Refines.register (h : Refines bin s o) : Refines bin s.register o :=
  h.stutter h.inv.register rfl rfl (fun _ => rfl) (fun _ hp => hp.aside rfl rfl rfl rfl rfl)

theorem Refines.issue {op : Op T V R} (h : Refines bin s o)
    (hs : s.issue bin c op = some s') : Follows bin o s' := by
  have hi := h.inv.issue hs
  have hph := h.phase c
  unfold Sys.issue at hs
  cases hpc : (s.client c).pc with
  | idle =>
    simp only [PhaseOk, hpc] at hph
    simp only [hpc] at hs
    split at hs
    · cases he : op.encode bin (s.client c).seq with
      | none => simp [he] at hs
      | some r =>
        simp only [he, Option.bind_eq_bind, Option.bind_some, Option.some.injEq] at hs
        subst hs
        refine ⟨o.call c op, .single (.call hph), hi, h.value, ?_, ?_, ?_⟩
        · simp [Obj.call, Sys.log, Sys.setChan, Sys.setClient, h.hist, h.seq]
        · intro c'
          by_cases hc : c' = c
          · subst hc
            simp [Obj.call, Sys.log, Sys.setChan, Sys.setClient, h.seq]
          · simp [Obj.call, Sys.log, Sys.setChan, Sys.setClient, Function.update_of_ne hc, h.seq]
        · intro c'
          by_cases hc : c' = c
          · subst hc
            simp [PhaseOk, Obj.call, Sys.log, Sys.setChan, Sys.setClient]
          · simp only [Obj.call, Function.update_of_ne hc]
            exact (h.phase c').aside rfl rfl rfl
              (by simp [Sys.log, Sys.setChan, Sys.setClient, Function.update_of_ne hc])
              (by simp [Sys.log, Sys.setChan, Sys.setClient, Function.update_of_ne hc])
    · simp at hs
  | _ => simp [hpc] at hs

theorem Refines.moved (h : Refines bin s o) {cl : Client T V R} {w : Word}
    (hseq : cl.seq = (s.client c).seq)
    (hi : Inv bin ((s.setChan c { s.chan c with reqWord := w }).setClient c cl))
    (hp : PhaseOk ((s.setChan c { s.chan c with reqWord := w }).setClient c cl) c
      (o.phase c)) :
    Refines bin ((s.setChan c { s.chan c with reqWord := w }).setClient c cl) o := by
  refine h.stutter hi rfl rfl ?_ ?_
  · intro c'
    by_cases hc : c' = c
    · subst hc
      simp [Sys.setChan, Sys.setClient, hseq]
    · simp [Sys.setChan, Sys.setClient, Function.update_of_ne hc]
  · intro c' hp'
    by_cases hc : c' = c
    · exact hc ▸ hp
    · exact hp'.aside rfl rfl rfl
        (by simp [Sys.setChan, Sys.setClient, Function.update_of_ne hc])
        (by simp [Sys.setChan, Sys.setClient, Function.update_of_ne hc])

theorem Refines.moved' (h : Refines bin s o) {cl : Client T V R}
    (hseq : cl.seq = (s.client c).seq) (hi : Inv bin (s.setClient c cl))
    (hp : PhaseOk (s.setClient c cl) c (o.phase c)) : Refines bin (s.setClient c cl) o := by
  have he : s.setChan c { s.chan c with reqWord := (s.chan c).reqWord } = s := by
    simp [Sys.setChan]
  have := @Refines.moved T V R bin s c o h cl (s.chan c).reqWord hseq
  rw [he] at this
  exact this hi hp

theorem Refines.ret (h : Refines bin s o) {op : Op T V R} {pc : ClientPc T V R}
    {y : Payload T R} (hpc : (s.client c).pc = .reading op)
    (hout : pc = .idle ∨ ∃ d, pc = .owning d)
    (hy : ∀ last, op.Answers last (op.reply (s.chan c).respData) → op.Answers last y)
    (hi : Inv bin ((s.setClient c ⟨(s.client c).seq + 1, pc⟩).log
      (.ret c (s.client c).seq y))) :
    Follows bin o ((s.setClient c ⟨(s.client c).seq + 1, pc⟩).log
      (.ret c (s.client c).seq y)) := by
  have hph := h.phase c
  simp only [PhaseOk, hpc] at hph
  obtain ⟨last, hph, ha⟩ := hph
  refine ⟨o.ret c y, .single (.ret hph (hy last ha)), hi, h.value, ?_, ?_, ?_⟩
  · simp [Obj.ret, Sys.log, Sys.setClient, h.hist, h.seq]
  · intro c'
    by_cases hc : c' = c
    · subst hc
      simp [Obj.ret, Sys.log, Sys.setClient, h.seq]
    · simp [Obj.ret, Sys.log, Sys.setClient, Function.update_of_ne hc, h.seq]
  · intro c'
    by_cases hc : c' = c
    · subst hc
      rcases hout with rfl | ⟨d, rfl⟩ <;> simp [PhaseOk, Obj.ret, Sys.log, Sys.setClient]
    · simp only [Obj.ret, Function.update_of_ne hc]
      exact (h.phase c').aside rfl rfl rfl
        (by simp [Sys.log, Sys.setClient, Function.update_of_ne hc]) rfl

theorem Refines.clientStep (h : Refines bin s o) (hs : s.clientStep c = some s') :
    Follows bin o s' := by
  have hi := h.inv.clientStep hs
  have hph := h.phase c
  have hok := h.inv.client c
  unfold Sys.clientStep at hs
  cases hpc : (s.client c).pc with
  | encoded op =>
    simp only [hpc, Option.some.injEq] at hs
    subst hs
    simp only [PhaseOk, hpc] at hph
    exact ⟨o, .refl, h.moved' rfl hi (by simpa [PhaseOk, Sys.setClient] using hph)⟩
  | loaded op r =>
    simp only [hpc, Option.some.injEq] at hs
    subst hs
    simp only [PhaseOk, hpc] at hph
    simp only [ClientOk, hpc] at hok
    obtain ⟨⟨_, hnb⟩, _, hr⟩ := hok
    refine ⟨o, .refl, h.moved rfl hi ?_⟩
    rw [hph]
    have hcl : (((s.setChan c { s.chan c with reqWord := packReadyCount r 1 }).setClient c
        ⟨(s.client c).seq, .waiting op r⟩).client c).pc = .waiting op r := by
      simp [Sys.setClient]
    refine PhaseOk.pending hcl ?_ hnb ?_ (fun _ => ⟨rfl, rfl⟩)
    · simp [Sys.setChan, Sys.setClient, hr]
    · rintro b hb rfl
      obtain ⟨op', hs, _⟩ := h.inv.serving b hb
      simp [Serving, hpc] at hs
  | waiting op r =>
    have key : ready (s.chan c).respWord = r →
        Inv bin (s.setClient c ⟨(s.client c).seq, .reading op⟩) →
        Follows bin o (s.setClient c ⟨(s.client c).seq, .reading op⟩) := by
      intro hr hi'
      obtain ⟨i, last, hact, hans, _⟩ := hph.waiting hpc
      obtain ⟨rfl, ha⟩ := hans hr
      refine ⟨o, .refl, h.moved' rfl hi' ?_⟩
      rw [hact]
      simp only [PhaseOk, Sys.setClient, Function.update_self]
      exact ⟨last, rfl, ha⟩
    cases op with
    | terminate =>
      simp only [hpc] at hs
      split at hs <;> simp only [Option.some.injEq, reduceCtorEq] at hs
      exact ⟨o, .refl, hs ▸ h⟩
    | _ =>
      simp only [hpc] at hs
      split at hs <;> simp only [Option.some.injEq] at hs <;> subst hs
      · exact key ‹_› hi
      · exact ⟨o, .refl, h⟩
  | reading op =>
    cases op with
    | intoInner =>
      simp only [hpc, Option.some.injEq] at hs
      subst hs
      exact h.ret hpc (.inr ⟨_, rfl⟩) (fun _ ha => ha) hi
    | _ =>
      simp only [hpc, Option.some.injEq] at hs
      subst hs
      exact h.ret hpc (.inl rfl) (fun _ ha => ha) hi
  | _ => simp [hpc] at hs

theorem Refines.dropValue (h : Refines bin s o) (hs : s.dropValue c = some s') :
    Follows bin o s' := by
  have hi := h.inv.dropValue hs
  have hph := h.phase c
  unfold Sys.dropValue at hs
  cases hpc : (s.client c).pc with
  | owning d =>
    simp only [PhaseOk, hpc] at hph
    simp only [hpc, Option.some.injEq] at hs
    subst hs
    refine ⟨o, .refl, h.stutter hi rfl rfl ?_ ?_⟩
    · intro c'
      by_cases hc : c' = c
      · subst hc
        simp [Sys.setClient]
      · simp [Sys.setClient, Function.update_of_ne hc]
    · intro c' hp
      by_cases hc : c' = c
      · subst hc
        simp [PhaseOk, Sys.setClient, hph]
      · exact hp.aside rfl rfl rfl (by simp [Sys.setClient, Function.update_of_ne hc]) rfl
  | _ => simp [hpc] at hs

theorem Refines.dropHandle (h : Refines bin s o) (hs : s.dropHandle c = some s') :
    Follows bin o s' := by
  have hi := h.inv.dropHandle hs
  have hph := h.phase c
  unfold Sys.dropHandle at hs
  cases hpc : (s.client c).pc with
  | idle =>
    simp only [PhaseOk, hpc] at hph
    simp only [hpc] at hs
    split at hs <;> simp only [Option.some.injEq, reduceCtorEq] at hs
    subst hs
    exact ⟨o, .refl, h.moved' rfl hi (by simp [PhaseOk, Sys.setClient, hph])⟩
  | _ => simp [hpc] at hs

end Clients

section Fibers

variable {bin : Bincode V} {s s' : Sys T V R} {c j : Nat} {job : Job}
  {o : Obj Nat (Op T V R) T (Outcome (Option R)) (Payload T R)}

theorem PhaseOk.besides {ph : AtomicObject.Phase (Op T V R) (Outcome (Option R))}
    (h : PhaseOk s c ph)
    (hj : s.jobs[j]? = some job) (hc : c ≠ job.chan) (hjobs : s'.jobs = s.jobs)
    (hfiber : ∀ i, i ≠ j → s'.fiber i = s.fiber i) (hcl : s'.client c = s.client c)
    (hch : s'.chan c = s.chan c) (hpc : s'.pc = s.pc) : PhaseOk s' c ph := by
  have hne : ∀ i a, s.jobs[i]? = some a → a.chan = c → i ≠ j := by
    rintro i a ha hac rfl
    obtain rfl := Option.some.inj (hj.symm.trans ha)
    exact hc hac.symm
  refine h.frame hcl hch ?_ ?_ (.inl hpc) ?_
  · intro i a ha hac _
    rw [hjobs] at ha
    exact ⟨ha, hfiber i (hne i a ha hac)⟩
  · rintro ⟨i, a, ha, hac, ho⟩
    exact ⟨i, a, hjobs ▸ ha, hac, (hfiber i (hne i a ha hac)).symm ▸ ho⟩
  · intro he
    simpa only [Sys.exited, hpc] using he

theorem Refines.launched (h : Refines bin s o) (hj : s.jobs[j]? = some job)
    {env : Closure T R} {args : List UInt8} {seq : Nat} {pc : FiberPc T R}
    (hpc : s.fiber j = .running env args seq) (ho : pc.open_ = true)
    (hp : ∀ f, pc.Progress (s.chan job.chan).respData (.launch f : Op T V R) 1
      (some (env.call args s.prop).2))
    (hi : Inv bin (({ s with prop := (env.call args s.prop).1 }.log
      (.app job.chan seq (env.call args))).setFiber j pc)) :
    Follows bin o (({ s with prop := (env.call args s.prop).1 }.log
      (.app job.chan seq (env.call args))).setFiber j pc) := by
  obtain ⟨f, i, last, hcl, hresp, hh, hph, hprog⟩ := h.job hj (by simp [hpc, FiberPc.open_])
  obtain ⟨henv, hargs, hseq⟩ := (h.inv.job j job hj).2.2.2.2.2 env args seq hpc
  rw [hpc] at hprog
  obtain ⟨rfl, rfl⟩ := hprog
  have hran : env.call args = (Op.launch f : Op T V R).ran bin := by
    rw [henv, hargs]
    exact hh.ran.1 (by simp)
  have hseq : seq = o.seq job.chan := by
    rw [hseq, hh.ran.2, h.seq]
  refine ⟨o.app (delegation bin) job.chan (.launch f) 0,
    .single (.app hph (by simp [delegation, Op.reps]) (by simp [delegation, Op.inline])),
    hi, ?_, ?_, h.seq, ?_⟩
  · simp [Obj.app, Sys.setFiber, Sys.log, delegation, h.value, hran]
  · simp [Obj.app, Sys.setFiber, Sys.log, delegation, h.hist, hran, hseq]
  · intro c
    by_cases hc : c = job.chan
    · subst hc
      have hfib := hp f
      simp only [Obj.app, Function.update_self]
      refine PhaseOk.launched (j := j) hi hcl hresp hj rfl ?_ ?_
      · simpa [Sys.setFiber] using ho
      · simpa [Sys.setFiber, Sys.log, delegation, h.value, hran] using hfib
    · simp only [Obj.app, Function.update_of_ne hc]
      exact (h.phase c).besides hj hc rfl
        (fun i hi => by simp [Sys.setFiber, Sys.log, Function.update_of_ne hi]) rfl rfl rfl

theorem Refines.fiberStep (h : Refines bin s o) (hs : s.fiberStep j = some s') :
    Follows bin o s' := by
  have hi := h.inv.fiberStep hs
  unfold Sys.fiberStep at hs
  cases hj : s.jobs[j]? with
  | none => simp [hj] at hs
  | some job =>
    cases hpc : s.fiber j with
    | queued =>
      simp only [hj, hpc, Option.some.injEq] at hs
      subst hs
      obtain ⟨f, i, last, hcl, hresp, _, hph, hprog⟩ :=
        h.job hj (by simp [hpc, FiberPc.open_])
      refine ⟨o, .refl, h.stutter hi rfl rfl (fun _ => rfl) ?_⟩
      intro c hp
      by_cases hc : c = job.chan
      · subst hc
        rw [hph]
        rw [hpc] at hprog
        refine PhaseOk.launched (j := j) hi hcl hresp hj rfl
          (by simp [Sys.setFiber, FiberPc.open_]) ?_
        simp only [Sys.setFiber, Function.update_self]
        exact hprog
      · exact hp.besides hj hc rfl
          (fun i hi => by simp [Sys.setFiber, Function.update_of_ne hi]) rfl rfl rfl
    | running env args seq =>
      simp only [hj, hpc] at hs
      split at hs <;> simp only [Option.some.injEq] at hs <;> subst hs
      · rename_i r hr
        exact h.launched hj hpc rfl (fun _ => ⟨rfl, by rw [hr]⟩) hi
      · rename_i hr
        exact h.launched hj hpc rfl (fun _ => ⟨rfl, .panicked, by rw [hr], by simp⟩) hi
    | writing r =>
      simp only [hj, hpc, Option.some.injEq] at hs
      subst hs
      obtain ⟨f, i, last, hcl, hresp, _, hph, hprog⟩ :=
        h.job hj (by simp [hpc, FiberPc.open_])
      rw [hpc] at hprog
      obtain ⟨rfl, rfl⟩ := hprog
      refine ⟨o, .refl, h.stutter hi rfl rfl (fun _ => rfl) ?_⟩
      intro c hp
      by_cases hc : c = job.chan
      · subst hc
        rw [hph]
        refine PhaseOk.launched (j := j) hi hcl (by simpa [Sys.setFiber, Sys.setChan] using hresp)
          hj rfl (by simp [Sys.setFiber, FiberPc.open_]) ?_
        simp only [Sys.setFiber, Sys.setChan, Function.update_self]
        exact ⟨rfl, .returned r, rfl, by simp [Op.reply]⟩
      · exact hp.besides hj hc rfl
          (fun i hi => by simp [Sys.setFiber, Sys.setChan, Function.update_of_ne hi]) rfl
          (by simp [Sys.setFiber, Sys.setChan, Function.update_of_ne hc]) rfl
    | guard =>
      simp only [hj, hpc, Option.some.injEq] at hs
      subst hs
      obtain ⟨f, i, last, hcl, hresp, _, hph, hprog⟩ :=
        h.job hj (by simp [hpc, FiberPc.open_])
      rw [hpc] at hprog
      obtain ⟨rfl, ha⟩ := hprog
      refine ⟨o, .refl, h.stutter hi rfl rfl (fun _ => rfl) ?_⟩
      intro c hp
      by_cases hc : c = job.chan
      · subst hc
        rw [hph]
        exact @PhaseOk.answered T V R _ _ (.launch f) _ _ hcl
          (by simp [Sys.setFiber, Sys.setChan]) (by simpa [Sys.setFiber, Sys.setChan] using ha)
      · exact hp.besides hj hc rfl
          (fun i hi => by simp [Sys.setFiber, Sys.setChan, Function.update_of_ne hi]) rfl
          (by simp [Sys.setFiber, Sys.setChan, Function.update_of_ne hc]) rfl
    | signalled =>
      simp only [hj, hpc, Option.some.injEq] at hs
      subst hs
      refine ⟨o, .refl, h.stutter hi rfl rfl (fun _ => rfl) ?_⟩
      intro c hp
      -- neither before nor after this step does the fiber count as open
      refine hp.frame rfl rfl ?_ ?_ (.inl rfl) id
      · intro i a ha _ ho
        by_cases hij : i = j
        · subst hij
          simp [Sys.setFiber, FiberPc.open_] at ho
        · exact ⟨ha, by simp [Sys.setFiber, Sys.dropArc, Function.update_of_ne hij]⟩
      · exact (busy_setFiber (s := s.dropArc) (by simp [Sys.dropArc, hpc, FiberPc.open_]) c).mpr
    | finished => simp [hj, hpc] at hs

end Fibers

section Trustee

variable {bin : Bincode V} {s s' : Sys T V R} {b b' : Batch}
  {o : Obj Nat (Op T V R) T (Outcome (Option R)) (Payload T R)}

theorem Sys.not_exited (hb : s.pc.batch? = some b) : s.exited = false := by
  unfold Sys.exited
  split
  · rename_i cause hpc
    simp [hpc, TrusteePc.batch?] at hb
  · rfl

structure Alike (s s' : Sys T V R) : Prop where
  client : s'.client = s.client
  jobs : s'.jobs = s.jobs
  fiber : s'.fiber = s.fiber

theorem Refines.outside (h : Refines bin s o) (hi : Inv bin s') (hb : s.pc.batch? = none)
    (hb' : s'.pc.batch? = none) (ha : Alike s s') (hch : s'.chan = s.chan)
    (hprop : s'.prop = s.prop) (hhist : s'.hist = s.hist) (hex : s.exited = false) :
    Refines bin s' o := by
  refine h.stutter hi hprop hhist (fun c => by rw [ha.client]) ?_
  intro c hp
  refine hp.frame (by rw [ha.client]) (by rw [hch]) ?_ ?_ (.inr ⟨by simp [hb], by simp [hb']⟩)
    (fun _ => hex)
  · intro j job hj _ _
    exact ⟨ha.jobs ▸ hj, by rw [ha.fiber]⟩
  · rintro ⟨j, job, hj, hc, ho⟩
    exact ⟨j, job, ha.jobs ▸ hj, hc, ha.fiber ▸ ho⟩

theorem PhaseOk.elsewhere {c : Nat} {ph : AtomicObject.Phase (Op T V R) (Outcome (Option R))}
    (h : PhaseOk s c ph) (hc : c ≠ b.chan) (hb : ∀ x, s.pc.batch? = some x → x.chan = b.chan)
    (hb' : ∀ x, s'.pc.batch? = some x → x.chan = b.chan) (ha : Alike s s')
    (hch : ∀ c, c ≠ b.chan → s'.chan c = s.chan c) (hex : s.exited = false) :
    PhaseOk s' c ph := by
  refine h.frame (by rw [ha.client]) (hch c hc) ?_ ?_ (.inr ⟨?_, ?_⟩) (fun _ => hex)
  · intro j job hj _ _
    exact ⟨ha.jobs ▸ hj, by rw [ha.fiber]⟩
  · rintro ⟨j, job, hj, hjc, ho⟩
    exact ⟨j, job, ha.jobs ▸ hj, hjc, ha.fiber ▸ ho⟩
  · intro x hx hxc
    exact hc (hxc.symm.trans (hb x hx))
  · intro x hx hxc
    exact hc (hxc.symm.trans (hb' x hx))

theorem busy_congr {c : Nat} (ha : Alike s s') :
    Busy s' c ↔ Busy s c := by
  simp [Busy, ha.jobs, ha.fiber]

theorem Refines.within (h : Refines bin s o) (hi : Inv bin s') (hb : s.pc.batch? = some b)
    (hb' : s'.pc.batch? = some b') (hc : b'.chan = b.chan) (ha : Alike s s')
    (hch : ∀ c, c ≠ b.chan → s'.chan c = s.chan c)
    (hresp : (s'.chan b.chan).respWord = (s.chan b.chan).respWord)
    (hprop : s'.prop = s.prop) (hhist : s'.hist = s.hist)
    (hp : ∀ (op : Op T V R) i last, PcOk s.pc ((s.chan b.chan).records hdrOffset) op →
      ((s.chan b.chan).records hdrOffset).hdr = op.hdr →
      s.pc.Progress (s.chan b.chan).respData op i last →
      s'.pc.Progress (s'.chan b.chan).respData op i last) : Refines bin s' o := by
  obtain ⟨op, i, last, hs, hok, hh, hph, hprog⟩ := h.serving hb
  refine h.stutter hi hprop hhist (fun c => by rw [ha.client]) ?_
  intro c hpo
  by_cases hcb : c = b.chan
  · subst hcb
    rw [hph]
    refine PhaseOk.served (by rw [ha.client, hs.1]) (by rw [hresp, hs.2.1]) ?_ hb' hc
      (hp op i last hok (Op.encode_hdr hh).1 hprog)
    exact fun hbusy => hs.2.2 ((busy_congr ha).mp hbusy)
  · exact hpo.elsewhere hcb (fun x hx => by rw [hb] at hx; rw [← Option.some.inj hx])
      (fun x hx => by rw [hb'] at hx; rw [← Option.some.inj hx, hc]) ha hch
      (Sys.not_exited hb)

theorem Refines.answer (h : Refines bin s o) (hi : Inv bin s') (hb : s.pc.batch? = some b)
    (hb' : s'.pc.batch? = none) (ha : Alike s s')
    (hch : ∀ c, c ≠ b.chan → s'.chan c = s.chan c)
    (hresp : ready (s'.chan b.chan).respWord = b.reqReady)
    (hdata : (s'.chan b.chan).respData = (s.chan b.chan).respData)
    (hprop : s'.prop = s.prop) (hhist : s'.hist = s.hist)
    (hp : ∀ (op : Op T V R) i last, PcOk s.pc ((s.chan b.chan).records hdrOffset) op →
      s.pc.Progress (s.chan b.chan).respData op i last →
      i = op.reps ∧ op.Answers last (op.reply (s.chan b.chan).respData)) :
    Refines bin s' o := by
  obtain ⟨op, i, last, hs, hok, _, hph, hprog⟩ := h.serving hb
  obtain ⟨rfl, hans⟩ := hp op i last hok hprog
  refine h.stutter hi hprop hhist (fun c => by rw [ha.client]) ?_
  intro c hpo
  by_cases hcb : c = b.chan
  · subst hcb
    rw [hph]
    exact PhaseOk.answered (r := b.reqReady) (by rw [ha.client, hs.1]) hresp (hdata ▸ hans)
  · exact hpo.elsewhere hcb (fun x hx => by rw [hb] at hx; rw [← Option.some.inj hx])
      (by simp [hb']) ha hch (Sys.not_exited hb)

/-- The worker leaves its loop and the request it was at is never answered. -/
theorem Refines.abandon (h : Refines bin s o) (hi : Inv bin s') (hb : s.pc.batch? = some b)
    (hb' : s'.pc.batch? = none) (hexit : s'.exited = true) (ha : Alike s s')
    (hch : s'.chan = s.chan) (hprop : s'.prop = s.prop) (hhist : s'.hist = s.hist) :
    Refines bin s' o := by
  obtain ⟨op, i, last, hs, _, _, hph, _⟩ := h.serving hb
  refine h.stutter hi hprop hhist (fun c => by rw [ha.client]) ?_
  intro c hpo
  by_cases hcb : c = b.chan
  · subst hcb
    rw [hph]
    refine PhaseOk.pending (by rw [ha.client, hs.1]) (by rw [hch, hs.2.1]) ?_ (by simp [hb'])
      (by simp [hexit])
    exact fun hbusy => hs.2.2 ((busy_congr ha).mp hbusy)
  · exact hpo.elsewhere hcb (fun x hx => by rw [hb] at hx; rw [← Option.some.inj hx])
      (by simp [hb']) ha (fun _ _ => by rw [hch]) (Sys.not_exited hb)

theorem Refines.takeUp (h : Refines bin s o) (hi : Inv bin s') {op : Op T V R}
    (hb : s.pc.batch? = none) (hex : s.exited = false) (hb' : s'.pc.batch? = some b)
    (hs : Serving (s.chan b.chan) (s.client b.chan) (Busy s b.chan) b op)
    (ha : Alike s s') (hch : s'.chan = s.chan) (hprop : s'.prop = s.prop)
    (hhist : s'.hist = s.hist)
    (hp : s'.pc.Progress (s.chan b.chan).respData op 0 none) : Refines bin s' o := by
  obtain ⟨hw, hresp, hnb⟩ := hs
  obtain ⟨i, last, hph, _, hun⟩ := (h.phase b.chan).waiting hw
  obtain ⟨rfl, rfl⟩ := (hun (by simp [hresp])).2.2 hnb (by simp [hb]) hex
  refine h.stutter hi hprop hhist (fun c => by rw [ha.client]) ?_
  intro c hpo
  by_cases hcb : c = b.chan
  · subst hcb
    rw [hph]
    refine PhaseOk.served (by rw [ha.client, hw]) (by rw [hch, hresp]) ?_ hb' rfl (hch ▸ hp)
    exact fun hbusy => hnb ((busy_congr ha).mp hbusy)
  · exact hpo.elsewhere hcb (by simp [hb])
      (fun x hx => by rw [hb'] at hx; rw [← Option.some.inj hx]) ha (fun _ _ => by rw [hch]) hex

theorem Refines.applied (h : Refines bin s o) {hdr : RecordHeader} {k : Nat}
    {env : Closure T R} {args : List UInt8} {seq : Nat}
    (hpc : s.pc = .inClosure b hdr k env args seq) (hi : Inv bin s') (ha : Alike s s')
    (hch : s'.chan = s.chan) (hprop : s'.prop = (env.call args s.prop).1)
    (hhist : s'.hist = s.hist ++ [.app b.chan seq (env.call args)])
    (hnext : (s'.pc.batch? = some b ∧ ∀ op : Op T V R, hdr = op.hdr → hdr.called = true →
        k < op.reps → s'.pc.Progress (s.chan b.chan).respData op (k + 1)
          (some (env.call args s.prop).2)) ∨
      (s'.pc.batch? = none ∧ s'.exited = true)) : Follows bin o s' := by
  have hb : s.pc.batch? = some b := by simp [hpc, TrusteePc.batch?]
  obtain ⟨op, i, last, hs, hok, hh, hph, hprog⟩ := h.serving hb
  rw [hpc] at hok hprog
  obtain ⟨hhdr, hcalled, henv, hargs, hseq⟩ := hok
  obtain ⟨rfl, hlt, _⟩ := hprog
  have hop : hdr = op.hdr := by rw [hhdr, (Op.encode_hdr hh).1]
  have hran : env.call args = op.ran bin := by
    rw [henv, hargs]
    refine hh.ran.1 ?_
    rintro rfl
    simp [hop, Op.hdr, RecordHeader.called] at hcalled
  have hseq : seq = o.seq b.chan := by rw [hseq, hh.ran.2, h.seq]
  refine ⟨o.app (delegation bin) b.chan op i, .single (.app hph hlt ?_), hi, ?_, ?_, ?_, ?_⟩
  · exact fun _ c hc => h.not_midBatch hb (Sys.not_exited hb) hc
  · simp [Obj.app, delegation, hprop, h.value, hran]
  · simp [Obj.app, delegation, hhist, h.hist, hran, hseq]
  · intro c
    rw [ha.client]
    exact h.seq c
  · intro c
    by_cases hc : c = b.chan
    · subst hc
      have hnb : ¬ Busy s' b.chan := fun hbusy => hs.2.2 ((busy_congr ha).mp hbusy)
      have hout : (op.ran bin o.value).2 = (env.call args s.prop).2 := by
        rw [hran, h.value]
      simp only [Obj.app, Function.update_self, delegation, hout]
      rcases hnext with ⟨hb', hp⟩ | ⟨hb', hexit⟩
      · exact PhaseOk.served (by rw [ha.client, hs.1]) (by rw [hch, hs.2.1]) hnb hb' rfl
          (hch ▸ hp op hop hcalled hlt)
      · exact PhaseOk.pending (by rw [ha.client, hs.1]) (by rw [hch, hs.2.1]) hnb
          (by simp [hb']) (by simp [hexit])
    · simp only [Obj.app, Function.update_of_ne hc]
      refine (h.phase c).elsewhere hc ?_ ?_ ha (fun _ _ => by rw [hch]) (Sys.not_exited hb)
      · intro x hx
        rw [hb] at hx
        rw [← Option.some.inj hx]
      · intro x hx
        rcases hnext with ⟨hb', _⟩ | ⟨hb', _⟩
        · rw [hb'] at hx
          rw [← Option.some.inj hx]
        · simp [hb'] at hx

theorem Refines.dispatch (h : Refines bin s o) (hpc : s.pc = .record b)
    (hleft : b.left = 1) (hdef : b.deferred = false) {b₁ : Batch}
    (hb₁ : b₁ = { b with cursor := hdrOffset })
    (hi : Inv bin (s.dispatch b₁ ((s.chan b.chan).records hdrOffset))) :
    Refines bin (s.dispatch b₁ ((s.chan b.chan).records hdrOffset)) o := by
  have hb : s.pc.batch? = some b := by simp [hpc, TrusteePc.batch?, hdef]
  obtain ⟨op, i, last, hs, _, _, hph, hprog⟩ := h.serving hb
  have hz : i = 0 ∧ last = none := by simpa [hpc, TrusteePc.Progress, hleft] using hprog
  obtain ⟨rfl, rfl⟩ := hz
  have hbatch : (s.dispatch b₁ ((s.chan b.chan).records hdrOffset)).pc.batch? = none := by
    simp [Sys.dispatch, TrusteePc.batch?, Batch.advance, hb₁, hleft]
  have hchan : b₁.chan = b.chan := by rw [hb₁]
  have hnew : ∀ j job, (s.dispatch b₁ ((s.chan b.chan).records hdrOffset)).jobs[j]? =
      some job → job.chan ≠ b.chan → s.jobs[j]? = some job ∧
      (s.dispatch b₁ ((s.chan b.chan).records hdrOffset)).fiber j = s.fiber j := by
    intro j job hj hne
    simp only [Sys.dispatch] at hj ⊢
    rcases Nat.lt_trichotomy j s.jobs.length with hlt | rfl | hgt
    · rw [List.getElem?_append_left hlt] at hj
      exact ⟨hj, by simp [Function.update_of_ne (Nat.ne_of_lt hlt)]⟩
    · simp only [List.getElem?_concat_length, Option.some.injEq] at hj
      rw [← hj] at hne
      exact absurd hchan hne
    · have : s.jobs.length + 1 ≤ j := hgt
      rw [List.getElem?_eq_none (by simpa using this)] at hj
      simp at hj
  refine h.stutter hi rfl rfl (fun _ => rfl) ?_
  intro c hpo
  by_cases hc : c = b.chan
  · subst hc
    rw [hph]
    have hjob : (s.dispatch b₁ ((s.chan b.chan).records hdrOffset)).jobs[s.jobs.length]? =
        some ⟨b₁.chan, b₁.cursor, ((s.chan b.chan).records hdrOffset).seq, b₁.reqReady⟩ := by
      simp [Sys.dispatch]
    refine PhaseOk.launched hi hs.1 hs.2.1 hjob hchan (by simp [Sys.dispatch, FiberPc.open_]) ?_
    simp only [Sys.dispatch, Function.update_self]
    exact ⟨rfl, rfl⟩
  · refine hpo.frame rfl rfl ?_ ?_ (.inr ⟨?_, by simp [hbatch]⟩) ?_
    · exact fun j job hj hjc _ => hnew j job hj (hjc ▸ hc)
    · rintro ⟨j, job, hj, hjc, ho⟩
      have hlt : j < s.jobs.length := (List.getElem?_eq_some_iff.mp hj).1
      refine ⟨j, job, ?_, hjc, ?_⟩
      · simp [Sys.dispatch, List.getElem?_append_left hlt, hj]
      · simpa [Sys.dispatch, Function.update_of_ne (Nat.ne_of_lt hlt)] using ho
    · intro x hx hxc
      rw [hb] at hx
      exact hc (by rw [← hxc, Option.some.inj hx])
    · exact fun _ => Sys.not_exited hb

theorem Refines.visit (h : Refines bin s o) {n offs idx c : Nat} {cp : ClientPair} {w : Word}
    (hpc : s.pc = .loadedReq n offs idx c w) (hcp : s.clients[idx]? = some cp) :
    Refines bin (s.visit n offs idx cp w (s.chan cp.chan).respWord) o := by
  have hi := h.inv.visit hpc hcp
  have hb : s.pc.batch? = none := by simp [hpc, TrusteePc.batch?]
  have hex : s.exited = false := by simp [Sys.exited, hpc]
  have hshape := h.inv.shape
  simp only [hpc, Shape] at hshape
  obtain ⟨_, _, cp', hcp', rfl⟩ := hshape
  obtain rfl := Option.some.inj (hcp.symm.trans hcp')
  have hf := h.inv.fresh n offs idx cp.chan w hpc
  rcases h.inv.visit_cases hcp hf n offs with he | ⟨_, _, he⟩ | ⟨op, b, hbe, hs, he⟩
  · rw [he] at hi ⊢
    exact h.outside hi hb rfl ⟨rfl, rfl, rfl⟩ rfl rfl rfl hex
  · rw [he] at hi ⊢
    exact h.outside hi hb rfl ⟨rfl, rfl, rfl⟩ rfl rfl rfl hex
  · rw [he] at hi ⊢
    have hchan : b.chan = cp.chan := by rw [hbe]
    have hb' : (TrusteePc.record b : TrusteePc T R).batch? = some b := by
      simp [TrusteePc.batch?, hbe]
    exact @Refines.takeUp T V R bin s _ b o h hi op hb hex hb' (hchan ▸ hs) ⟨rfl, rfl, rfl⟩ rfl rfl
      rfl (by simp [TrusteePc.Progress, hbe])

theorem Refines.recordStep (h : Refines bin s o) (hpc : s.pc = .record b) :
    Refines bin (s.recordStep b) o := by
  have hi := h.inv.recordStep hpc
  have hex : s.exited = false := by simp [Sys.exited, hpc]
  unfold Sys.recordStep at hi ⊢
  split at hi
  · rename_i hleft
    rw [if_pos hleft]
    split at hi
    · rename_i hdef
      rw [if_pos hdef]
      exact h.outside hi (by simp [hpc, TrusteePc.batch?, hleft, hdef]) rfl ⟨rfl, rfl, rfl⟩ rfl rfl
        rfl hex
    · rename_i hdef
      rw [if_neg hdef]
      refine h.within hi (by simp [hpc, TrusteePc.batch?, hdef]) rfl rfl ⟨rfl, rfl, rfl⟩
        (fun _ _ => rfl) rfl rfl rfl ?_
      intro op i last _ _ hp
      simpa [hpc, TrusteePc.Progress, hleft, Sys.goto] using hp
  · rename_i hleft
    rw [if_neg hleft]
    obtain ⟨hl, _, hdef, hcur⟩ := h.inv.at_record hpc hleft
    have hb : s.pc.batch? = some b := by simp [hpc, TrusteePc.batch?, hdef]
    simp only [hcur] at hi ⊢
    -- whichever arm the record takes, its operation is at its very start
    have start : ∀ {pc : TrusteePc T R}, Inv bin (s.goto pc) →
        pc.batch? = some { b with cursor := hdrOffset } →
        (∀ op : Op T V R, pc.Progress (s.chan b.chan).respData op 0 none) →
        Refines bin (s.goto pc) o := by
      intro pc hi hpc' hp
      refine h.within hi hb hpc' rfl ⟨rfl, rfl, rfl⟩ (fun _ _ => rfl) rfl rfl rfl ?_
      intro op i last _ _ hprog
      have hz : i = 0 ∧ last = none := by simpa [hpc, TrusteePc.Progress, hl] using hprog
      obtain ⟨rfl, rfl⟩ := hz
      exact hp op
    split at hi
    · exact start hi rfl (fun _ => ⟨rfl, rfl⟩)
    · exact h.dispatch hpc hl hdef rfl hi
    · exact start hi rfl (fun _ => ⟨rfl, rfl⟩)
    · exact start hi rfl (fun _ => ⟨rfl, Nat.zero_le _, fun _ => rfl, fun _ => rfl⟩)

theorem Refines.trusteeStep (h : Refines bin s o) (hs : s.trusteeStep = some s') :
    Follows bin o s' := by
  have hi := h.inv.trusteeStep hs
  have hshape := h.inv.shape
  have still : ∀ {s' : Sys T V R}, Refines bin s' o → Follows bin o s' :=
    fun hr => ⟨o, .refl, hr⟩
  unfold Sys.trusteeStep at hs
  cases hpc : s.pc with
  | loop =>
    have hb : s.pc.batch? = none := by simp [hpc, TrusteePc.batch?]
    have hex : s.exited = false := by simp [Sys.exited, hpc]
    simp only [hpc] at hs
    split at hs <;> simp only [Option.some.injEq] at hs <;> subst hs
    · exact still (h.outside hi hb rfl ⟨rfl, rfl, rfl⟩ rfl rfl rfl hex)
    · refine still (h.outside hi hb ?_ ⟨rfl, rfl, rfl⟩ rfl rfl rfl hex)
      unfold Sys.enterSweep
      split <;> rfl
  | drain drained =>
    have hb : s.pc.batch? = none := by simp [hpc, TrusteePc.batch?]
    have hex : s.exited = false := by simp [Sys.exited, hpc]
    have sweep : Inv bin s.enterSweep → Follows bin o s.enterSweep := by
      intro hi
      refine still (h.outside hi hb ?_ ⟨rfl, rfl, rfl⟩ rfl rfl rfl hex)
      unfold Sys.enterSweep
      split <;> rfl
    simp only [hpc] at hs
    split at hs
    · split at hs <;> simp only [Option.some.injEq] at hs <;> subst hs
      · exact still (h.outside hi hb rfl ⟨rfl, rfl, rfl⟩ rfl rfl rfl hex)
      · exact sweep hi
    · simp only [Option.some.injEq] at hs
      subst hs
      exact sweep hi
  | sweep n offs =>
    have hb : s.pc.batch? = none := by simp [hpc, TrusteePc.batch?]
    have hex : s.exited = false := by simp [Sys.exited, hpc]
    simp only [hpc] at hs
    split at hs
    · split at hs <;> simp only [Option.some.injEq] at hs <;> subst hs
      · exact still (h.outside hi hb rfl ⟨rfl, rfl, rfl⟩ rfl rfl rfl hex)
      · exact still (h.outside hi hb rfl ⟨rfl, rfl, rfl⟩ rfl rfl rfl hex)
    · simp only [Option.some.injEq] at hs
      subst hs
      exact still (h.outside hi hb rfl ⟨rfl, rfl, rfl⟩ rfl rfl rfl hex)
  | loadedReq n offs idx c w =>
    simp only [hpc] at hs
    split at hs <;> simp only [Option.some.injEq, reduceCtorEq] at hs
    subst hs
    exact still (h.visit hpc ‹_›)
  | record b =>
    simp only [hpc, Option.some.injEq] at hs
    subst hs
    exact still (h.recordStep hpc)
  | calling b hdr k =>
    have hb : s.pc.batch? = some b := by simp [hpc, TrusteePc.batch?]
    simp only [hpc, Shape] at hs hshape
    obtain ⟨_, hl, _, _, hdef⟩ := hshape
    split at hs <;> simp only [Option.some.injEq] at hs <;> subst hs
    · rename_i hend
      have hb' : (TrusteePc.record b.advance : TrusteePc T R).batch? = some b.advance := by
        simp [TrusteePc.batch?, Batch.advance, hdef]
      refine still (h.within hi hb hb' rfl ⟨rfl, rfl, rfl⟩ (fun _ _ => rfl) rfl rfl rfl ?_)
      intro op i last hok hop hp
      simp only [hpc, PcOk] at hok
      simp only [hpc, TrusteePc.Progress] at hp
      rw [hok.1, hop] at hend
      obtain ⟨hreps, hans⟩ := Op.reps_batch hend.1
      simp only [Sys.goto, TrusteePc.Progress, Batch.advance, hl]
      exact ⟨by omega, hans _ _⟩
    · rename_i hgo
      refine still (h.within hi hb rfl rfl ⟨rfl, rfl, rfl⟩ (fun _ _ => rfl) rfl rfl rfl ?_)
      intro op i last hok hop hp
      simp only [hpc, PcOk] at hok
      simp only [hpc, TrusteePc.Progress] at hp
      rw [hok.1, hop] at hgo hp
      refine ⟨hp.1, ?_, by rw [hok.1, hop]; exact hp.2.2.1⟩
      by_cases hm : op.hdr.propertyPtr = .callMutRetUnit
      · rw [(Op.reps_batch hm).1]
        exact not_not.mp (fun hn => hgo ⟨hm, hn⟩)
      · have hc : op.hdr.called = true := by rw [← hop, ← hok.1]; exact hok.2
        rw [(Op.reps_single hc hm).1, hp.2.2.1 hm]
        exact Nat.zero_lt_one
  | inClosure b hdr k env args seq =>
    have hb : s.pc.batch? = some b := by simp [hpc, TrusteePc.batch?]
    simp only [hpc] at hs
    split at hs
    · simp only [Option.some.injEq] at hs
      subst hs
      exact h.applied hpc hi ⟨rfl, rfl, rfl⟩ rfl rfl rfl (.inr ⟨rfl, rfl⟩)
    · rename_i r hr
      split at hs <;> rename_i hm <;> simp only [Option.some.injEq] at hs <;> subst hs
      · refine h.applied hpc hi ⟨rfl, rfl, rfl⟩ rfl rfl rfl (.inl ⟨rfl, ?_⟩)
        exact fun op _ _ hlt => ⟨rfl, hlt, fun hn => absurd hm hn, by simp⟩
      · refine h.applied hpc hi ⟨rfl, rfl, rfl⟩ rfl rfl rfl (.inl ⟨rfl, ?_⟩)
        intro op hop hc hlt
        rw [hop] at hc hm
        have := (Op.reps_single hc hm).1
        exact ⟨by omega, by rw [hr], hm⟩
  | writeOut b r =>
    have hb : s.pc.batch? = some b := by simp [hpc, TrusteePc.batch?]
    simp only [hpc, Option.some.injEq, Shape] at hs hshape
    obtain ⟨_, hl, _, _, hdef⟩ := hshape
    subst hs
    have hb' : (TrusteePc.record b.advance : TrusteePc T R).batch? = some b.advance := by
      simp [TrusteePc.batch?, Batch.advance, hdef]
    refine still (h.within hi hb hb' rfl ⟨rfl, rfl, rfl⟩
      (fun c hc => by simp [Sys.goto, Sys.setChan, Function.update_of_ne hc])
      (by simp [Sys.goto, Sys.setChan]) rfl rfl ?_)
    intro op i last hok hop hp
    simp only [hpc, PcOk] at hok
    simp only [hpc, TrusteePc.Progress] at hp
    obtain ⟨rfl, rfl, hm⟩ := hp
    rw [hop] at hok
    simp only [Sys.goto, Sys.setChan, Function.update_self, TrusteePc.Progress, Batch.advance, hl]
    exact ⟨trivial, (Op.reps_single hok hm).2 r⟩
  | moveOut b =>
    have hb : s.pc.batch? = some b := by simp [hpc, TrusteePc.batch?]
    simp only [hpc, Option.some.injEq] at hs
    subst hs
    refine still (h.within hi hb rfl rfl ⟨rfl, rfl, rfl⟩
      (fun c hc => by simp [Sys.goto, Sys.setChan, Function.update_of_ne hc])
      (by simp [Sys.goto, Sys.setChan]) rfl rfl ?_)
    intro op i last _ _ hp
    simp only [hpc, TrusteePc.Progress] at hp
    simp only [Sys.goto, Sys.setChan, Function.update_self, TrusteePc.Progress]
    exact ⟨hp.1, hp.2, s.prop, rfl⟩
  | moveLoad b =>
    have hb : s.pc.batch? = some b := by simp [hpc, TrusteePc.batch?]
    simp only [hpc, Option.some.injEq] at hs
    subst hs
    refine still (h.within hi hb rfl rfl ⟨rfl, rfl, rfl⟩ (fun _ _ => rfl) rfl rfl rfl ?_)
    intro op i last _ _ hp
    simpa only [hpc, Sys.goto, TrusteePc.Progress] using hp
  | moveStore b r =>
    have hb : s.pc.batch? = some b := by simp [hpc, TrusteePc.batch?]
    simp only [hpc, Option.some.injEq] at hs
    subst hs
    obtain ⟨_, _, hok⟩ := h.inv.serving b hb
    simp only [hpc, PcOk] at hok
    refine still (h.answer hi hb rfl ⟨rfl, rfl, rfl⟩
      (fun c hc => by
        simp [Sys.exit, Sys.goto, Sys.dropArc, Sys.setChan, Function.update_of_ne hc])
      (by simp [Sys.exit, Sys.goto, Sys.dropArc, Sys.setChan, hok.2])
      (by simp [Sys.exit, Sys.goto, Sys.dropArc, Sys.setChan]) rfl rfl ?_)
    intro op i last hok hp
    simp only [hpc, PcOk] at hok
    simp only [hpc, TrusteePc.Progress] at hp
    obtain ⟨rfl, _, hd⟩ := hp
    obtain ⟨rfl, _⟩ := hok
    exact ⟨rfl, hd⟩
  | respond b =>
    have hb : s.pc.batch? = some b := by simp [hpc, TrusteePc.batch?]
    simp only [hpc, Option.some.injEq] at hs
    subst hs
    refine still (h.answer hi hb rfl ⟨rfl, rfl, rfl⟩
      (fun c hc => by simp [Sys.served, Sys.setChan, Function.update_of_ne hc])
      (by simp [Sys.served, Sys.setChan]) (by simp [Sys.served, Sys.setChan]) rfl rfl ?_)
    intro op i last _ hp
    simpa only [hpc, TrusteePc.Progress] using hp
  | joining b =>
    have hb : s.pc.batch? = some b := by simp [hpc, TrusteePc.batch?]
    simp only [hpc] at hs
    split at hs <;> simp only [Option.some.injEq, reduceCtorEq] at hs
    subst hs
    exact still (h.abandon hi hb rfl rfl ⟨rfl, rfl, rfl⟩ rfl rfl rfl)
  | exited cause => simp [hpc] at hs

theorem Refines.step {a : Action T V R} (h : Refines bin s o) (hs : s.step bin a = some s') :
    Follows bin o s' := by
  cases a with
  | register =>
    obtain rfl := Option.some.inj hs
    exact ⟨o, .refl, h.register⟩
  | issue c op => exact h.issue hs
  | client c => exact h.clientStep hs
  | trustee => exact h.trusteeStep hs
  | fiber j => exact h.fiberStep hs
  | dropValue c => exact h.dropValue hs
  | dropHandle c => exact h.dropHandle hs

end Trustee

/-- Every run of a runtime, whatever its clients do, is matched by a run of the atomic
object. -/
theorem Reachable.simulates {bin : Bincode V} {w : Workload T V R} {value : T}
    {s : Sys T V R} (h : Reachable bin w value s) :
    ∃ o, Relation.ReflTransGen (AtomicObject.Step (delegation bin))
      (AtomicObject.Obj.init value) o ∧ Refines bin s o :=
  h.simulate (Refines.init bin value) (fun _ _ _ _ hr _ hs => Refines.step hr hs)

theorem Reachable.refines {bin : Bincode V} {w : Workload T V R} {value : T}
    {s : Sys T V R} (h : Reachable bin w value s) :
    ∃ o, AtomicObject.Inv (delegation bin) value o ∧ Refines bin s o := by
  obtain ⟨o, ho, hr⟩ := h.simulates
  exact ⟨o, .reach ho, hr⟩

theorem Reachable.history {bin : Bincode V} {w : Workload T V R} {value : T}
    {s : Sys T V R} (h : Reachable bin w value s) :
    Linearizable (delegation bin) value s.hist s.prop := by
  obtain ⟨o, hi, hr⟩ := h.refines
  exact hr.hist ▸ hr.value ▸ hi.linearizable

end TrustTee
