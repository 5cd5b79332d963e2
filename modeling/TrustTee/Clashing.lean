import TrustTee.Starvation
import TrustTee.Exclusion

set_option autoImplicit false

namespace TrustTee
open Header

variable {T V R : Type}

/-- The trustee goes on, and nobody else does anything. -/
abbrev Labours (bin : Bincode V) : Sys T V R → Sys T V R → Prop :=
  Machine.Reach (Sys.step bin) (fun _ a => a = .trustee)

/-- No client but `c` has a request before the trustee or on the way to it. -/
def Sys.Only (s : Sys T V R) (c : Nat) : Prop := ∀ c', 4 ≤ s.pending c' → c' = c

def Sys.Calm (s : Sys T V R) : Prop := ∀ c, s.pending c ≤ 3

/-- Client `c` has moved on, and nothing else has. -/
structure Moved (s s' : Sys T V R) (c : Nat) : Prop where
  pc : s'.pc = s.pc
  clients : s'.clients = s.clients
  jobs : s'.jobs = s.jobs
  fiber : s'.fiber = s.fiber
  created : s'.created = s.created
  other : ∀ c', c' ≠ c → s'.client c' = s.client c' ∧ s'.chan c' = s.chan c'

section Labour

variable {bin : Bincode V} {w : Workload T V R} {value : T} {s s' u : Sys T V R} {c : Nat}

theorem Labours.reach (h : Labours bin s u) (hr : Reachable bin w value s) :
    Reachable bin w value u := by
  refine Machine.Reach.invariant h hr ?_
  rintro t a v ht rfl hs
  exact ht.next (by trivial) hs

theorem Labours.clients (h : Labours bin s u) : u.client = s.client ∧ u.created = s.created := by
  refine Machine.Reach.invariant h (P := fun t => t.client = s.client ∧ t.created = s.created)
    ⟨rfl, rfl⟩ ?_
  rintro t a v ⟨hcl, hcr⟩ rfl hs
  obtain ⟨hcl', hcr', _⟩ := Sys.trusteeStep_frame hs
  exact ⟨hcl'.trans hcl, hcr'.trans hcr⟩

theorem Labours.listed (h : Labours bin s u) (hr : Reachable bin w value s) :
    s.clients.length ≤ u.clients.length := by
  obtain ⟨l, hl, _⟩ := h
  exact (hr.grows hl).2.1

theorem Labours.job (h : Labours bin s u) {j : Nat} {job : Job} (hj : s.jobs[j]? = some job) :
    u.jobs[j]? = some job ∧ u.fiber j = s.fiber j := by
  refine Machine.Reach.invariant h
    (P := fun t => t.jobs[j]? = some job ∧ t.fiber j = s.fiber j) ⟨hj, rfl⟩ ?_
  rintro t a v ⟨ht, hf⟩ rfl hs
  obtain ⟨hv, hf'⟩ := Sys.step_other_fiber hs (by simp) ht
  exact ⟨hv, hf'.trans hf⟩

theorem Labours.pending (h : Labours bin s u) (hr : Reachable bin w value s) (c : Nat) :
    u.pending c ≤ s.pending c := by
  refine (Machine.Reach.invariant h
    (P := fun t => Reachable bin w value t ∧ t.pending c ≤ s.pending c) ⟨hr, le_rfl⟩ ?_).2
  rintro t a v ⟨ht, hle⟩ rfl hs
  exact ⟨ht.next (by trivial) hs, (ht.inv.pending_le (by simp) hs c).trans hle⟩

theorem Sys.Calm.no_batch (h : s.Calm) (hi : Inv bin s) : s.pc.batch? = none := by
  cases hb : s.pc.batch? with
  | none => rfl
  | some b =>
    obtain ⟨op, hs, _⟩ := hi.serving b hb
    have hfour := hi.pending_outstanding.mpr ⟨op, _, hs⟩
    have := h b.chan
    omega

theorem Sys.Calm.goes (h : s.Calm) (hi : Inv bin s) (hex : s.exited = false) : ¬ s.Ending := by
  have hb := h.no_batch hi
  cases hpc : s.pc <;> simp_all [Sys.Ending, Sys.exited, TrusteePc.batch?]

theorem Sys.Calm.stays (h : s.Calm) (hi : Inv bin s) (hs : s.trusteeStep = some s') :
    s'.exited = false := by
  have hb := h.no_batch hi
  by_contra hx
  rcases (hi.trusteeStep_exits hs (by simpa using hx)).2.2 with
    ⟨b, _, _, _, _, _, hpc, _⟩ | ⟨b, _, hpc, _⟩ | ⟨b, hpc, _⟩ <;>
    simp [hpc, TrusteePc.batch?] at hb

theorem Sys.Calm.turns (h : s.Calm) (hr : Reachable bin w value s) (hloop : s.pc ≠ .loop)
    (hs : s.trusteeStep = some s') : s'.turn < s.turn := by
  refine hr.turns hloop hs (h.stays hr.inv hs) ?_
  -- all that is left of the visit is its end
  intro b b' hv hv'
  have hb := h.no_batch hr.inv
  cases hpc : s.pc with
  | record b₀ =>
    simp only [hpc, TrusteePc.batch?, ite_eq_left_iff, reduceCtorEq, imp_false, not_not] at hb
    simp only [Sys.trusteeStep, hpc, Sys.recordStep, if_pos hb.1, if_pos hb.2,
      Option.some.injEq] at hs
    simp [← hs, Sys.served, TrusteePc.visiting?] at hv'
  | _ => simp [hpc, TrusteePc.visiting?, TrusteePc.batch?] at hv hb

theorem Sys.Calm.moves (h : s.Calm) (hr : Reachable bin w value s) (hex : s.exited = false) :
    ∃ u, s.step bin .trustee = some u ∧ Reachable bin w value u ∧ u.Calm ∧
      u.exited = false := by
  obtain ⟨u, hu⟩ := Option.ne_none_iff_exists'.mp
    (hr.inv.trustee_moves (h.goes hr.inv hex))
  have hs : s.step bin .trustee = some u := hu
  exact ⟨u, hs, hr.next (a := .trustee) trivial hs,
    fun c => (hr.inv.pending_le (by simp) hs c).trans (h c), h.stays hr.inv hu⟩

/-- With no request before it the trustee comes back to the head of its loop. -/
theorem Sys.Calm.comes_round (h : s.Calm) (hr : Reachable bin w value s)
    (hex : s.exited = false) : ∃ u, Labours bin s u ∧ u.pc = .loop := by
  refine Machine.Reach.until
    (P := fun t => Reachable bin w value t ∧ t.Calm ∧ t.exited = false) Sys.turn ?_ ⟨hr, h, hex⟩
  rintro t ⟨ht, hc, hex⟩
  by_cases hpc : t.pc = .loop
  · exact .inl hpc
  right
  obtain ⟨v, hv, hrv, hcv, hexv⟩ := hc.moves ht hex
  exact ⟨.trustee, v, rfl, hv, .inr ⟨⟨hrv, hcv, hexv⟩, hc.turns ht hpc hv⟩⟩

/-- With no request before it the trustee takes channel `c` out of the queue. -/
theorem Sys.Calm.takes_up (h : s.Calm) (hr : Reachable bin w value s)
    (hex : s.exited = false) (hc : c < s.created) :
    ∃ u, Labours bin s u ∧ c < u.clients.length ∧ u.exited = false := by
  refine Machine.Reach.until
    (P := fun t => Reachable bin w value t ∧ t.Calm ∧ c < t.created ∧ t.exited = false)
    (Sys.queued c) ?_ ⟨hr, h, hc, hex⟩
  rintro t ⟨ht, hcalm, hct, hex⟩
  by_cases hl : c < t.clients.length
  · exact .inl ⟨hl, hex⟩
  right
  obtain ⟨v, hv, hrv, hcv, hexv⟩ := hcalm.moves ht hex
  refine ⟨.trustee, v, rfl, hv, ?_⟩
  rcases ht.queues hct (not_lt.mp hl) hv (fun hloop => hcalm.turns ht hloop hv) with hl' | hlt
  · exact .inl ⟨hl', hexv⟩
  · exact .inr ⟨⟨hrv, hcv, hct.trans_le (Sys.step_created hv), hexv⟩, hlt⟩

/-- A visit that finds a request begins its record. -/
theorem Reachable.takes (h : Reachable bin w value s) (hv : s.pc.visiting? = none)
    (hs : s.trusteeStep = some s') {b : Batch} (hb : s'.pc.batch? = some b) :
    s'.pc = .record b ∧ b.left ≠ 0 := by
  have hr : Reachable bin w value s' := h.next (a := .trustee) trivial hs
  have hshape := hr.inv.shape
  cases Sys.trusteeStep_sweeps hs with
  | between hpc =>
    rcases Sys.trusteeStep_between hs hpc with ⟨d, hpc', _⟩ | ⟨hpc', _⟩ | hpc' <;>
      simp [hpc', TrusteePc.batch?] at hb
  | @take n offs idx c cp w' b' hpc hcp hf hpc' _ _ _ =>
    obtain rfl : b' = b := by
      rw [hpc', TrusteePc.batch?] at hb
      split at hb
      · cases hb
      · exact Option.some.inj hb
    refine ⟨hpc', ?_⟩
    -- the record loop begins with what the request word counts
    simp only [Sys.trusteeStep, hpc, hcp, Option.some.injEq] at hs
    subst hs
    have hrec := TrusteePc.record.inj (hpc'.symm.trans (Sys.visit_found hf))
    simp only [hpc', Shape] at hshape
    rcases hshape.2 with ⟨hone, _⟩ | ⟨hzero, hdef⟩
    · omega
    · subst hrec
      simp at hdef
  | serve hb' | served hb' => simp [hv] at hb'
  | load _ _ _ hpc' _ | finish _ _ hpc' | pass _ _ _ hpc' _ | exit hpc' =>
    simp [hpc', TrusteePc.batch?] at hb

theorem Moved.of_step {a : Action T V R} (hs : s.step bin a = some s')
    (ha : (∃ op, a = .issue c op) ∨ a = .client c) : Moved s s' c := by
  have hb : s.Beside a s' := Sys.step_beside hs (by rintro rfl; simp at ha)
    (by rintro j rfl; simp at ha)
  cases hb with
  | spin => exact ⟨rfl, rfl, rfl, rfl, rfl, fun _ _ => ⟨rfl, rfl⟩⟩
  | register => simp at ha
  | @move _ c₀ cl word recs destroyed hist next created kept =>
    obtain rfl : c₀ = c := by
      generalize (s.client c₀).pc = pc at next
      generalize cl.pc = pc' at next
      cases next <;> simp_all
    refine ⟨rfl, rfl, rfl, rfl, rfl, fun c' hne => ⟨?_, ?_⟩⟩
    · exact Function.update_of_ne hne _ _
    · exact Function.update_of_ne hne _ _

theorem Moved.trans (h : Moved s s' c) (h' : Moved s' u c) : Moved s u c where
  pc := h'.pc.trans h.pc
  clients := h'.clients.trans h.clients
  jobs := h'.jobs.trans h.jobs
  fiber := h'.fiber.trans h.fiber
  created := h'.created.trans h.created
  other := fun c' hne => ⟨(h'.other c' hne).1.trans (h.other c' hne).1,
    (h'.other c' hne).2.trans (h.other c' hne).2⟩

theorem Moved.pending (h : Moved s u c) {c' : Nat} (hne : c' ≠ c) :
    u.pending c' = s.pending c' := by
  obtain ⟨hcl, hch⟩ := h.other c' hne
  unfold Sys.pending
  rw [hcl, hch, h.jobs]

theorem Moved.only (h : Moved s u c) (hcalm : s.Calm) : u.Only c := by
  intro c' hfour
  by_contra hne
  rw [h.pending hne] at hfour
  have := hcalm c'
  omega

/-- A client can have its request before the trustee in three steps of its own. -/
theorem Reachable.publishes (h : Reachable bin w value s) {op : Op T V R}
    (hidle : (s.client c).pc = .idle) (hc : c < s.created) (hw : w c op)
    (henc : op.encode bin (s.client c).seq ≠ none) :
    ∃ u, Reachable bin w value u ∧ (∃ r, Outstanding u c op r) ∧ Moved s u c := by
  obtain ⟨s₁, hs₁, hpc₁⟩ : ∃ x, s.step bin (.issue c op) = some x ∧
      (x.client c).pc = .encoded op := by
    obtain ⟨rec_, hrec⟩ := Option.ne_none_iff_exists'.mp henc
    simp only [Sys.step, Sys.issue, hidle, hc, if_true, hrec]
    exact ⟨_, rfl, by simp [Sys.log, Sys.setClient]⟩
  have hpermits : w.permits (.issue c op : Action T V R) := hw
  have h₁ : Reachable bin w value s₁ := h.next hpermits hs₁
  obtain ⟨s₂, r, hs₂, hpc₂⟩ : ∃ x r, s₁.step bin (.client c) = some x ∧
      (x.client c).pc = .loaded op r := by
    simp only [Sys.step, Sys.clientStep, hpc₁]
    exact ⟨_, !ready (s₁.chan c).respWord, rfl, by simp [Sys.setClient]⟩
  have h₂ : Reachable bin w value s₂ := h₁.next (a := .client c) trivial hs₂
  obtain ⟨s₃, hs₃, hpc₃, hresp⟩ : ∃ x, s₂.step bin (.client c) = some x ∧
      (x.client c).pc = .waiting op r ∧ (x.chan c).respWord = (s₂.chan c).respWord := by
    simp only [Sys.step, Sys.clientStep, hpc₂]
    exact ⟨_, rfl, by simp [Sys.setClient], by simp [Sys.setClient, Sys.setChan]⟩
  have h₃ : Reachable bin w value s₃ := h₂.next (a := .client c) trivial hs₃
  have hmoved := Moved.of_step hs₃ (.inr rfl)
  have hok := h₂.inv.client c
  simp only [ClientOk, hpc₂] at hok
  refine ⟨s₃, h₃, ⟨r, hpc₃, ?_, ?_⟩,
    ((Moved.of_step hs₁ (.inl ⟨op, rfl⟩)).trans (.of_step hs₂ (.inr rfl))).trans hmoved⟩
  · rw [hresp, hok.2.2, Bool.not_not]
  · unfold Busy
    rw [hmoved.jobs, hmoved.fiber]
    exact hok.1.2

/-- The trustee comes to the request of `c` when it has no other before it. -/
theorem Reachable.comes_to (h : Reachable bin w value s) {op : Op T V R} {r : Bool}
    (ho : Outstanding s c op r) (honly : s.Only c) (hl : c < s.clients.length)
    (hpc : s.pc = .loop) :
    ∃ u b, Labours bin s u ∧ u.pc = .record b ∧ b.left ≠ 0 ∧ b.chan = c := by
  let Before : Sys T V R → Prop := fun t => Reachable bin w value t ∧ Outstanding t c op r ∧
    t.Only c ∧ c < t.clients.length
  have goes : ∀ t, Before t → t.pc.visiting? = none → ¬ t.Ending → ∃ v,
      t.step bin .trustee = some v ∧ Before v := by
    rintro t ⟨ht, hot, hon, hlt⟩ hv hno
    obtain ⟨v, hv'⟩ := Option.ne_none_iff_exists'.mp (ht.inv.trustee_moves hno)
    have hs : t.step bin .trustee = some v := hv'
    exact ⟨v, hs, ht.next (a := .trustee) trivial hs, hot.passed_by ht hs (by simp [hv]),
      fun c' hc' => hon c' (hc'.trans (ht.inv.pending_le (by simp) hs c')), ht.listed hlt hv'⟩
  obtain ⟨t, ht, hbt, hcoming⟩ : ∃ t, Labours bin s t ∧ Before t ∧ Coming t c := by
    refine Machine.Reach.until
      (P := fun t => Before t ∧ (t.pc = .loop ∨ ∃ d, t.pc = .drain d)) Sys.intake ?_
      ⟨⟨h, ho, honly, hl⟩, .inl hpc⟩
    rintro t ⟨hb, hpc⟩
    right
    obtain ⟨v, hv, hbv⟩ := goes t hb
      (by rcases hpc with hpc | ⟨d, hpc⟩ <;> rw [hpc] <;> rfl)
      (by rcases hpc with hpc | ⟨d, hpc⟩ <;> simp [Sys.Ending, hpc])
    refine ⟨.trustee, v, rfl, hv, ?_⟩
    rcases hb.1.begins hb.2.2.2 hpc hv with hc | ⟨hd, hlt⟩
    · exact .inl ⟨hbv, hc⟩
    · exact .inr ⟨⟨hbv, .inr hd⟩, hlt⟩
  obtain ⟨u, hu, b, hpc, hleft, hchan⟩ : ∃ u, Labours bin t u ∧
      ∃ b, u.pc = .record b ∧ b.left ≠ 0 ∧ b.chan = c := by
    refine Machine.Reach.until (P := fun t => Before t ∧ Coming t c) Sys.turn ?_ ⟨hbt, hcoming⟩
    rintro x ⟨hb, hc⟩
    right
    have hno : x.pc.visiting? = none ∧ ¬ x.Ending := by
      unfold Coming at hc
      split at hc
      · simp_all [TrusteePc.visiting?, Sys.Ending]
      · simp_all [TrusteePc.visiting?, Sys.Ending]
      · exact absurd hc id
    obtain ⟨v, hv, hbv⟩ := goes x hb hno.1 hno.2
    refine ⟨.trustee, v, rfl, hv, ?_⟩
    rcases hb.1.comes hb.2.1 hb.2.2.2 hc hv with ⟨b, hbatch⟩ | hc'
    · left
      obtain ⟨hpc, hleft⟩ := hb.1.takes hno.1 hv hbatch
      obtain ⟨op', hs, _⟩ := hbv.1.inv.serving b hbatch
      exact ⟨b, hpc, hleft, hbv.2.2.1 _ (hbv.1.inv.pending_outstanding.mpr ⟨op', _, hs⟩).ge⟩
    · refine .inr ⟨⟨hbv, hc'⟩, hb.1.turns hc.inside hv ?_ (by simp [hno.1])⟩
      unfold Coming at hc'
      split at hc'
      · simp_all [Sys.exited]
      · simp_all [Sys.exited]
      · exact absurd hc' id
  exact ⟨u, b, Machine.Reach.trans ht hu, hpc, hleft, hchan⟩

theorem Op.Mutates.access {op : Op T V R} (h : op.Mutates) {ch : ChannelPair T R} {k : Nat}
    (hh : Holds bin ch k op) : (ch.records hdrOffset).env.access = .exclusive := by
  unfold Holds at hh
  cases op with
  | apply f | applyBatchMut f n => rw [← Option.some.inj hh]
  | applyWith f v =>
    obtain ⟨args, _, hh⟩ := Option.bind_eq_some_iff.mp hh
    rw [← Option.some.inj hh]
  | _ => exact absurd h id

/-- From the record of a mutating request the trustee goes into its closure. -/
theorem Reachable.enters_closure (h : Reachable bin w value s) {b : Batch}
    (hpc : s.pc = .record b) (hleft : b.left ≠ 0) {op : Op T V R} {r : Bool}
    (hcl : (s.client b.chan).pc = .waiting op r) (hmut : op.Mutates) :
    ∃ u, Labours bin s u ∧ u.inProgress none = some .exclusive := by
  obtain ⟨op', ho, he, _⟩ := h.inv.recordStep_taken hpc hleft
  obtain ⟨rfl, _⟩ := ClientPc.waiting.inj (hcl.symm.trans ho.1)
  let b' : Batch := { b with cursor := hdrOffset }
  have hreps : ¬ (op.hdr.propertyPtr = .callMutRetUnit ∧ ¬ 0 < op.hdr.repeatCount.toNat) := by
    rintro ⟨hunit, hzero⟩
    cases op with
    | applyBatchMut f n =>
      refine hmut (UInt8.toNat_inj.mp ?_)
      simp [Op.hdr] at hzero
      simpa using hzero
    | _ => cases hunit
  have hok := h.inv.client b.chan
  simp only [ClientOk, ho.1] at hok
  have haccess := hmut.access hok.2.2.1
  have hrecord : s.step bin .trustee = some (s.goto (.calling b' op.hdr 0)) := by
    simp only [Sys.step, Sys.trusteeStep, hpc, he]
    cases op <;> first | rfl | exact absurd hmut id
  have hcalling : (s.goto (.calling b' op.hdr 0)).step bin .trustee = some
      (s.goto (.inClosure b' op.hdr 0 ((s.chan b.chan).records hdrOffset).env
        ((s.chan b.chan).records hdrOffset).args ((s.chan b.chan).records hdrOffset).seq)) := by
    simp only [Sys.step, Sys.trusteeStep, Sys.goto, if_neg hreps, b']
  have hrun : Labours bin s _ := Machine.Reach.start.next rfl hrecord
  refine ⟨_, Machine.Reach.next hrun rfl hcalling, ?_⟩
  simp [Sys.inProgress, Sys.goto, haccess]

/-- From the record of a launch the trustee hands it to a fiber. -/
theorem Reachable.hands_over (h : Reachable bin w value s) {b : Batch}
    (hpc : s.pc = .record b) (hleft : b.left ≠ 0) {f : Body T R} {r : Bool}
    (hcl : (s.client b.chan).pc = .waiting (.launch f) r) (honly : s.Only b.chan) :
    ∃ u, Labours bin s u ∧ u.exited = false ∧ u.Calm ∧
      ∃ j job, u.jobs[j]? = some job ∧ u.fiber j = .queued := by
  obtain ⟨op', ho, he, hseq⟩ := h.inv.recordStep_taken hpc hleft
  obtain ⟨rfl, _⟩ := ClientPc.waiting.inj (hcl.symm.trans ho.1)
  let b' : Batch := { b with cursor := hdrOffset }
  let u := s.dispatch b' ((s.chan b.chan).records hdrOffset)
  have hs : s.step bin .trustee = some u := by
    simp only [Sys.step, Sys.trusteeStep, hpc, he]
    rfl
  have hrun : Labours bin s u := Machine.Reach.start.next rfl hs
  let job : Job := ⟨b.chan, hdrOffset, ((s.chan b.chan).records hdrOffset).seq, b.reqReady⟩
  have hjob : u.jobs[s.jobs.length]? = some job := by
    simp [u, Sys.dispatch, job, b']
  refine ⟨u, hrun, rfl, ?_, s.jobs.length, job, hjob, by simp [u, Sys.dispatch]⟩
  intro c
  by_cases hc : c = b.chan
  · subst hc
    have hserved : Served u b.chan (u.client b.chan).seq :=
      .inl ⟨job, List.mem_of_getElem? hjob, rfl, hseq⟩
    exact Sys.pending_served hcl hserved
  · have hle := h.inv.pending_le (by simp) hs c
    by_contra hn
    exact hc (honly c (by omega))

theorem Sys.Calm.of_idle (h : ∀ c, (s.client c).pc = .idle) : s.Calm := by
  intro c
  simp [Sys.pending, h c]

theorem Sys.exited_loop (h : s.pc = .loop) : s.exited = false := by simp [Sys.exited, h]

theorem Reachable.listed_created (h : Reachable bin w value s) (hl : c < s.clients.length) :
    c < s.created := by
  have := h.clients_le
  omega

end Labour

section Scripts

variable (bin : Bincode V) (w : Workload T V R) (value : T)

theorem exists_registered (n : Nat) : ∃ s : Sys T V R, Reachable bin w value s ∧ s.created = n ∧
    s.pc = .loop ∧ ∀ c, (s.client c).pc = .idle := by
  induction n with
  | zero => exact ⟨_, .start, rfl, rfl, fun _ => rfl⟩
  | succ n ih =>
    obtain ⟨s, hr, hn, hpc, hidle⟩ := ih
    exact ⟨s.register, hr.next (a := .register) trivial rfl, congrArg (· + 1) hn, hpc, hidle⟩

/-- Any number of clients can be in the trustee's list with nothing to do. -/
theorem exists_listed (n : Nat) : ∃ s : Sys T V R, Reachable bin w value s ∧ n < s.clients.length ∧
    s.pc = .loop ∧ ∀ c, (s.client c).pc = .idle := by
  obtain ⟨s, hr, hcreated, hpc, hidle⟩ := exists_registered bin w value (n + 1)
  obtain ⟨t, ht, hlisted, hex⟩ := (Sys.Calm.of_idle hidle).takes_up hr (Sys.exited_loop hpc)
    (show n < s.created by omega)
  have hidle' : ∀ c, (t.client c).pc = .idle := by rw [ht.clients.1]; exact hidle
  obtain ⟨u, hu, hloop⟩ := (Sys.Calm.of_idle hidle').comes_round (ht.reach hr) hex
  refine ⟨u, hu.reach (ht.reach hr), hlisted.trans_le (hu.listed (ht.reach hr)), hloop, ?_⟩
  rw [hu.clients.1]
  exact hidle'

/-- A client that may launch can have a closure in progress while the other clients and the
trustee are idle. -/
theorem exists_launched {n c : Nat} {f : Body T R} (hc : c ≤ n) (hw : w c (.launch f)) :
    ∃ s : Sys T V R, Reachable bin w value s ∧ n < s.clients.length ∧ s.pc = .loop ∧ s.Calm ∧
      (∀ c', c' ≠ c → (s.client c').pc = .idle) ∧ ∃ j a, s.inProgress (some j) = some a := by
  obtain ⟨s, hr, hn, hpc, hidle⟩ := exists_listed bin w value n
  have hlisted : c < s.clients.length := by omega
  obtain ⟨t, hrt, ⟨r, ho⟩, hmoved⟩ := hr.publishes (hidle c) (hr.listed_created hlisted) hw
    (by simp [Op.encode])
  have honly : t.Only c := hmoved.only (.of_idle hidle)
  obtain ⟨u, b, hu, hrec, hleft, rfl⟩ := hrt.comes_to ho honly (by rwa [hmoved.clients])
    (hmoved.pc.trans hpc)
  have hru := hu.reach hrt
  obtain ⟨v, hv, hex, hcalm, j, job, hj, hqueued⟩ := hru.hands_over hrec hleft
    (by rw [hu.clients.1]; exact ho.1) (fun c' hfour => honly c' (hfour.trans (hu.pending hrt c')))
  have hrv := hv.reach hru
  obtain ⟨x, hx, hloop⟩ := hcalm.comes_round hrv hex
  have hrx := hx.reach hrv
  have hrun : Labours bin t x := Machine.Reach.trans hu (Machine.Reach.trans hv hx)
  obtain ⟨hjx, hfx⟩ := hx.job hj
  obtain ⟨y, env, args, seq, hy, hfy⟩ : ∃ y env args seq, x.step bin (.fiber j) = some y ∧
      y.fiber j = .running env args seq := by
    simp only [Sys.step, Sys.fiberStep, hjx, hfx, hqueued]
    exact ⟨_, _, _, _, rfl, Function.update_self j _ _⟩
  have hry : Reachable bin w value y := hrx.next (a := .fiber j) trivial hy
  obtain ⟨hpcy, hclientsy, _, hjobsy⟩ := Sys.step_aside hy (by simp)
  obtain ⟨_, _, hcly, _⟩ := Sys.fiberStep_frame hy
  refine ⟨y, hry, ?_, hpcy.trans hloop, fun c' => ?_, fun c' hne => ?_, j, env.access, ?_⟩
  · have hgrown : t.clients.length ≤ x.clients.length := hrun.listed hrt
    rw [hmoved.clients] at hgrown
    rw [hclientsy]
    omega
  · exact ((hrx.inv.pending_le (by simp) hy c').trans (hx.pending hrv c')).trans (hcalm c')
  · rw [hcly, hrun.clients.1, (hmoved.other c' hne).1, hidle c']
  · simp only [Sys.inProgress, hjobsy, hjx, hfy]

/-- Where one client may launch and another mutate, a closure with `&mut T` can run beside one
in progress. -/
theorem exists_clash {c c' : Nat} {f : Body T R} {op : Op T V R} (hne : c' ≠ c)
    (hlaunch : w c (.launch f)) (hw : w c' op) (hmut : op.Mutates)
    (henc : ∀ k, op.encode bin k ≠ none) :
    ∃ s : Sys T V R, Reachable bin w value s ∧ ¬ Exclusive s := by
  obtain ⟨s, hr, hn, hpc, hcalm, hidle, j, a, hj⟩ :=
    exists_launched bin w value (le_max_left c c') hlaunch
  have hlisted : c' < s.clients.length := lt_of_le_of_lt (le_max_right c c') hn
  obtain ⟨t, hrt, ⟨r, ho⟩, hmoved⟩ := hr.publishes (hidle c' hne) (hr.listed_created hlisted) hw
    (henc _)
  obtain ⟨u, b, hu, hrec, hleft, rfl⟩ := hrt.comes_to ho (hmoved.only hcalm) (by rwa [hmoved.clients])
    (hmoved.pc.trans hpc)
  obtain ⟨v, hv, hexclusive⟩ := (hu.reach hrt).enters_closure hrec hleft
    (by rw [hu.clients.1]; exact ho.1) hmut
  refine ⟨v, hv.reach (hu.reach hrt), fun h => ?_⟩
  obtain ⟨job, env, args, seq, hjob, hrun, rfl⟩ := inProgress_fiber hj
  obtain ⟨hju, hfu⟩ := hu.job (show t.jobs[j]? = some job by rw [hmoved.jobs, hjob])
  obtain ⟨hjv, hfv⟩ := hv.job hju
  have hbeside : v.inProgress (some j) = some env.access := by
    simp only [Sys.inProgress, hjv, hfv, hfu, hmoved.fiber, hrun]
  exact Option.some_ne_none _ (h none (some j) _ hexclusive hbeside)

end Scripts

/-- The operations of a workload that can be sent. -/
def Workload.sendable (bin : Bincode V) (w : Workload T V R) : Workload T V R :=
  fun c op => w c op ∧ op.encode bin 0 ≠ none

theorem Op.encode_any {bin : Bincode V} {op : Op T V R} {k : Nat} (k' : Nat)
    (h : op.encode bin k ≠ none) : op.encode bin k' ≠ none := by
  cases op with
  | applyWith f v => cases hs : bin.serialize v <;> simp_all [Op.encode]
  | _ => simp [Op.encode]

theorem Reachable.sendable {bin : Bincode V} {w : Workload T V R} {value : T} {s : Sys T V R}
    (h : Reachable bin w value s) : Reachable bin (w.sendable bin) value s := by
  refine h.invariant (P := Reachable bin (w.sendable bin) value) .start ?_
  intro t a v ht ha hs
  refine ht.next ?_ hs
  cases a with
  | issue c op =>
    refine ⟨ha, fun hnone => ?_⟩
    have hnone' : op.encode bin (t.client c).seq = none := by
      by_contra hn
      exact Op.encode_any 0 hn hnone
    simp only [Sys.step, Sys.issue, hnone'] at hs
    repeat' split at hs
    all_goals cases hs
  | _ => trivial

/-- A workload keeps access exclusive in every run exactly if no two of its clients may send
operations that clash. -/
theorem exclusive_for_iff_separated {bin : Bincode V} {w : Workload T V R} {value : T} :
    (∀ s, Reachable bin w value s → Exclusive s) ↔ Separated (w.sendable bin) := by
  constructor
  · rintro h c c' op op' hne ⟨hw, henc⟩ ⟨hw', henc'⟩ hclash
    rcases hclash with ⟨hlaunch, hmut⟩ | ⟨hmut, hlaunch⟩
    · cases op with
      | launch f =>
        obtain ⟨s, hr, hno⟩ := exists_clash bin w value hne.symm hw hw' hmut
          (fun k => Op.encode_any k henc')
        exact hno (h s hr)
      | _ => exact absurd hlaunch id
    · cases op' with
      | launch f =>
        obtain ⟨s, hr, hno⟩ := exists_clash bin w value hne hw' hw hmut
          (fun k => Op.encode_any k henc)
        exact hno (h s hr)
      | _ => exact absurd hlaunch id
  · intro h s hr
    exact hr.exclusive (fun c c' op op' hc hop hop' =>
      h c c' op op' hc (hr.sendable.permitted hop) (hr.sendable.permitted hop'))

end TrustTee
