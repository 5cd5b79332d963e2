import TrustTee.Rounds
import TrustTee.Endless
import Mathlib.Algebra.Order.BigOperators.Group.Finset

set_option autoImplicit false

namespace TrustTee
open Header AtomicObject

variable {T V R : Type}

/-- How much of its operation a client has before it: encoded, loaded, published, in the
hands of a fiber, answered, read. -/
def Sys.pending (s : Sys T V R) (c : Nat) : Nat :=
  match (s.client c).pc with
  | .encoded _ => 6
  | .loaded _ _ => 5
  | .waiting _ r =>
    if ready (s.chan c).respWord = r then 2
    else if s.jobs.any (fun job => job.chan = c ∧ job.seq = (s.client c).seq) then 3
    else 4
  | .reading _ => 1
  | .idle | .owning _ | .gone => 0

def Sys.backlog (s : Sys T V R) : Nat := ∑ c ∈ Finset.range s.created, s.pending c

section Pending

variable {bin : Bincode V} {w : Workload T V R} {value : T} {s s' : Sys T V R} {c : Nat}

theorem Sys.pending_waiting {op : Op T V R} {r : Bool} (hpc : (s.client c).pc = .waiting op r) :
    s.pending c = if ready (s.chan c).respWord = r then 2
      else if ∃ job ∈ s.jobs, job.chan = c ∧ job.seq = (s.client c).seq then 3 else 4 := by
  simp [Sys.pending, hpc]

theorem Sys.pending_bounds {op : Op T V R} {r : Bool} (hpc : (s.client c).pc = .waiting op r) :
    2 ≤ s.pending c ∧ s.pending c ≤ 4 := by
  rw [Sys.pending_waiting hpc]
  split
  · omega
  · split <;> omega

theorem Inv.pending_outstanding (hi : Inv bin s) :
    s.pending c = 4 ↔ ∃ op r, Outstanding s c op r := by
  constructor
  · intro h
    obtain ⟨op, r, hpc⟩ : ∃ op r, (s.client c).pc = .waiting op r := by
      cases hpc : (s.client c).pc <;> simp [Sys.pending, hpc] at h ⊢
    rw [Sys.pending_waiting hpc] at h
    split at h
    · simp at h
    rename_i hresp
    split at h
    · simp at h
    rename_i hjob
    refine ⟨op, r, hpc, by cases r <;> simpa using hresp, ?_⟩
    rintro ⟨j, job, hj, rfl, ho⟩
    obtain ⟨_, _, _, hopen, _⟩ := hi.job j job hj
    exact hjob ⟨job, List.mem_of_getElem? hj, rfl, (hopen ho).1⟩
  · rintro ⟨op, r, hpc, hresp, hb⟩
    rw [Sys.pending_waiting hpc, if_neg (by simp [hresp]), if_neg]
    rintro ⟨job, hj, rfl, hseq⟩
    obtain ⟨j, hj⟩ := List.mem_iff_getElem?.mp hj
    obtain ⟨_, _, _, _, hshut, _⟩ := hi.job j job hj
    cases ho : (s.fiber j).open_ with
    | true => exact hb ⟨j, job, hj, rfl, ho⟩
    | false =>
      obtain ⟨f, ⟨hpc', hresp'⟩ | hpc'⟩ := hshut ho hseq
      · obtain ⟨_, rfl⟩ := ClientPc.waiting.inj (hpc.symm.trans hpc')
        simp [hresp] at hresp'
      · simp [hpc] at hpc'

theorem Inv.pending_busy (hi : Inv bin s) (h : s.pending c = 3) : Busy s c := by
  obtain ⟨op, r, hpc⟩ : ∃ op r, (s.client c).pc = .waiting op r := by
    cases hpc : (s.client c).pc <;> simp [Sys.pending, hpc] at h ⊢
  by_contra hb
  have hresp : ready (s.chan c).respWord = !r := by
    have := Sys.pending_waiting hpc
    by_contra hr
    rw [if_pos (by cases r <;> simpa using hr)] at this
    omega
  have := hi.pending_outstanding.mpr ⟨op, r, hpc, hresp, hb⟩
  omega

theorem Sys.pending_served {op : Op T V R} {r : Bool} (hpc : (s.client c).pc = .waiting op r)
    (h : Served s c (s.client c).seq) : s.pending c ≤ 3 := by
  rw [Sys.pending_waiting hpc]
  rcases h with ⟨job, hj, hjob⟩ | h | ⟨_, ⟨op', hpc'⟩ | ⟨op', r', hpc', hr⟩⟩
  · split
    · omega
    · rw [if_pos ⟨job, hj, hjob⟩]
  · omega
  · simp [hpc] at hpc'
  · obtain ⟨_, rfl⟩ := ClientPc.waiting.inj (hpc.symm.trans hpc')
    simp [hr]

theorem Inv.pending_le (hi : Inv bin s) {a : Action T V R} (ha : ∀ c op, a ≠ .issue c op)
    (hs : s.step bin a = some s') (c : Nat) : s'.pending c ≤ s.pending c := by
  have same : s'.client c = s.client c → s'.pending c ≤ s.pending c := by
    intro hcl
    cases hpc : (s.client c).pc with
    | waiting op r =>
      have hpc' : (s'.client c).pc = .waiting op r := by rw [hcl, hpc]
      rw [Sys.pending_waiting hpc, Sys.pending_waiting hpc', hcl]
      by_cases hr : ready (s.chan c).respWord = r
      · -- an answer stays
        have hans : Answered (s.client c) (s.chan c) (s.client c).seq :=
          .inr ⟨rfl, .inr ⟨op, r, hpc, hr⟩⟩
        rcases hans.step hi hs with h | ⟨_, ⟨op', h⟩ | ⟨op', r', h, hr'⟩⟩
        · rw [hcl] at h
          omega
        · simp [hpc'] at h
        · obtain ⟨_, rfl⟩ := ClientPc.waiting.inj (hpc'.symm.trans h)
          rw [if_pos hr, if_pos hr']
      · rw [if_neg hr]
        by_cases hj : ∃ job ∈ s.jobs, job.chan = c ∧ job.seq = (s.client c).seq
        · obtain ⟨job, hjs, hjc⟩ := id hj
          have hj' : ∃ job ∈ s'.jobs, job.chan = c ∧ job.seq = (s.client c).seq :=
            ⟨job, hi.keeps_jobs hs hjs, hjc⟩
          rw [if_pos hj, if_pos hj']
          split <;> omega
        · rw [if_neg hj]
          split
          · omega
          · split <;> omega
    | _ => simp [Sys.pending, hcl, hpc]
  rcases Sys.step_client hs c with hcl | ⟨next, _⟩
  · exact same hcl
  · generalize hpc : (s.client c).pc = pc at next
    generalize hpc' : (s'.client c).pc = pc' at next
    cases next with
    | encode op => exact absurd rfl (ha c op)
    | publish op r =>
      have hfive : s.pending c = 5 := by simp [Sys.pending, hpc]
      have := (Sys.pending_bounds hpc').2
      omega
    | answered op r =>
      have hone : s'.pending c = 1 := by simp [Sys.pending, hpc']
      have := (Sys.pending_bounds hpc).1
      omega
    | _ => simp [Sys.pending, hpc, hpc']

theorem Sys.pending_pos (h : s.pending c ≠ 0) : (s.client c).pc ≠ .idle := by
  intro hpc
  simp [Sys.pending, hpc] at h

/-- The clients together have less before them, or each has what it had. -/
theorem Reachable.backlog_step (h : Reachable bin w value s) {a : Action T V R}
    (ha : ∀ c op, a ≠ .issue c op) (hs : s.step bin a = some s') :
    s'.backlog < s.backlog ∨ s'.backlog = s.backlog ∧ ∀ c, s'.pending c = s.pending c := by
  have hle := h.inv.pending_le ha hs
  have hborn : ∀ c, s.pending c ≠ 0 → c < s.created := by
    intro c hc
    by_contra hlt
    exact Sys.pending_pos hc (h.unregistered (not_lt.mp hlt))
  have hwide : s.backlog = ∑ c ∈ Finset.range s'.created, s.pending c := by
    refine Finset.sum_subset ?_ ?_
    · intro c hc
      have := Sys.step_created hs
      simp only [Finset.mem_range] at hc ⊢
      omega
    · intro c _ hc
      by_contra hp
      exact hc (Finset.mem_range.mpr (hborn c hp))
  by_cases hex : ∃ c, s'.pending c < s.pending c
  · left
    obtain ⟨c, hc⟩ := hex
    rw [hwide]
    refine Finset.sum_lt_sum (fun c _ => hle c) ⟨c, ?_, hc⟩
    have := hborn c (by omega)
    have := Sys.step_created hs
    simp only [Finset.mem_range]
    omega
  · right
    have heq : ∀ c, s'.pending c = s.pending c := by
      intro c
      have := hle c
      have : ¬ s'.pending c < s.pending c := fun hc => hex ⟨c, hc⟩
      omega
    exact ⟨by rw [hwide]; exact Finset.sum_congr rfl (fun c _ => heq c), heq⟩

theorem Reachable.client_helps (h : Reachable bin w value s)
    (hp : s.pending c ≠ 0 ∧ s.pending c ≠ 3 ∧ s.pending c ≠ 4) :
    ∃ t, s.clientStep c = some t ∧ t.pending c < s.pending c := by
  cases hpc : (s.client c).pc with
  | encoded op =>
    refine ⟨s.setClient c ⟨(s.client c).seq, .loaded op (!ready (s.chan c).respWord)⟩, ?_, ?_⟩
    · simp only [Sys.clientStep, hpc]
    · simp [Sys.pending, hpc, Sys.setClient]
  | loaded op r =>
    let t := (s.setChan c { s.chan c with reqWord := packReadyCount r 1 }).setClient c
      ⟨(s.client c).seq, .waiting op r⟩
    refine ⟨t, by simp only [Sys.clientStep, hpc, t], ?_⟩
    have hfive : s.pending c = 5 := by simp [Sys.pending, hpc]
    have hwait : (t.client c).pc = .waiting op r := by simp [t, Sys.setClient]
    have := (Sys.pending_bounds hwait).2
    omega
  | waiting op r =>
    have htwo : ready (s.chan c).respWord = r := by
      by_contra hr
      have := Sys.pending_waiting hpc
      rw [if_neg hr] at this
      split at this <;> omega
    refine ⟨s.setClient c ⟨(s.client c).seq, .reading op⟩, ?_, ?_⟩
    · cases op with
      | terminate =>
        obtain ⟨o, _, hr⟩ := h.refines
        obtain ⟨i, last, _, hans, _⟩ := (hr.phase c).waiting hpc
        exact absurd (hans htwo).2 id
      | _ => simp [Sys.clientStep, hpc, htwo]
    · have := (Sys.pending_bounds hpc).1
      have hone : (s.setClient c ⟨(s.client c).seq, .reading op⟩).pending c = 1 := by
        simp [Sys.pending, Sys.setClient]
      omega
  | reading op =>
    have hone : s.pending c = 1 := by simp [Sys.pending, hpc]
    rw [hone]
    by_cases hop : op = .intoInner
    · subst hop
      refine ⟨(s.setClient c ⟨(s.client c).seq + 1, .owning (s.chan c).respData⟩).log
        (.ret c (s.client c).seq (s.chan c).respData), by simp only [Sys.clientStep, hpc], ?_⟩
      simp [Sys.pending, Sys.setClient, Sys.log]
    · refine ⟨(s.setClient c ⟨(s.client c).seq + 1, .idle⟩).log
        (.ret c (s.client c).seq (op.reply (s.chan c).respData)), ?_, ?_⟩
      · cases op <;> first | exact absurd rfl hop | simp only [Sys.clientStep, hpc]
      · simp [Sys.pending, Sys.setClient, Sys.log]
  | _ => simp [Sys.pending, hpc] at hp

def FiberPc.left : FiberPc T R → Nat
  | .queued => 4
  | .running _ _ _ => 3
  | .writing _ => 2
  | .guard => 1
  | .signalled | .finished => 0

theorem Inv.fiber_helps (hi : Inv bin s) {j : Nat} {job : Job} (hj : s.jobs[j]? = some job)
    (ho : (s.fiber j).open_ = true) (hs : s.fiberStep j = some s') :
    s'.pending job.chan ≤ 2 ∨
      (s'.fiber j).open_ = true ∧ (s'.fiber j).left < (s.fiber j).left := by
  obtain ⟨_, _, _, hopen, _⟩ := hi.job j job hj
  obtain ⟨_, _, f, hpc⟩ := hopen ho
  unfold Sys.fiberStep at hs
  simp only [hj] at hs
  cases hf : s.fiber j with
  | queued | writing r =>
    simp only [hf, Option.some.injEq] at hs
    subst hs
    exact .inr (by simp [Sys.setFiber, FiberPc.open_, FiberPc.left])
  | running env args seq =>
    simp only [hf] at hs
    split at hs <;> obtain rfl := Option.some.inj hs <;>
      exact .inr (by simp [Sys.setFiber, FiberPc.open_, FiberPc.left])
  | guard =>
    simp only [hf, Option.some.injEq] at hs
    left
    have hpc' : (s'.client job.chan).pc = .waiting (.launch f) job.reqReady := by rw [← hs]; exact hpc
    rw [Sys.pending_waiting hpc', ← hs, if_pos]
    simp [Sys.setFiber, Sys.setChan]
  | signalled | finished => simp [hf, FiberPc.open_] at ho

theorem Sys.step_other_fiber {a : Action T V R} (hs : s.step bin a = some s') {j : Nat}
    (ha : a ≠ .fiber j) {job : Job} (hj : s.jobs[j]? = some job) :
    s'.jobs[j]? = some job ∧ s'.fiber j = s.fiber j := by
  obtain ⟨hlt, _⟩ := List.getElem?_eq_some_iff.mp hj
  by_cases ht : a = .trustee
  · subst ht
    rcases Sys.trusteeStep_launches hs with ⟨hjobs, hfiber⟩ | ⟨x, hjobs, hfiber, _⟩
    · exact ⟨hjobs ▸ hj, by rw [hfiber]⟩
    · refine ⟨by rw [hjobs, List.getElem?_append_left hlt, hj], ?_⟩
      rw [hfiber, Function.update_of_ne (by omega)]
  by_cases hf : ∃ i, a = .fiber i
  · obtain ⟨i, rfl⟩ := hf
    obtain ⟨_, _, _, hjobs, _, hother, _⟩ := Sys.fiberStep_frame hs
    exact ⟨hjobs ▸ hj, hother j (fun h => ha (h ▸ rfl))⟩
  · obtain ⟨_, _, _, hjobs, hfiber⟩ := (Sys.step_beside hs ht (fun i hi => hf ⟨i, hi⟩)).worker
    exact ⟨hjobs ▸ hj, by rw [hfiber]⟩

end Pending

/-- The steps of a run in which nobody begins an operation any more. -/
def Settled (_ : Sys T V R) (a : Action T V R) : Prop := ∀ c op, a ≠ .issue c op

def Steady (bin : Bincode V) (s : Sys T V R) (a : Action T V R) : Prop :=
  Settled s a ∧ ∀ t, s.step bin a = some t → ¬ t.Ending

/-- Client `c` waits for the trustee, and together the clients have `m` before them. -/
structure Standstill (bin : Bincode V) (value : T) (m c : Nat) (s : Sys T V R) : Prop
    extends Working bin value s where
  backlog : s.backlog = m
  waits : s.pending c = 4

section Trustee

variable {bin : Bincode V} {value : T} {s s' : Sys T V R} {m c : Nat}

theorem Settled.permits {w : Workload T V R} {a : Action T V R} (ha : Settled s a) :
    w.permits a := by
  cases a with
  | issue c op => exact absurd rfl (ha c op)
  | _ => trivial

theorem Working.steady (h : Working bin value s) {a : Action T V R} (ha : Steady bin s a)
    (hs : s.step bin a = some s') : Working bin value s' :=
  h.next ha.1.permits hs (ha.2 s' hs)

theorem Standstill.step (h : Standstill bin value m c s) {a : Action T V R}
    (ha : Steady bin s a) (hs : s.step bin a = some s') :
    s'.backlog < m ∨ Standstill bin value m c s' := by
  rcases h.reach.backlog_step ha.1 hs with hlt | ⟨heq, hp⟩
  · exact .inl (h.backlog ▸ hlt)
  · exact .inr ⟨h.steady ha hs, heq.trans h.backlog, (hp c).trans h.waits⟩

theorem Standstill.outstanding (h : Standstill bin value m c s) : ∃ op r, Outstanding s c op r :=
  h.reach.inv.pending_outstanding.mp h.waits

theorem Standstill.born (h : Standstill bin value m c s) : c < s.created := by
  by_contra hc
  have := h.waits
  exact Sys.pending_pos (by omega) (h.reach.unregistered (not_lt.mp hc))

def Coming (s : Sys T V R) (c : Nat) : Prop :=
  match s.pc with
  | .sweep n offs => ∃ o, offs ≤ o ∧ o < n ∧ RoundRobin.index n s.startIdx o = c
  | .loadedReq n offs idx _ w => (idx = c ∧ w = (s.chan c).reqWord) ∨
      ∃ o, offs < o ∧ o < n ∧ RoundRobin.index n s.startIdx o = c
  | _ => False

theorem Reachable.comes {w : Workload T V R} (h : Reachable bin w value s) {op : Op T V R}
    {r : Bool} (hout : Outstanding s c op r) (hl : c < s.clients.length) (hc : Coming s c)
    (hs : s.trusteeStep = some s') : (∃ b, s'.pc.batch? = some b) ∨ Coming s' c := by
  obtain ⟨cp, hcp, hchan⟩ := h.client_at hl
  unfold Coming at hc
  unfold Sys.trusteeStep at hs
  split at hc
  · rename_i n offs hpc
    obtain ⟨o, hle, hlt, ho⟩ := hc
    simp only [hpc] at hs
    split at hs
    · split at hs <;> obtain rfl := Option.some.inj hs
      · rename_i cp' hcp'
        right
        by_cases he : o = offs
        · subst he
          have hcp'' : s.clients[RoundRobin.index n s.startIdx o]? = some cp' := hcp'
          rw [ho, hcp] at hcp''
          obtain rfl := Option.some.inj hcp''
          exact .inl ⟨ho, by rw [hchan]; rfl⟩
        · exact .inr ⟨o, by omega, hlt, ho⟩
      · rename_i hnone
        have hnone' : s.clients[RoundRobin.index n s.startIdx offs]? = none := hnone
        have hidx : RoundRobin.index n s.startIdx offs < s.clients.length := by
          have hshape := h.inv.shape
          simp only [hpc, Shape] at hshape
          rw [← hshape.1]
          exact RoundRobin.index_lt hshape.2 (by omega)
        rw [List.getElem?_eq_none_iff] at hnone'
        omega
    · rename_i hpast
      exact absurd (lt_of_le_of_lt hle hlt) hpast
  · rename_i n offs idx c' w hpc
    simp only [hpc] at hs
    split at hs <;> simp only [Option.some.injEq, reduceCtorEq] at hs
    rename_i cp' hcp'
    subst hs
    rcases hc with ⟨rfl, rfl⟩ | ⟨o, hlt, hlt', ho⟩
    · obtain rfl := Option.some.inj (hcp.symm.trans hcp')
      subst hchan
      rw [h.inv.visit_serves hcp hout, TrusteePc.batch?, if_neg (by simp)]
      exact .inl ⟨_, rfl⟩
    · cases hf : cp'.found w (s.chan cp'.chan).respWord with
      | true =>
        rw [Sys.visit_found hf, TrusteePc.batch?, if_neg (by simp)]
        exact .inl ⟨_, rfl⟩
      | false =>
        obtain ⟨hpc', hstart⟩ := @Sys.visit_not_found _ _ _ s n offs idx cp' w _ hf
        right
        simp only [Coming, hpc', hstart]
        exact ⟨o, hlt, hlt', ho⟩
  · exact absurd hc id

theorem Coming.inside (hc : Coming s c) : s.pc ≠ .loop := by
  intro hpc
  simp [Coming, hpc] at hc

theorem Standstill.chan_aside (h : Standstill bin value m c s) {a : Action T V R}
    (ha : a ≠ .trustee) (hs : s.step bin a = some s') : s'.chan c = s.chan c := by
  obtain ⟨op, r, ho⟩ := h.outstanding
  exact (ho.keep hs ha).2.2

theorem Reachable.listed {w : Workload T V R} (h : Reachable bin w value s)
    (hl : c < s.clients.length) (hs : s.trusteeStep = some s') : c < s'.clients.length := by
  have hstep : s.step bin .trustee = some s' := hs
  obtain ⟨_, hle, _⟩ := h.grows (Machine.Trace.start.next hstep)
  omega

theorem Reachable.begins {w : Workload T V R} (h : Reachable bin w value s)
    (hl : c < s.clients.length) (hpc : s.pc = .loop ∨ ∃ d, s.pc = .drain d)
    (hs : s.trusteeStep = some s') :
    Coming s' c ∨ (∃ d, s'.pc = .drain d) ∧ s'.intake < s.intake := by
  have hr : Reachable bin w value s' := h.next (a := .trustee) (by trivial) hs
  have hl' := h.listed hl hs
  rcases Sys.trusteeStep_between hs hpc with ⟨d, hpc', hlt⟩ | ⟨_, hnil⟩ | hpc'
  · exact .inr ⟨⟨d, hpc'⟩, hlt⟩
  · simp [hnil] at hl'
  · left
    have hshape := hr.inv.shape
    simp only [hpc', Shape] at hshape
    obtain ⟨o, ho, hidx⟩ := RoundRobin.index_surj hshape.2 hl'
    simp only [Coming, hpc']
    exact ⟨o, Nat.zero_le o, ho, hidx⟩

theorem Standstill.served (h : Standstill bin value m c s) (hs : s.trusteeStep = some s')
    {d : Nat} {op : Op T V R} {r : Bool} (ho : Outstanding s d op r)
    (hd : Served s' d (s.client d).seq) : s'.backlog < m := by
  have hcl := (Sys.trusteeStep_frame hs).1
  rcases h.reach.backlog_step (a := .trustee) (by simp) hs with hlt | ⟨_, hp⟩
  · exact h.backlog ▸ hlt
  · have hfour := h.reach.inv.pending_outstanding.mpr ⟨op, r, ho⟩
    have hpc : (s'.client d).pc = .waiting op r := by rw [hcl]; exact ho.1
    have hless := Sys.pending_served hpc (by rw [hcl]; exact hd)
    have := hp d
    omega

end Trustee

def Engaged (s : Sys T V R) (c k j : Nat) : Prop :=
  ∃ job, s.jobs[j]? = some job ∧ job.chan = c ∧ job.seq = k ∧ (s.fiber j).open_ = true

/-- The scheduler passes over none of the parties for ever. Nothing is said of the fibers that
are held up: their closures may be slow, or wait for something that never comes. -/
structure Fairly {bin : Bincode V}
    (p : Machine.Path (Sys.step bin : Sys T V R → Action T V R → Option (Sys T V R)))
    (held : Nat → Prop) : Prop where
  trustee : p.Fair (· = .trustee)
  fiber : ∀ j, ¬ held j → p.Fair (· = .fiber j)
  client : ∀ c, p.Fair (· = .client c)

section Paths

variable {bin : Bincode V} {value : T} {s : Sys T V R} {m c N n : Nat} {held : Nat → Prop}
  {p : Machine.Path (Sys.step bin : Sys T V R → Action T V R → Option (Sys T V R))}

theorem Standstill.phase {α : Type} [Preorder α] [WellFoundedLT α] {X Y : Sys T V R → Prop}
    (rank : Sys T V R → α) (hfair : Fairly p held)
    (hok : ∀ k, N ≤ k → Steady bin (p.state k) (p.act k))
    (helps : ∀ s t, Standstill bin value m c s → X s → s.trusteeStep = some t → ¬ t.Ending →
      t.backlog < m ∨ Y t ∨ X t ∧ rank t < rank s)
    (keeps : ∀ s t, Bystander s t → t.chan c = s.chan c → X s → X t ∧ rank t = rank s) (hn : N ≤ n)
    (h : Standstill bin value m c (p.state n)) (hX : X (p.state n)) :
    ∃ k, n ≤ k ∧ ((p.state k).backlog < m ∨
      Standstill bin value m c (p.state k) ∧ Y (p.state k)) := by
  refine Machine.Path.variant (P := fun s => Standstill bin value m c s ∧ X s)
    (Q := fun s => s.backlog < m ∨ Standstill bin value m c s ∧ Y s)
    rank hfair.trustee hok ?_ ?_ ?_ hn ⟨h, hX⟩
  · rintro s ⟨h, _⟩
    exact ⟨.trustee, rfl, h.trustee_moves⟩
  · rintro s a t ⟨h, hX⟩ ha hs rfl
    rcases h.step ha hs with hlt | ht
    · exact .inl (.inl hlt)
    rcases helps s t h hX hs ht.goes with hlt | hY | ⟨hX', hlt⟩
    · exact .inl (.inl hlt)
    · exact .inl (.inr ⟨ht, hY⟩)
    · exact .inr ⟨⟨ht, hX'⟩, hlt⟩
  · rintro s a t ⟨h, hX⟩ ha hs hne
    rcases h.step ha hs with hlt | ht
    · exact .inl (.inl hlt)
    obtain ⟨hX', heq⟩ := keeps s t (h.reach.aside hne hs) (h.chan_aside hne hs) hX
    exact .inr ⟨⟨ht, hX'⟩, le_of_eq heq⟩

theorem Standstill.batch_ends (hbin : bin.RoundTrips) (hfair : Fairly p held)
    (hok : ∀ k, N ≤ k → Steady bin (p.state k) (p.act k)) (hn : N ≤ n)
    (h : Standstill bin value m c (p.state n)) (hb : ∃ b, (p.state n).pc.batch? = some b) :
    ∃ k, n ≤ k ∧ (p.state k).backlog < m := by
  obtain ⟨k, hk, hlt | ⟨_, hno⟩⟩ := Standstill.phase (X := fun s => ∃ b, s.pc.batch? = some b)
    (Y := fun _ => False) Sys.turn hfair hok
    (by
      rintro s t h ⟨b, hb⟩ hs hgo
      have hloop : s.pc ≠ .loop := by
        intro hpc
        simp [hpc, TrusteePc.batch?] at hb
      obtain ⟨op, ho, _⟩ := h.reach.serves hb
      rcases h.reach.inv.serves hb hs with ⟨b', hb', _⟩ | hserved | ⟨cause, hx⟩
      · exact .inr (.inr ⟨⟨b', hb'⟩, h.rounds hbin hloop hs hgo⟩)
      · exact .inl (h.served hs ho hserved)
      · simp [Sys.Ending, hx] at hgo)
    (by
      rintro s t ha _ hb
      exact ⟨by rw [ha.pc]; exact hb, ha.turn⟩)
    hn h hb
  · exact ⟨k, hk, hlt⟩
  · exact absurd hno id

theorem Standstill.coming_ends (hbin : bin.RoundTrips) (hfair : Fairly p held)
    (hok : ∀ k, N ≤ k → Steady bin (p.state k) (p.act k)) (hn : N ≤ n)
    (h : Standstill bin value m c (p.state n)) (hl : c < (p.state n).clients.length)
    (hc : Coming (p.state n) c) : ∃ k, n ≤ k ∧ (p.state k).backlog < m := by
  obtain ⟨k, hk, hlt | ⟨h', hb⟩⟩ := Standstill.phase
    (X := fun s => c < s.clients.length ∧ Coming s c) (Y := fun s => ∃ b, s.pc.batch? = some b)
    Sys.turn hfair hok
    (by
      rintro s t h ⟨hl, hc⟩ hs hgo
      obtain ⟨op, r, hout⟩ := h.outstanding
      rcases h.reach.comes hout hl hc hs with hb | hc'
      · exact .inr (.inl hb)
      · exact .inr (.inr ⟨⟨h.reach.listed hl hs, hc'⟩, h.rounds hbin hc.inside hs hgo⟩))
    (by
      rintro s t ha hch ⟨hl, hc⟩
      refine ⟨⟨by rw [ha.clients]; exact hl, ?_⟩, ha.turn⟩
      unfold Coming at hc ⊢
      rwa [ha.pc, ha.startIdx, hch])
    hn h ⟨hl, hc⟩
  · exact ⟨k, hk, hlt⟩
  · obtain ⟨k', hk', hlt⟩ := h'.batch_ends hbin hfair hok (hn.trans hk) hb
    exact ⟨k', hk.trans hk', hlt⟩

theorem Standstill.head_ends (hbin : bin.RoundTrips) (hfair : Fairly p held)
    (hok : ∀ k, N ≤ k → Steady bin (p.state k) (p.act k)) (hn : N ≤ n)
    (h : Standstill bin value m c (p.state n)) (hl : c < (p.state n).clients.length)
    (hloop : (p.state n).pc = .loop) : ∃ k, n ≤ k ∧ (p.state k).backlog < m := by
  obtain ⟨k, hk, hlt | ⟨h', hl', hc⟩⟩ := Standstill.phase
    (X := fun s => c < s.clients.length ∧ (s.pc = .loop ∨ ∃ d, s.pc = .drain d))
    (Y := fun s => c < s.clients.length ∧ Coming s c) Sys.intake hfair hok
    (by
      rintro s t h ⟨hl, hpc⟩ hs _
      rcases h.reach.begins hl hpc hs with hc | ⟨hd, hlt⟩
      · exact .inr (.inl ⟨h.reach.listed hl hs, hc⟩)
      · exact .inr (.inr ⟨⟨h.reach.listed hl hs, .inr hd⟩, hlt⟩))
    (by
      rintro s t ha _ ⟨hl, hpc⟩
      exact ⟨⟨by rw [ha.clients]; exact hl, by rw [ha.pc]; exact hpc⟩,
        by simp only [Sys.intake, ha.pc]⟩)
    hn h ⟨hl, .inl hloop⟩
  · exact ⟨k, hk, hlt⟩
  · obtain ⟨k', hk', hlt⟩ := h'.coming_ends hbin hfair hok (hn.trans hk) hl' hc
    exact ⟨k', hk.trans hk', hlt⟩

theorem Standstill.listed_ends (hbin : bin.RoundTrips) (hfair : Fairly p held)
    (hok : ∀ k, N ≤ k → Steady bin (p.state k) (p.act k)) (hn : N ≤ n)
    (h : Standstill bin value m c (p.state n)) (hl : c < (p.state n).clients.length) :
    ∃ k, n ≤ k ∧ (p.state k).backlog < m := by
  by_cases hloop : (p.state n).pc = .loop
  · exact h.head_ends hbin hfair hok hn hl hloop
  obtain ⟨k, hk, hlt | ⟨h', hl', hloop'⟩⟩ := Standstill.phase
    (X := fun s => c < s.clients.length ∧ s.pc ≠ .loop)
    (Y := fun s => c < s.clients.length ∧ s.pc = .loop) Sys.turn hfair hok
    (by
      rintro s t h ⟨hl, hloop⟩ hs hgo
      by_cases hloop' : t.pc = .loop
      · exact .inr (.inl ⟨h.reach.listed hl hs, hloop'⟩)
      · exact .inr (.inr ⟨⟨h.reach.listed hl hs, hloop'⟩, h.rounds hbin hloop hs hgo⟩))
    (by
      rintro s t ha _ ⟨hl, hpc⟩
      exact ⟨⟨by rw [ha.clients]; exact hl, by rw [ha.pc]; exact hpc⟩, ha.turn⟩)
    hn h ⟨hl, hloop⟩
  · exact ⟨k, hk, hlt⟩
  · obtain ⟨k', hk', hlt⟩ := h'.head_ends hbin hfair hok (hn.trans hk) hl' hloop'
    exact ⟨k', hk.trans hk', hlt⟩

/-- While a published request waits for the trustee, the clients are not stuck together. -/
theorem Standstill.ends (hbin : bin.RoundTrips) (hfair : Fairly p held)
    (hok : ∀ k, N ≤ k → Steady bin (p.state k) (p.act k)) (hn : N ≤ n)
    (h : Standstill bin value m c (p.state n)) : ∃ k, n ≤ k ∧ (p.state k).backlog < m := by
  by_cases hl : c < (p.state n).clients.length
  · exact h.listed_ends hbin hfair hok hn hl
  obtain ⟨k, hk, hlt | ⟨h', hl'⟩⟩ := Standstill.phase (X := fun s => s.clients.length ≤ c)
    (Y := fun s => c < s.clients.length) (Sys.queued c) hfair hok
    (by
      rintro s t h hl hs hgo
      rcases h.reach.queues h.born hl hs
          (fun hloop => h.rounds hbin hloop hs hgo) with hl' | hlt
      · exact .inr (.inl hl')
      · by_cases hl' : c < t.clients.length
        · exact .inr (.inl hl')
        · exact .inr (.inr ⟨not_lt.mp hl', hlt⟩))
    (by
      rintro s t ha _ hl
      exact ⟨by rw [ha.clients]; exact hl, ha.queued c⟩)
    hn h (not_lt.mp hl)
  · exact ⟨k, hk, hlt⟩
  · obtain ⟨k', hk', hlt⟩ := h'.listed_ends hbin hfair hok (hn.trans hk) hl'
    exact ⟨k', hk.trans hk', hlt⟩

theorem reachable_path {w : Workload T V R} (hstart : p.state 0 = Sys.init value)
    (hw : ∀ k, w.permits (p.act k)) (n : Nat) : Reachable bin w value (p.state n) := by
  have h : Machine.Reach (Sys.step bin) (fun _ a => w.permits a) (p.state 0) (p.state n) :=
    p.reach (fun k _ => hw k)
  rwa [hstart] at h

theorem Working.party_ends {party : Action T V R → Prop} {X : Sys T V R → Prop}
    (rank : Sys T V R → Nat) (hfair : p.Fair party)
    (hok : ∀ k, N ≤ k → Steady bin (p.state k) (p.act k))
    (enabled : ∀ s, Working bin value s → X s → ∃ a, party a ∧ s.step bin a ≠ none)
    (helps : ∀ s a t, Working bin value s → X s → party a → s.step bin a = some t →
      (∃ d, t.pending d < s.pending d) ∨ X t ∧ rank t < rank s)
    (keeps : ∀ s a t, Working bin value s → X s → ¬ party a →
      s.step bin a = some t → (∀ d, t.pending d = s.pending d) → X t ∧ rank t = rank s)
    (hn : N ≤ n) (hr : Working bin value (p.state n)) (hX : X (p.state n)) :
    ∃ k, n ≤ k ∧ (p.state k).backlog < (p.state n).backlog := by
  refine Machine.Path.variant
    (P := fun s => Working bin value s ∧ s.backlog = (p.state n).backlog ∧ X s)
    (Q := fun s => s.backlog < (p.state n).backlog) rank hfair hok ?_ ?_ ?_ hn ⟨hr, rfl, hX⟩
  · rintro s ⟨h, _, hX⟩
    exact enabled s h hX
  · rintro s a t ⟨h, hb, hX⟩ ha hs hparty
    rcases h.reach.backlog_step ha.1 hs with hless | ⟨hsame, heq⟩
    · exact .inl (hb ▸ hless)
    rcases helps s a t h hX hparty hs with ⟨d, hd⟩ | ⟨hX', hlt⟩
    · have := heq d
      omega
    · exact .inr ⟨⟨h.steady ha hs, hsame.trans hb, hX'⟩, hlt⟩
  · rintro s a t ⟨h, hb, hX⟩ ha hs hparty
    rcases h.reach.backlog_step ha.1 hs with hless | ⟨hsame, heq⟩
    · exact .inl (hb ▸ hless)
    obtain ⟨hX', hrank⟩ := keeps s a t h hX hparty hs heq
    exact .inr ⟨⟨h.steady ha hs, hsame.trans hb, hX'⟩, le_of_eq hrank⟩

theorem Working.client_ends (hfair : Fairly p held)
    (hok : ∀ k, N ≤ k → Steady bin (p.state k) (p.act k)) (hn : N ≤ n)
    (hr : Working bin value (p.state n))
    (hp : (p.state n).pending c ≠ 0 ∧ (p.state n).pending c ≠ 3 ∧ (p.state n).pending c ≠ 4) :
    ∃ k, n ≤ k ∧ (p.state k).backlog < (p.state n).backlog := by
  refine Working.party_ends
    (X := fun s => s.pending c ≠ 0 ∧ s.pending c ≠ 3 ∧ s.pending c ≠ 4)
    (fun _ => 0) (hfair.client c) hok ?_ ?_ ?_ hn hr hp
  · intro s h hX
    obtain ⟨t, ht, _⟩ := h.reach.client_helps hX
    exact ⟨.client c, rfl, by simp [Sys.step, ht]⟩
  · rintro s a t h hX rfl hs
    obtain ⟨t', ht', hlt⟩ := h.reach.client_helps hX
    obtain rfl := Option.some.inj (ht'.symm.trans hs)
    exact .inl ⟨c, hlt⟩
  · intro s a t h hX _ _ heq
    exact ⟨by rwa [heq c], rfl⟩

theorem Working.launch_ends (hfair : Fairly p held)
    (hok : ∀ k, N ≤ k → Steady bin (p.state k) (p.act k)) (hn : N ≤ n)
    (hr : Working bin value (p.state n)) (hp : (p.state n).pending c = 3)
    (hfree : ∀ j, held j → ¬ Engaged (p.state n) c ((p.state n).client c).seq j) :
    ∃ k, n ≤ k ∧ (p.state k).backlog < (p.state n).backlog := by
  obtain ⟨j, job, hj, rfl, ho⟩ := hr.reach.inv.pending_busy hp
  have hseq := ((hr.reach.inv.job j job hj).2.2.2.1 ho).1
  have hheld : ¬ held j := fun hh => hfree j hh ⟨job, hj, rfl, hseq, ho⟩
  refine Working.party_ends
    (X := fun s => s.pending job.chan = 3 ∧ s.jobs[j]? = some job ∧ (s.fiber j).open_ = true)
    (fun s => (s.fiber j).left) (hfair.fiber j hheld) hok ?_ ?_ ?_ hn hr ⟨hp, hj, ho⟩
  · rintro s h ⟨_, hj, ho⟩
    refine ⟨.fiber j, rfl, Sys.fiberStep_enabled (List.getElem?_eq_some_iff.mp hj).1 ?_⟩
    cases hf : s.fiber j <;> simp [hf, FiberPc.open_] at ho <;> rfl
  · rintro s a t h ⟨hp, hj, ho⟩ rfl hs
    rcases h.reach.inv.fiber_helps hj ho hs with hlt | ⟨ho', hlt⟩
    · exact .inl ⟨job.chan, by omega⟩
    · by_cases hp' : t.pending job.chan = 3
      · obtain ⟨_, _, _, hjobs, _⟩ := Sys.fiberStep_frame hs
        exact .inr ⟨⟨hp', hjobs ▸ hj, ho'⟩, hlt⟩
      · refine .inl ⟨job.chan, ?_⟩
        have := h.reach.inv.pending_le (by simp) hs job.chan
        omega
  · rintro s a t h ⟨hp, hj, ho⟩ hne hs heq
    obtain ⟨hj', hf⟩ := Sys.step_other_fiber hs hne hj
    exact ⟨⟨by rw [heq, hp], hj', by rw [hf, ho]⟩, by rw [hf]⟩

theorem Working.backlog_shrinks (hbin : bin.RoundTrips) (hfair : Fairly p held)
    (hok : ∀ k, N ≤ k → Steady bin (p.state k) (p.act k)) (hn : N ≤ n)
    (hr : Working bin value (p.state n)) (hc : (p.state n).pending c ≠ 0)
    (hfree : ∀ j, held j → ¬ Engaged (p.state n) c ((p.state n).client c).seq j) :
    ∃ k, n ≤ k ∧ (p.state k).backlog < (p.state n).backlog := by
  by_cases hfour : (p.state n).pending c = 4
  · exact Standstill.ends hbin hfair hok hn ⟨hr, rfl, hfour⟩
  by_cases hthree : (p.state n).pending c = 3
  · exact Working.launch_ends hfair hok hn hr hthree hfree
  · exact Working.client_ends hfair hok hn hr ⟨hc, hthree, hfour⟩

/-- While the worker goes on and nobody begins an operation, the clients come to rest, but for
those that are held up. -/
theorem Working.rests (hbin : bin.RoundTrips) (hfair : Fairly p held)
    (hok : ∀ k, N ≤ k → Steady bin (p.state k) (p.act k))
    (hwork : ∀ k, N ≤ k → Working bin value (p.state k)) :
    ∃ M, N ≤ M ∧ ∀ n, M ≤ n → ∀ c, (p.state n).pending c = 0 ∨
      ∃ j, held j ∧ Engaged (p.state n) c ((p.state n).client c).seq j := by
  refine Machine.Path.descent (w := Sys.backlog)
    (Q := fun s => ∀ c, s.pending c = 0 ∨ ∃ j, held j ∧ Engaged s c (s.client c).seq j) ?_ ?_
  · intro n hn
    rcases (hwork n hn).reach.backlog_step (hok n hn).1 (p.next n) with hlt | ⟨heq, _⟩
    · exact hlt.le
    · exact heq.le
  · intro n hn hno
    obtain ⟨c, hc⟩ := not_forall.mp hno
    rw [not_or, not_exists] at hc
    exact Working.backlog_shrinks hbin hfair hok hn (hwork n hn) hc.1
      (fun j hj he => hc.2 j ⟨hj, he⟩)

end Paths

section Answers

variable {bin : Bincode V} {value : T} {s : Sys T V R} {c : Nat}

theorem Reachable.not_owning (h : Reachable bin lasting value s) (d : Payload T R) :
    (s.client c).pc ≠ .owning d := by
  refine (h.invariant (P := fun s => Reachable bin lasting value s ∧
    ∀ d, (s.client c).pc ≠ .owning d) ⟨.start, by simp [Sys.init]⟩ ?_).2 d
  rintro t a v ⟨hr, ht⟩ ha hs
  refine ⟨hr.next ha hs, fun d hd => ?_⟩
  rcases Sys.step_client hs c with hcl | ⟨next, _⟩
  · exact ht d (hcl ▸ hd)
  · generalize hpc : (t.client c).pc = pc at next
    rw [hd] at next
    cases next
    exact (lasting_ends (hr.called (hr.executed hpc).1).1).1 rfl

theorem Reachable.at_rest (h : Reachable bin lasting value s) (hp : s.pending c = 0) :
    (s.client c).pc = .idle ∨ (s.client c).pc = .gone := by
  cases hpc : (s.client c).pc with
  | idle => exact .inl rfl
  | gone => exact .inr rfl
  | owning d => exact absurd hpc (h.not_owning d)
  | waiting op r =>
    have := (Sys.pending_bounds hpc).1
    omega
  | _ => simp [Sys.pending, hpc] at hp

theorem Reachable.returned {w : Workload T V R} (h : Reachable bin w value s) {k : Nat}
    {op : Op T V R}
    (hcall : Event.call c k op ∈ s.hist) : (∃ y, Event.ret c k y ∈ s.hist) ∨
      k = (s.client c).seq ∧ (s.client c).pc ≠ .idle ∧ (s.client c).pc ≠ .gone := by
  obtain ⟨o, hi, hr⟩ := h.refines
  have hph := hr.phase c
  have hseq := hr.seq c
  rw [← hr.hist] at hcall ⊢
  rcases hi.tags _ hcall with hlt | ⟨he, hne⟩
  · exact .inl (hi.past c k hlt)
  · have hactive : o.phase c ≠ .idle := hne
    refine .inr ⟨he.trans hseq, ?_, ?_⟩ <;> intro hpc <;>
      exact hactive (by simpa only [PhaseOk, hpc] using hph)

end Answers

/-- Requests that are not issued without end are all answered: under a fair scheduler every
client comes back from each operation it has begun, whatever the others do meanwhile and
however many channels are still being registered. Launched closures that never come to an
end hold up their own clients and nobody else. -/
theorem requests_all_return {bin : Bincode V} (hbin : bin.RoundTrips) {value : T}
    {p : Machine.Path (Sys.step bin : Sys T V R → Action T V R → Option (Sys T V R))}
    (hstart : p.state 0 = Sys.init value)
    (hw : ∀ k, (lasting : Workload T V R).permits (p.act k)) {held : Nat → Prop}
    (hfair : Fairly p held) {N : Nat} (hok : ∀ k, N ≤ k → Settled (p.state k) (p.act k)) :
    ∃ M, ∀ n, M ≤ n →
      (∀ c, ((p.state n).client c).pc = .idle ∨ ((p.state n).client c).pc = .gone ∨
        ∃ j, held j ∧ Engaged (p.state n) c ((p.state n).client c).seq j) ∧
      ∀ c k op, Event.call c k op ∈ (p.state n).hist →
        (∃ y, Event.ret c k y ∈ (p.state n).hist) ∨ ∃ j, held j ∧ Engaged (p.state n) c k j := by
  have hr := reachable_path hstart hw
  have hwork : ∀ n, Working bin value (p.state n) := fun n => (hr n).working hbin
  have hsteady : ∀ n, N ≤ n → Steady bin (p.state n) (p.act n) := by
    intro n hn
    refine ⟨hok n hn, fun t ht => ?_⟩
    obtain rfl := Option.some.inj ((p.next n).symm.trans ht)
    exact (hwork (n + 1)).goes
  obtain ⟨M, _, hrest⟩ := Working.rests hbin hfair hsteady (fun n _ => hwork n)
  refine ⟨M, fun n hn => ?_⟩
  have hidle : ∀ c, ((p.state n).client c).pc = .idle ∨ ((p.state n).client c).pc = .gone ∨
      ∃ j, held j ∧ Engaged (p.state n) c ((p.state n).client c).seq j := by
    intro c
    rcases hrest n hn c with hzero | hheld
    · exact ((hr n).at_rest hzero).imp_right .inl
    · exact .inr (.inr hheld)
  refine ⟨hidle, fun c k op hcall => ?_⟩
  rcases (hr n).returned hcall with hret | ⟨rfl, hpc, hpc'⟩
  · exact .inl hret
  · exact .inr (((hidle c).resolve_left hpc).resolve_left hpc')

/-- However busy the runtime is kept, a channel that has been registered comes to its place in
the trustee's list, and stays there. -/
theorem registrations_all_taken_up {bin : Bincode V} (hbin : bin.RoundTrips) {value : T}
    {p : Machine.Path (Sys.step bin : Sys T V R → Action T V R → Option (Sys T V R))}
    (hstart : p.state 0 = Sys.init value)
    (hw : ∀ k, (lasting : Workload T V R).permits (p.act k)) (hfair : p.Fair (· = .trustee))
    {n c : Nat} (hc : c < (p.state n).created) :
    ∃ M, n ≤ M ∧ ∀ k, M ≤ k → Located (p.state k).clients c c := by
  have hr := reachable_path hstart hw
  obtain ⟨M, hM, hlisted⟩ : ∃ M, n ≤ M ∧ c < (p.state M).clients.length := by
    by_cases hl : c < (p.state n).clients.length
    · exact ⟨n, le_rfl, hl⟩
    refine @Machine.Path.variant _ _ _ p
      (fun _ a => (lasting : Workload T V R).permits a) n _ _ _
      (fun s => Reachable bin lasting value s ∧ c < s.created ∧ s.clients.length ≤ c)
      (fun s => c < s.clients.length) _ (Sys.queued c) hfair (fun k _ => hw k) ?_ ?_ ?_
      n le_rfl ⟨hr n, hc, not_lt.mp hl⟩
    · rintro s ⟨h, _⟩
      exact ⟨.trustee, rfl, (h.working hbin).trustee_moves⟩
    · rintro s a t ⟨h, hc, hl⟩ ha hs rfl
      have hcr := hc.trans_le (Sys.step_created hs)
      have ht : Reachable bin lasting value t := h.next ha hs
      rcases h.queues hc hl hs (fun hloop =>
          (h.working hbin).rounds hbin hloop hs (ht.working hbin).goes) with hl' | hlt
      · exact .inl hl'
      · by_cases hl' : c < t.clients.length
        · exact .inl hl'
        · exact .inr ⟨⟨ht, hcr, not_lt.mp hl'⟩, hlt⟩
    · rintro s a t ⟨h, hc, hl⟩ ha hs hne
      have haside := h.aside hne hs
      refine .inr ⟨⟨h.next ha hs, hc.trans_le (Sys.step_created hs), ?_⟩, ?_⟩
      · rw [haside.clients]
        exact hl
      · exact le_of_eq (haside.queued c)
  refine ⟨M, hM, fun k hk => (hr k).client_at ?_⟩
  induction k, hk using Nat.le_induction with
  | base => exact hlisted
  | succ k hk ih =>
    obtain ⟨_, hle, _⟩ := (hr k).grows (Machine.Trace.start.next (p.next k))
    omega

structure Resting (bin : Bincode V) (value : T) (s : Sys T V R) : Prop where
  reach : Reachable bin lasting value s
  held : Engaged s 0 0 0
  alone : s.jobs.length = 1
  clients : ∀ c, c ≠ 0 → (s.client c).pc = .idle

section Rest

variable {bin : Bincode V} {value : T} {s : Sys T V R}

theorem Resting.waits (h : Resting bin value s) : s.clientStep 0 = some s := by
  obtain ⟨job, hj, hc, _, ho⟩ := h.held
  obtain ⟨_, hresp, f, hpc⟩ := (h.reach.inv.job 0 job hj).2.2.2.1 ho
  rw [hc] at hresp hpc
  simp [Sys.clientStep, hpc, hresp]

theorem Resting.goes_round (hbin : bin.RoundTrips) (h : Resting bin value s) :
    ∃ t, s.step bin .trustee = some t ∧ Resting bin value t := by
  obtain ⟨t, ht⟩ := Option.ne_none_iff_exists'.mp (h.reach.working hbin).trustee_moves
  have hcl := (Sys.trusteeStep_frame ht).1
  have hrec : ∀ b, s.pc = .record b → b.left = 0 := by
    intro b hpc
    by_contra hleft
    obtain ⟨op, ho, _⟩ := h.reach.inv.recordStep_taken hpc hleft
    by_cases hc : b.chan = 0
    · obtain ⟨job, hj, hjc, _, hopen⟩ := h.held
      exact ho.2.2 ⟨0, job, hj, hjc.trans hc.symm, hopen⟩
    · have := ho.1
      simp [h.clients b.chan hc] at this
  obtain ⟨hjobs, hfiber⟩ := Sys.trusteeStep_jobs_kept ht hrec
  refine ⟨t, ht, h.reach.next (a := .trustee) (by trivial) ht, ?_, by rw [hjobs, h.alone],
    by rw [hcl]; exact h.clients⟩
  unfold Engaged
  rw [hjobs, hfiber]
  exact h.held

theorem Resting.still (h : Resting bin value s) :
    (∀ c, c ≠ 0 → s.clientStep c = none) ∧ ∀ j, j ≠ 0 → s.fiberStep j = none := by
  constructor
  · intro c hc
    simp [Sys.clientStep, h.clients c hc]
  · intro j hj
    have hnone : s.jobs[j]? = none := by
      rw [List.getElem?_eq_none_iff, h.alone]
      omega
    simp [Sys.fiberStep, hnone]

end Rest

def heldLaunch : List (Action Nat UInt8 Nat) :=
  [.register, .register, .issue 0 (.launch (fun t => (t, .returned t))), .client 0, .client 0,
    .issue 1 (.apply (fun t => (t + 1, .returned t))), .client 1, .client 1] ++
    List.replicate 20 .trustee ++ [.fiber 0, .client 1, .client 1]

theorem heldLaunch_lasting :
    ∀ a ∈ heldLaunch, (lasting : Workload Nat UInt8 Nat).permits a := by
  simp [heldLaunch, Workload.permits, lasting, delegated, Body.Returns, Op.Launches, or_imp, forall_and]

theorem heldLaunch_forever :
    ∃ p : Machine.Path (Sys.step byteBincode : Sys Nat UInt8 Nat → _ → _),
      p.state 0 = Sys.init 5 ∧ (p.state 31).hist.length = 4 ∧ (p.state 31).created = 2 ∧
      (∀ n, (lasting : Workload Nat UInt8 Nat).permits (p.act n)) ∧ Fairly p (· = 0) ∧
      ∀ n, 31 ≤ n → Settled (p.state n) (p.act n) := by
  obtain ⟨u, hu, hhist, hcreated, hheld, halone, hidle⟩ : ∃ u,
      Machine.run (Sys.step byteBincode) (Sys.init 5) heldLaunch = some u ∧
        u.hist.length = 4 ∧ u.created = 2 ∧ Engaged u 0 0 0 ∧ u.jobs.length = 1 ∧
        ∀ c, c ≠ 0 → (u.client c).pc = .idle := by
    refine ⟨_, rfl, rfl, rfl, ⟨_, rfl, rfl, rfl, rfl⟩, rfl, ?_⟩
    intro c hc
    match c with
    | 1 | c + 2 => rfl
  have hrest : Resting byteBincode 5 u :=
    ⟨Reachable.scripted hu heldLaunch_lasting, hheld, halone, hidle⟩
  let acts : Nat → Action Nat UInt8 Nat := fun n => if n % 2 = 0 then .trustee else .client 0
  have hacts : ∀ n s, Resting byteBincode 5 s →
      ∃ t, s.step byteBincode (acts n) = some t ∧ Resting byteBincode 5 t := by
    intro n s h
    by_cases hn : n % 2 = 0
    · simpa only [acts, if_pos hn] using h.goes_round byteBincode_roundTrips
    · refine ⟨s, ?_, h⟩
      simp only [acts, if_neg hn]
      exact h.waits
  obtain ⟨q, hq, hforever⟩ := Machine.Path.forever hacts hrest
  obtain ⟨p, hp, hlater, hsoon⟩ := Machine.Path.scripted hu q hq
  have later : ∀ k, p.act (k + 31) = acts k ∧ Resting byteBincode 5 (p.state (k + 31)) := by
    intro k
    obtain ⟨hs, ha⟩ := hlater k
    obtain ⟨hact, hr⟩ := hforever k
    exact ⟨ha.trans hact, by rw [show p.state (k + 31) = q.state k from hs]; exact hr⟩
  have turns : ∀ k, p.act (2 * k + 31) = .trustee ∧ p.act (2 * k + 1 + 31) = .client 0 := by
    intro k
    rw [(later _).1, (later _).1]
    simp [acts]
  have hu' : p.state 31 = u := (hlater 0).1.trans hq
  refine ⟨p, hp, by rw [hu', hhist], by rw [hu', hcreated], fun n => ?_, ⟨fun n => ?_, ?_, ?_⟩, ?_⟩
  · by_cases hn : n < 31
    · exact heldLaunch_lasting _ (hsoon n hn)
    · obtain ⟨k, rfl⟩ := Nat.exists_eq_add_of_le' (not_lt.mp hn)
      rw [(later k).1]
      simp only [acts]
      split <;> trivial
  · exact ⟨2 * n + 31, by omega, .inl (turns n).1⟩
  · intro j hj n
    refine ⟨n + 31, by omega, .inr ?_⟩
    rintro a rfl
    exact (later n).2.still.2 j hj
  · intro c n
    by_cases hc : c = 0
    · subst hc
      exact ⟨2 * n + 1 + 31, by omega, .inl (turns n).2⟩
    · refine ⟨n + 31, by omega, .inr ?_⟩
      rintro a rfl
      exact (later n).2.still.1 c hc
  · intro n hn c op
    obtain ⟨k, rfl⟩ := Nat.exists_eq_add_of_le' hn
    rw [(later k).1]
    simp only [acts]
    split <;> simp

theorem requests_all_return_heldLaunch :
    ∃ p : Machine.Path (Sys.step byteBincode : Sys Nat UInt8 Nat → _ → _),
      (p.state 31).hist.length = 4 ∧ ∃ M, ∀ n, M ≤ n →
        (∀ c, ((p.state n).client c).pc = .idle ∨ ((p.state n).client c).pc = .gone ∨
          ∃ j, j = 0 ∧ Engaged (p.state n) c ((p.state n).client c).seq j) ∧
        ∀ c k op, Event.call c k op ∈ (p.state n).hist →
          (∃ y, Event.ret c k y ∈ (p.state n).hist) ∨ ∃ j, j = 0 ∧ Engaged (p.state n) c k j := by
  obtain ⟨p, hp, hhist, _, hw, hfair, hok⟩ := heldLaunch_forever
  exact ⟨p, hhist, requests_all_return byteBincode_roundTrips hp hw hfair hok⟩

theorem registrations_all_taken_up_heldLaunch :
    ∃ p : Machine.Path (Sys.step byteBincode : Sys Nat UInt8 Nat → _ → _),
      ∃ M, 31 ≤ M ∧ ∀ k, M ≤ k → Located (p.state k).clients 1 1 := by
  obtain ⟨p, hp, _, hcreated, hw, hfair, _⟩ := heldLaunch_forever
  exact ⟨p, registrations_all_taken_up byteBincode_roundTrips hp hw hfair.trustee
    (by rw [hcreated]; exact Nat.one_lt_two)⟩

end TrustTee
