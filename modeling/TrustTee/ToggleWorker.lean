import TrustTee.Toggle
import Mathlib.Data.List.Nodup

set_option autoImplicit false

namespace TrustTee
open Header

variable {T V R : Type}

section Fibers

variable {bin : Bincode V} {s s' : Sys T V R}

theorem Inv.job_unique (hi : Inv bin s) {i j : Nat} {a b : Job} (ha : s.jobs[i]? = some a)
    (hb : s.jobs[j]? = some b) (hc : a.chan = b.chan) (hs : a.seq = b.seq) : i = j := by
  have h := hi.jobs_nodup
  obtain ⟨hi', rfl⟩ := List.getElem?_eq_some_iff.mp ha
  obtain ⟨hj', rfl⟩ := List.getElem?_eq_some_iff.mp hb
  have hi'' : i < (s.jobs.map (fun j => (j.chan, j.seq))).length := by simpa using hi'
  have hj'' : j < (s.jobs.map (fun j => (j.chan, j.seq))).length := by simpa using hj'
  have he : (s.jobs.map (fun j => (j.chan, j.seq)))[i] =
      (s.jobs.map (fun j => (j.chan, j.seq)))[j] := by simp [hc, hs]
  exact h.getElem_inj_iff.mp he

theorem Inv.open_unique (hi : Inv bin s) {i j : Nat} {a b : Job}
    (ha : s.jobs[i]? = some a) (hb : s.jobs[j]? = some b) (hc : a.chan = b.chan)
    (hoa : (s.fiber i).open_ = true) (hob : (s.fiber j).open_ = true) : i = j := by
  have h₁ := ((hi.job i a ha).2.2.2.1 hoa).1
  have h₂ := ((hi.job j b hb).2.2.2.1 hob).1
  exact hi.job_unique ha hb hc (by rw [h₁, h₂, hc])

theorem busy_setFiber {j : Nat} {pc : FiberPc T R} (ho : pc.open_ = (s.fiber j).open_)
    (c : Nat) : Busy (s.setFiber j pc) c ↔ Busy s c := by
  have : ∀ i, ((s.setFiber j pc).fiber i).open_ = (s.fiber i).open_ := by
    intro i
    by_cases h : i = j
    · subst h
      simp [Sys.setFiber, ho]
    · simp [Sys.setFiber, Function.update_of_ne h]
  simp only [Busy, this]
  rfl

theorem Inv.fiberMove (hi : Inv bin s) {j : Nat} {job : Job} (hj : s.jobs[j]? = some job)
    {pc : FiberPc T R} (ho : pc.open_ = (s.fiber j).open_)
    (hrun : ∀ env args seq, pc = .running env args seq →
      env = ((s.chan job.chan).records hdrOffset).env ∧
      args = ((s.chan job.chan).records hdrOffset).args ∧
      seq = ((s.chan job.chan).records hdrOffset).seq) : Inv bin (s.setFiber j pc) := by
  have hb := fun c => propext (busy_setFiber (s := s) ho c)
  constructor
  · intro c
    rw [hb]
    exact hi.client c
  · intro i job' hi'
    obtain ⟨hlt, hle, hcur, hopen, hshut, hr⟩ := hi.job i job' hi'
    refine ⟨hlt, ?_⟩
    by_cases h : i = j
    · subst h
      obtain rfl := Option.some.inj (hj.symm.trans hi')
      simp only [Sys.setFiber, Function.update_self]
      exact ⟨hle, hcur, ho ▸ hopen, ho ▸ hshut, hrun⟩
    · simp only [Sys.setFiber, Function.update_of_ne h]
      exact ⟨hle, hcur, hopen, hshut, hr⟩
  · intro cp hcp
    rw [hb]
    exact hi.pair cp hcp
  · exact hi.chans_nodup
  · exact hi.jobs_nodup
  · exact hi.shape
  · intro n offs idx c w h
    rw [hb]
    exact hi.fresh n offs idx c w h
  · intro b h
    rw [hb]
    exact hi.serving b h
  · exact hi.unflagged

theorem Inv.signal (hi : Inv bin s) {j : Nat} {job : Job} (hj : s.jobs[j]? = some job)
    (ho : (s.fiber j).open_ = true) :
    Inv bin ((s.setChan job.chan { s.chan job.chan with
      respWord := packReadyCount job.reqReady 1 }).setFiber j .signalled) := by
  obtain ⟨hlt, hle, hcur, hopen, _, _⟩ := hi.job j job hj
  obtain ⟨hseq, hresp, f, hpc⟩ := hopen ho
  have hbusy : Busy s job.chan := ⟨j, job, hj, rfl, ho⟩
  generalize hs' : (s.setChan job.chan { s.chan job.chan with
      respWord := packReadyCount job.reqReady 1 }).setFiber j .signalled = s'
  have hchan : s'.chan job.chan = { s.chan job.chan with
      respWord := packReadyCount job.reqReady 1 } := by
    subst hs'
    simp [Sys.setChan, Sys.setFiber]
  have hother : ∀ c, c ≠ job.chan → s'.chan c = s.chan c := by
    intro c h
    subst hs'
    simp [Sys.setChan, Sys.setFiber, Function.update_of_ne h]
  have hself : s'.fiber j = .signalled := by
    subst hs'
    simp [Sys.setFiber]
  have hfib : ∀ i, i ≠ j → s'.fiber i = s.fiber i := by
    intro i h
    subst hs'
    simp [Sys.setChan, Sys.setFiber, Function.update_of_ne h]
  have hjobs : s'.jobs = s.jobs := by subst hs'; rfl
  have hclient : s'.client = s.client := by subst hs'; rfl
  have hpairs : s'.pairs = s.pairs := by subst hs'; rfl
  have hcr : s'.created = s.created := by subst hs'; rfl
  have hpc' : s'.pc = s.pc := by subst hs'; rfl
  have hclear : ¬ Busy s' job.chan := by
    rintro ⟨i, a, ha, hc, hoa⟩
    rw [hjobs] at ha
    by_cases h : i = j
    · subst h
      simp [hself, FiberPc.open_] at hoa
    · rw [hfib i h] at hoa
      exact h (hi.open_unique ha hj hc hoa ho)
  have hkeep : ∀ c, c ≠ job.chan → (Busy s' c ↔ Busy s c) := by
    intro c hc
    constructor <;> rintro ⟨i, a, ha, hac, hoa⟩
    · have h : i ≠ j := by
        rintro rfl
        rw [hjobs, hj] at ha
        obtain rfl := Option.some.inj ha
        exact hc hac.symm
      exact ⟨i, a, hjobs ▸ ha, hac, hfib i h ▸ hoa⟩
    · have h : i ≠ j := by
        rintro rfl
        rw [hj] at ha
        obtain rfl := Option.some.inj ha
        exact hc hac.symm
      exact ⟨i, a, hjobs ▸ ha, hac, (hfib i h).symm ▸ hoa⟩
  constructor
  · intro c
    rw [hclient]
    by_cases h : c = job.chan
    · subst h
      have hok := hi.client job.chan
      simp only [ClientOk, hpc] at hok ⊢
      rw [hchan]
      exact ⟨hok.1, hok.2.1, hok.2.2.1, fun _ => hclear⟩
    · rw [hother c h, propext (hkeep c h)]
      exact hi.client c
  · intro i a ha
    rw [hjobs] at ha
    obtain ⟨hlt', hok⟩ := hi.job i a ha
    refine ⟨hcr ▸ hlt', ?_⟩
    rw [hclient]
    by_cases h : i = j
    · subst h
      obtain rfl := Option.some.inj (hj.symm.trans ha)
      rw [hself, hchan]
      refine ⟨hle, hcur, by simp [FiberPc.open_], ?_, by simp⟩
      intro _ _
      exact ⟨f, .inl ⟨hpc, ready_packReadyCount _ _⟩⟩
    · rw [hfib i h]
      by_cases hc : a.chan = job.chan
      · -- an earlier fiber of the same channel
        have hshut : (s.fiber i).open_ = false := by
          cases hoa : (s.fiber i).open_ with
          | false => rfl
          | true => exact absurd (hi.open_unique ha hj hc hoa ho) h
        refine hok.past hshut ?_
        rcases Nat.lt_or_eq_of_le hok.1 with hl | he
        · exact hl
        · exact absurd (hi.job_unique ha hj hc (by rw [he, hseq, hc])) h
      · rw [hother _ hc]
        exact hok
  · intro cp hcp
    rw [hpairs] at hcp
    obtain ⟨hlt', hflag, hpend⟩ := hi.pair cp hcp
    refine ⟨hcr ▸ hlt', ?_⟩
    by_cases h : cp.chan = job.chan
    · rw [h] at hflag hpend ⊢
      rw [hchan]
      refine ⟨fun _ => hclear, fun hp => ⟨fun hb => absurd hb hclear, fun _ => ?_⟩⟩
      have := (hpend hp).1 hbusy
      rw [hresp] at this
      simpa using this
    · rw [hother _ h, propext (hkeep _ h)]
      exact ⟨hflag, hpend⟩
  · rw [hpairs]
    exact hi.chans_nodup
  · rw [hjobs]
    exact hi.jobs_nodup
  · subst hs'
    exact hi.shape
  · intro n offs idx c w h
    rw [hpc'] at h
    have hf := hi.fresh n offs idx c w h
    by_cases hc : c = job.chan
    · subst hc
      rcases hf with hf | ⟨_, _, hb⟩
      · exact .inl (by rw [hf, hchan])
      · exact absurd hbusy hb
    · rw [hother c hc, propext (hkeep c hc)]
      exact hf
  · intro b h
    rw [hpc'] at h ⊢
    obtain ⟨op, hs, hok⟩ := hi.serving b h
    have hc : b.chan ≠ job.chan := fun hc => hs.2.2 (hc ▸ hbusy)
    rw [hother _ hc, propext (hkeep _ hc), hclient]
    exact ⟨op, hs, hok⟩
  · intro b h
    rw [hpc'] at h
    rw [hpairs]
    exact hi.unflagged b h

theorem Inv.fiberStep {j : Nat} (hi : Inv bin s) (h : s.fiberStep j = some s') :
    Inv bin s' := by
  unfold Sys.fiberStep at h
  cases hj : s.jobs[j]? with
  | none => simp [hj] at h
  | some job =>
    have hcur := (hi.job j job hj).2.2.1
    cases hpc : s.fiber j with
    | queued =>
      simp only [hj, hpc, Option.some.injEq] at h
      subst h
      refine hi.fiberMove hj (by simp [hpc, FiberPc.open_]) ?_
      intro env args seq he
      simp only [FiberPc.running.injEq] at he
      rw [← hcur]
      exact ⟨he.1.symm, he.2.1.symm, he.2.2.symm⟩
    | running env args seq =>
      simp only [hj, hpc] at h
      have hi' := hi.ghost (env.call args s.prop).1 s.strong s.destroyed s.loopCounter
        (s.hist ++ [.app job.chan seq (env.call args)])
      split at h <;> simp only [Option.some.injEq] at h <;> subst h
      · exact hi'.fiberMove hj (by simp [hpc, FiberPc.open_]) (by simp)
      · exact hi'.fiberMove hj (by simp [hpc, FiberPc.open_]) (by simp)
    | writing r =>
      simp only [hj, hpc, Option.some.injEq] at h
      subst h
      exact @Inv.fiberMove T V R bin _ (hi.respData job.chan (.result r)) j job hj _
        (by simp [Sys.setChan, hpc, FiberPc.open_]) (by simp)
    | guard =>
      simp only [hj, hpc, Option.some.injEq] at h
      subst h
      exact hi.signal hj (by simp [hpc, FiberPc.open_])
    | signalled =>
      simp only [hj, hpc, Option.some.injEq] at h
      subst h
      have hi' := hi.ghost s.prop (s.strong - 1)
        (s.destroyed + if s.strong = 1 then 1 else 0) s.loopCounter s.hist
      exact hi'.fiberMove hj (by simp [hpc, FiberPc.open_]) (by simp)
    | finished => simp [hj, hpc] at h

end Fibers

section Trustee

variable {bin : Bincode V} {s s' : Sys T V R}

theorem map_chan_set {l : List ClientPair} {idx : Nat} {cp a : ClientPair}
    (h : l[idx]? = some cp) (hc : a.chan = cp.chan) :
    (l.set idx a).map ClientPair.chan = l.map ClientPair.chan := by
  obtain ⟨hlt, rfl⟩ := List.getElem?_eq_some_iff.mp h
  rw [List.map_set, hc]
  apply List.ext_getElem (by simp)
  intro i h₁ h₂
  by_cases hi : idx = i
  · subst hi
    simp
  · simp [List.getElem_set_ne hi]

theorem mem_set_of_nodup {l : List ClientPair} (hn : (l.map ClientPair.chan).Nodup)
    {idx : Nat} {cp a x : ClientPair} (h : l[idx]? = some cp) (hx : x ∈ l.set idx a) :
    x = a ∨ (x ∈ l ∧ x.chan ≠ cp.chan) := by
  obtain ⟨i, hi⟩ := List.mem_iff_getElem?.mp hx
  by_cases hii : idx = i
  · subst hii
    obtain ⟨hlt, _⟩ := List.getElem?_eq_some_iff.mp h
    rw [List.getElem?_set_self hlt] at hi
    exact .inl (Option.some.inj hi).symm
  · rw [List.getElem?_set_ne hii] at hi
    refine .inr ⟨List.mem_of_getElem? hi, ?_⟩
    intro hc
    obtain ⟨h₁, rfl⟩ := List.getElem?_eq_some_iff.mp h
    obtain ⟨h₂, rfl⟩ := List.getElem?_eq_some_iff.mp hi
    have h₁' : idx < (l.map ClientPair.chan).length := by simpa using h₁
    have h₂' : i < (l.map ClientPair.chan).length := by simpa using h₂
    have he : (l.map ClientPair.chan)[idx] = (l.map ClientPair.chan)[i] := by simp [hc]
    exact hii (hn.getElem_inj_iff.mp he)

theorem mem_pairs {idx : Nat} {cp : ClientPair} (h : s.clients[idx]? = some cp) :
    cp ∈ s.pairs := List.mem_append_left _ (List.mem_of_getElem? h)

theorem pairs_set {idx : Nat} {cp a : ClientPair} (h : s.clients[idx]? = some cp) :
    s.clients.set idx a ++ s.reg = s.pairs.set idx a := by
  obtain ⟨hlt, _⟩ := List.getElem?_eq_some_iff.mp h
  simp [Sys.pairs, List.set_append_left _ _ hlt]

theorem pairs_get {idx : Nat} {cp : ClientPair} (h : s.clients[idx]? = some cp) :
    s.pairs[idx]? = some cp := by
  obtain ⟨hlt, _⟩ := List.getElem?_eq_some_iff.mp h
  rw [Sys.pairs, List.getElem?_append_left hlt, h]

theorem located_set {l : List ClientPair} {idx i c : Nat} {cp a : ClientPair}
    (h : l[idx]? = some cp) (hc : a.chan = cp.chan) (hl : Located l i c) :
    Located (l.set idx a) i c := by
  obtain ⟨x, hx, rfl⟩ := hl
  by_cases hi : idx = i
  · subst hi
    obtain ⟨hlt, _⟩ := List.getElem?_eq_some_iff.mp h
    obtain rfl := Option.some.inj (h.symm.trans hx)
    exact ⟨a, by rw [List.getElem?_set_self hlt], hc⟩
  · exact ⟨x, by rw [List.getElem?_set_ne hi, hx], rfl⟩

theorem Inv.flag (hi : Inv bin s) {idx : Nat} {cp a : ClientPair}
    (h : s.clients[idx]? = some cp) (hc : a.chan = cp.chan)
    (hok : PairOk a (s.chan cp.chan) (Busy s cp.chan)) {pc : TrusteePc T R}
    (shape : Shape pc (s.clients.set idx a) s.startIdx)
    (fresh : ∀ n offs idx c w, pc = .loadedReq n offs idx c w →
      Fresh (s.chan c) (Busy s c) w)
    (serving : ∀ b, pc.batch? = some b → b.chan = cp.chan ∧ a.pendingLaunch = false ∧ ∃ op,
      Serving (s.chan b.chan) (s.client b.chan) (Busy s b.chan) b op ∧
        PcOk pc ((s.chan b.chan).records hdrOffset) op) :
    Inv bin { s with clients := s.clients.set idx a, pc := pc } := by
  have hp : ∀ x ∈ s.clients.set idx a ++ s.reg, x = a ∨ (x ∈ s.pairs ∧ x.chan ≠ cp.chan) := by
    intro x hx
    rw [pairs_set h] at hx
    exact mem_set_of_nodup hi.chans_nodup (pairs_get h) hx
  constructor
  · exact hi.client
  · exact hi.job
  · intro x hx
    rcases hp x hx with rfl | ⟨hx, _⟩
    · rw [hc]
      exact ⟨(hi.pair cp (mem_pairs h)).1, hok⟩
    · exact hi.pair x hx
  · show ((s.clients.set idx a ++ s.reg).map ClientPair.chan).Nodup
    rw [pairs_set h, map_chan_set (pairs_get h) hc]
    exact hi.chans_nodup
  · exact hi.jobs_nodup
  · exact shape
  · exact fresh
  · exact fun b hb => (serving b hb).2.2
  · intro b hb x hx hxc
    obtain ⟨hbc, hfalse, _⟩ := serving b hb
    rcases hp x hx with rfl | ⟨_, hne⟩
    · exact hfalse
    · exact absurd (hxc.trans hbc) hne

theorem Inv.busy_waiting (hi : Inv bin s) {c : Nat} (hb : Busy s c) :
    ∃ f r, (s.client c).pc = .waiting (.launch f) r ∧ ready (s.chan c).reqWord = r ∧
      ready (s.chan c).respWord = !r := by
  obtain ⟨j, job, hj, rfl, ho⟩ := hb
  obtain ⟨_, hresp, f, hpc⟩ := (hi.job j job hj).2.2.2.1 ho
  have hok := hi.client job.chan
  simp only [ClientOk, hpc] at hok
  exact ⟨f, job.reqReady, hpc, hok.1, hresp⟩

theorem Inv.waiting_of_ne (hi : Inv bin s) {c : Nat}
    (hne : ready (s.chan c).reqWord ≠ ready (s.chan c).respWord) :
    ∃ op, (s.client c).pc = .waiting op (ready (s.chan c).reqWord) ∧
      count (s.chan c).reqWord = 1 := by
  have hok := hi.client c
  cases hpc : (s.client c).pc with
  | waiting op r =>
    simp only [ClientOk, hpc] at hok
    exact ⟨op, by rw [hok.1], hok.2.1⟩
  | encoded op => simp only [ClientOk, hpc] at hok; exact absurd hok.1.1 hne
  | loaded op r => simp only [ClientOk, hpc] at hok; exact absurd hok.1.1 hne
  | _ => simp only [ClientOk, hpc] at hok; exact absurd hok.1 hne

/-- What the visit decides: it passes the client by, or it finds the one request the
client waits for, unanswered and with no fiber of the channel still running. -/
theorem Inv.visit_cases (hi : Inv bin s) {idx : Nat} {cp : ClientPair} {w : Word}
    (h : s.clients[idx]? = some cp)
    (hf : Fresh (s.chan cp.chan) (Busy s cp.chan) w) (n offs : Nat) :
    (s.visit n offs idx cp w (s.chan cp.chan).respWord = s.goto (.sweep n (offs + 1))) ∨
    (¬ Busy s cp.chan ∧ ready w = ready (s.chan cp.chan).respWord ∧
      s.visit n offs idx cp w (s.chan cp.chan).respWord =
        { s with clients := s.clients.set idx { cp with pendingLaunch := false },
                 pc := .sweep n (offs + 1) }) ∨
    (∃ op b, b = ⟨n, offs, idx, cp.chan, ready w, 1, headerBytes, 0, false⟩ ∧
      Serving (s.chan cp.chan) (s.client cp.chan) (Busy s cp.chan) b op ∧
      s.visit n offs idx cp w (s.chan cp.chan).respWord =
        { s with clients := s.clients.set idx { cp with pendingLaunch := false },
                 pc := .record b }) := by
  obtain ⟨_, hflag, hpend⟩ := hi.pair cp (mem_pairs h)
  by_cases hq : ready w = ready (s.chan cp.chan).respWord
  · have hclear : cp.pendingLaunch = true → ¬ Busy s cp.chan := by
      intro hp hb
      obtain ⟨_, r, _, hreq, hresp⟩ := hi.busy_waiting hb
      rcases hf with rfl | ⟨_, _, hnb⟩
      · rw [hreq, hresp] at hq
        simp at hq
      · exact hnb hb
    cases hp : cp.pendingLaunch with
    | true => exact .inr (.inl ⟨hclear hp, hq, by simp [Sys.visit, hp, hq, Sys.goto]⟩)
    | false => exact .inl (by simp [Sys.visit, hp, hq])
  · -- the words differ, so the request word is the current one
    have hw : w = (s.chan cp.chan).reqWord := by
      rcases hf with hf | ⟨_, hf, _⟩
      · exact hf
      · exact absurd hf.symm hq
    subst hw
    obtain ⟨op, hpc, hcount⟩ := hi.waiting_of_ne hq
    have hresp : ready (s.chan cp.chan).respWord = !ready (s.chan cp.chan).reqWord := by
      cases h₁ : ready (s.chan cp.chan).reqWord <;>
        cases h₂ : ready (s.chan cp.chan).respWord <;> simp_all
    have hone : (count (s.chan cp.chan).reqWord).toNat = 1 := by rw [hcount]; rfl
    cases hp : cp.pendingLaunch with
    | false =>
      refine .inr (.inr ⟨op, _, rfl, ⟨hpc, hresp, hflag hp⟩, ?_⟩)
      have hset : s.clients.set idx { cp with pendingLaunch := false } = s.clients := by
        obtain ⟨hlt, he⟩ := List.getElem?_eq_some_iff.mp h
        rw [← hp, ← he]
        exact List.set_getElem_self hlt
      rw [hset]
      simp [Sys.visit, hp, hq, hone, Sys.goto]
    | true =>
      by_cases hl : ready (s.chan cp.chan).reqWord = cp.launchReqReady
      · have hq' : ¬ cp.launchReqReady = ready (s.chan cp.chan).respWord := hl ▸ hq
        exact .inl (by simp [Sys.visit, hp, hl, hq'])
      · refine .inr (.inr ⟨op, _, rfl, ⟨hpc, hresp, ?_⟩, ?_⟩)
        · intro hb
          have := (hpend hp).1 hb
          rw [hresp] at this
          exact hl (by simpa using this)
        · simp [Sys.visit, hp, hq, hl, hone, Sys.goto]

theorem Inv.visit (hi : Inv bin s) {n offs idx c : Nat} {cp : ClientPair} {w : Word}
    (hpc : s.pc = .loadedReq n offs idx c w) (h : s.clients[idx]? = some cp) :
    Inv bin (s.visit n offs idx cp w (s.chan cp.chan).respWord) := by
  have hshape := hi.shape
  simp only [hpc, Shape] at hshape
  obtain ⟨hn, hst, cp', h', rfl⟩ := hshape
  obtain rfl := Option.some.inj (h.symm.trans h')
  have hf := hi.fresh n offs idx cp.chan w hpc
  rcases hi.visit_cases h hf n offs with he | ⟨hb, hq, he⟩ | ⟨op, b, rfl, hs, he⟩
  · rw [he]
    exact hi.goto ⟨hn, hst⟩ (by simp) (by simp [TrusteePc.batch?])
  · rw [he]
    refine hi.flag (a := { cp with pendingLaunch := false }) h rfl
      ⟨fun _ => hb, by simp⟩ ?_ ?_ ?_
    · exact ⟨by simp [hn], hst⟩
    · simp
    · simp [TrusteePc.batch?]
  · rw [he]
    refine hi.flag (a := { cp with pendingLaunch := false }) h rfl
      ⟨fun _ => hs.2.2, by simp⟩ ?_ ?_ ?_
    · exact ⟨⟨by simp [hn], hst, located_set h rfl ⟨cp, h, rfl⟩⟩, .inl ⟨rfl, rfl, rfl, rfl⟩⟩
    · simp
    · intro b hb
      simp only [TrusteePc.batch?] at hb
      simp only [Bool.false_eq_true, and_false, ↓reduceIte, Option.some.injEq] at hb
      subst hb
      exact ⟨rfl, rfl, op, hs, by simp [PcOk]⟩

theorem Inv.dispatch (hi : Inv bin s) {b : Batch} {f : Body T R}
    (hv : Visiting s.clients s.startIdx b) (hr : InRecord b)
    (hs : Serving (s.chan b.chan) (s.client b.chan) (Busy s b.chan) b (.launch f)) :
    Inv bin (s.dispatch b ((s.chan b.chan).records b.cursor)) := by
  obtain ⟨hpc, hresp, hnb⟩ := hs
  obtain ⟨hn, hst, cp, hcp, hchan⟩ := hv
  obtain ⟨hleft, hcur, hproc, _⟩ := hr
  have hok := hi.client b.chan
  simp only [ClientOk, hpc] at hok
  have hseq : ((s.chan b.chan).records b.cursor).seq = (s.client b.chan).seq := by
    rw [hcur]
    exact (Op.encode_hdr hok.2.2.1).2
  generalize hs' : s.dispatch b ((s.chan b.chan).records b.cursor) = s'
  have hjobs : s'.jobs = s.jobs ++
      [⟨b.chan, b.cursor, (s.client b.chan).seq, b.reqReady⟩] := by
    subst hs'
    simp [Sys.dispatch, hseq]
  have hfib : ∀ i, i < s.jobs.length → s'.fiber i = s.fiber i := by
    intro i h
    subst hs'
    simp [Sys.dispatch, Function.update_of_ne (Nat.ne_of_lt h)]
  have hnew : s'.fiber s.jobs.length = .queued := by
    subst hs'
    simp [Sys.dispatch]
  have hchan' : s'.chan = s.chan := by subst hs'; rfl
  have hclient : s'.client = s.client := by subst hs'; rfl
  have hget : ∀ i a, s'.jobs[i]? = some a → s.jobs[i]? = some a ∨
      (i = s.jobs.length ∧ a = ⟨b.chan, b.cursor, (s.client b.chan).seq, b.reqReady⟩) := by
    intro i a ha
    rw [hjobs] at ha
    rcases Nat.lt_trichotomy i s.jobs.length with h | h | h
    · rw [List.getElem?_append_left h] at ha
      exact .inl ha
    · subst h
      simp only [List.getElem?_concat_length, Option.some.injEq] at ha
      exact .inr ⟨rfl, ha.symm⟩
    · rw [List.getElem?_append_right (Nat.le_of_lt h)] at ha
      simp only [List.getElem?_singleton] at ha
      split at ha
      · omega
      · simp at ha
  have hlen : ∀ {i : Nat} {a : Job}, s.jobs[i]? = some a → i < s.jobs.length :=
    fun h => (List.getElem?_eq_some_iff.mp h).1
  have hkeep : ∀ c, c ≠ b.chan → (Busy s' c ↔ Busy s c) := by
    intro c hc
    constructor <;> rintro ⟨i, a, ha, hac, hoa⟩
    · rcases hget i a ha with ha | ⟨_, rfl⟩
      · exact ⟨i, a, ha, hac, hfib i (hlen ha) ▸ hoa⟩
      · exact absurd hac.symm hc
    · refine ⟨i, a, ?_, hac, (hfib i (hlen ha)).symm ▸ hoa⟩
      rw [hjobs, List.getElem?_append_left (hlen ha), ha]
  have hbusy : Busy s' b.chan :=
    ⟨s.jobs.length, ⟨b.chan, b.cursor, (s.client b.chan).seq, b.reqReady⟩,
      by rw [hjobs]; simp, rfl, by rw [hnew]; rfl⟩
  have hpairs : ∀ x ∈ s'.pairs, x = ⟨b.chan, true, b.reqReady⟩ ∨
      (x ∈ s.pairs ∧ x.chan ≠ b.chan) := by
    intro x hx
    have hx : x ∈ s.clients.set b.idx ⟨b.chan, true, b.reqReady⟩ ++ s.reg := by
      subst hs'
      exact hx
    rw [pairs_set hcp] at hx
    rw [← hchan]
    exact hchan ▸ mem_set_of_nodup hi.chans_nodup (pairs_get hcp) hx
  have hbatch : s'.pc.batch? = none := by
    subst hs'
    simp [Sys.dispatch, TrusteePc.batch?, Batch.advance, hleft]
  constructor
  · intro c
    rw [hchan', hclient]
    by_cases h : c = b.chan
    · subst h
      simp only [ClientOk, hpc]
      refine ⟨hok.1, hok.2.1, hok.2.2.1, ?_⟩
      intro h
      simp [hresp] at h
    · rw [propext (hkeep c h)]
      exact hi.client c
  · intro i a ha
    rw [hchan', hclient]
    have hcr : s'.created = s.created := by subst hs'; rfl
    rcases hget i a ha with ha | ⟨rfl, rfl⟩
    · rw [hfib i (hlen ha), hcr]
      exact hi.job i a ha
    · rw [hnew, hcr]
      refine ⟨hchan ▸ (hi.pair cp (mem_pairs hcp)).1, Nat.le_refl _, hcur, ?_, ?_, by simp⟩
      · exact fun _ => ⟨rfl, hresp, f, hpc⟩
      · simp [FiberPc.open_]
  · intro x hx
    rw [hchan']
    have hcr : s'.created = s.created := by subst hs'; rfl
    rw [hcr]
    rcases hpairs x hx with rfl | ⟨hx, hne⟩
    · refine ⟨hchan ▸ (hi.pair cp (mem_pairs hcp)).1, by simp, fun _ => ⟨fun _ => hresp, ?_⟩⟩
      exact fun h => absurd hbusy h
    · rw [propext (hkeep _ hne)]
      exact hi.pair x hx
  · have : s'.pairs.map ClientPair.chan = s.pairs.map ClientPair.chan := by
      subst hs'
      show (s.clients.set b.idx ⟨b.chan, true, b.reqReady⟩ ++ s.reg).map ClientPair.chan = _
      rw [pairs_set hcp, map_chan_set (pairs_get hcp) hchan.symm]
    rw [this]
    exact hi.chans_nodup
  · rw [hjobs, List.map_append, List.nodup_append]
    refine ⟨hi.jobs_nodup, by simp, ?_⟩
    rintro x hx y hy rfl
    -- a fiber that already worked for this request has signalled, but the words differ
    obtain ⟨a, ha, hax⟩ := List.mem_map.mp hx
    simp only [List.map_cons, List.map_nil, List.mem_singleton] at hy
    rw [hy, Prod.mk.injEq] at hax
    obtain ⟨i, ha⟩ := List.mem_iff_getElem?.mp ha
    obtain ⟨_, hok'⟩ := hi.job i a ha
    rw [hax.1] at hok'
    cases ho : (s.fiber i).open_ with
    | true => exact hnb ⟨i, a, ha, hax.1, ho⟩
    | false =>
      obtain ⟨g, hg | hg⟩ := hok'.2.2.2.1 ho hax.2
      · simp only [hpc, ClientPc.waiting.injEq] at hg
        rw [hresp, ← hg.1.2] at hg
        simp at hg
      · simp [hpc] at hg
  · subst hs'
    refine ⟨⟨by simp [Batch.advance, Sys.dispatch, hn], hst, ?_⟩, .inr ⟨?_, ?_⟩⟩
    · exact located_set hcp hchan.symm ⟨cp, hcp, hchan⟩
    · simp [Batch.advance, hleft]
    · simp [Batch.advance]
  · intro n offs idx c w h
    subst hs'
    simp [Sys.dispatch] at h
  · intro b' h
    rw [hbatch] at h
    simp at h
  · intro b' h
    rw [hbatch] at h
    simp at h

theorem Inv.answer (hi : Inv bin s) {b : Batch} {op : Op T V R} {w : Word}
    (hb : s.pc.batch? = some b)
    (hs : Serving (s.chan b.chan) (s.client b.chan) (Busy s b.chan) b op)
    (startIdx : Nat) {pc : TrusteePc T R} (shape : Shape pc s.clients startIdx)
    (hpc : ∀ n offs idx c w, pc ≠ .loadedReq n offs idx c w) (hnb : pc.batch? = none) :
    Inv bin { s.setChan b.chan { s.chan b.chan with respWord := w } with
      startIdx := startIdx, pc := pc } := by
  obtain ⟨hcl, hresp, hbusy⟩ := hs
  have hself : (s.setChan b.chan { s.chan b.chan with respWord := w }).chan b.chan =
      { s.chan b.chan with respWord := w } := by simp [Sys.setChan]
  have hother : ∀ c, c ≠ b.chan →
      (s.setChan b.chan { s.chan b.chan with respWord := w }).chan c = s.chan c := by
    intro c h
    simp [Sys.setChan, Function.update_of_ne h]
  constructor
  · intro c
    by_cases h : c = b.chan
    · subst h
      have hok := hi.client b.chan
      simp only [ClientOk, hcl] at hok
      show ClientOk bin _ (s.client b.chan) (Busy s b.chan)
      simp only [ClientOk, hcl]
      rw [hself]
      exact ⟨hok.1, hok.2.1, hok.2.2.1, fun _ => hbusy⟩
    · show ClientOk bin _ (s.client c) (Busy s c)
      rw [hother c h]
      exact hi.client c
  · intro j job hj
    obtain ⟨hlt, hok⟩ := hi.job j job hj
    refine ⟨hlt, ?_⟩
    show JobOk (s.fiber j) job _ (s.client job.chan)
    by_cases h : job.chan = b.chan
    · have ho : (s.fiber j).open_ = false := by
        cases ho : (s.fiber j).open_ with
        | false => rfl
        | true => exact absurd ⟨j, job, hj, h, ho⟩ hbusy
      refine hok.past ho (Nat.lt_of_le_of_ne hok.1 ?_)
      intro he
      rw [h] at hok he
      obtain ⟨f, hf | hf⟩ := hok.2.2.2.1 ho he
      · simp only [hcl, ClientPc.waiting.injEq] at hf
        rw [hresp, ← hf.1.2] at hf
        simp at hf
      · simp [hcl] at hf
    · rw [hother _ h]
      exact hok
  · intro cp hcp
    obtain ⟨hlt, hok⟩ := hi.pair cp hcp
    refine ⟨hlt, ?_⟩
    show PairOk cp _ (Busy s cp.chan)
    by_cases h : cp.chan = b.chan
    · have := hi.unflagged b hb cp hcp h
      rw [h]
      exact ⟨fun _ => hbusy, by simp [this]⟩
    · rw [hother _ h]
      exact hok
  · exact hi.chans_nodup
  · exact hi.jobs_nodup
  · exact shape
  · intro n offs idx c w h
    exact absurd h (hpc n offs idx c w)
  · intro b' h
    rw [hnb] at h
    simp at h
  · intro b' h
    rw [hnb] at h
    simp at h

theorem Inv.leave (hi : Inv bin s) (startIdx : Nat) {pc : TrusteePc T R}
    (shape : Shape pc s.clients startIdx)
    (hpc : ∀ n offs idx c w, pc ≠ .loadedReq n offs idx c w) (hnb : pc.batch? = none) :
    Inv bin { s with startIdx := startIdx, pc := pc } := by
  refine ⟨hi.client, hi.job, hi.pair, hi.chans_nodup, hi.jobs_nodup, shape, ?_, ?_, ?_⟩
  · intro n offs idx c w h
    exact absurd h (hpc n offs idx c w)
  · intro b h
    rw [hnb] at h
    simp at h
  · intro b h
    rw [hnb] at h
    simp at h

theorem served_shape {b : Batch} {clients : List ClientPair} {startIdx : Nat}
    (hv : Visiting clients startIdx b) :
    Shape (.sweep b.n (b.offs + 1) : TrusteePc T R) clients ((b.idx + 1) % b.n) :=
  ⟨hv.1, Nat.mod_lt _ (Nat.lt_of_le_of_lt (Nat.zero_le _) hv.2.1)⟩

theorem Inv.within (hi : Inv bin s) (b' : Batch) {b : Batch} {op : Op T V R}
    (hb : s.pc.batch? = some b) (hc : b'.chan = b.chan) (hr : b'.reqReady = b.reqReady)
    (hs : Serving (s.chan b.chan) (s.client b.chan) (Busy s b.chan) b op)
    {pc : TrusteePc T R} (hpc : pc.batch? = some b')
    (hok : PcOk pc ((s.chan b.chan).records hdrOffset) op)
    (shape : Shape pc s.clients s.startIdx) : Inv bin (s.goto pc) := by
  refine hi.goto shape ?_ ?_
  · intro n offs idx c w h
    simp [h, TrusteePc.batch?] at hpc
  · intro b'' h
    rw [hpc] at h
    obtain rfl := Option.some.inj h
    rw [hc]
    refine ⟨⟨op, ?_, hok⟩, hi.unflagged b hb⟩
    exact ⟨by rw [hr]; exact hs.1, by rw [hr]; exact hs.2.1, hs.2.2⟩

theorem Inv.at_record (hi : Inv bin s) {b : Batch} (hpc : s.pc = .record b) (hleft : b.left ≠ 0) :
    b.left = 1 ∧ b.processed = 0 ∧ b.deferred = false ∧
      nextBoundaryOffset b.cursor recordHeaderSize recordHeaderAlign = hdrOffset := by
  have hshape := hi.shape
  simp only [hpc, Shape] at hshape
  rcases hshape.2 with ⟨hl, hcur, hproc, hdef⟩ | h
  · exact ⟨hl, hproc, hdef, by rw [hcur]; rfl⟩
  · exact absurd h.1 hleft

theorem Inv.recordStep (hi : Inv bin s) {b : Batch} (hpc : s.pc = .record b) :
    Inv bin (s.recordStep b) := by
  have hshape := hi.shape
  simp only [hpc, Shape] at hshape
  obtain ⟨hv, hcase⟩ := hshape
  unfold Sys.recordStep
  split
  · rename_i hleft
    split
    · exact hi.leave _ (served_shape hv) (by simp) rfl
    · rename_i hdef
      have hb : s.pc.batch? = some b := by simp [hpc, TrusteePc.batch?, hdef]
      obtain ⟨op, hs, hok⟩ := hi.serving b hb
      simp only [hpc, PcOk] at hok
      refine hi.within b hb rfl rfl hs rfl (hok hleft) ⟨hv, ?_⟩
      rcases hcase with h | h
      · omega
      · exact h.2 (by simpa using hdef)
  · rename_i hleft
    obtain ⟨hl, hproc, hdef, hcur⟩ := hi.at_record hpc hleft
    have hb : s.pc.batch? = some b := by simp [hpc, TrusteePc.batch?, hdef]
    obtain ⟨op, hs, _⟩ := hi.serving b hb
    have hholds : Holds bin (s.chan b.chan) (s.client b.chan).seq op := by
      have hok := hi.client b.chan
      simp only [ClientOk, hs.1] at hok
      exact hok.2.2.1
    have hhdr := (Op.encode_hdr hholds).1
    simp only [hcur]
    have hin : InRecord { b with cursor := hdrOffset } := ⟨hl, rfl, hproc, hdef⟩
    have hv' : Visiting s.clients s.startIdx { b with cursor := hdrOffset } := hv
    split
    · rename_i hp
      rw [hhdr] at hp
      cases op <;> simp [Op.hdr] at hp
      exact hi.within { b with cursor := hdrOffset } hb rfl rfl hs rfl rfl ⟨hv', hin⟩
    · rename_i hp
      rw [hhdr] at hp
      cases op <;> simp [Op.hdr] at hp
      exact hi.dispatch (b := { b with cursor := hdrOffset }) hv' hin hs
    · rename_i hp
      rw [hhdr] at hp
      cases op <;> simp [Op.hdr] at hp
      exact hi.within { b with cursor := hdrOffset } hb rfl rfl hs rfl rfl ⟨hv', hin⟩
    · rename_i h₁ h₂ h₃
      refine hi.within { b with cursor := hdrOffset } hb rfl rfl hs rfl ⟨rfl, ?_⟩ ⟨hv', hin⟩
      cases hp : ((s.chan b.chan).records hdrOffset).hdr.propertyPtr <;>
        simp_all [RecordHeader.called]

theorem Inv.enterSweep (hi : Inv bin s) (h : s.startIdx = 0 ∨ s.startIdx < s.clients.length) :
    Inv bin s.enterSweep := by
  unfold Sys.enterSweep
  split
  · exact hi.goto h (by simp) (by simp [TrusteePc.batch?])
  · rename_i hne
    refine hi.goto ⟨rfl, ?_⟩ (by simp) (by simp [TrusteePc.batch?])
    have : 0 < s.clients.length := by
      rw [List.length_pos_iff]
      simpa using hne
    omega

theorem Inv.trusteeStep (hi : Inv bin s) (h : s.trusteeStep = some s') : Inv bin s' := by
  have hshape := hi.shape
  unfold Sys.trusteeStep at h
  cases hpc : s.pc with
  | loop =>
    simp only [hpc] at h hshape
    have hi' := hi.ghost s.prop s.strong s.destroyed ((s.loopCounter + 1) % 2 ^ 64) s.hist
    split at h <;> simp only [Option.some.injEq] at h <;> subst h
    · exact hi'.goto hshape (by simp) (by simp [TrusteePc.batch?])
    · exact hi'.enterSweep hshape
  | drain drained =>
    simp only [hpc] at h hshape
    split at h
    · cases hreg : s.reg with
      | nil =>
        simp only [hreg, Option.some.injEq] at h
        subst h
        exact hi.enterSweep hshape
      | cons cp reg =>
        simp only [hreg, Option.some.injEq] at h
        subst h
        have hp : s.clients ++ [cp] ++ reg = s.pairs := by simp [Sys.pairs, hreg]
        refine ⟨hi.client, hi.job, ?_, ?_, hi.jobs_nodup, ?_, by simp, ?_, ?_⟩
        · intro x hx
          exact hi.pair x (hp ▸ hx)
        · show ((s.clients ++ [cp] ++ reg).map ClientPair.chan).Nodup
          rw [hp]
          exact hi.chans_nodup
        · simp only [Shape, List.length_append, List.length_singleton]
          rcases hshape with h | h
          · exact .inl h
          · exact .inr (by omega)
        · simp [TrusteePc.batch?]
        · simp [TrusteePc.batch?]
    · simp only [Option.some.injEq] at h
      subst h
      exact hi.enterSweep hshape
  | sweep n offs =>
    simp only [hpc] at h hshape
    split at h
    · split at h <;> simp only [Option.some.injEq] at h <;> subst h
      · rename_i cp hcp
        refine hi.goto ⟨hshape.1, hshape.2, cp, hcp, rfl⟩ ?_ (by simp [TrusteePc.batch?])
        intro n' offs' idx c w h
        simp only [TrusteePc.loadedReq.injEq] at h
        obtain ⟨_, _, _, rfl, rfl⟩ := h
        exact .inl rfl
      · exact hi.exit _
    · simp only [Option.some.injEq] at h
      subst h
      refine hi.goto (.inr ?_) (by simp) (by simp [TrusteePc.batch?])
      rw [← hshape.1]
      exact hshape.2
  | loadedReq n offs idx c w =>
    simp only [hpc] at h
    split at h
    · rename_i cp hcp
      simp only [Option.some.injEq] at h
      subst h
      exact hi.visit hpc hcp
    · simp at h
  | record b =>
    simp only [hpc, Option.some.injEq] at h
    subst h
    exact hi.recordStep hpc
  | exited cause => simp [hpc] at h
  | respond b =>
    simp only [hpc, Option.some.injEq] at h hshape
    subst h
    have hb : s.pc.batch? = some b := by simp [hpc, TrusteePc.batch?]
    obtain ⟨op, hs, _⟩ := hi.serving b hb
    exact hi.answer hb hs _ (served_shape hshape.1) (by simp) rfl
  | moveStore b r =>
    simp only [hpc, Option.some.injEq] at h
    subst h
    have hb : s.pc.batch? = some b := by simp [hpc, TrusteePc.batch?]
    obtain ⟨op, hs, _⟩ := hi.serving b hb
    have hi' : Inv bin { s.setChan b.chan { s.chan b.chan with
        respWord := packReadyCount r 1 } with startIdx := s.startIdx, pc := .exited .intoInner } :=
      hi.answer hb hs s.startIdx trivial (by simp) rfl
    exact hi'.ghost _ _ _ _ _
  | joining b =>
    simp only [hpc] at h
    split at h <;> simp only [Option.some.injEq, reduceCtorEq] at h
    subst h
    exact hi.exit _
  | calling b hdr k =>
    simp only [hpc] at h hshape
    have hb : s.pc.batch? = some b := by simp [hpc, TrusteePc.batch?]
    obtain ⟨op, hs, hok⟩ := hi.serving b hb
    simp only [hpc, PcOk] at hok
    obtain ⟨hv, hl, hcur, hproc, hdef⟩ := hshape
    split at h <;> simp only [Option.some.injEq] at h <;> subst h
    · refine hi.within b.advance hb rfl rfl hs (by simp [TrusteePc.batch?, Batch.advance, hdef])
        (fun _ => hok.1 ▸ hok.2) ⟨hv, .inr ⟨by simp [Batch.advance, hl], by simp [Batch.advance, hproc]⟩⟩
    · refine hi.within b hb rfl rfl hs rfl ⟨hok.1, hok.2, ?_⟩ ⟨hv, hl, hcur, hproc, hdef⟩
      rw [hcur]
      exact ⟨rfl, rfl, rfl⟩
  | inClosure b hdr k env args seq =>
    simp only [hpc] at h hshape
    have hb : s.pc.batch? = some b := by simp [hpc, TrusteePc.batch?]
    obtain ⟨op, hs, hok⟩ := hi.serving b hb
    simp only [hpc, PcOk] at hok
    have hi' := hi.ghost (env.call args s.prop).1 s.strong s.destroyed s.loopCounter
      (s.hist ++ [.app b.chan seq (env.call args)])
    split at h
    · simp only [Option.some.injEq] at h
      subst h
      exact hi'.exit _
    · split at h <;> simp only [Option.some.injEq] at h <;> subst h
      · exact hi'.within b hb rfl rfl hs rfl ⟨hok.1, hok.2.1⟩ hshape
      · exact hi'.within b hb rfl rfl hs rfl (show RecordHeader.called _ = true from hok.1 ▸ hok.2.1) hshape
  | writeOut b r =>
    simp only [hpc, Option.some.injEq] at h hshape
    subst h
    have hb : s.pc.batch? = some b := by simp [hpc, TrusteePc.batch?]
    have hi' := hi.respData b.chan (.result r)
    obtain ⟨op, hs, hok⟩ := hi'.serving b hb
    have hok : ((s.chan b.chan).records hdrOffset).hdr.called = true := by
      simpa only [Sys.setChan, hpc, PcOk, Function.update_self] using hok
    obtain ⟨hv, hl, hcur, hproc, hdef⟩ := hshape
    exact hi'.within b.advance hb rfl rfl hs
      (by simp [TrusteePc.batch?, Batch.advance, hdef])
      (fun _ => by simpa [Sys.setChan] using hok)
      ⟨hv, .inr ⟨by simp [Batch.advance, hl], by simp [Batch.advance, hproc]⟩⟩
  | moveOut b =>
    simp only [hpc, Option.some.injEq] at h hshape
    subst h
    have hb : s.pc.batch? = some b := by simp [hpc, TrusteePc.batch?]
    have hi' := hi.respData b.chan (.moved s.prop)
    obtain ⟨op, hs, hok⟩ := hi'.serving b hb
    have hok : op = .intoInner := by simpa only [Sys.setChan, hpc, PcOk] using hok
    exact hi'.within b hb rfl rfl hs rfl hok hshape
  | moveLoad b =>
    simp only [hpc, Option.some.injEq] at h hshape
    subst h
    have hb : s.pc.batch? = some b := by simp [hpc, TrusteePc.batch?]
    obtain ⟨op, hs, hok⟩ := hi.serving b hb
    simp only [hpc, PcOk] at hok
    have hcl := hi.client b.chan
    simp only [ClientOk, hs.1] at hcl
    exact hi.within b hb rfl rfl hs rfl ⟨hok, hcl.1⟩ hshape

theorem Inv.step {a : Action T V R} (hi : Inv bin s) (h : s.step bin a = some s') :
    Inv bin s' := by
  cases a with
  | register =>
    obtain rfl := Option.some.inj h
    exact hi.register
  | issue c op => exact hi.issue h
  | client c => exact hi.clientStep h
  | trustee => exact hi.trusteeStep h
  | fiber j => exact hi.fiberStep h
  | dropValue c => exact hi.dropValue h
  | dropHandle c => exact hi.dropHandle h

end Trustee

theorem Reachable.inv {bin : Bincode V} {w : Workload T V R} {value : T} {s : Sys T V R}
    (h : Reachable bin w value s) : Inv bin s :=
  h.invariant (Inv.init bin value) (fun _ _ _ hi _ hs => hi.step hs)

end TrustTee
