import TrustTee.HappensBefore
import TrustTee.Liveness

/-!
Freedom from data races on the payloads of a channel: they are plain memory, and what
orders the accesses of client, trustee and fibers are the acquires and releases of the two
flag words, and the sending of a job to its fiber.
-/

set_option autoImplicit false

namespace TrustTee
open Header

variable {T V R : Type}

inductive Party where
  | client (c : Nat) | trustee | fiber (j : Nat) | registrar
  deriving DecidableEq, Repr

inductive Shared where
  | request (c : Nat) | response (c : Nat) | job (j : Nat)
  deriving DecidableEq, Repr

/-- A handle belongs to one thread at a time, which is its client. -/
def Action.party : Action T V R → Party
  | .register => .registrar
  | .issue c _ | .client c | .dropValue c | .dropHandle c => .client c
  | .trustee => .trustee
  | .fiber j => .fiber j

def Sys.acquires (s : Sys T V R) : Action T V R → Option Shared
  | .client c => match (s.client c).pc with
    | .waiting .terminate _ => none
    | .encoded _ | .waiting _ _ => some (.response c)
    | _ => none
  | .trustee => match s.pc with
    | .sweep n offs =>
      if offs < n then
        (s.clients[RoundRobin.index n s.startIdx offs]?).map (fun cp => .request cp.chan)
      else none
    | .loadedReq _ _ _ c _ => some (.response c)
    | .moveLoad b => some (.request b.chan)
    | _ => none
  | .fiber j => match s.fiber j with
    | .queued => some (.job j)
    | _ => none
  | _ => none

def Sys.sendsJob (s : Sys T V R) (b : Batch) : Bool :=
  b.left ≠ 0 ∧ ((s.chan b.chan).records
    (nextBoundaryOffset b.cursor recordHeaderSize recordHeaderAlign)).hdr.propertyPtr = .launch

def Sys.releases (s : Sys T V R) : Action T V R → Option Shared
  | .client c => match (s.client c).pc with
    | .loaded _ _ => some (.request c)
    | _ => none
  | .trustee => match s.pc with
    | .record b => if s.sendsJob b then some (.job s.jobs.length) else none
    | .respond b | .moveStore b _ => some (.response b.chan)
    | _ => none
  | .fiber j => match s.jobs[j]?, s.fiber j with
    | some job, .guard => some (.response job.chan)
    | _, _ => none
  | _ => none

def Sys.event (s : Sys T V R) (a : Action T V R) : HappensBefore.Event Party Shared :=
  ⟨a.party, s.acquires a, s.releases a⟩

/-- The channel of which a step may read or write a payload. -/
def Sys.touches (s : Sys T V R) : Action T V R → Option Nat
  | .issue c _ => some c
  | .client c => match (s.client c).pc with
    | .reading _ => some c
    | _ => none
  | .trustee => match s.pc with
    | .record b => if b.left = 0 then none else some b.chan
    | .calling b _ _ | .inClosure b _ _ _ _ _ | .writeOut b _ | .moveOut b => some b.chan
    | _ => none
  | .fiber j => match s.jobs[j]?, s.fiber j with
    | some job, .queued | some job, .running _ _ _ | some job, .writing _ => some job.chan
    | _, _ => none
  | _ => none

def Sys.Holding (s : Sys T V R) (c : Nat) : Prop :=
  (∃ b, s.pc.batch? = some b ∧ b.chan = c) ∨
    ∃ n offs idx, s.pc = .loadedReq n offs idx c (s.chan c).reqWord

/-- Who has the payloads of a channel: its client between operations, the request word from
the publication to the visit, the trustee, the job it makes of a launch and then the fiber,
and the response word from the answer until the client sees it. -/
inductive Custody (s : Sys T V R) (c : Nat) : HappensBefore.Holder Party Shared → Prop where
  | client : (∀ op r, (s.client c).pc ≠ .waiting op r) → Custody s c (.thread (.client c))
  | published {op : Op T V R} {r : Bool} : Outstanding s c op r → ¬ s.Holding c →
      s.exited = false → Custody s c (.variable (.request c))
  | serving {op : Op T V R} {r : Bool} : Outstanding s c op r → s.Holding c →
      Custody s c (.thread .trustee)
  | sent {j : Nat} {job : Job} : s.jobs[j]? = some job → job.chan = c →
      s.fiber j = .queued → Custody s c (.variable (.job j))
  | running {j : Nat} {job : Job} : s.jobs[j]? = some job → job.chan = c →
      (s.fiber j).open_ = true → s.fiber j ≠ .queued → Custody s c (.thread (.fiber j))
  | answered {op : Op T V R} {r : Bool} : (s.client c).pc = .waiting op r →
      ready (s.chan c).respWord = r → Custody s c (.variable (.response c))

section Accesses

variable {bin : Bincode V} {s s' : Sys T V R} {c : Nat}

theorem Inv.open_waits (hi : Inv bin s) {j : Nat} {job : Job} (hj : s.jobs[j]? = some job)
    (ho : (s.fiber j).open_ = true) : ∃ op r, (s.client job.chan).pc = .waiting op r ∧
      ready (s.chan job.chan).respWord = !r := by
  obtain ⟨_, _, _, hopen, _⟩ := hi.job j job hj
  obtain ⟨_, hr, f, hpc⟩ := hopen ho
  exact ⟨_, _, hpc, hr⟩

theorem Sys.touches_batch (h : s.touches .trustee = some c) :
    ∃ b, s.pc.batch? = some b ∧ b.chan = c := by
  cases hpc : s.pc with
  | record b =>
    simp only [Sys.touches, hpc] at h
    split at h <;> simp only [Option.some.injEq, reduceCtorEq] at h
    rename_i hleft
    exact ⟨b, by simp [TrusteePc.batch?, hleft], h⟩
  | calling b _ _ | inClosure b _ _ _ _ _ | writeOut b _ | moveOut b =>
    simp only [Sys.touches, hpc, Option.some.injEq] at h
    exact ⟨b, rfl, h⟩
  | _ => simp [Sys.touches, hpc] at h

theorem Sys.touches_fiber {j : Nat} (h : s.touches (.fiber j) = some c) :
    ∃ job, s.jobs[j]? = some job ∧ job.chan = c ∧ (s.fiber j).open_ = true := by
  cases hj : s.jobs[j]? with
  | none => simp [Sys.touches, hj] at h
  | some job =>
    cases hpc : s.fiber j with
    | queued | running _ _ _ | writing _ =>
      simp only [Sys.touches, hj, hpc, Option.some.injEq] at h
      exact ⟨job, rfl, h, rfl⟩
    | _ => simp [Sys.touches, hj, hpc] at h

theorem Inv.holding_outstanding (hi : Inv bin s) {b : Batch} (hb : s.pc.batch? = some b) :
    ∃ op, Outstanding s b.chan op b.reqReady := by
  obtain ⟨op, hs, _⟩ := hi.serving b hb
  exact ⟨op, hs⟩

inductive Touching (s : Sys T V R) (c : Nat) : Action T V R → Prop where
  | client {a : Action T V R} : a.party = .client c →
      (∀ op r, (s.client c).pc ≠ .waiting op r) → Touching s c a
  | trustee {op : Op T V R} {r : Bool} : Outstanding s c op r → s.Holding c →
      Touching s c .trustee
  | fiber {j : Nat} {job : Job} : s.jobs[j]? = some job → job.chan = c →
      (s.fiber j).open_ = true → Touching s c (.fiber j)

theorem Inv.touching (hi : Inv bin s) {a : Action T V R} (hs : s.step bin a = some s')
    (h : s.touches a = some c) : Touching s c a := by
  cases a with
  | issue c' op =>
    obtain rfl := Option.some.inj h
    exact .client rfl (by simp [(Sys.issue_spec hs).1])
  | client c' =>
    simp only [Sys.touches] at h
    split at h <;> simp only [Option.some.injEq, reduceCtorEq] at h
    rename_i hpc
    exact .client (by rw [← h]; rfl) (by simp [← h, hpc])
  | trustee =>
    obtain ⟨b, hb, rfl⟩ := Sys.touches_batch h
    obtain ⟨op, ho⟩ := hi.holding_outstanding hb
    exact .trustee ho (.inl ⟨b, hb, rfl⟩)
  | fiber j =>
    obtain ⟨job, hj, hc, ho⟩ := Sys.touches_fiber h
    exact .fiber hj hc ho
  | _ => simp [Sys.touches] at h

/-- Who touches a payload has it or is getting it. -/
theorem Touching.custody {a : Action T V R} (h : Touching s c a) : ∃ b, Custody s c b ∧
    (b = .thread (s.event a).thread ∨
      ∃ x, b = .variable x ∧ (s.event a).acquires = some x) := by
  cases h with
  | client hp hw => exact ⟨_, .client hw, .inl (by rw [← hp]; rfl)⟩
  | trustee ho hh => exact ⟨_, .serving ho hh, .inl rfl⟩
  | @fiber j job hj hc ho =>
    by_cases hq : s.fiber j = .queued
    · exact ⟨_, .sent hj hc hq, .inr ⟨_, rfl, by simp [Sys.event, Sys.acquires, hq]⟩⟩
    · exact ⟨_, .running hj hc ho hq, .inl rfl⟩

theorem Touching.by_client (hi : Inv bin s) {a : Action T V R} (h : Touching s c a)
    (hpc : ∀ op r, (s.client c).pc ≠ .waiting op r) : a.party = .client c := by
  cases h with
  | client hp _ => exact hp
  | trustee ho _ => exact absurd ho.1 (hpc _ _)
  | fiber hj hc ho =>
    obtain ⟨op, r, hw, _⟩ := hi.open_waits hj ho
    exact absurd (hc ▸ hw) (hpc op r)

theorem Touching.by_trustee {a : Action T V R} (h : Touching s c a) {op : Op T V R} {r : Bool}
    (ho : Outstanding s c op r) : a = .trustee ∧ s.Holding c := by
  cases h with
  | client _ hw => exact absurd ho.1 (hw op r)
  | trustee _ hh => exact ⟨rfl, hh⟩
  | fiber hj hc hopen => exact absurd ⟨_, _, hj, hc, hopen⟩ ho.2.2

theorem Touching.by_fiber (hi : Inv bin s) {a : Action T V R} (h : Touching s c a) {j : Nat}
    {job : Job} (hj : s.jobs[j]? = some job) (hc : job.chan = c)
    (ho : (s.fiber j).open_ = true) : a = .fiber j := by
  cases h with
  | client _ hw =>
    obtain ⟨op, r, hpc, _⟩ := hi.open_waits hj ho
    exact absurd (hc ▸ hpc) (hw op r)
  | trustee hout _ => exact absurd ⟨_, _, hj, hc, ho⟩ hout.2.2
  | fiber hi' hc' ho' => rw [hi.open_unique hi' hj (hc'.trans hc.symm) ho' ho]

theorem Inv.answered_untouched (hi : Inv bin s) {op : Op T V R} {r : Bool}
    (hpc : (s.client c).pc = .waiting op r) (hr : ready (s.chan c).respWord = r)
    {a : Action T V R} : ¬ Touching s c a ∧ s.releases a ≠ some (.response c) := by
  have closed : ∀ op' r', (s.client c).pc = .waiting op' r' →
      ready (s.chan c).respWord ≠ !r' := by
    intro op' r' hpc' hr'
    obtain ⟨_, rfl⟩ := ClientPc.waiting.inj (hpc.symm.trans hpc')
    simp [hr] at hr'
  have unserved : ∀ b, s.pc.batch? = some b → b.chan ≠ c := by
    rintro b hb rfl
    obtain ⟨op', ho⟩ := hi.holding_outstanding hb
    exact closed _ _ ho.1 ho.2.1
  have shut : ∀ (j : Nat) (job : Job), s.jobs[j]? = some job → (s.fiber j).open_ = true →
      job.chan ≠ c := by
    rintro j job hj ho rfl
    obtain ⟨op', r', hpc', hr'⟩ := hi.open_waits hj ho
    exact closed _ _ hpc' hr'
  constructor
  · intro h
    cases h with
    | client _ hw => exact hw op r hpc
    | trustee ho _ => exact closed _ _ ho.1 ho.2.1
    | fiber hj hc ho => exact shut _ _ hj ho hc
  · intro h
    cases a with
    | trustee =>
      simp only [Sys.releases] at h
      split at h
      · split at h <;> simp at h
      all_goals
        rename_i hp
        simp only [Option.some.injEq, Shared.response.injEq, reduceCtorEq] at h
        try exact unserved _ (by rw [hp]; rfl) h
    | fiber j =>
      simp only [Sys.releases] at h
      split at h <;> simp only [Option.some.injEq, Shared.response.injEq, reduceCtorEq] at h
      rename_i hj hf
      exact shut j _ hj (by rw [hf]; rfl) h
    | client c' =>
      simp only [Sys.releases] at h
      split at h <;> simp at h
    | _ => simp [Sys.releases] at h

end Accesses

section Passing

variable {bin : Bincode V} {s s' : Sys T V R} {c : Nat} {op op' : Op T V R} {r r' : Bool}

theorem Sys.trusteeStep_batch (h : s.trusteeStep = some s') {b : Batch}
    (hb : s'.pc.batch? = some b) : (∃ b', s.pc.batch? = some b' ∧ b'.chan = b.chan) ∨
      ∃ n offs idx c w cp, s.pc = .loadedReq n offs idx c w ∧ s.clients[idx]? = some cp ∧
        cp.chan = b.chan ∧ cp.found w (s.chan cp.chan).respWord = true := by
  have sweep : ∀ x : Sys T V R, x.enterSweep.pc.batch? = none := by
    intro x
    unfold Sys.enterSweep
    split <;> rfl
  have go : ∀ b₀ : Batch, s.pc.batch? = some b₀ → b₀.chan = b.chan →
      (∃ b', s.pc.batch? = some b' ∧ b'.chan = b.chan) ∨ ∃ n offs idx c w cp,
        s.pc = .loadedReq n offs idx c w ∧ s.clients[idx]? = some cp ∧ cp.chan = b.chan ∧
          cp.found w (s.chan cp.chan).respWord = true := fun b₀ h hc => .inl ⟨b₀, h, hc⟩
  unfold Sys.trusteeStep at h
  cases hpc : s.pc with
  | loop =>
    simp only [hpc] at h
    split at h <;> obtain rfl := Option.some.inj h
    · cases hb
    · simp [sweep] at hb
  | drain drained =>
    simp only [hpc] at h
    split at h
    · split at h <;> obtain rfl := Option.some.inj h
      · cases hb
      · simp [sweep] at hb
    · obtain rfl := Option.some.inj h
      simp [sweep] at hb
  | sweep n offs =>
    simp only [hpc] at h
    repeat' split at h
    all_goals
      obtain rfl := Option.some.inj h
      cases hb
  | loadedReq n offs idx c w =>
    simp only [hpc] at h
    split at h <;> simp only [Option.some.injEq, reduceCtorEq] at h
    rename_i cp hcp
    subst h
    cases hf : cp.found w (s.chan cp.chan).respWord with
    | true =>
      rw [Sys.visit_found hf, TrusteePc.batch?, if_neg (by simp), Option.some.injEq] at hb
      exact .inr ⟨n, offs, idx, c, w, cp, rfl, hcp, by rw [← hb], hf⟩
    | false =>
      rw [(Sys.visit_not_found hf).1] at hb
      cases hb
  | record b₀ =>
    simp only [hpc, Option.some.injEq] at h
    subst h
    by_cases hleft : b₀.left = 0
    · unfold Sys.recordStep at hb
      rw [if_pos hleft] at hb
      split at hb
      · cases hb
      · rename_i hdef
        obtain rfl : b₀ = b := by simpa [Sys.goto, TrusteePc.batch?] using hb
        exact hpc ▸ go b₀ (by simp [hpc, TrusteePc.batch?, hdef]) rfl
    · refine hpc ▸ go b₀ (by simp [hpc, TrusteePc.batch?, hleft]) ?_
      unfold Sys.recordStep at hb
      rw [if_neg hleft] at hb
      dsimp only at hb
      split at hb
      case h_2 =>
        simp only [Sys.dispatch, TrusteePc.batch?] at hb
        split at hb <;> simp only [Option.some.injEq, reduceCtorEq] at hb
        rw [← hb]
        rfl
      all_goals
        simp only [Sys.goto, TrusteePc.batch?, Option.some.injEq] at hb
        rw [← hb]
  | calling b₀ hdr k =>
    simp only [hpc] at h
    split at h <;> obtain rfl := Option.some.inj h
    · simp only [Sys.goto, TrusteePc.batch?] at hb
      split at hb <;> simp only [Option.some.injEq, reduceCtorEq] at hb
      exact hpc ▸ go b₀ (by rw [hpc]; rfl) (by rw [← hb]; rfl)
    · obtain rfl : b₀ = b := by simpa [Sys.goto, TrusteePc.batch?] using hb
      exact hpc ▸ go b₀ (by rw [hpc]; rfl) rfl
  | inClosure b₀ hdr k env args seq =>
    simp only [hpc] at h
    split at h
    · obtain rfl := Option.some.inj h
      cases hb
    · split at h <;> obtain rfl := Option.some.inj h
      all_goals
        obtain rfl : b₀ = b := by simpa [Sys.goto, TrusteePc.batch?] using hb
        exact hpc ▸ go b₀ (by rw [hpc]; rfl) rfl
  | writeOut b₀ x =>
    simp only [hpc, Option.some.injEq] at h
    subst h
    simp only [Sys.goto, TrusteePc.batch?] at hb
    split at hb <;> simp only [Option.some.injEq, reduceCtorEq] at hb
    exact hpc ▸ go b₀ (by rw [hpc]; rfl) (by rw [← hb]; rfl)
  | moveOut b₀ | moveLoad b₀ =>
    simp only [hpc, Option.some.injEq] at h
    subst h
    obtain rfl : b₀ = b := by simpa [Sys.goto, TrusteePc.batch?] using hb
    exact hpc ▸ go b₀ (by rw [hpc]; rfl) rfl
  | moveStore b₀ x | respond b₀ =>
    simp only [hpc, Option.some.injEq] at h
    subst h
    cases hb
  | joining b₀ =>
    simp only [hpc] at h
    split at h <;> simp only [Option.some.injEq, reduceCtorEq] at h
    subst h
    cases hb
  | exited cause => simp [hpc] at h

theorem Sys.trusteeStep_acquires (h : s.trusteeStep = some s') {n offs idx : Nat} {w : Word}
    (hpc' : s'.pc = .loadedReq n offs idx c w) : s.acquires .trustee = some (.request c) := by
  cases Sys.trusteeStep_sweeps h with
  | between hpc =>
    have sweep : ∀ x : Sys T V R, x.enterSweep.pc ≠ .loadedReq n offs idx c w := by
      intro x
      simp only [Sys.enterSweep, Sys.goto]
      split <;> simp
    unfold Sys.trusteeStep at h
    rcases hpc with hpc | ⟨d, hpc⟩ <;> simp only [hpc] at h <;> repeat' split at h
    all_goals obtain rfl := Option.some.inj h
    all_goals first | cases hpc' | exact absurd hpc' (sweep _)
  | load hpc hlt hcp hnext _ =>
    rw [hnext] at hpc'
    obtain ⟨rfl, rfl, rfl, rfl, rfl⟩ := TrusteePc.loadedReq.inj hpc'
    simp only [Sys.acquires, hpc, if_pos hlt, hcp, Option.map_some]
  | finish _ _ hnext => cases hnext.symm.trans hpc'
  | pass _ _ _ hnext _ => cases hnext.symm.trans hpc'
  | take _ _ _ hnext _ _ _ => cases hnext.symm.trans hpc'
  | serve _ hnext _ _ _ => simp [hpc', TrusteePc.visiting?] at hnext
  | served _ hnext _ => cases hnext.symm.trans hpc'
  | exit hnext => cases hnext.symm.trans hpc'

theorem Sys.trusteeStep_answers (h : s.trusteeStep = some s') (c : Nat) :
    (s'.chan c).respWord = (s.chan c).respWord ∨ s.releases .trustee = some (.response c) := by
  rcases Sys.trusteeStep_respWord h c with he | ⟨b, hb, rfl⟩
  · exact .inl he
  unfold Sys.trusteeStep at h
  cases hpc : s.pc with
  | loop | drain d | sweep n offs | loadedReq n offs idx c w | exited cause =>
    simp [hpc, TrusteePc.batch?] at hb
  | record b₀ =>
    simp only [hpc, Option.some.injEq] at h
    subst h
    exact .inl (by rw [(s.recordStep_frame b₀).2.2.2.2.1])
  | calling b₀ hdr k =>
    simp only [hpc] at h
    split at h <;> obtain rfl := Option.some.inj h <;> exact .inl rfl
  | inClosure b₀ hdr k env args seq =>
    simp only [hpc] at h
    split at h
    · obtain rfl := Option.some.inj h
      exact .inl rfl
    · split at h <;> obtain rfl := Option.some.inj h <;> exact .inl rfl
  | joining b₀ =>
    simp only [hpc] at h
    split at h <;> simp only [Option.some.injEq, reduceCtorEq] at h
    subst h
    exact .inl rfl
  | writeOut b₀ x | moveOut b₀ =>
    obtain rfl : b₀ = b := by simpa [hpc, TrusteePc.batch?] using hb
    simp only [hpc, Option.some.injEq] at h
    subst h
    exact .inl (by simp [Sys.goto, Sys.setChan])
  | moveLoad b₀ =>
    simp only [hpc, Option.some.injEq] at h
    subst h
    exact .inl rfl
  | moveStore b₀ x | respond b₀ =>
    obtain rfl : b₀ = b := by simpa [hpc, TrusteePc.batch?] using hb
    exact .inr (by simp [Sys.releases, hpc])

theorem Sys.fiberStep_answers {j : Nat} (h : s.fiberStep j = some s') (c : Nat) :
    (s'.chan c).respWord = (s.chan c).respWord ∨ ∃ job, s.jobs[j]? = some job ∧
      job.chan = c ∧ s.fiber j = .guard ∧ s.releases (.fiber j) = some (.response c) := by
  obtain ⟨job, hj, _, _, hch, _, hshut⟩ := Sys.fiberStep_frame h
  by_cases hc : c = job.chan
  · subst hc
    unfold Sys.fiberStep at h
    cases hpc : s.fiber j with
    | guard => exact .inr ⟨job, hj, rfl, rfl, by simp [Sys.releases, hj, hpc]⟩
    | signalled | finished => exact .inl (by rw [(hshut (by simp [hpc, FiberPc.open_])).2])
    | queued =>
      simp only [hj, hpc, Option.some.injEq] at h
      subst h
      exact .inl rfl
    | running env args seq =>
      simp only [hj, hpc] at h
      split at h <;> obtain rfl := Option.some.inj h <;> exact .inl rfl
    | writing x =>
      simp only [hj, hpc, Option.some.injEq] at h
      subst h
      exact .inl (by simp [Sys.setFiber, Sys.setChan])
  · exact .inl (by rw [hch c hc])

theorem Inv.answers (hi : Inv bin s) {a : Action T V R} (hs : s.step bin a = some s')
    (hpc : (s.client c).pc = .waiting op r) (hpc' : s'.client c = s.client c)
    (hr : ready (s.chan c).respWord ≠ r) (hr' : ready (s'.chan c).respWord = r) :
    Custody s c (.thread a.party) ∧ s.releases a = some (.response c) := by
  have changed : (s'.chan c).respWord ≠ (s.chan c).respWord := by
    intro he
    rw [he] at hr'
    exact hr hr'
  by_cases ha : a = .trustee
  · subst ha
    refine ⟨?_, (Sys.trusteeStep_answers hs c).resolve_left changed⟩
    obtain ⟨b, hb, rfl⟩ := (Sys.trusteeStep_respWord hs c).resolve_left changed
    obtain ⟨op, ho⟩ := hi.holding_outstanding hb
    exact .serving ho (.inl ⟨b, hb, rfl⟩)
  by_cases hf : ∃ j, a = .fiber j
  · obtain ⟨j, rfl⟩ := hf
    obtain ⟨job, hj, hc, hguard, hrel⟩ := (Sys.fiberStep_answers hs c).resolve_left changed
    exact ⟨.running hj hc (by simp [hguard, FiberPc.open_]) (by simp [hguard]), hrel⟩
  · have hb := Sys.step_beside hs ha (fun j hj => hf ⟨j, hj⟩)
    rcases hb.client c with ⟨_, hch⟩ | ⟨next, _⟩
    · exact absurd (by rw [hch]) changed
    · rw [hpc'] at next
      generalize (s.client c).pc = pc at next
      cases next

theorem Inv.outstanding_before (hi : Inv bin s) {a : Action T V R} (hs : s.step bin a = some s')
    (hpc : (s.client c).pc = .waiting op r) (ho : Outstanding s' c op' r') :
    Outstanding s c op r := by
  have hi' := hi.step hs
  have hnot : ¬ s'.pending c ≤ 3 := by
    have := hi'.pending_outstanding.mpr ⟨op', r', ho⟩
    omega
  refine ⟨hpc, ?_, ?_⟩
  · have hna : ready (s.chan c).respWord ≠ r := by
      intro hr
      have hans : Answered (s.client c) (s.chan c) (s.client c).seq :=
        .inr ⟨rfl, .inr ⟨op, r, hpc, hr⟩⟩
      rcases hans.step hi hs with h | ⟨hseq, ⟨op₂, h⟩ | ⟨op₂, r₂, h, hr₂⟩⟩
      · rcases Sys.step_client hs c with he | ⟨next, _⟩
        · rw [he] at h
          omega
        · rw [hpc] at next
          generalize hpc₂ : (s'.client c).pc = pc at next
          cases next
          cases ho.1.symm.trans hpc₂
      · cases ho.1.symm.trans h
      · obtain ⟨_, rfl⟩ := ClientPc.waiting.inj (ho.1.symm.trans h)
        simp [ho.2.1] at hr₂
    cases r <;> simpa using hna
  · rintro ⟨j, job, hj, rfl, hopen⟩
    by_cases ha : a = .fiber j
    · subst ha
      rcases hi.fiber_helps hj hopen hs with h | ⟨h, _⟩
      · omega
      · obtain ⟨_, _, _, hjobs, _⟩ := Sys.fiberStep_frame hs
        exact ho.2.2 ⟨j, job, hjobs ▸ hj, rfl, h⟩
    · obtain ⟨hj', hf⟩ := Sys.step_other_fiber hs ha hj
      exact ho.2.2 ⟨j, job, hj', rfl, hf ▸ hopen⟩

theorem Inv.holding_kept (hi : Inv bin s) {a : Action T V R} (hs : s.step bin a = some s')
    (ho : Outstanding s c op r) (ho' : Outstanding s' c op r) (halive : s'.exited = false)
    (hh : s.Holding c) : s'.Holding c := by
  by_cases ha : a = .trustee
  · subst ha
    have hcl := (Sys.trusteeStep_frame hs).1
    rcases hh with ⟨b, hb, rfl⟩ | ⟨n, offs, idx, hpc⟩
    · rcases hi.serves hb hs with ⟨b', hb', hc⟩ | hserved | ⟨cause, hexit⟩
      · exact .inl ⟨b', hb', hc⟩
      · have hthree := Sys.pending_served ho'.1 (by rwa [hcl])
        have hfour := (hi.step hs).pending_outstanding.mpr ⟨op, r, ho'⟩
        omega
      · simp [Sys.exited, hexit] at halive
    · have hshape := hi.shape
      simp only [hpc, Shape, Located] at hshape
      obtain ⟨_, _, cp, hcp, rfl⟩ := hshape
      simp only [Sys.step, Sys.trusteeStep, hpc, hcp, Option.some.injEq] at hs
      rw [hi.visit_serves hcp ho] at hs
      subst hs
      exact .inl ⟨_, rfl, rfl⟩
  · obtain ⟨hpc, _⟩ := Sys.step_aside hs ha
    obtain ⟨_, _, hch⟩ := ho.keep hs ha
    simpa only [Sys.Holding, hpc, hch] using hh

theorem Inv.holding_gained (hi : Inv bin s) {a : Action T V R} (hs : s.step bin a = some s')
    (ho : Outstanding s c op r) (hh : s'.Holding c) :
    s.Holding c ∨ a = .trustee ∧ s.acquires .trustee = some (.request c) := by
  by_cases ha : a = .trustee
  · subst ha
    rcases hh with ⟨b, hb, rfl⟩ | ⟨n, offs, idx, hpc⟩
    · rcases Sys.trusteeStep_batch hs hb with ⟨b', hb', hc⟩ |
        ⟨n, offs, idx, c, w, cp, hpc, hcp, hc, hf⟩
      · exact .inl (.inl ⟨b', hb', hc⟩)
      · -- a word that was loaded too early does not make the visit find anything
        have hshape := hi.shape
        simp only [hpc, Shape, Located] at hshape
        obtain ⟨_, _, cp', hcp', hc'⟩ := hshape
        obtain rfl := Option.some.inj (hcp.symm.trans hcp')
        obtain rfl : c = b.chan := by rw [← hc', hc]
        rcases hi.fresh _ _ _ _ _ hpc with rfl | ⟨_, hresp, _⟩
        · exact .inl (.inr ⟨n, offs, idx, hpc⟩)
        · rw [hc] at hf
          simp [ClientPair.found, hresp] at hf
    · exact .inr ⟨rfl, Sys.trusteeStep_acquires hs hpc⟩
  · obtain ⟨hpc, _⟩ := Sys.step_aside hs ha
    obtain ⟨_, _, hch⟩ := ho.keep hs ha
    simp only [Sys.Holding, hpc, hch] at hh
    exact .inl hh

theorem Sys.clientStep_publishes (hs : s.clientStep c = some s')
    (hpc : (s.client c).pc = .loaded op r) : (s'.chan c).reqWord = packReadyCount r 1 ∧
      (s'.chan c).respWord = (s.chan c).respWord := by
  simp only [Sys.clientStep, hpc, Option.some.injEq] at hs
  subst hs
  simp [Sys.setChan, Sys.setClient]

/-- Nothing that the trustee has loaded before a publication is current after it. -/
theorem Inv.published_untaken (hi : Inv bin s) (hs : s.clientStep c = some s')
    (hpc : (s.client c).pc = .loaded op r) : ¬ s'.Holding c := by
  have hstep : s.step bin (.client c) = some s' := hs
  obtain ⟨hpc', _⟩ := Sys.step_aside hstep (by simp)
  have hcl := hi.client c
  simp only [ClientOk, hpc] at hcl
  obtain ⟨⟨hquiet, _⟩, _, rfl⟩ := hcl
  obtain ⟨hword, _⟩ := Sys.clientStep_publishes hs hpc
  rintro (⟨b, hb, rfl⟩ | ⟨n, offs, idx, hload⟩)
  · rw [hpc'] at hb
    obtain ⟨op', ho, _⟩ := hi.holding_outstanding hb
    cases hpc.symm.trans ho
  · rw [hpc', hword] at hload
    rcases hi.fresh _ _ _ _ _ hload with h | ⟨_, h, _⟩
    · rw [← h] at hquiet
      simp at hquiet
    · simp at h

theorem Sys.releases_request {a : Action T V R} (h : s.releases a = some (.request c)) :
    ∃ op r, (s.client c).pc = .loaded op r := by
  cases a with
  | client c' =>
    simp only [Sys.releases] at h
    split at h <;> simp only [Option.some.injEq, Shared.request.injEq, reduceCtorEq] at h
    rename_i op r hpc
    exact ⟨op, r, h ▸ hpc⟩
  | trustee =>
    simp only [Sys.releases] at h
    repeat' split at h
    all_goals simp at h
  | fiber j =>
    simp only [Sys.releases] at h
    split at h <;> simp at h
  | _ => simp [Sys.releases] at h

theorem Sys.releases_job {a : Action T V R} {j : Nat} (h : s.releases a = some (.job j)) :
    j = s.jobs.length := by
  cases a with
  | client c' =>
    simp only [Sys.releases] at h
    split at h <;> simp at h
  | trustee =>
    simp only [Sys.releases] at h
    repeat' split at h
    all_goals simp only [Option.some.injEq, Shared.job.injEq, reduceCtorEq] at h
    exact h.symm
  | fiber i =>
    simp only [Sys.releases] at h
    split at h <;> simp at h
  | _ => simp [Sys.releases] at h

theorem Sys.recordStep_sends (s : Sys T V R) (b : Batch) (h : (s.recordStep b).jobs ≠ s.jobs) :
    s.sendsJob b = true ∧ ∃ job, job.chan = b.chan ∧ (s.recordStep b).jobs = s.jobs ++ [job] ∧
      (s.recordStep b).fiber = Function.update s.fiber s.jobs.length .queued := by
  have hleft : b.left ≠ 0 := by
    intro hleft
    unfold Sys.recordStep at h
    rw [if_pos hleft] at h
    split at h <;> exact h rfl
  have hlaunch : ((s.chan b.chan).records (nextBoundaryOffset b.cursor recordHeaderSize
      recordHeaderAlign)).hdr.propertyPtr = .launch := by
    unfold Sys.recordStep at h
    rw [if_neg hleft] at h
    dsimp only at h
    split at h <;> first | assumption | exact absurd rfl h
  refine ⟨by simp [Sys.sendsJob, hleft, hlaunch], ?_⟩
  unfold Sys.recordStep
  rw [if_neg hleft]
  simp only [hlaunch]
  exact ⟨_, rfl, rfl, rfl⟩

theorem Sys.sent_or_kept {a : Action T V R} (hs : s.step bin a = some s')
    {j : Nat} {job : Job} (hj' : s'.jobs[j]? = some job) :
    (a = .trustee ∧ s'.fiber j = .queued ∧ s.releases a = some (.job j) ∧
      ∃ b, s.pc.batch? = some b ∧ b.chan = job.chan) ∨
    s.jobs[j]? = some job ∧ (a ≠ .fiber j → s'.fiber j = s.fiber j) := by
  cases hj : s.jobs[j]? with
  | some job₀ =>
    by_cases ha : a = .fiber j
    · subst ha
      obtain ⟨_, _, _, hjobs, _⟩ := Sys.fiberStep_frame hs
      exact .inr ⟨by rw [← hj, ← hjobs, hj'], fun h => absurd rfl h⟩
    · obtain ⟨hkept, hf⟩ := Sys.step_other_fiber hs ha hj
      exact .inr ⟨hkept.symm.trans hj', fun _ => hf⟩
  | none =>
    have changed : s'.jobs ≠ s.jobs := by
      intro he
      rw [he, hj] at hj'
      cases hj'
    by_cases ha : a = .trustee
    · subst ha
      obtain ⟨b, hpc, hleft, rfl⟩ := (Sys.trusteeStep_frame hs).2.2.2.resolve_left changed
      obtain ⟨hlaunch, x, hx, hjobs, hfiber⟩ := s.recordStep_sends b changed
      have hlen : s.jobs.length ≤ j := by simpa using hj
      obtain ⟨hlt, _⟩ := List.getElem?_eq_some_iff.mp hj'
      rw [hjobs, List.length_append, List.length_singleton] at hlt
      obtain rfl : j = s.jobs.length := by omega
      obtain rfl : x = job := by simpa [hjobs] using hj'
      refine .inl ⟨rfl, by simp [hfiber], by simp [Sys.releases, hpc, hlaunch], b, ?_, hx.symm⟩
      simp [hpc, TrusteePc.batch?, hleft]
    · exact absurd (Sys.step_aside hs ha).2.2.2 changed

def Handed (s : Sys T V R) (a : Action T V R) (c : Nat)
    (b : HappensBefore.Holder Party Shared) : Prop :=
  ∃ b', Custody s c b' ∧ HappensBefore.Passes (s.event a) (s.touches a = some c) b' b

theorem Inv.handed_client (hi : Inv bin s) {a : Action T V R} (hs : s.step bin a = some s')
    (hpc' : ∀ op r, (s'.client c).pc ≠ .waiting op r) : Handed s a c (.thread (.client c)) := by
  by_cases hpc : ∃ op r, (s.client c).pc = .waiting op r
  · obtain ⟨op, r, hpc⟩ := hpc
    rcases Sys.step_client hs c with he | ⟨next, _⟩
    · exact absurd (he ▸ hpc) (hpc' op r)
    · obtain rfl := next.waits hpc
      have hr : ready (s.chan c).respWord = r := by
        by_contra hne
        exact hpc' op r (Sys.clientStep_spins hs hpc hne ▸ hpc)
      have hop : op ≠ .terminate := by
        rw [hpc] at next
        generalize (s'.client c).pc = pc at next
        cases next
        assumption
      refine ⟨_, .answered hpc hr, .take ?_⟩
      cases op <;> first | exact absurd rfl hop | simp [Sys.event, Sys.acquires, hpc]
  · have hidle : ∀ op r, (s.client c).pc ≠ .waiting op r := fun op r h => hpc ⟨op, r, h⟩
    exact ⟨_, .client hidle, .stay (fun ht => ((hi.touching hs ht).by_client hi hidle).symm)⟩

theorem Inv.handed_answered (hi : Inv bin s) {a : Action T V R} (hs : s.step bin a = some s')
    (hpc' : (s'.client c).pc = .waiting op r) (hr' : ready (s'.chan c).respWord = r) :
    Handed s a c (.variable (.response c)) := by
  rcases Sys.step_client hs c with he | ⟨next, _⟩
  · have hpc : (s.client c).pc = .waiting op r := he ▸ hpc'
    by_cases hr : ready (s.chan c).respWord = r
    · obtain ⟨huntouched, hrel⟩ := hi.answered_untouched (a := a) hpc hr
      exact ⟨_, .answered hpc hr, .rest hrel (fun ht => huntouched (hi.touching hs ht))⟩
    · obtain ⟨hhas, hrel⟩ := hi.answers hs hpc he hr hr'
      exact ⟨_, hhas, .give hrel⟩
  · -- what has just been published is not answered yet
    generalize hpc : (s.client c).pc = pc at next
    rw [hpc'] at next
    cases next
    have hcl := hi.client c
    simp only [ClientOk, hpc] at hcl
    obtain ⟨_, _, hload⟩ := hcl
    rw [(Sys.clientStep_publishes hs hpc).2, hload] at hr'
    simp at hr'

theorem Inv.handed_published (hi : Inv bin s) {a : Action T V R} (hs : s.step bin a = some s')
    (ho' : Outstanding s' c op r) (hh' : ¬ s'.Holding c) (halive : s'.exited = false) :
    Handed s a c (.variable (.request c)) := by
  rcases Sys.step_client hs c with he | ⟨next, _⟩
  · have hpc : (s.client c).pc = .waiting op r := he ▸ ho'.1
    have ho := hi.outstanding_before hs hpc ho'
    have hh : ¬ s.Holding c := fun hh => hh' (hi.holding_kept hs ho ho' halive hh)
    refine ⟨_, .published ho hh (Sys.step_alive hs halive), .rest ?_ ?_⟩
    · intro hrel
      obtain ⟨op₂, r₂, hpc₂⟩ := Sys.releases_request hrel
      cases hpc.symm.trans hpc₂
    · exact fun ht => hh ((hi.touching hs ht).by_trustee ho).2
  · generalize hpc : (s.client c).pc = pc at next
    rw [ho'.1] at next
    cases next
    exact ⟨_, .client (by simp [hpc]), .give (by simp [Sys.event, Sys.releases, hpc])⟩

theorem Inv.handed_serving (hi : Inv bin s) {a : Action T V R} (hs : s.step bin a = some s')
    (ho' : Outstanding s' c op r) (hh' : s'.Holding c) : Handed s a c (.thread .trustee) := by
  rcases Sys.step_client hs c with he | ⟨next, _⟩
  · have hpc : (s.client c).pc = .waiting op r := he ▸ ho'.1
    have ho := hi.outstanding_before hs hpc ho'
    by_cases hh : s.Holding c
    · refine ⟨_, .serving ho hh, .stay (fun ht => ?_)⟩
      rw [((hi.touching hs ht).by_trustee ho).1]
      rfl
    · obtain ⟨rfl, hacq⟩ := (hi.holding_gained hs ho hh').resolve_left hh
      exact ⟨_, .published ho hh (Sys.trusteeStep_alive hs), .take hacq⟩
  · generalize hpc : (s.client c).pc = pc at next
    rw [ho'.1] at next
    cases next
    exact absurd hh' (hi.published_untaken hs hpc)

theorem Inv.handed_sent (hi : Inv bin s) {a : Action T V R} (hs : s.step bin a = some s')
    {j : Nat} {job : Job} (hj' : s'.jobs[j]? = some job) (hc : job.chan = c)
    (hq' : s'.fiber j = .queued) : Handed s a c (.variable (.job j)) := by
  rcases Sys.sent_or_kept hs hj' with ⟨rfl, _, hrel, b, hb, hbc⟩ | ⟨hj, hf⟩
  · obtain ⟨op, ho⟩ := hi.holding_outstanding hb
    obtain rfl : b.chan = c := hbc.trans hc
    exact ⟨_, .serving ho (.inl ⟨b, hb, rfl⟩), .give hrel⟩
  · have ha : a ≠ .fiber j := by
      rintro rfl
      exact (Sys.fiberStep_payload hs).1 hq'
    have hq : s.fiber j = .queued := hf ha ▸ hq'
    have hopen : (s.fiber j).open_ = true := by rw [hq]; rfl
    refine ⟨_, .sent hj hc hq, .rest ?_ ?_⟩
    · obtain ⟨hlt, _⟩ := List.getElem?_eq_some_iff.mp hj
      exact fun hrel => absurd (Sys.releases_job hrel) (by omega)
    · exact fun ht => ha ((hi.touching hs ht).by_fiber hi hj hc hopen)

theorem Inv.handed_running (hi : Inv bin s) {a : Action T V R} (hs : s.step bin a = some s')
    {j : Nat} {job : Job} (hj' : s'.jobs[j]? = some job) (hc : job.chan = c)
    (ho' : (s'.fiber j).open_ = true) (hq' : s'.fiber j ≠ .queued) :
    Handed s a c (.thread (.fiber j)) := by
  rcases Sys.sent_or_kept hs hj' with ⟨_, hq, _⟩ | ⟨hj, hf⟩
  · exact absurd hq hq'
  have hopen : (s.fiber j).open_ = true := by
    by_cases ha : a = .fiber j
    · subst ha
      obtain ⟨_, _, _, _, _, _, hshut⟩ := Sys.fiberStep_frame hs
      cases ho : (s.fiber j).open_ with
      | true => rfl
      | false => simp [(hshut ho).1] at ho'
    · exact hf ha ▸ ho'
  by_cases hq : s.fiber j = .queued
  · have ha : a = .fiber j := by
      by_contra ha
      exact hq' (hf ha ▸ hq)
    subst ha
    exact ⟨_, .sent hj hc hq, .take (by simp [Sys.event, Sys.acquires, hq])⟩
  · refine ⟨_, .running hj hc hopen hq, .stay (fun ht => ?_)⟩
    rw [(hi.touching hs ht).by_fiber hi hj hc hopen]
    rfl

theorem Inv.handed (hi : Inv bin s) {a : Action T V R} (hs : s.step bin a = some s')
    {b : HappensBefore.Holder Party Shared} (h : Custody s' c b) : Handed s a c b := by
  cases h with
  | client hpc => exact hi.handed_client hs hpc
  | published ho hh halive => exact hi.handed_published hs ho hh halive
  | serving ho hh => exact hi.handed_serving hs ho hh
  | sent hj hc hq => exact hi.handed_sent hs hj hc hq
  | running hj hc ho hq => exact hi.handed_running hs hj hc ho hq
  | answered hpc hr => exact hi.handed_answered hs hpc hr

end Passing

/-- In every interleaving, whatever the clients issue, all accesses to the payloads of one
channel are ordered by what happens before what. -/
theorem channel_race_free {bin : Bincode V} {value : T} {s : Sys T V R}
    {l : List (Sys T V R × Action T V R)} (h : Machine.Trace (Sys.step bin) (Sys.init value) l s)
    {i j : Nat} {x y : Sys T V R × Action T V R} (hij : i < j) (hi : l[i]? = some x)
    (hj : l[j]? = some y) {c : Nat} (hx : x.1.touches x.2 = some c)
    (hy : y.1.touches y.2 = some c) :
    HappensBefore.Before (HappensBefore.events Sys.event l) i j := by
  have passes : ∀ (t : Sys T V R) a v b, Inv bin t → t.step bin a = some v → Custody v c b →
      Handed t a c b := fun t a v b ht hs hb => ht.handed hs hb
  have held : ∀ (t : Sys T V R) a v, Inv bin t → t.step bin a = some v →
      t.touches a = some c → ∃ b, Custody t c b ∧ (b = .thread (t.event a).thread ∨
        ∃ x, b = .variable x ∧ (t.event a).acquires = some x) :=
    fun t a v ht hs htouch => (ht.touching hs htouch).custody
  exact HappensBefore.touched_in_order (Inv.init bin value) (fun t a v ht hs => ht.step hs)
    passes held h hij hi hj hx hy

/-- What a fiber writes as the result of a launch its client reads after it. -/
theorem channel_race_free_launchThenApply :
    ∃ s, Machine.run (Sys.step byteBincode) (Sys.init 5) launchThenApply = some s ∧
      HappensBefore.Before (HappensBefore.events Sys.event
        (Machine.trail (Sys.step byteBincode) (Sys.init 5) launchThenApply)) 16 19 := by
  obtain ⟨s, hs⟩ := Machine.run_exists (show (Machine.run (Sys.step byteBincode)
    (Sys.init 5) launchThenApply).isSome = true by decide)
  obtain ⟨x, hx, hxt⟩ := Option.bind_eq_some_iff.mp
    (show ((Machine.trail (Sys.step byteBincode) (Sys.init 5) launchThenApply)[16]?).bind
      (fun x => x.1.touches x.2) = some 0 by decide)
  obtain ⟨y, hy, hyt⟩ := Option.bind_eq_some_iff.mp
    (show ((Machine.trail (Sys.step byteBincode) (Sys.init 5) launchThenApply)[19]?).bind
      (fun x => x.1.touches x.2) = some 0 by decide)
  exact ⟨s, hs, channel_race_free (Machine.run_trail hs) (by decide) hx hy hxt hyt⟩

end TrustTee
