import TrustTee.Exclusion
import TrustTee.Ownership
import TrustTee.Handles

set_option autoImplicit false

namespace TrustTee
open Header

variable {T V R : Type}

def Sys.Stranded (s : Sys T V R) (c : Nat) : Prop :=
  ∃ op r, (s.client c).pc = .waiting op r ∧ ready (s.chan c).respWord ≠ r

/-- The handle of client `c` is in a call that has still to publish, or can make another. -/
def Sys.CanPublish (s : Sys T V R) (c : Nat) : Prop :=
  match (s.client c).pc with
  | .idle | .encoded _ | .loaded _ _ => True
  | .waiting .intoInner _ | .reading .intoInner => False
  | .waiting _ _ | .reading _ => True
  | _ => False

/-- Once the worker has ended, no live handle has an unanswered request or can still
publish one. -/
def NoOrphans (s : Population T V R) : Prop :=
  s.sys.exited = true → ∀ c, s.sys.live c = true → ¬ s.sys.Stranded c ∧ ¬ s.sys.CanPublish c

/-- The ownership assertion of `into_inner` accepts the last live handle only. -/
def SoundAssertion (s : Population T V R) (a : Deed T V R) : Prop :=
  ∀ c, a = .intoInner c → s.owner c ≠ .absent → ∀ c', c' ≠ c → s.sys.live c' = false

/-- How a run has to behave: `into_inner` is called with an owner on the last live handle
only, no handle is made after the worker's end, and the worker ends through a closure that
does not panic, when there is no live handle besides that of `into_inner`. -/
def Orderly (s : Population T V R) : Deed T V R → Prop
  | .intoInner c => s.owner c ≠ .absent → ∀ c', c' ≠ c → s.sys.live c' = false
  | .entrust | .cloneHandle _ => s.sys.exited = false
  | .trustee =>
    match s.sys.pc with
    | .inClosure _ _ _ env args _ => (env.call args s.sys.prop).2 ≠ .panicked
    | .moveStore b _ => ∀ c, c ≠ b.chan → s.sys.live c = false
    | .joining _ => ∀ c, s.sys.live c = false
    | _ => True
  | _ => True

def Sys.Released (s : Sys T V R) (c : Nat) : Prop :=
  (∃ r, (s.client c).pc = .waiting .intoInner r ∧ ready (s.chan c).respWord = r) ∨
    (s.client c).pc = .reading .intoInner

theorem Sys.live_created {s : Sys T V R} {c : Nat} (h : s.live c = true) : c < s.created := by
  simp only [Sys.live, Bool.and_eq_true, decide_eq_true_eq] at h
  exact h.1

/-- A live handle is no orphan exactly if it waits for nothing but its `into_inner`. -/
theorem Sys.released_iff {s : Sys T V R} {c : Nat} (h : s.live c = true) :
    (¬ s.Stranded c ∧ ¬ s.CanPublish c) ↔ s.Released c := by
  simp only [Sys.live, Bool.and_eq_true, decide_eq_true_eq] at h
  obtain ⟨_, hpc⟩ := h
  unfold Sys.Stranded Sys.CanPublish Sys.Released
  unfold ClientPc.held at hpc
  cases hc : (s.client c).pc with
  | waiting op r =>
    have hstr : (∃ op' r', ClientPc.waiting op r = .waiting op' r' ∧
        ready (s.chan c).respWord ≠ r') ↔ ready (s.chan c).respWord ≠ r := by
      constructor
      · rintro ⟨_, _, he, hne⟩
        injection he with _ hr
        rwa [hr]
      · exact fun hne => ⟨op, r, rfl, hne⟩
    rw [hstr]
    cases op <;> simp_all
    exact eq_comm
  | reading op => cases op <;> simp_all
  | encoded op => simp_all
  | loaded op r => simp_all
  | idle => simp_all
  | owning d => simp_all
  | gone => simp_all

section Worker

variable {bin : Bincode V} {w : Workload T V R} {value : T} {s s' : Sys T V R}

/-- A moved value is in a response slot while the worker is in its `IntoInner` arm, or
after it has ended. -/
theorem Reachable.moved (h : Reachable bin w value s) {c : Nat} {t : T}
    (ht : (s.chan c).respData = .moved t) : s.exited = true ∨
      ∃ b, (s.pc = .moveLoad b ∨ ∃ r, s.pc = .moveStore b r) ∧ b.chan = c := by
  refine h.invariant (P := fun s => ∀ c t, (s.chan c).respData = .moved t → s.exited = true ∨
    ∃ b, (s.pc = .moveLoad b ∨ ∃ r, s.pc = .moveStore b r) ∧ b.chan = c) ?_ ?_ c t ht
  · intro c t ht
    simp [Sys.init, ChannelPair.default] at ht
  · intro s a s' hI _ hs c t ht
    by_cases hm : MovesOut s a
    · obtain ⟨rfl, b, hpc⟩ := hm
      simp only [Sys.step, Sys.trusteeStep, hpc, Option.some.injEq] at hs
      subst hs
      by_cases hc : c = b.chan
      · exact .inr ⟨b, .inl rfl, hc.symm⟩
      · simp only [Sys.goto, Sys.setChan, Function.update_of_ne hc] at ht
        rcases hI c t ht with hex | ⟨b', hb' | ⟨r, hb'⟩, _⟩
        · simp [Sys.exited, hpc] at hex
        · simp [hpc] at hb'
        · simp [hpc] at hb'
    · have hold : (s.chan c).respData = .moved t := by
        rcases Sys.step_respData hs hm c with hd | ⟨r, hd⟩
        · rwa [hd] at ht
        · simp [hd] at ht
      have hI := hI c t hold
      by_cases ha : a = .trustee
      · subst ha
        rcases hI with hex | ⟨b, hpc | ⟨r, hpc⟩, hc⟩
        · have := Sys.trusteeStep_alive hs
          simp [hex] at this
        · simp only [Sys.step, Sys.trusteeStep, hpc, Option.some.injEq] at hs
          subst hs
          exact .inr ⟨b, .inr ⟨_, rfl⟩, hc⟩
        · simp only [Sys.step, Sys.trusteeStep, hpc, Option.some.injEq] at hs
          subst hs
          exact .inl rfl
      · rw [Sys.exited_aside hs ha, (Sys.step_aside hs ha).1]
        exact hI

theorem Reachable.released_exited (h : Reachable bin w value s) {c : Nat}
    (hr : s.Released c) : s.exited = true := by
  obtain ⟨o, _, href⟩ := h.refines
  have hph := href.phase c
  have hmoved : ∃ t, (s.chan c).respData = .moved t := by
    unfold PhaseOk at hph
    rcases hr with ⟨r, hpc, hready⟩ | hpc
    · simp only [hpc] at hph
      obtain ⟨i, last, _, hans, _⟩ := hph
      exact (hans hready).2
    · simp only [hpc] at hph
      obtain ⟨_, _, hans⟩ := hph
      exact hans
  obtain ⟨t, ht⟩ := hmoved
  rcases h.moved ht with hex | ⟨b, hpc, rfl⟩
  · exact hex
  · -- inside the arm the request is still unanswered
    have hb : s.pc.batch? = some b := by
      rcases hpc with hpc | ⟨r, hpc⟩ <;> simp [hpc, TrusteePc.batch?]
    obtain ⟨op, ⟨hcl, hready, _⟩, _⟩ := h.inv.serving b hb
    rcases hr with ⟨r, hpc', hready'⟩ | hpc'
    · rw [hcl] at hpc'
      injection hpc' with _ hrr
      rw [hready, hrr] at hready'
      simp at hready'
    · rw [hcl] at hpc'
      cases hpc'

theorem Reachable.terminate_unread (h : Reachable bin w value s) (c : Nat) :
    (s.client c).pc ≠ .reading .terminate := by
  intro hpc
  obtain ⟨o, _, href⟩ := h.refines
  have hph := href.phase c
  simp only [PhaseOk, hpc] at hph
  obtain ⟨_, _, hans⟩ := hph
  exact hans

theorem Sys.enterSweep_alive (s : Sys T V R) : s.enterSweep.exited = false := by
  unfold Sys.enterSweep
  split <;> rfl

theorem Reachable.unregistered (h : Reachable bin w value s) {c : Nat} (hc : s.created ≤ c) :
    (s.client c).pc = .idle := by
  refine h.invariant (P := fun s => ∀ c, s.created ≤ c → (s.client c).pc = .idle) ?_ ?_ c hc
  · intro c _
    rfl
  · intro s a s' hI _ hs c hc
    have hold : s.created ≤ c := Nat.le_trans (Sys.step_created hs) hc
    rcases Sys.step_client hs c with hcl | ⟨_, created⟩
    · rw [hcl]
      exact hI c hold
    · exact absurd (created (hI c hold)) (Nat.not_lt_of_le hold)

/-- How the worker ends: a closure panics, an `into_inner` is answered, or the fibers are
joined. -/
theorem Inv.trusteeStep_exits (hi : Inv bin s) (h : s.trusteeStep = some s')
    (hex : s'.exited = true) : s'.client = s.client ∧ s'.created = s.created ∧
      ((∃ b hdr k env args seq, s.pc = .inClosure b hdr k env args seq ∧
        (env.call args s.prop).2 = .panicked ∧ s'.chan = s.chan) ∨
      (∃ b r, s.pc = .moveStore b r ∧ (∀ c, c ≠ b.chan → s'.chan c = s.chan c) ∧
        (s'.chan b.chan).respWord = packReadyCount r 1) ∨
      (∃ b, s.pc = .joining b ∧ s'.chan = s.chan)) := by
  refine ⟨(Sys.trusteeStep_frame h).1, (Sys.trusteeStep_frame h).2.1, ?_⟩
  unfold Sys.trusteeStep at h
  cases hpc : s.pc with
  | exited cause => simp [hpc] at h
  | loop =>
    simp only [hpc] at h
    split at h <;> obtain rfl := Option.some.inj h
    · cases hex
    · rw [Sys.enterSweep_alive] at hex
      cases hex
  | drain drained =>
    simp only [hpc] at h
    split at h
    · split at h <;> obtain rfl := Option.some.inj h
      · cases hex
      · rw [Sys.enterSweep_alive] at hex
        cases hex
    · obtain rfl := Option.some.inj h
      rw [Sys.enterSweep_alive] at hex
      cases hex
  | sweep n offs =>
    simp only [hpc] at h
    have hshape := hi.shape
    simp only [hpc, Shape] at hshape
    split at h
    · rename_i hoffs
      split at h <;> obtain rfl := Option.some.inj h
      · cases hex
      · -- the index is always in range
        rename_i hnone
        rw [List.getElem?_eq_none_iff] at hnone
        split at hnone <;> omega
    · obtain rfl := Option.some.inj h
      cases hex
  | loadedReq n offs idx c w =>
    simp only [hpc] at h
    split at h <;> simp only [Option.some.injEq, reduceCtorEq] at h
    subst h
    obtain ⟨_, _, hnext, he⟩ := s.visit_frame n offs idx _ w _
    rw [he] at hex
    rcases hnext with rfl | ⟨b, rfl⟩ <;> cases hex
  | record b =>
    simp only [hpc, Option.some.injEq] at h
    subst h
    unfold Sys.recordStep at hex
    dsimp only at hex
    split at hex
    · split at hex <;> cases hex
    · split at hex <;> cases hex
  | calling b hdr k =>
    simp only [hpc] at h
    split at h <;> obtain rfl := Option.some.inj h <;> cases hex
  | inClosure b hdr k env args seq =>
    simp only [hpc] at h
    split at h
    · obtain rfl := Option.some.inj h
      exact .inl ⟨b, hdr, k, env, args, seq, rfl, ‹_›, rfl⟩
    · split at h <;> obtain rfl := Option.some.inj h <;> cases hex
  | joining b =>
    simp only [hpc] at h
    split at h <;> simp only [Option.some.injEq, reduceCtorEq] at h
    subst h
    exact .inr (.inr ⟨b, rfl, rfl⟩)
  | moveStore b r =>
    simp only [hpc, Option.some.injEq] at h
    subst h
    refine .inr (.inl ⟨b, r, rfl, ?_, ?_⟩)
    · intro c hc
      simp [Sys.exit, Sys.dropArc, Sys.goto, Sys.setChan, Function.update_of_ne hc]
    · simp [Sys.exit, Sys.dropArc, Sys.goto, Sys.setChan]
  | _ =>
    simp only [hpc, Option.some.injEq] at h
    subst h
    cases hex

end Worker

def Sys.AllReleased (s : Sys T V R) : Prop := ∀ c, s.live c = true → s.Released c

theorem noOrphans_iff {s : Population T V R} :
    NoOrphans s ↔ (s.sys.exited = true → s.sys.AllReleased) := by
  unfold NoOrphans Sys.AllReleased
  refine imp_congr_right (fun _ => forall_congr' (fun c => ?_))
  exact ⟨fun h hl => (Sys.released_iff hl).mp (h hl), fun h hl => (Sys.released_iff hl).mpr (h hl)⟩

section After

variable {bin : Bincode V} {w : Workload T V R} {value : T} {s s' : Sys T V R}

theorem Sys.AllReleased.not_idle (h : s.AllReleased) {c : Nat} (hc : c < s.created) :
    (s.client c).pc ≠ .idle := by
  intro hpc
  have hl : s.live c = true := by simp [Sys.live, hc, hpc, ClientPc.held]
  rcases h c hl with ⟨r, hr, _⟩ | hr <;> rw [hpc] at hr <;> cases hr

theorem Sys.AllReleased.issue (h : s.AllReleased) {c : Nat} {op : Op T V R} :
    s.issue bin c op = none := by
  unfold Sys.issue
  split
  · rename_i hpc
    rw [if_neg (fun hc => h.not_idle hc hpc)]
  · rfl

theorem Sys.AllReleased.dropHandle (h : s.AllReleased) {c : Nat} : s.dropHandle c = none := by
  unfold Sys.dropHandle
  split
  · rename_i hpc
    rw [if_neg (fun hc => h.not_idle hc hpc)]
  · rfl

theorem Sys.live_congr {c : Nat} (hcr : s'.created = s.created)
    (hcl : s'.client c = s.client c) : s'.live c = s.live c := by
  simp only [Sys.live, hcr, hcl]

theorem Sys.Released.congr {c : Nat} (h : s.Released c) (hcl : s'.client c = s.client c)
    (hch : s'.chan c = s.chan c) : s'.Released c := by
  unfold Sys.Released at h ⊢
  rwa [hcl, hch]

theorem Sys.clientStep_live {c : Nat} (ht : (s.client c).pc ≠ .reading .terminate)
    (hs : s.clientStep c = some s') (hl : s'.live c = true) : s.live c = true := by
  have hcr := Sys.clientStep_created hs
  unfold Sys.live at hl ⊢
  rw [hcr] at hl
  simp only [Bool.and_eq_true] at hl ⊢
  refine ⟨hl.1, ?_⟩
  have hl := hl.2
  unfold ClientPc.held at hl ⊢
  unfold Sys.clientStep at hs
  cases hpc : (s.client c).pc with
  | encoded op =>
    simp only [hpc, Option.some.injEq] at hs
    subst hs
    cases op <;> simp_all [Sys.setClient]
  | loaded op r =>
    simp only [hpc, Option.some.injEq] at hs
    subst hs
    cases op <;> simp_all [Sys.setClient]
  | waiting op r =>
    cases op with
    | terminate =>
      simp only [hpc] at hs
      split at hs <;> simp only [Option.some.injEq, reduceCtorEq] at hs
      subst hs
      simp [hpc] at hl
    | _ => rfl
  | reading op => cases op <;> simp_all
  | idle => rfl
  | gone => simp [hpc] at hs
  | owning d => simp [hpc] at hs

theorem Sys.AllReleased.clientStep (hr : Reachable bin w value s) (h : s.AllReleased) {c : Nat}
    (hs : s.clientStep c = some s') : s'.AllReleased := by
  intro c' hl
  by_cases hcc : c' = c
  · subst hcc
    rcases h c' (Sys.clientStep_live (hr.terminate_unread c') hs hl) with ⟨r, hpc, hready⟩ | hpc
    · simp only [Sys.clientStep, hpc, if_pos hready, Option.some.injEq] at hs
      subst hs
      exact .inr (by simp [Sys.setClient])
    · simp only [Sys.clientStep, hpc, Option.some.injEq] at hs
      subst hs
      simp [Sys.live, Sys.setClient, Sys.log, ClientPc.held] at hl
  · obtain ⟨hcl, hch⟩ := Sys.clientStep_frame hs hcc
    rw [Sys.live_congr (Sys.clientStep_created hs) hcl] at hl
    exact (h c' hl).congr hcl hch

theorem Sys.AllReleased.fiberStep (hr : Reachable bin w value s) (h : s.AllReleased) {j : Nat}
    (hs : s.fiberStep j = some s') : s'.AllReleased := by
  obtain ⟨job, hj, hcl, _, hch, _, hdone⟩ := Sys.fiberStep_frame hs
  have hcr : s'.created = s.created := (Sys.fiberStep_aside hs).2.2.2
  intro c hl
  rw [Sys.live_congr hcr (by rw [hcl])] at hl
  have hrel := h c hl
  refine hrel.congr (by rw [hcl]) ?_
  by_cases hc : c = job.chan
  · subst hc
    cases ho : (s.fiber j).open_ with
    | false => rw [(hdone ho).2]
    | true =>
      obtain ⟨_, _, _, hopen, _⟩ := hr.inv.job j job hj
      obtain ⟨_, _, f, hpc⟩ := hopen ho
      rcases hrel with ⟨r, hpc', _⟩ | hpc' <;> rw [hpc] at hpc' <;> cases hpc'
  · exact hch c hc

theorem Sys.AllReleased.dropValue (h : s.AllReleased) {c : Nat}
    (hs : s.dropValue c = some s') : s'.AllReleased := by
  simp only [Sys.dropValue] at hs
  split at hs <;> simp only [Option.some.injEq, reduceCtorEq] at hs
  subst hs
  intro c' hl
  by_cases hcc : c' = c
  · subst hcc
    simp [Sys.live, Sys.setClient, ClientPc.held] at hl
  · have hcl : Function.update s.client c ⟨(s.client c).seq, .gone⟩ c' = s.client c' :=
      Function.update_of_ne hcc _ _
    refine (h c' ?_).congr hcl rfl
    rw [← hl]
    symm
    exact Sys.live_congr rfl hcl

theorem Sys.AllReleased.sendTerminate (h : s.AllReleased)
    (hs : s.sendTerminate bin = some s') : s'.AllReleased := by
  unfold Sys.sendTerminate Sys.issue at hs
  split at hs
  · split at hs
    · obtain ⟨rec_, _, hs⟩ := Option.bind_eq_some_iff.mp hs
      obtain rfl := Option.some.inj hs
      intro c hl
      by_cases hc : c = s.created
      · subst hc
        simp [Sys.live, Sys.log, Sys.setClient, Sys.setChan, ClientPc.held] at hl
      · have hlt : c < s.created := by
          have := Sys.live_created hl
          simp only [Sys.log, Sys.setClient, Sys.setChan, Sys.register] at this
          omega
        have hrel : s.Released c := by
          refine h c ?_
          simp only [Sys.live, Sys.log, Sys.setClient, Sys.setChan, Sys.register,
            Function.update_of_ne hc, Bool.and_eq_true] at hl
          simp only [Sys.live, decide_eq_true hlt, Bool.true_and]
          exact hl.2
        refine hrel.congr ?_ ?_
        · simp [Sys.log, Sys.setClient, Sys.setChan, Sys.register, Function.update_of_ne hc]
        · simp [Sys.log, Sys.setClient, Sys.setChan, Sys.register, Function.update_of_ne hc]
    · simp at hs
  · simp at hs

end After

structure Kept (bin : Bincode V) (value : T) (s : Population T V R) : Prop where
  reach : Reachable bin (fun _ _ => True) value s.sys
  released : s.sys.exited = true → s.sys.AllReleased

section Runs

variable {bin : Bincode V} {value : T} {s s' : Population T V R}

theorem Reachable.free {x y : Sys T V R} (h : Reachable bin (fun _ _ => True) value x)
    {a : Action T V R} (hs : x.step bin a = some y) :
    Reachable bin (fun _ _ => True) value y :=
  h.next (by cases a <;> trivial) hs

theorem Reachable.sendTerminate {x y : Sys T V R}
    (h : Reachable bin (fun _ _ => True) value x) (hs : x.sendTerminate bin = some y) :
    Reachable bin (fun _ _ => True) value y := by
  have hreg : Reachable bin (fun _ _ => True) value x.register :=
    h.free (a := .register) rfl
  exact hreg.free (a := .issue x.created .terminate) hs

theorem Sys.sendTerminate_exited {x y : Sys T V R} (hs : x.sendTerminate bin = some y) :
    y.exited = x.exited := by
  have h := Sys.step_aside
    (show x.register.step bin (.issue x.created .terminate) = some y from hs) (by simp)
  unfold Sys.exited
  rw [h.1]
  rfl

theorem Kept.aside (h : Kept bin value s) {x : Sys T V R} {a : Action T V R}
    (hs : s.sys.step bin a = some x) (ha : a ≠ .trustee)
    (hrel : s.sys.AllReleased → x.AllReleased) : Kept bin value { s with sys := x } := by
  exact ⟨h.reach.free hs, fun hex =>
    hrel (h.released ((Sys.exited_aside hs ha).symm.trans hex))⟩

theorem Kept.sendTerminate (h : Kept bin value s) (hx : s.sys.sendTerminate bin = some s'.sys) :
    Kept bin value s' := by
  refine ⟨h.reach.sendTerminate hx, fun hex => ?_⟩
  rw [Sys.sendTerminate_exited hx] at hex
  exact (h.released hex).sendTerminate hx

theorem Kept.release (h : Kept bin value s) {c : Nat} (hs : s.release bin c = some s') :
    Kept bin value s' := by
  unfold Population.release at hs
  split at hs
  · obtain ⟨x, hx, hs⟩ := Option.bind_eq_some_iff.mp hs
    obtain rfl := Option.some.inj hs
    exact h.sendTerminate hx
  · obtain rfl := Option.some.inj hs
    exact h

theorem Kept.step (h : Kept bin value s) {a : Deed T V R} (ha : Orderly s a)
    (hs : s.step bin a = some s') : Kept bin value s' := by
  cases a with
  | cloneHandle c =>
    simp only [Population.step] at hs
    split at hs
    · split at hs <;> simp only [Option.some.injEq, reduceCtorEq] at hs
      subst hs
      have ha : s.sys.exited = false := ha
      refine ⟨h.reach.free (a := .register) rfl, fun hex => ?_⟩
      exact absurd (show s.sys.exited = true from hex) (by simp [ha])
    · simp at hs
  | entrust =>
    simp only [Population.step] at hs
    split at hs <;> simp only [Option.some.injEq, reduceCtorEq] at hs
    subst hs
    have ha : s.sys.exited = false := ha
    refine ⟨h.reach.free (a := .register) rfl, fun hex => ?_⟩
    exact absurd (show s.sys.exited = true from hex) (by simp [ha])
  | dropHandle c =>
    obtain ⟨x, hx, hs⟩ := Option.bind_eq_some_iff.mp hs
    refine Kept.release (h.aside (a := .dropHandle c) hx (by simp) (fun hrel => ?_)) hs
    rw [hrel.dropHandle] at hx
    cases hx
  | intoInner c =>
    simp only [Population.step] at hs
    split at hs
    · obtain ⟨x, hx, hs⟩ := Option.bind_eq_some_iff.mp hs
      obtain rfl := Option.some.inj hs
      refine h.aside (a := .dropHandle c) hx (by simp) (fun hrel => ?_)
      rw [hrel.dropHandle] at hx
      cases hx
    · obtain ⟨x, hx, hs⟩ := Option.bind_eq_some_iff.mp hs
      obtain rfl := Option.some.inj hs
      refine h.aside (a := .issue c .intoInner) hx (by simp) (fun hrel => ?_)
      rw [hrel.issue] at hx
      cases hx
  | call c op =>
    have hs : ∃ x, s.sys.issue bin c op = some x ∧ s' = { s with sys := x } := by
      cases op with
      | intoInner => cases hs
      | terminate => cases hs
      | _ =>
        obtain ⟨x, hx, hs⟩ := Option.bind_eq_some_iff.mp hs
        exact ⟨x, hx, (Option.some.inj hs).symm⟩
    obtain ⟨x, hx, rfl⟩ := hs
    refine h.aside (a := .issue c op) hx (by simp) (fun hrel => ?_)
    rw [hrel.issue] at hx
    cases hx
  | client c =>
    obtain ⟨x, hx, hs⟩ := Option.bind_eq_some_iff.mp hs
    have hk : Kept bin value { s with sys := x } :=
      h.aside (a := .client c) hx (by simp) (fun hrel => hrel.clientStep h.reach hx)
    split at hs
    · exact hk.release hs
    · obtain rfl := Option.some.inj hs
      exact hk
  | dropValue c =>
    obtain ⟨x, hx, hs⟩ := Option.bind_eq_some_iff.mp hs
    obtain rfl := Option.some.inj hs
    exact h.aside (a := .dropValue c) hx (by simp) (fun hrel => hrel.dropValue hx)
  | cloneRuntime =>
    simp only [Population.step] at hs
    split at hs <;> simp only [Option.some.injEq, reduceCtorEq] at hs
    subst hs
    exact ⟨h.reach, h.released⟩
  | dropSpare =>
    simp only [Population.step] at hs
    split at hs <;> simp only [Option.some.injEq, reduceCtorEq] at hs
    subst hs
    exact ⟨h.reach, h.released⟩
  | dropRuntime =>
    simp only [Population.step] at hs
    split at hs
    · obtain ⟨x, hx, hs⟩ := Option.bind_eq_some_iff.mp hs
      obtain rfl := Option.some.inj hs
      exact h.sendTerminate hx
    · simp at hs
  | fiber j =>
    obtain ⟨x, hx, hs⟩ := Option.bind_eq_some_iff.mp hs
    obtain rfl := Option.some.inj hs
    exact h.aside (a := .fiber j) hx (by simp) (fun hrel => hrel.fiberStep h.reach hx)
  | trustee =>
    obtain ⟨x, hx, hs⟩ := Option.bind_eq_some_iff.mp hs
    obtain rfl := Option.some.inj hs
    refine ⟨h.reach.free (a := .trustee) hx, fun hex c hl => ?_⟩
    obtain ⟨hcl, hcr, hcases⟩ := h.reach.inv.trusteeStep_exits hx hex
    rw [Sys.live_congr hcr (by rw [hcl])] at hl
    unfold Orderly at ha
    rcases hcases with ⟨b, hdr, k, env, args, seq, hpc, hout, _⟩ | ⟨b, r, hpc, hch, hresp⟩ |
      ⟨b, hpc, _⟩
    · simp only [hpc] at ha
      exact absurd hout ha
    · simp only [hpc] at ha
      by_cases hc : c = b.chan
      · subst hc
        obtain ⟨op, ⟨hw, _, _⟩, hok⟩ :=
          h.reach.inv.serving b (by simp [hpc, TrusteePc.batch?])
        simp only [hpc, PcOk] at hok
        obtain ⟨rfl, rfl⟩ := hok
        exact .inl ⟨b.reqReady, by rw [hcl]; exact hw, by rw [hresp]; simp⟩
      · rw [ha c hc] at hl
        cases hl
    · simp only [hpc] at ha
      rw [ha c] at hl
      cases hl

end Runs

end TrustTee
