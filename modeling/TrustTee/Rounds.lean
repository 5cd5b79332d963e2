import TrustTee.Registration
import TrustTee.Orphans
import TrustTee.Pooled
import Mathlib.Data.Prod.Lex

set_option autoImplicit false

namespace TrustTee
open Header AtomicObject

variable {T V R : Type}

/-- The operations under which the worker goes on: the closures that it calls itself
return, and a launched one may end as it likes. -/
def lasting : Workload T V R := fun c op => op.Launches ∨ delegated c op

def returning : Workload T V R := fun c op => lasting c op ∨ op = .intoInner ∨ op = .terminate

theorem lasting_ends {c : Nat} {op : Op T V R} (h : lasting c op) :
    op ≠ .intoInner ∧ op ≠ .terminate := by
  cases op <;> simp_all [lasting, Op.Launches, delegated]

theorem returning_called {c : Nat} {op : Op T V R} (h : returning c op)
    (hc : op.hdr.called = true) : lasting c op := by
  rcases h with h | rfl | rfl
  · exact h
  · simp [Op.hdr, RecordHeader.called] at hc
  · simp [Op.hdr, RecordHeader.called] at hc

theorem lasting_returns {bin : Bincode V} (hbin : bin.RoundTrips) {c k : Nat} {op : Op T V R}
    (h : lasting c op) (he : op.encode bin k ≠ none) (hc : op.hdr.called = true) (t : T) :
    (op.ran bin t).2 ≠ .panicked := by
  rw [Op.ran_eq_meaning hbin he]
  have lifts : ∀ {S : Type} (g : S → Option R) (f : Body T S), f.Returns →
      (f.lift g t).2 ≠ .panicked := by
    intro S g f hf
    have := hf t
    cases ho : (f t).2 <;> simp_all [Body.lift, Outcome.map]
  cases op with
  | apply f | with_ f =>
    rcases h with h | h
    · exact absurd h id
    · exact lifts _ _ h
  | applyWith f v =>
    rcases h with h | h
    · exact absurd h id
    · exact lifts _ _ (h v)
  | applyBatchMut f n =>
    rcases h with h | h
    · exact absurd h id
    · exact lifts _ _ h
  | launch f => simp [Op.hdr, RecordHeader.called] at hc
  | intoInner | terminate => simp [Op.hdr, RecordHeader.called] at hc

/-- The trustee serves a request that ends the worker, or the worker has ended. -/
def Sys.Ending (s : Sys T V R) : Prop :=
  match s.pc with
  | .moveOut _ | .moveLoad _ | .moveStore _ _ | .joining _ | .exited _ => True
  | _ => False

structure Working (bin : Bincode V) (value : T) (s : Sys T V R) : Prop where
  reach : Reachable bin returning value s
  goes : ¬ s.Ending

section Worker

variable {bin : Bincode V} {value : T} {s s' : Sys T V R}

theorem Reachable.serves {w : Workload T V R} (h : Reachable bin w value s) {b : Batch}
    (hb : s.pc.batch? = some b) : ∃ op, Outstanding s b.chan op b.reqReady ∧ w b.chan op ∧
      op.encode bin (s.client b.chan).seq = some ((s.chan b.chan).records hdrOffset) ∧
      PcOk s.pc ((s.chan b.chan).records hdrOffset) op := by
  obtain ⟨op, hs, hpc⟩ := h.inv.serving b hb
  have hcl := h.inv.client b.chan
  simp only [ClientOk, hs.1] at hcl
  exact ⟨op, hs, (h.called (h.waiting_called hs.1)).1, hcl.2.2.1, hpc⟩

theorem Reachable.closure_returns (hbin : bin.RoundTrips) (h : Reachable bin returning value s)
    {b : Batch} {hdr : RecordHeader} {k : Nat} {env : Closure T R} {args : List UInt8}
    {seq : Nat} (hpc : s.pc = .inClosure b hdr k env args seq) (t : T) :
    (env.call args t).2 ≠ .panicked := by
  obtain ⟨op, _, hop, henc, hok⟩ := h.serves (b := b) (by simp [hpc, TrusteePc.batch?])
  simp only [hpc, PcOk] at hok
  obtain ⟨rfl, hcalled, rfl, rfl, rfl⟩ := hok
  rw [(Op.encode_hdr henc).1] at hcalled
  have hlast := returning_called hop hcalled
  have hran : Holds bin (s.chan b.chan) (s.client b.chan).seq op := henc
  have hne : op.encode bin (s.client b.chan).seq ≠ none := by simp [henc]
  rw [hran.ran.1 (lasting_ends hlast).2]
  exact lasting_returns hbin hlast hne hcalled t

theorem Reachable.exits_ending (hbin : bin.RoundTrips) (h : Reachable bin returning value s)
    (hs : s.trusteeStep = some s') (hx : s'.exited = true) : s.Ending := by
  rcases (h.inv.trusteeStep_exits hs hx).2.2 with
    ⟨b, hdr, k, env, args, seq, hpc, hout, _⟩ | ⟨b, r, hpc, _⟩ | ⟨b, hpc, _⟩
  · exact absurd hout (h.closure_returns hbin hpc _)
  · simp [Sys.Ending, hpc]
  · simp [Sys.Ending, hpc]

theorem Reachable.ending_request {w : Workload T V R} (h : Reachable bin w value s)
    (he : s.Ending) : s.exited = true ∨ ∃ b op, s.pc.batch? = some b ∧ w b.chan op ∧
      (op = .intoInner ∨ op = .terminate) := by
  have serves : ∀ b, s.pc.batch? = some b →
      (∀ op : Op T V R, PcOk s.pc ((s.chan b.chan).records hdrOffset) op →
        op = .intoInner ∨ op = .terminate) →
      ∃ b op, s.pc.batch? = some b ∧ w b.chan op ∧ (op = .intoInner ∨ op = .terminate) := by
    intro b hb hends
    obtain ⟨op, _, hop, _, hok⟩ := h.serves hb
    exact ⟨b, op, hb, hop, hends op hok⟩
  unfold Sys.Ending at he
  cases hpc : s.pc with
  | exited cause => exact .inl (by simp [Sys.exited, hpc])
  | moveOut b | moveLoad b =>
    rw [hpc] at serves
    exact .inr (serves b rfl (fun op hok => .inl hok))
  | moveStore b r =>
    rw [hpc] at serves
    exact .inr (serves b rfl (fun op hok => .inl hok.1))
  | joining b =>
    rw [hpc] at serves
    exact .inr (serves b rfl (fun op hok => .inr hok))
  | _ => simp [hpc] at he

theorem Reachable.lasts (h : Reachable bin lasting value s) : Reachable bin returning value s := by
  refine h.weaken (fun _ a ha => ?_)
  cases a with
  | issue c op => exact .inl ha
  | _ => trivial

theorem Reachable.working (hbin : bin.RoundTrips) (h : Reachable bin lasting value s) :
    Working bin value s := by
  have goes : ∀ x : Sys T V R, Reachable bin lasting value x → x.exited = false →
      ¬ x.Ending := by
    intro x hx hex he
    rcases hx.ending_request he with hexit | ⟨b, op, _, hop, hends⟩
    · simp [hex] at hexit
    · obtain ⟨hnot, hnot'⟩ := lasting_ends hop
      exact hends.elim hnot hnot'
  have stays : s.exited = false := by
    refine (h.invariant (P := fun s => Reachable bin lasting value s ∧ s.exited = false)
      ⟨.start, rfl⟩ ?_).2
    rintro t a v ⟨hr, ht⟩ ha hs
    refine ⟨hr.next ha hs, ?_⟩
    by_cases hta : a = .trustee
    · subst hta
      by_contra hx
      exact goes t hr ht (hr.lasts.exits_ending hbin hs (by simpa using hx))
    · exact (Sys.exited_aside hs hta).trans ht
  exact ⟨h.lasts, goes s h stays⟩

theorem Sys.goes_on (h : ¬ s.Ending) : s.exited = false := by
  cases hpc : s.pc <;> simp_all [Sys.Ending, Sys.exited]

theorem Working.alive (h : Working bin value s) : s.exited = false := Sys.goes_on h.goes

theorem Working.next (h : Working bin value s) {a : Action T V R}
    (ha : (returning : Workload T V R).permits a) (hs : s.step bin a = some s')
    (hgo : ¬ s'.Ending) : Working bin value s' :=
  ⟨h.reach.next ha hs, hgo⟩

theorem Inv.trustee_moves (hi : Inv bin s) (hgoes : ¬ s.Ending) : s.trusteeStep ≠ none := by
  have hshape := hi.shape
  unfold Sys.trusteeStep
  cases hpc : s.pc with
  | exited cause => simp [Sys.Ending, hpc] at hgoes
  | joining b => simp [Sys.Ending, hpc] at hgoes
  | loadedReq n offs idx c w =>
    simp only [hpc, Shape] at hshape
    obtain ⟨_, _, cp, hcp, _⟩ := hshape
    simp [hcp]
  | loop | drain d | sweep n offs | calling b hdr k | inClosure b hdr k env args seq =>
    dsimp only
    repeat' split
    all_goals simp
  | _ => simp

theorem Working.trustee_moves (h : Working bin value s) : s.trusteeStep ≠ none :=
  h.reach.inv.trustee_moves h.goes

def Sys.toil (s : Sys T V R) : Nat :=
  match s.pc with
  | .record b => if b.left = 0 then 2
      else 2 * ((s.chan b.chan).records hdrOffset).hdr.repeatCount.toNat + 6
  | .calling _ hdr k => 2 * (hdr.repeatCount.toNat - k) + 5
  | .inClosure _ hdr k _ _ _ => 2 * (hdr.repeatCount.toNat - k) + 4
  | .writeOut _ _ => 3
  | .respond _ => 1
  | _ => 0

theorem Working.toils (hbin : bin.RoundTrips) (h : Working bin value s)
    {b b' : Batch} (hv : s.pc.visiting? = some b) (hs : s.trusteeStep = some s')
    (hgo : ¬ s'.Ending) (hv' : s'.pc.visiting? = some b') : s'.toil < s.toil := by
  have hi := h.reach.inv
  have hgoes := h.goes
  have hshape := hi.shape
  unfold Sys.trusteeStep at hs
  cases hpc : s.pc with
  | loop | drain d | sweep n offs | loadedReq n offs idx c w | exited cause =>
    simp [hpc, TrusteePc.visiting?] at hv
  | record b₀ =>
    simp only [hpc, Option.some.injEq] at hs
    by_cases hleft : b₀.left = 0
    · have htwo : s.toil = 2 := by simp [Sys.toil, hpc, hleft]
      rw [htwo, ← hs]
      unfold Sys.recordStep at hs ⊢
      rw [if_pos hleft] at hs ⊢
      by_cases hdef : b₀.deferred = true
      · rw [if_pos hdef] at hs
        simp [← hs, Sys.served, TrusteePc.visiting?] at hv'
      · rw [if_neg hdef]
        simp [Sys.toil, Sys.goto]
    · have hopen := (hi.at_record hpc hleft).2.2.1
      obtain ⟨op, hout, _, henc, _⟩ := h.reach.serves (b := b₀)
        (by simp [hpc, TrusteePc.batch?, hopen])
      obtain ⟨op', hout', he, _⟩ := hi.recordStep_taken hpc hleft
      obtain ⟨rfl, _⟩ := ClientPc.waiting.inj (hout.1.symm.trans hout'.1)
      rw [he] at hs
      subst hs
      cases op with
      | launch f =>
        have hone := (hi.at_record hpc hleft).1
        simp [Sys.taken, Sys.dispatch, Sys.toil, hpc, Batch.advance, hone]
      | intoInner | terminate => exact absurd trivial hgo
      | _ =>
        simp only [Sys.taken, Sys.goto, Sys.toil, hpc, if_neg hleft, (Op.encode_hdr henc).1]
        omega
  | calling b₀ hdr k =>
    simp only [hpc] at hs
    simp only [hpc, Shape, InRecord] at hshape
    split at hs <;> obtain rfl := Option.some.inj hs
    · simp [Sys.toil, Sys.goto, hpc, Batch.advance, hshape.2.1]
    · simp [Sys.toil, Sys.goto, hpc]
  | inClosure b₀ hdr k env args seq =>
    have hb : s.pc.batch? = some b₀ := by rw [hpc]; rfl
    obtain ⟨op, hout, _, henc, hok⟩ := h.reach.serves hb
    simp only [hpc] at hs
    split at hs
    · exact absurd ‹_› (h.reach.closure_returns hbin hpc s.prop)
    · have hless : k < op.reps := by
        obtain ⟨o, _, hr⟩ := h.reach.refines
        obtain ⟨i, last, _, _, hwait⟩ := (hr.phase b₀.chan).waiting hout.1
        have hprog := (hwait (by simp [hout.2.1])).1 b₀ hb rfl
        simp only [hpc, TrusteePc.Progress] at hprog
        exact hprog.2.1
      simp only [hpc, PcOk] at hok
      split at hs <;> obtain rfl := Option.some.inj hs
      · rename_i hunit
        have hreps : op.reps = hdr.repeatCount.toNat := by
          rw [hok.1, (Op.encode_hdr henc).1] at hunit ⊢
          exact (Op.reps_batch hunit).1
        simp only [Sys.toil, Sys.goto, Sys.log, hpc]
        omega
      · simp only [Sys.toil, Sys.goto, Sys.log, hpc]
        omega
  | writeOut b₀ x =>
    simp only [hpc, Option.some.injEq] at hs
    subst hs
    simp only [hpc, Shape, InRecord] at hshape
    simp [Sys.toil, Sys.goto, hpc, Batch.advance, hshape.2.1]
  | moveOut b₀ | moveLoad b₀ | joining b₀ | moveStore b₀ x => simp [Sys.Ending, hpc] at hgoes
  | respond b₀ =>
    simp only [hpc, Option.some.injEq] at hs
    subst hs
    simp [Sys.served, TrusteePc.visiting?] at hv'

def Sys.intake (s : Sys T V R) : Nat :=
  match s.pc with
  | .loop => 257
  | .drain d => 256 - d
  | _ => 0

theorem Sys.trusteeStep_between (hs : s.trusteeStep = some s')
    (hpc : s.pc = .loop ∨ ∃ d, s.pc = .drain d) :
    (∃ d, s'.pc = .drain d ∧ s'.intake < s.intake) ∨ (s'.pc = .loop ∧ s'.clients = []) ∨
      s'.pc = .sweep s'.clients.length 0 := by
  have enters : ∀ x : Sys T V R, (x.enterSweep.pc = .loop ∧ x.enterSweep.clients = []) ∨
      x.enterSweep.pc = .sweep x.enterSweep.clients.length 0 := by
    intro x
    unfold Sys.enterSweep
    split
    · exact .inl ⟨rfl, List.isEmpty_iff.mp ‹_›⟩
    · exact .inr rfl
  unfold Sys.trusteeStep at hs
  rcases hpc with hpc | ⟨d, hpc⟩
  · simp only [hpc] at hs
    split at hs <;> obtain rfl := Option.some.inj hs
    · exact .inl ⟨0, rfl, by simp [Sys.intake, hpc, Sys.goto]⟩
    · exact .inr (enters _)
  · simp only [hpc] at hs
    split at hs
    · split at hs <;> obtain rfl := Option.some.inj hs
      · exact .inl ⟨d + 1, rfl, by simp only [Sys.intake, hpc]; omega⟩
      · exact .inr (enters _)
    · obtain rfl := Option.some.inj hs
      exact .inr (enters _)

structure InRound (s : Sys T V R) : Prop where
  loaded : ∀ n offs idx c w, s.pc = .loadedReq n offs idx c w →
    offs < n ∧ idx = RoundRobin.index n s.startIdx offs
  visiting : ∀ b, s.pc.visiting? = some b → b.offs < b.n

theorem InRound.trusteeStep (h : InRound s) (hs : s.trusteeStep = some s') : InRound s' := by
  have plain : s'.pc = .loop ∨ (∃ d, s'.pc = .drain d) ∨ (∃ n offs, s'.pc = .sweep n offs) ∨
      (∃ cause, s'.pc = .exited cause) → InRound s' := by
    rintro (hpc | ⟨d, hpc⟩ | ⟨n, offs, hpc⟩ | ⟨cause, hpc⟩) <;>
      constructor <;> simp [hpc, TrusteePc.visiting?]
  cases Sys.trusteeStep_sweeps hs with
  | between hpc =>
    rcases Sys.trusteeStep_between hs hpc with ⟨d, hpc', _⟩ | ⟨hpc', _⟩ | hpc'
    · exact plain (.inr (.inl ⟨d, hpc'⟩))
    · exact plain (.inl hpc')
    · exact plain (.inr (.inr (.inl ⟨_, _, hpc'⟩)))
  | load hpc hlt hcp hpc' hstart =>
    constructor
    · intro n offs idx c w hpc''
      rw [hpc'] at hpc''
      obtain ⟨rfl, rfl, rfl, rfl, rfl⟩ := TrusteePc.loadedReq.inj hpc''
      exact ⟨hlt, by rw [hstart]⟩
    · simp [hpc', TrusteePc.visiting?]
  | finish hpc hlt hpc' => exact plain (.inl hpc')
  | pass hpc hcp hf hpc' hstart => exact plain (.inr (.inr (.inl ⟨_, _, hpc'⟩)))
  | take hpc hcp hf hpc' hn ho hidx =>
    have hlt := (h.loaded _ _ _ _ _ hpc).1
    constructor
    · simp [hpc']
    · intro b hb
      simp only [hpc', TrusteePc.visiting?, Option.some.injEq] at hb
      subst hb
      omega
  | serve hb hb' hn ho hidx =>
    have hlt := h.visiting _ hb
    constructor
    · intro n offs idx c w hpc
      simp [hpc, TrusteePc.visiting?] at hb'
    · intro b hb''
      obtain rfl := Option.some.inj (hb'.symm.trans hb'')
      omega
  | served hb hpc' hstart => exact plain (.inr (.inr (.inl ⟨_, _, hpc'⟩)))
  | exit hpc' => exact plain (.inr (.inr (.inr ⟨_, hpc'⟩)))

theorem Reachable.inRound {w : Workload T V R} (h : Reachable bin w value s) : InRound s := by
  refine h.invariant (P := InRound) ⟨by simp [Sys.init], by simp [Sys.init, TrusteePc.visiting?]⟩ ?_
  intro t a v ht _ hs
  by_cases ha : a = .trustee
  · subst ha
    exact ht.trusteeStep hs
  · obtain ⟨hpc, _, hstart, _⟩ := Sys.step_aside hs ha
    exact ⟨by rw [hpc, hstart]; exact ht.loaded, by rw [hpc]; exact ht.visiting⟩

def Sys.lap (s : Sys T V R) : Nat :=
  match s.pc with
  | .loop | .exited _ => 0
  | .drain d => 4 * (256 - d) + 3 * s.clients.length + 2
  | .sweep n offs => 3 * (n - offs) + 1
  | .loadedReq n offs _ _ _ => 3 * (n - offs)
  | .record b | .calling b _ _ | .inClosure b _ _ _ _ _ | .writeOut b _ | .moveOut b
  | .moveLoad b | .moveStore b _ | .respond b | .joining b => 3 * (b.n - b.offs) - 1

theorem Sys.lap_visiting {b : Batch} (hv : s.pc.visiting? = some b) :
    s.lap = 3 * (b.n - b.offs) - 1 := by
  cases hpc : s.pc <;> simp [hpc, TrusteePc.visiting?] at hv <;> simp [Sys.lap, hpc, hv]

def Sys.turn (s : Sys T V R) : ℕ ×ₗ ℕ := toLex (s.lap, s.toil)

/-- The trustee gets on with its round, if it does so within each visit. -/
theorem Reachable.turns {w : Workload T V R} (h : Reachable bin w value s) (hloop : s.pc ≠ .loop)
    (hs : s.trusteeStep = some s') (hgo : s'.exited = false)
    (htoil : ∀ b b', s.pc.visiting? = some b → s'.pc.visiting? = some b' → s'.toil < s.toil) :
    s'.turn < s.turn := by
  have hround := h.inRound
  simp only [Sys.turn, Prod.Lex.toLex_lt_toLex]
  cases Sys.trusteeStep_sweeps hs with
  | between hpc =>
    left
    obtain ⟨d, hpc⟩ := hpc.resolve_left hloop
    have hlap : s.lap = 4 * (256 - d) + 3 * s.clients.length + 2 := by simp [Sys.lap, hpc]
    have enters : ∀ x : Sys T V R, x.enterSweep.lap ≤ 3 * x.clients.length + 1 := by
      intro x
      unfold Sys.enterSweep
      split <;> simp [Sys.lap, Sys.goto]
    simp only [Sys.trusteeStep, hpc] at hs
    split at hs
    · split at hs <;> obtain rfl := Option.some.inj hs
      · simp only [Sys.lap, hpc, List.length_append, List.length_singleton]
        omega
      · have := enters s
        omega
    · obtain rfl := Option.some.inj hs
      have := enters s
      omega
  | load hpc hlt _ hpc' _ =>
    simp only [Sys.lap, hpc, hpc']
    omega
  | finish hpc _ hpc' => simp [Sys.lap, hpc, hpc']
  | pass hpc _ _ hpc' _ =>
    have := (hround.loaded _ _ _ _ _ hpc).1
    simp only [Sys.lap, hpc, hpc']
    omega
  | take hpc _ _ hpc' hn ho _ =>
    have := (hround.loaded _ _ _ _ _ hpc).1
    simp only [Sys.lap, hpc, hpc']
    omega
  | serve hv hv' hn ho _ =>
    refine .inr ⟨?_, htoil _ _ hv hv'⟩
    rw [Sys.lap_visiting hv, Sys.lap_visiting hv', hn, ho]
  | served hv hpc' _ =>
    have := hround.visiting _ hv
    rw [Sys.lap_visiting hv]
    simp only [Sys.lap, hpc']
    omega
  | exit hpc' => simp [Sys.exited, hpc'] at hgo

theorem Working.rounds (hbin : bin.RoundTrips) (h : Working bin value s)
    (hloop : s.pc ≠ .loop) (hs : s.trusteeStep = some s') (hgo : ¬ s'.Ending) :
    s'.turn < s.turn :=
  h.reach.turns hloop hs (Sys.goes_on hgo)
    (fun _ _ hv hv' => h.toils hbin hv hs hgo hv')

def Sys.tick (s : Sys T V R) : Nat :=
  match s.pc with
  | .drain d => if d < 256 then 0 else 17
  | _ => 16 - s.loopCounter % 16

/-- How long client `c`, still in the queue, has to wait for its place in the list. -/
def Sys.queued (c : Nat) (s : Sys T V R) : ℕ ×ₗ ℕ ×ₗ ℕ ×ₗ ℕ :=
  toLex (c - s.clients.length, toLex (s.tick, s.turn))

theorem Sys.trusteeStep_counts (hs : s.trusteeStep = some s') (hloop : s.pc ≠ .loop)
    (hdrain : ∀ d, s.pc ≠ .drain d) :
    s'.loopCounter = s.loopCounter ∧ ∀ d, s'.pc ≠ .drain d := by
  constructor
  · unfold Sys.trusteeStep at hs
    cases hpc : s.pc with
    | loop => exact absurd hpc hloop
    | drain d => exact absurd hpc (hdrain d)
    | record b =>
      simp only [hpc, Option.some.injEq] at hs
      subst hs
      unfold Sys.recordStep
      split
      · split <;> rfl
      · dsimp only
        split <;> rfl
    | loadedReq n offs idx c w =>
      simp only [hpc] at hs
      split at hs <;> simp only [Option.some.injEq, reduceCtorEq] at hs
      subst hs
      obtain ⟨_, _, _, he⟩ := s.visit_frame n offs idx _ w _
      rw [he]
    | joining b =>
      simp only [hpc] at hs
      split at hs <;> simp only [Option.some.injEq, reduceCtorEq] at hs
      exact hs ▸ rfl
    | exited cause => simp [hpc] at hs
    | sweep | calling | inClosure =>
      simp only [hpc] at hs
      repeat' split at hs
      all_goals
        obtain rfl := Option.some.inj hs
        rfl
    | _ =>
      simp only [hpc, Option.some.injEq] at hs
      exact hs ▸ rfl
  · intro d hd
    cases Sys.trusteeStep_sweeps hs with
    | between hpc =>
      rcases hpc with hpc | ⟨e, hpc⟩
      · exact hloop hpc
      · exact hdrain e hpc
    | serve _ hb' _ _ _ => simp [hd, TrusteePc.visiting?] at hb'
    | load _ _ _ hpc' _ | finish _ _ hpc' | pass _ _ _ hpc' _ | take _ _ _ hpc' _ _ _
    | served _ hpc' _ | exit hpc' => simp [hd] at hpc'

theorem Reachable.queues {w : Workload T V R} (h : Reachable bin w value s) {c : Nat}
    (hc : c < s.created) (hl : s.clients.length ≤ c) (hs : s.trusteeStep = some s')
    (hturn : s.pc ≠ .loop → s'.turn < s.turn) :
    c < s'.clients.length ∨ s'.queued c < s.queued c := by
  have hwhole := h.clients_le
  unfold Sys.queued
  simp only [Prod.Lex.toLex_lt_toLex]
  by_cases hloop : s.pc = .loop
  · have hs' := hs
    simp only [Sys.trusteeStep, hloop] at hs'
    have htick : s.tick = 16 - s.loopCounter % 16 := by simp [Sys.tick, hloop]
    right
    split at hs' <;> obtain rfl := Option.some.inj hs'
    · refine .inr ⟨rfl, .inl ?_⟩
      rw [htick]
      change 0 < _
      omega
    · rename_i hno
      obtain ⟨hne, hcount⟩ := not_or.mp hno
      dsimp only [Sys.enterSweep] at hne ⊢
      rw [if_neg hne]
      refine .inr ⟨rfl, .inl ?_⟩
      rw [htick]
      simp only [Sys.tick, Sys.goto]
      omega
  by_cases hdrain : ∃ d, s.pc = .drain d
  · obtain ⟨d, hpc⟩ := hdrain
    have hs' := hs
    simp only [Sys.trusteeStep, hpc] at hs'
    have htick : s.tick = if d < 256 then 0 else 17 := by simp [Sys.tick, hpc]
    split at hs'
    · split at hs' <;> obtain rfl := Option.some.inj hs'
      · by_cases hlast : c < s.clients.length + 1
        · exact .inl (by simpa using hlast)
        · refine .inr (.inl ?_)
          simp only [List.length_append, List.length_singleton]
          omega
      · rename_i hreg
        simp only [hreg, List.length_nil] at hwhole
        omega
    · rename_i hd
      obtain rfl := Option.some.inj hs'
      rw [if_neg hd] at htick
      refine .inr (.inr ⟨by unfold Sys.enterSweep; split <;> rfl, .inl ?_⟩)
      rw [htick]
      unfold Sys.enterSweep
      split <;> simp only [Sys.tick, Sys.goto] <;> omega
  · have hdrain' : ∀ d, s.pc ≠ .drain d := fun d hd => hdrain ⟨d, hd⟩
    obtain ⟨hcount, hpc'⟩ := Sys.trusteeStep_counts hs hloop hdrain'
    have hlen : s'.clients.length = s.clients.length := by
      rcases Sys.trusteeStep_registry h.inv hs with ⟨_, he⟩ | ⟨d, _, hpc, _⟩
      · simpa using congrArg List.length he
      · exact absurd hpc (hdrain' d)
    have tick_eq : ∀ x : Sys T V R, (∀ d, x.pc ≠ .drain d) →
        x.tick = 16 - x.loopCounter % 16 := by
      intro x hx
      unfold Sys.tick
      split
      · exact absurd ‹_› (hx _)
      · rfl
    refine .inr (.inr ⟨by rw [hlen], .inr ⟨?_, hturn hloop⟩⟩)
    rw [tick_eq s hdrain', tick_eq s' hpc', hcount]

structure Bystander (s s' : Sys T V R) : Prop where
  pc : s'.pc = s.pc
  clients : s'.clients = s.clients
  startIdx : s'.startIdx = s.startIdx
  loopCounter : s'.loopCounter = s.loopCounter
  toil : s'.toil = s.toil

theorem Reachable.aside {w : Workload T V R} (h : Reachable bin w value s) {a : Action T V R}
    (ha : a ≠ .trustee) (hs : s.step bin a = some s') : Bystander s s' := by
  obtain ⟨hpc, hcl, hstart, _⟩ := Sys.step_aside hs ha
  refine ⟨hpc, hcl, hstart, ?_, ?_⟩
  · by_cases hf : ∃ j, a = .fiber j
    · obtain ⟨j, rfl⟩ := hf
      simp only [Sys.step, Sys.fiberStep] at hs
      repeat' split at hs
      all_goals simp only [Option.some.injEq, reduceCtorEq] at hs
      all_goals
        subst hs
        rfl
    · cases Sys.step_beside hs ha (fun j hj => hf ⟨j, hj⟩) <;> rfl
  · unfold Sys.toil
    rw [hpc]
    split
    · rename_i b hrec
      by_cases hleft : b.left = 0
      · rw [if_pos hleft, if_pos hleft]
      · obtain ⟨op, ho, _⟩ := h.inv.recordStep_taken hrec hleft
        rw [if_neg hleft, if_neg hleft, (ho.keep hs ha).2.2]
    all_goals rfl

theorem Bystander.turn (h : Bystander s s') : s'.turn = s.turn := by
  simp only [Sys.turn, Sys.lap, h.pc, h.clients, h.toil]

theorem Bystander.queued (h : Bystander s s') (c : Nat) : s'.queued c = s.queued c := by
  simp only [Sys.queued, Sys.tick, h.turn, h.pc, h.clients, h.loopCounter]

end Worker

end TrustTee
