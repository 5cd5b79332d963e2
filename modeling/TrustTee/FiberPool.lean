import TrustTee.Machine
import Mathlib.Data.List.Count
import Mathlib.Logic.Function.Basic

/-!
The pool of fibers that launched closures run on: the trustee's dispatch loop, the loop of
a pooled fiber, and the terminator. Channels are reliable queues whose send fails exactly
when the receiver is gone, and the pool is an atomic queue of senders.
-/

set_option autoImplicit false

namespace TrustTee

namespace FiberPool

inductive Message where
  | execute (id : Nat) : Message
  | shutdown : Message
  deriving DecidableEq, Repr

/-- The loop of a pooled fiber. `requeue` is the moment before it pushes its sender. -/
inductive Fiber where
  | absent : Fiber
  | recv : Fiber
  | running (id : Nat) : Fiber
  | requeue : Fiber
  | exited : Fiber
  deriving DecidableEq, Repr

/-- Where the trustee is: elsewhere in its loop (`free`), in the dispatch loop of a launch,
or in the `Terminate` arm. -/
inductive Trustee where
  | free : Trustee
  | dispatching (id : Nat) : Trustee
  | sending (id k : Nat) : Trustee
  | first (id k : Nat) : Trustee
  | spawning (k : Nat) : Trustee
  | joining (handles : List Nat) : Trustee
  | awaiting : Trustee
  | gone : Trustee
  deriving DecidableEq, Repr

inductive Terminator where
  | absent : Terminator
  | polling : Terminator
  | popping (last : Bool) : Terminator
  | sending (k : Nat) (last : Bool) : Terminator
  | finished : Terminator
  deriving DecidableEq, Repr

end FiberPool

/-- A sender is named by the fiber at the other end of its channel. The last four fields
are ghosts: the jobs created, those whose run has begun and ended, and what has been sent
to each fiber. -/
structure FiberPool where
  queue : List Nat
  chan : Nat → List FiberPool.Message
  fiber : Nat → FiberPool.Fiber
  channels : Nat
  handles : List Nat
  trustee : FiberPool.Trustee
  terminator : FiberPool.Terminator
  done : Bool
  jobs : Nat
  begun : List Nat
  ended : List Nat
  sent : Nat → List FiberPool.Message

namespace FiberPool

def init : FiberPool where
  queue := []
  chan := fun _ => []
  fiber := fun _ => .absent
  channels := 0
  handles := []
  trustee := .free
  terminator := .absent
  done := false
  jobs := 0
  begun := []
  ended := []
  sent := fun _ => []

def setFiber (p : FiberPool) (k : Nat) (f : Fiber) : FiberPool :=
  { p with fiber := Function.update p.fiber k f }

def push (p : FiberPool) (k : Nat) (m : Message) : FiberPool :=
  { p with chan := Function.update p.chan k (p.chan k ++ [m])
           sent := Function.update p.sent k (p.sent k ++ [m]) }

def bounce (p : FiberPool) (k : Nat) (m : Message) : FiberPool :=
  { p with sent := Function.update p.sent k (p.sent k ++ [m]) }

def leave (p : FiberPool) (k : Nat) : FiberPool :=
  { p with fiber := Function.update p.fiber k .exited, chan := Function.update p.chan k [] }

def launch (p : FiberPool) : Option FiberPool :=
  match p.trustee with
  | .free => some { p with jobs := p.jobs + 1, trustee := .dispatching p.jobs }
  | _ => none

def terminate (p : FiberPool) : Option FiberPool :=
  match p.trustee with
  | .free => some { p with trustee := .joining p.handles, terminator := .polling }
  | _ => none

def abandon (p : FiberPool) : Option FiberPool :=
  match p.trustee with
  | .free => some { p with trustee := .gone }
  | _ => none

def trusteeStep (p : FiberPool) : Option FiberPool :=
  match p.trustee with
  | .dispatching id =>
    match p.queue with
    | k :: queue => some { p with queue := queue, trustee := .sending id k }
    | [] => some { p with channels := p.channels + 1, trustee := .first id p.channels }
  | .sending id k =>
    if p.fiber k = .exited then
      some { p.bounce k (.execute id) with trustee := .dispatching id }
    else some { p.push k (.execute id) with trustee := .free }
  | .first id k => some { p.push k (.execute id) with trustee := .spawning k }
  | .spawning k =>
    some { p.setFiber k .recv with handles := p.handles ++ [k], trustee := .free }
  | .joining (k :: handles) =>
    if p.fiber k = .exited then some { p with trustee := .joining handles } else none
  | .joining [] => some { p with done := true, trustee := .awaiting }
  | .awaiting => if p.terminator = .finished then some { p with trustee := .gone } else none
  | .free | .gone => none

/-- A pooled fiber. It keeps a sender of its own channel, so `recv` never finds the channel
closed. -/
def fiberStep (p : FiberPool) (k : Nat) (panics : Bool) : Option FiberPool :=
  match p.fiber k with
  | .recv =>
    match p.chan k with
    | .execute id :: rest =>
      some { p.setFiber k (.running id) with
        chan := Function.update p.chan k rest, begun := p.begun ++ [id] }
    | .shutdown :: _ => some (p.leave k)
    | [] => none
  | .running id =>
    -- a job's closure is taken to end, by a return or by a panic
    if panics then some { p.leave k with ended := p.ended ++ [id] }
    else some { p.setFiber k .requeue with ended := p.ended ++ [id] }
  | .requeue => some { p.setFiber k .recv with queue := p.queue ++ [k] }
  | .absent | .exited => none

def terminatorStep (p : FiberPool) : Option FiberPool :=
  match p.terminator with
  | .polling => some { p with terminator := .popping p.done }
  | .popping last =>
    match p.queue with
    | k :: queue => some { p with queue := queue, terminator := .sending k last }
    | [] => some { p with terminator := if last then .finished else .polling }
  | .sending k last =>
    let p := if p.fiber k = .exited then p.bounce k .shutdown else p.push k .shutdown
    some { p with terminator := if last then .popping true else .polling }
  | .absent | .finished => none

inductive Action where
  | launch : Action
  | terminate : Action
  | abandon : Action
  | trustee : Action
  | fiber (k : Nat) (panics : Bool) : Action
  | terminator : Action
  deriving DecidableEq, Repr

def step (p : FiberPool) : Action → Option FiberPool
  | .launch => p.launch
  | .terminate => p.terminate
  | .abandon => p.abandon
  | .trustee => p.trusteeStep
  | .fiber k panics => p.fiberStep k panics
  | .terminator => p.terminatorStep

def Reachable (p : FiberPool) : Prop := Machine.Reach step (fun _ _ => True) init p

def Live (p : FiberPool) (k : Nat) : Prop := k < p.channels ∧ p.fiber k ≠ .exited

instance (p : FiberPool) (k : Nat) : Decidable (p.Live k) :=
  inferInstanceAs (Decidable (_ ∧ _))

def Trustee.holds (k : Nat) : Trustee → Nat
  | .sending _ k' | .first _ k' => if k' = k then 1 else 0
  | _ => 0

def Terminator.holds (k : Nat) : Terminator → Nat
  | .sending k' _ => if k' = k then 1 else 0
  | _ => 0

def Fiber.busy : Fiber → Nat
  | .running _ | .requeue => 1
  | _ => 0

/-- All that fiber `k` has, counted together. -/
def tokens (p : FiberPool) (k : Nat) : Nat :=
  p.queue.count k + p.trustee.holds k + p.terminator.holds k + (p.chan k).length +
    (p.fiber k).busy

def Trustee.job? : Trustee → Option Nat
  | .dispatching id | .sending id _ | .first id _ => some id
  | _ => none

inductive Place where
  | hands : Place
  | channel (k : Nat) : Place
  | running (k : Nat) : Place
  | ended : Place
  deriving DecidableEq, Repr

def At (p : FiberPool) (id : Nat) : Place → Prop
  | .hands => p.trustee.job? = some id
  | .channel k => .execute id ∈ p.chan k ∧ p.Live k
  | .running k => p.fiber k = .running id
  | .ended => id ∈ p.ended

def Trustee.Quiet : Trustee → Prop
  | .free | .joining _ | .awaiting | .gone => True
  | _ => False

inductive Moves (p : FiberPool) : FiberPool → Prop where
  | launch : p.trustee = .free →
      Moves p { p with jobs := p.jobs + 1, trustee := .dispatching p.jobs }
  | take {id k : Nat} {queue : List Nat} : p.trustee = .dispatching id → p.queue = k :: queue →
      Moves p { p with queue := queue, trustee := .sending id k }
  | create {id : Nat} : p.trustee = .dispatching id →
      Moves p { p with channels := p.channels + 1, trustee := .first id p.channels }
  | recover {id k : Nat} : p.trustee = .sending id k → p.fiber k = .exited →
      Moves p { p.bounce k (.execute id) with trustee := .dispatching id }
  | deliver {id k : Nat} : p.trustee = .sending id k → p.fiber k ≠ .exited →
      Moves p { p.push k (.execute id) with trustee := .free }
  | first {id k : Nat} : p.trustee = .first id k →
      Moves p { p.push k (.execute id) with trustee := .spawning k }
  | spawn {k : Nat} : p.trustee = .spawning k →
      Moves p { p.setFiber k .recv with handles := p.handles ++ [k], trustee := .free }
  | terminate : p.trustee = .free →
      Moves p { p with trustee := .joining p.handles, terminator := .polling }
  | join {k : Nat} {handles : List Nat} : p.trustee = .joining (k :: handles) →
      p.fiber k = .exited → Moves p { p with trustee := .joining handles }
  | joined : p.trustee = .joining [] → Moves p { p with done := true, trustee := .awaiting }
  | close : p.trustee = .awaiting → Moves p { p with trustee := .gone }
  | abandon : p.trustee = .free → Moves p { p with trustee := .gone }
  | receive {k id : Nat} {rest : List Message} : p.fiber k = .recv →
      p.chan k = .execute id :: rest →
      Moves p { p.setFiber k (.running id) with
        chan := Function.update p.chan k rest, begun := p.begun ++ [id] }
  | stop {k : Nat} {rest : List Message} : p.fiber k = .recv → p.chan k = .shutdown :: rest →
      Moves p (p.leave k)
  | crash {k id : Nat} : p.fiber k = .running id →
      Moves p { p.leave k with ended := p.ended ++ [id] }
  | finish {k id : Nat} : p.fiber k = .running id →
      Moves p { p.setFiber k .requeue with ended := p.ended ++ [id] }
  | requeue {k : Nat} : p.fiber k = .requeue →
      Moves p { p.setFiber k .recv with queue := p.queue ++ [k] }
  | seize {k : Nat} {queue : List Nat} {last : Bool} : p.terminator = .popping last →
      p.queue = k :: queue →
      Moves p { p with queue := queue, terminator := .sending k last }
  | miss {k : Nat} {last : Bool} {m : Terminator} : p.terminator = .sending k last →
      p.fiber k = .exited → (∀ k, m.holds k = 0) →
      Moves p { p.bounce k .shutdown with terminator := m }
  | dismiss {k : Nat} {last : Bool} {m : Terminator} : p.terminator = .sending k last →
      p.fiber k ≠ .exited → (∀ k, m.holds k = 0) →
      Moves p { p.push k .shutdown with terminator := m }
  | watch {m : Terminator} : p.terminator ≠ .absent → (∀ k, p.terminator.holds k = 0) →
      (∀ k, m.holds k = 0) →
      Moves p { p with terminator := m }

section Steps

variable {p p' : FiberPool}

theorem trusteeStep_moves (h : p.trusteeStep = some p') : p.Moves p' := by
  unfold trusteeStep at h
  split at h
  · rename_i ht
    split at h <;> obtain rfl := Option.some.inj h
    · exact .take ht ‹_›
    · exact .create ht
  · rename_i ht
    split at h <;> obtain rfl := Option.some.inj h
    · exact .recover ht ‹_›
    · exact .deliver ht ‹_›
  · obtain rfl := Option.some.inj h
    exact .first ‹_›
  · obtain rfl := Option.some.inj h
    exact .spawn ‹_›
  · rename_i ht
    split at h <;> simp only [Option.some.injEq, reduceCtorEq] at h
    exact h ▸ .join ht ‹_›
  · obtain rfl := Option.some.inj h
    exact .joined ‹_›
  · rename_i ht
    split at h <;> simp only [Option.some.injEq, reduceCtorEq] at h
    exact h ▸ .close ht
  · simp at h
  · simp at h

theorem fiberStep_moves {k : Nat} {panics : Bool} (h : p.fiberStep k panics = some p') :
    p.Moves p' := by
  unfold fiberStep at h
  split at h
  · rename_i hf
    split at h <;> simp only [Option.some.injEq, reduceCtorEq] at h <;> subst h
    · exact .receive hf ‹_›
    · exact .stop hf ‹_›
  · split at h <;> obtain rfl := Option.some.inj h
    · exact .crash ‹_›
    · exact .finish ‹_›
  · obtain rfl := Option.some.inj h
    exact .requeue ‹_›
  · simp at h
  · simp at h

theorem terminatorStep_moves (h : p.terminatorStep = some p') : p.Moves p' := by
  have idle : ∀ last : Bool, ∀ k, Terminator.holds k (if last then .popping true else .polling) = 0 := by
    intro last k
    cases last <;> rfl
  unfold terminatorStep at h
  split at h
  · rename_i hm
    obtain rfl := Option.some.inj h
    exact .watch (by simp [hm]) (by rw [hm]; exact fun _ => rfl) (fun _ => rfl)
  · rename_i last hm
    split at h <;> obtain rfl := Option.some.inj h
    · exact .seize hm ‹_›
    · refine .watch (by simp [hm]) (by rw [hm]; exact fun _ => rfl) (fun _ => ?_)
      cases last <;> rfl
  · rename_i k last hm
    dsimp only at h
    split at h <;> obtain rfl := Option.some.inj h
    · exact .miss hm ‹_› (idle last)
    · exact .dismiss hm ‹_› (idle last)
  · simp at h
  · simp at h

theorem step_moves {a : Action} (h : p.step a = some p') : p.Moves p' := by
  cases a with
  | launch =>
    simp only [step, launch] at h
    split at h <;> simp only [Option.some.injEq, reduceCtorEq] at h
    exact h ▸ .launch ‹_›
  | terminate =>
    simp only [step, terminate] at h
    split at h <;> simp only [Option.some.injEq, reduceCtorEq] at h
    exact h ▸ .terminate ‹_›
  | abandon =>
    simp only [step, abandon] at h
    split at h <;> simp only [Option.some.injEq, reduceCtorEq] at h
    exact h ▸ .abandon ‹_›
  | trustee => exact trusteeStep_moves h
  | fiber k panics => exact fiberStep_moves h
  | terminator => exact terminatorStep_moves h

end Steps

/-- Each live fiber has exactly one thing, and nobody else has anything of a fiber. -/
structure Counted (p : FiberPool) : Prop where
  tokens : ∀ k, p.tokens k = if p.Live k then 1 else 0
  unmade : ∀ k, p.channels ≤ k → p.fiber k = .absent
  unborn : ∀ k, ((∃ id, p.trustee = .first id k) ∨ p.trustee = .spawning k) →
    k < p.channels ∧ p.fiber k = .absent
  alone : p.trustee = .free ∨ ¬ p.trustee.Quiet → p.terminator = .absent

section Counted

variable {p p' : FiberPool}

theorem Counted.init : Counted FiberPool.init := by
  constructor
  · intro k
    simp [FiberPool.init, FiberPool.tokens, Trustee.holds, Terminator.holds, Fiber.busy, Live]
  · intro k _
    rfl
  · intro k hk
    simp [FiberPool.init] at hk
  · intro _
    rfl

theorem Counted.passed (h : Counted p) (hch : p'.channels = p.channels)
    (hfiber : ∀ k, p'.fiber k = .exited ↔ p.fiber k = .exited)
    (htok : ∀ k, p'.tokens k = p.tokens k) (k : Nat) :
    p'.tokens k = if p'.Live k then 1 else 0 := by
  have hlive : p'.Live k ↔ p.Live k := by
    unfold Live
    rw [hch, ne_eq, ne_eq, hfiber k]
  rw [htok k, h.tokens k]
  exact if_congr hlive.symm rfl rfl

theorem Counted.moved (h : Counted p) {k : Nat} {f : Fiber} (hch : p'.channels = p.channels)
    (hfiber : p'.fiber = Function.update p.fiber k f) (hlive : p.fiber k ≠ .exited)
    (hlive' : f ≠ .exited) (htok : p'.tokens k = p.tokens k)
    (helse : ∀ k', k' ≠ k → p'.tokens k' = p.tokens k') (k' : Nat) :
    p'.tokens k' = if p'.Live k' then 1 else 0 := by
  refine h.passed hch (fun k' => ?_) (fun k' => ?_) k' <;> by_cases hk : k' = k
  · subst hk
    simp [hfiber, hlive, hlive']
  · simp [hfiber, Function.update_of_ne hk]
  · exact hk ▸ htok
  · exact helse k' hk

theorem Counted.live (h : Counted p) {k : Nat} (hk : 0 < p.tokens k) :
    p.Live k ∧ p.tokens k = 1 := by
  have := h.tokens k
  by_cases hl : p.Live k
  · exact ⟨hl, by rw [this, if_pos hl]⟩
  · rw [if_neg hl] at this
    omega

/-- The fiber at the other end of a sender that somebody holds is alive. -/
theorem Counted.reaches (h : Counted p) {k : Nat}
    (hpos : 0 < p.trustee.holds k + p.terminator.holds k) : p.fiber k ≠ .exited :=
  (h.live (k := k) (by unfold FiberPool.tokens; omega)).1.2

theorem Counted.spawned (h : Counted p) {k : Nat} (hk : p.fiber k ≠ .absent) (f : Fiber) :
    (∀ k', p.channels ≤ k' → Function.update p.fiber k f k' = .absent) ∧
    ∀ k', ((∃ id, p.trustee = .first id k') ∨ p.trustee = .spawning k') →
      k' < p.channels ∧ Function.update p.fiber k f k' = .absent := by
  have other : ∀ k', p.fiber k' = .absent → Function.update p.fiber k f k' = .absent := by
    intro k' habs
    have hne : k' ≠ k := by
      rintro rfl
      exact hk habs
    rw [Function.update_of_ne hne, habs]
  constructor
  · intro k' hk'
    exact other k' (h.unmade k' hk')
  · intro k' hk'
    obtain ⟨hlt, habs⟩ := h.unborn k' hk'
    exact ⟨hlt, other k' habs⟩

theorem Counted.exits (h : Counted p) {k : Nat} (hpos : 0 < (p.chan k).length + (p.fiber k).busy)
    (k' : Nat) : (p.leave k).tokens k' = if (p.leave k).Live k' then 1 else 0 := by
  by_cases hk : k' = k
  · subst hk
    have htok := (h.live (k := k') (by unfold FiberPool.tokens; omega)).2
    rw [if_neg (by simp [Live, leave])]
    have hnone : Fiber.busy .exited = 0 := rfl
    simp only [FiberPool.tokens, leave, Function.update_self, List.length_nil, hnone] at htok ⊢
    omega
  · have hlive : (p.leave k).Live k' ↔ p.Live k' := by
      simp [Live, leave, Function.update_of_ne hk]
    rw [if_congr hlive rfl rfl, ← h.tokens k']
    simp [FiberPool.tokens, leave, Function.update_of_ne hk]

theorem Counted.quiet (h : Counted p) {t : Trustee} {done : Bool} (ht : p.trustee.Quiet)
    (ht' : t.Quiet) (hfree : t ≠ .free) : Counted { p with trustee := t, done := done } := by
  have hzero : ∀ (t : Trustee) k, t.Quiet → t.holds k = 0 := by
    intro t k hq
    cases t <;> first | rfl | exact absurd hq id
  refine ⟨h.passed rfl (fun _ => Iff.rfl) (fun k => ?_), h.unmade, ?_, ?_⟩
  · simp [FiberPool.tokens, hzero _ k ht, hzero _ k ht']
  · rintro k (⟨id, hk⟩ | hk) <;> (dsimp only at hk; rw [hk] at ht'; exact ht'.elim)
  · rintro (hk | hk)
    · exact absurd hk hfree
    · exact absurd ht' hk

theorem Counted.step (h : Counted p) (hm : p.Moves p') : Counted p' := by
  have busy : ∀ {k : Nat} {f : Fiber}, p.fiber k = f → f ≠ .absent → p.fiber k ≠ .absent :=
    fun hf hne => hf ▸ hne
  cases hm with
  | launch ht =>
    refine ⟨h.passed rfl (fun _ => Iff.rfl) (fun k => ?_), h.unmade, by simp,
      fun _ => h.alone (.inl ht)⟩
    simp [FiberPool.tokens, ht, Trustee.holds]
  | @take id k queue ht hq =>
    refine ⟨h.passed rfl (fun _ => Iff.rfl) (fun k' => ?_), h.unmade, by simp,
      fun _ => h.alone (.inr (by simp [ht, Trustee.Quiet]))⟩
    simp only [FiberPool.tokens, ht, hq, Trustee.holds, List.count_cons, beq_iff_eq]
    omega
  | @create id ht =>
    have hnew := h.unmade p.channels (Nat.le_refl _)
    refine ⟨fun k => ?_, fun k hk => h.unmade k (Nat.le_of_succ_le hk), ?_,
      fun _ => h.alone (.inr (by simp [ht, Trustee.Quiet]))⟩
    · have htok := h.tokens k
      simp only [FiberPool.tokens, ht, Trustee.holds] at htok ⊢
      by_cases hk : p.channels = k
      · subst hk
        rw [if_neg (by simp [Live])] at htok
        rw [if_pos rfl, if_pos ⟨Nat.lt_succ_self _, by simp [hnew]⟩]
        omega
      · have hlive : Live { p with channels := p.channels + 1, trustee := .first id p.channels } k ↔
            p.Live k := by
          simp only [Live]
          exact and_congr_left' (by omega)
        rw [if_neg hk, if_congr hlive rfl rfl]
        exact htok
    · rintro k (⟨id', hk⟩ | hk) <;> simp only [Trustee.first.injEq, reduceCtorEq] at hk
      obtain ⟨_, rfl⟩ := hk
      exact ⟨Nat.lt_succ_self _, hnew⟩
  | @recover id k ht hf =>
    have hone : p.trustee.holds k = 1 := by simp [ht, Trustee.holds]
    exact absurd hf (h.reaches (by omega))
  | @deliver id k ht hf =>
    refine ⟨h.passed rfl (fun _ => Iff.rfl) (fun k' => ?_), h.unmade, by simp,
      fun _ => h.alone (.inr (by simp [ht, Trustee.Quiet]))⟩
    by_cases hk : k' = k
    · subst hk
      simp [FiberPool.tokens, FiberPool.push, ht, Trustee.holds]
      omega
    · simp [FiberPool.tokens, FiberPool.push, ht, Trustee.holds, Function.update_of_ne hk,
        Ne.symm hk]
  | @first id k ht =>
    refine ⟨h.passed rfl (fun _ => Iff.rfl) (fun k' => ?_), h.unmade, ?_,
      fun _ => h.alone (.inr (by simp [ht, Trustee.Quiet]))⟩
    · by_cases hk : k' = k
      · subst hk
        simp [FiberPool.tokens, FiberPool.push, ht, Trustee.holds]
        omega
      · simp [FiberPool.tokens, FiberPool.push, ht, Trustee.holds, Function.update_of_ne hk,
          Ne.symm hk]
    · rintro k' (⟨id', hk⟩ | hk) <;> simp only [Trustee.spawning.injEq, reduceCtorEq] at hk
      exact hk ▸ h.unborn k (.inl ⟨id, ht⟩)
  | @spawn k ht =>
    obtain ⟨hlt, habs⟩ := h.unborn k (.inr ht)
    refine ⟨h.moved rfl rfl (by simp [habs]) (by simp) ?_ (fun k' hk => ?_), fun k' hk' => ?_,
      by simp, fun _ => h.alone (.inr (by simp [ht, Trustee.Quiet]))⟩
    · simp [FiberPool.tokens, FiberPool.setFiber, habs, ht, Trustee.holds, Fiber.busy]
    · simp [FiberPool.tokens, FiberPool.setFiber, Function.update_of_ne hk, ht, Trustee.holds]
    · have hne : k' ≠ k := by
        rintro rfl
        exact absurd hlt (Nat.not_lt.mpr hk')
      simpa [FiberPool.setFiber, Function.update_of_ne hne] using h.unmade k' hk'
  | terminate ht =>
    have hab := h.alone (.inl ht)
    refine ⟨h.passed rfl (fun _ => Iff.rfl) (fun k => ?_), h.unmade, by simp,
      by simp [Trustee.Quiet]⟩
    simp [FiberPool.tokens, ht, hab, Trustee.holds, Terminator.holds]
  | join ht _ => exact h.quiet (by rw [ht]; trivial) trivial (by simp)
  | joined ht => exact h.quiet (by rw [ht]; trivial) trivial (by simp)
  | close ht => exact h.quiet (by rw [ht]; trivial) trivial (by simp)
  | abandon ht => exact h.quiet (by rw [ht]; trivial) trivial (by simp)
  | @receive k id rest hf hc =>
    obtain ⟨hunmade, hunborn⟩ := h.spawned (busy hf (by simp)) (.running id)
    refine ⟨h.moved rfl rfl (by simp [hf]) (by simp) ?_ (fun k' hk => ?_), hunmade, hunborn, h.alone⟩
    · simp [FiberPool.tokens, FiberPool.setFiber, hf, hc, Fiber.busy]
      omega
    · simp [FiberPool.tokens, FiberPool.setFiber, Function.update_of_ne hk]
  | @stop k rest hf hc =>
    obtain ⟨hunmade, hunborn⟩ := h.spawned (busy hf (by simp)) .exited
    exact ⟨h.exits (by rw [hc, List.length_cons]; omega), hunmade, hunborn, h.alone⟩
  | @crash k id hf =>
    obtain ⟨hunmade, hunborn⟩ := h.spawned (busy hf (by simp)) .exited
    exact ⟨h.exits (by simp [hf, Fiber.busy]), hunmade, hunborn, h.alone⟩
  | @finish k id hf =>
    obtain ⟨hunmade, hunborn⟩ := h.spawned (busy hf (by simp)) .requeue
    refine ⟨h.moved rfl rfl (by simp [hf]) (by simp) ?_ (fun k' hk => ?_), hunmade, hunborn, h.alone⟩
    · simp [FiberPool.tokens, FiberPool.setFiber, hf, Fiber.busy]
    · simp [FiberPool.tokens, FiberPool.setFiber, Function.update_of_ne hk]
  | @requeue k hf =>
    obtain ⟨hunmade, hunborn⟩ := h.spawned (busy hf (by simp)) .recv
    refine ⟨h.moved rfl rfl (by simp [hf]) (by simp) ?_ (fun k' hk => ?_), hunmade, hunborn, h.alone⟩
    · simp [FiberPool.tokens, FiberPool.setFiber, hf, Fiber.busy]
      omega
    · simp [FiberPool.tokens, FiberPool.setFiber, Function.update_of_ne hk, Ne.symm hk]
  | @seize k queue last hm hq =>
    refine ⟨h.passed rfl (fun _ => Iff.rfl) (fun k' => ?_), h.unmade, h.unborn, fun ht => ?_⟩
    · simp only [FiberPool.tokens, hm, hq, Terminator.holds, List.count_cons, beq_iff_eq]
      omega
    · have := h.alone ht
      simp [hm] at this
  | @miss k last m hm hf hm' =>
    exact absurd hf (h.reaches (by simp [hm, Terminator.holds]))
  | @dismiss k last m hm hf hm' =>
    have hholds : ∀ k', p.terminator.holds k' = if k = k' then 1 else 0 := by
      intro k'
      rw [hm]
      rfl
    refine ⟨h.passed rfl (fun _ => Iff.rfl) (fun k' => ?_), h.unmade, h.unborn, fun ht => ?_⟩
    · simp only [FiberPool.tokens, FiberPool.push, hm' k', hholds k']
      by_cases hk : k' = k
      · subst hk
        simp
        omega
      · simp [Function.update_of_ne hk, Ne.symm hk]
    · have := h.alone ht
      simp [hm] at this
  | @watch m hab hm hm' =>
    refine ⟨h.passed rfl (fun _ => Iff.rfl) (fun k => ?_), h.unmade, h.unborn,
      fun ht => absurd (h.alone ht) hab⟩
    simp [FiberPool.tokens, hm, hm']

end Counted

structure Housed (p : FiberPool) (place : Nat → Option Place) : Prop where
  hands : ∀ id, p.trustee.job? = some id ↔ place id = some .hands
  channel : ∀ k id, .execute id ∈ p.chan k ↔ place id = some (.channel k)
  running : ∀ k id, p.fiber k = .running id ↔ place id = some (.running k)
  ended : ∀ id, id ∈ p.ended ↔ place id = some .ended
  created : ∀ id, place id = none ↔ p.jobs ≤ id
  begun : ∀ id, id ∈ p.begun ↔ (∃ k, place id = some (.running k)) ∨ place id = some .ended
  begunOnce : p.begun.Nodup
  endedOnce : p.ended.Nodup

section Housed

variable {p p' : FiberPool} {place : Nat → Option Place}

theorem moved_elsewhere {id : Nat} {new pl : Place} (hold : place id ≠ some pl)
    (hnew : pl ≠ new) (id' : Nat) :
    Function.update place id (some new) id' = some pl ↔ place id' = some pl := by
  by_cases hid : id' = id
  · subst hid
    simp [hold, Ne.symm hnew]
  · rw [Function.update_of_ne hid]

theorem moved_created {id : Nat} {new : Place} (hat : place id ≠ none) (id' : Nat) :
    Function.update place id (some new) id' = none ↔ place id' = none := by
  by_cases hid : id' = id
  · subst hid
    simp [hat]
  · rw [Function.update_of_ne hid]

theorem Housed.init : Housed FiberPool.init (fun _ => none) := by
  constructor <;> simp [FiberPool.init, Trustee.job?]

theorem Housed.kept (h : Housed p place) (hjob : p'.trustee.job? = p.trustee.job?)
    (hchan : ∀ k id, .execute id ∈ p'.chan k ↔ .execute id ∈ p.chan k)
    (hfiber : ∀ k id, p'.fiber k = .running id ↔ p.fiber k = .running id)
    (hjobs : p'.jobs = p.jobs) (hbegun : p'.begun = p.begun) (hended : p'.ended = p.ended) :
    Housed p' place := by
  constructor
  · intro id
    rw [hjob]
    exact h.hands id
  · intro k id
    exact (hchan k id).trans (h.channel k id)
  · intro k id
    exact (hfiber k id).trans (h.running k id)
  · rw [hended]
    exact h.ended
  · rw [hjobs]
    exact h.created
  · rw [hbegun]
    exact h.begun
  · rw [hbegun]
    exact h.begunOnce
  · rw [hended]
    exact h.endedOnce

theorem Housed.launched (h : Housed p place) (ht : p.trustee = .free) :
    Housed { p with jobs := p.jobs + 1, trustee := .dispatching p.jobs }
      (Function.update place p.jobs (some .hands)) := by
  have hnew : place p.jobs = none := (h.created p.jobs).mpr (Nat.le_refl _)
  have hhands : ∀ id, place id ≠ some .hands := by
    intro id hid
    have := (h.hands id).mpr hid
    simp [ht, Trustee.job?] at this
  have helse : ∀ (id : Nat) (pl : Place), pl ≠ .hands →
      (Function.update place p.jobs (some .hands) id = some pl ↔ place id = some pl) :=
    fun id pl hpl => moved_elsewhere (by simp [hnew]) hpl id
  constructor
  · intro id
    by_cases hid : id = p.jobs
    · subst hid
      simp [Trustee.job?]
    · rw [Function.update_of_ne hid]
      simp [Trustee.job?, hhands id, Ne.symm hid]
  · intro k id
    rw [helse id _ (by simp)]
    exact h.channel k id
  · intro k id
    rw [helse id _ (by simp)]
    exact h.running k id
  · intro id
    rw [helse id _ (by simp)]
    exact h.ended id
  · intro id
    by_cases hid : id = p.jobs
    · subst hid
      simp
    · rw [Function.update_of_ne hid, h.created id]
      dsimp only
      omega
  · intro id
    simp only [helse id (.running _) (by simp), helse id .ended (by simp)]
    exact h.begun id
  · exact h.begunOnce
  · exact h.endedOnce

theorem Housed.sent (h : Housed p place) {id k : Nat} {t : Trustee}
    (ht : p.trustee.job? = some id) (ht' : t.job? = none) :
    Housed { p.push k (.execute id) with trustee := t }
      (Function.update place id (some (.channel k))) := by
  have hat : place id = some .hands := (h.hands id).mp ht
  have helse : ∀ (id' : Nat) (pl : Place), pl ≠ .hands → pl ≠ .channel k →
      (Function.update place id (some (.channel k)) id' = some pl ↔ place id' = some pl) :=
    fun id' pl hold hnew => moved_elsewhere (by simp [hat, Ne.symm hold]) hnew id'
  constructor
  · intro id'
    by_cases hid : id' = id
    · subst hid
      simp [ht']
    · rw [Function.update_of_ne hid, ← h.hands id', ht]
      simp [ht', Ne.symm hid]
  · intro k' id'
    by_cases hid : id' = id
    · subst hid
      have hnone : ∀ k, .execute id' ∉ p.chan k := by
        intro k hmem
        rw [h.channel k id', hat] at hmem
        simp at hmem
      by_cases hk : k' = k
      · subst hk
        simp [push]
      · simp [push, Function.update_of_ne hk, hnone, Ne.symm hk]
    · rw [Function.update_of_ne hid, ← h.channel k' id']
      by_cases hk : k' = k
      · subst hk
        simp [push, hid]
      · simp [push, Function.update_of_ne hk]
  · intro k' id'
    rw [helse id' _ (by simp) (by simp)]
    exact h.running k' id'
  · intro id'
    rw [helse id' _ (by simp) (by simp)]
    exact h.ended id'
  · intro id'
    exact (moved_created (by simp [hat]) id').trans (h.created id')
  · intro id'
    simp only [helse id' (.running _) (by simp) (by simp), helse id' .ended (by simp) (by simp)]
    exact h.begun id'
  · exact h.begunOnce
  · exact h.endedOnce

theorem Housed.received (h : Housed p place) {id k : Nat} (hf : p.fiber k = .recv)
    (hc : p.chan k = [.execute id]) :
    Housed { p.setFiber k (.running id) with
        chan := Function.update p.chan k [], begun := p.begun ++ [id] }
      (Function.update place id (some (.running k))) := by
  have hat : place id = some (.channel k) := (h.channel k id).mp (by simp [hc])
  have helse : ∀ (id' : Nat) (pl : Place), pl ≠ .channel k → pl ≠ .running k →
      (Function.update place id (some (.running k)) id' = some pl ↔ place id' = some pl) :=
    fun id' pl hold hnew => moved_elsewhere (by simp [hat, Ne.symm hold]) hnew id'
  have hnew : id ∉ p.begun := by
    rw [h.begun id, hat]
    simp
  constructor
  · intro id'
    rw [helse id' _ (by simp) (by simp)]
    exact h.hands id'
  · intro k' id'
    by_cases hid : id' = id
    · subst hid
      by_cases hk : k' = k
      · subst hk
        simp
      · have := h.channel k' id'
        simp [hat, Ne.symm hk] at this
        simp [Function.update_of_ne hk, this]
    · rw [Function.update_of_ne hid, ← h.channel k' id']
      by_cases hk : k' = k
      · subst hk
        simp [hc, hid]
      · simp [Function.update_of_ne hk]
  · intro k' id'
    by_cases hk : k' = k
    · subst hk
      by_cases hid : id' = id
      · subst hid
        simp [setFiber]
      · have := h.running k' id'
        simp [hf] at this
        simp [setFiber, Function.update_of_ne hid, this, Ne.symm hid]
    · rw [helse id' _ (by simp) (by simp [hk]), ← h.running k' id']
      simp [setFiber, Function.update_of_ne hk]
  · intro id'
    rw [helse id' _ (by simp) (by simp)]
    exact h.ended id'
  · intro id'
    exact (moved_created (by simp [hat]) id').trans (h.created id')
  · intro id'
    by_cases hid : id' = id
    · subst hid
      simp
    · simp [hid, h.begun id']
  · simpa [List.nodup_append] using ⟨h.begunOnce, fun a ha he => hnew (he ▸ ha)⟩
  · exact h.endedOnce

theorem Housed.over (h : Housed p place) {id k : Nat} {f : Fiber}
    {chan : Nat → List Message} (hf : p.fiber k = .running id) (hf' : ∀ id, f ≠ .running id)
    (hchan : chan = p.chan) :
    Housed { p with fiber := Function.update p.fiber k f, chan := chan, ended := p.ended ++ [id] }
      (Function.update place id (some .ended)) := by
  subst hchan
  have hat : place id = some (.running k) := (h.running k id).mp hf
  have helse : ∀ (id' : Nat) (pl : Place), pl ≠ .running k → pl ≠ .ended →
      (Function.update place id (some .ended) id' = some pl ↔ place id' = some pl) :=
    fun id' pl hold hnew => moved_elsewhere (by simp [hat, Ne.symm hold]) hnew id'
  have hnew : id ∉ p.ended := by
    rw [h.ended id, hat]
    simp
  constructor
  · intro id'
    rw [helse id' _ (by simp) (by simp)]
    exact h.hands id'
  · intro k' id'
    rw [helse id' _ (by simp) (by simp)]
    exact h.channel k' id'
  · intro k' id'
    by_cases hk : k' = k
    · subst hk
      by_cases hid : id' = id
      · subst hid
        simp [hf' id']
      · have := h.running k' id'
        simp [hf, Ne.symm hid] at this
        simp [Function.update_of_ne hid, this, hf' id']
    · rw [helse id' _ (by simp [hk]) (by simp), ← h.running k' id']
      simp [Function.update_of_ne hk]
  · intro id'
    by_cases hid : id' = id
    · subst hid
      simp
    · simp [hid, h.ended id']
  · intro id'
    exact (moved_created (by simp [hat]) id').trans (h.created id')
  · intro id'
    by_cases hid : id' = id
    · subst hid
      simp [h.begun id', hat]
    · simp [Function.update_of_ne hid, h.begun id']
  · exact h.begunOnce
  · simpa [List.nodup_append] using ⟨h.endedOnce, fun a ha he => hnew (he ▸ ha)⟩

theorem Counted.drained (h : Counted p) {k : Nat}
    (hpos : 0 < p.queue.count k + p.trustee.holds k + p.terminator.holds k + (p.fiber k).busy) :
    p.chan k = [] := by
  have htok := (h.live (k := k) (by unfold FiberPool.tokens; omega)).2
  unfold FiberPool.tokens at htok
  exact List.eq_nil_of_length_eq_zero (by omega)

theorem Counted.single (h : Counted p) {k : Nat} {m : Message} {rest : List Message}
    (hc : p.chan k = m :: rest) : rest = [] := by
  have hlen : (p.chan k).length = rest.length + 1 := by
    rw [hc, List.length_cons]
  have htok := (h.live (k := k) (by unfold FiberPool.tokens; omega)).2
  unfold FiberPool.tokens at htok
  exact List.eq_nil_of_length_eq_zero (by omega)

theorem Housed.step (h : Housed p place) (hcount : Counted p) (hm : p.Moves p') :
    ∃ place', Housed p' place' := by
  cases hm with
  | launch ht => exact ⟨_, h.launched ht⟩
  | take ht hq =>
    exact ⟨_, h.kept (by simp [ht, Trustee.job?]) (fun _ _ => Iff.rfl) (fun _ _ => Iff.rfl)
      rfl rfl rfl⟩
  | create ht =>
    exact ⟨_, h.kept (by simp [ht, Trustee.job?]) (fun _ _ => Iff.rfl) (fun _ _ => Iff.rfl)
      rfl rfl rfl⟩
  | recover ht hf =>
    exact ⟨_, h.kept (by simp [ht, Trustee.job?]) (fun _ _ => Iff.rfl) (fun _ _ => Iff.rfl)
      rfl rfl rfl⟩
  | deliver ht hf => exact ⟨_, h.sent (by simp [ht, Trustee.job?]) rfl⟩
  | first ht => exact ⟨_, h.sent (by simp [ht, Trustee.job?]) rfl⟩
  | @spawn k ht =>
    have habs := (hcount.unborn k (.inr ht)).2
    refine ⟨_, h.kept (by simp [ht, Trustee.job?]) (fun _ _ => Iff.rfl) (fun k' id => ?_)
      rfl rfl rfl⟩
    by_cases hk : k' = k
    · subst hk
      simp [setFiber, habs]
    · simp [setFiber, Function.update_of_ne hk]
  | terminate ht =>
    exact ⟨_, h.kept (by simp [ht, Trustee.job?]) (fun _ _ => Iff.rfl) (fun _ _ => Iff.rfl)
      rfl rfl rfl⟩
  | join ht _ | joined ht | close ht | abandon ht =>
    exact ⟨_, h.kept (by simp [ht, Trustee.job?]) (fun _ _ => Iff.rfl) (fun _ _ => Iff.rfl)
      rfl rfl rfl⟩
  | receive hf hc =>
    obtain rfl := hcount.single hc
    exact ⟨_, h.received hf hc⟩
  | @stop k rest hf hc =>
    obtain rfl := hcount.single hc
    refine ⟨_, h.kept rfl (fun k' id => ?_) (fun k' id => ?_) rfl rfl rfl⟩
    · by_cases hk : k' = k
      · subst hk
        simp [leave, hc]
      · simp [leave, Function.update_of_ne hk]
    · by_cases hk : k' = k
      · subst hk
        simp [leave, hf]
      · simp [leave, Function.update_of_ne hk]
  | @crash k id hf =>
    have hempty := hcount.drained (k := k) (by simp [hf, Fiber.busy])
    exact ⟨_, h.over hf (by simp) (by rw [leave, ← hempty, Function.update_eq_self])⟩
  | finish hf => exact ⟨_, h.over hf (by simp) rfl⟩
  | @requeue k hf =>
    refine ⟨_, h.kept rfl (fun _ _ => Iff.rfl) (fun k' id => ?_) rfl rfl rfl⟩
    by_cases hk : k' = k
    · subst hk
      simp [setFiber, hf]
    · simp [setFiber, Function.update_of_ne hk]
  | seize hm hq =>
    exact ⟨_, h.kept rfl (fun _ _ => Iff.rfl) (fun _ _ => Iff.rfl) rfl rfl rfl⟩
  | miss hm hf hm' =>
    exact ⟨_, h.kept rfl (fun _ _ => Iff.rfl) (fun _ _ => Iff.rfl) rfl rfl rfl⟩
  | @dismiss k last m hm hf hm' =>
    refine ⟨_, h.kept rfl (fun k' id => ?_) (fun _ _ => Iff.rfl) rfl rfl rfl⟩
    by_cases hk : k' = k
    · subst hk
      simp [push]
    · simp [push, Function.update_of_ne hk]
  | watch hab hm hm' =>
    exact ⟨_, h.kept rfl (fun _ _ => Iff.rfl) (fun _ _ => Iff.rfl) rfl rfl rfl⟩

end Housed

structure Stopped (p : FiberPool) : Prop where
  last : ∀ k, .shutdown ∉ (p.sent k).dropLast
  halted : ∀ k, .shutdown ∈ p.sent k → .shutdown ∈ p.chan k ∨ p.fiber k = .exited

section Stopped

variable {p p' : FiberPool}

theorem Stopped.init : Stopped FiberPool.init := by
  constructor <;> simp [FiberPool.init]

theorem Stopped.kept (h : Stopped p) (hsent : p'.sent = p.sent)
    (hchan : ∀ k, .shutdown ∈ p.chan k → .shutdown ∈ p'.chan k ∨ p'.fiber k = .exited)
    (hfiber : ∀ k, p.fiber k = .exited → p'.fiber k = .exited) : Stopped p' := by
  constructor
  · rw [hsent]
    exact h.last
  · intro k hk
    rw [hsent] at hk
    rcases h.halted k hk with hc | hf
    · exact hchan k hc
    · exact .inr (hfiber k hf)

theorem Stopped.pushed (h : Stopped p) {k : Nat} {m : Message} (hc : p.chan k = [])
    (hf : p.fiber k ≠ .exited) (t : Trustee) (r : Terminator) :
    Stopped { p.push k m with trustee := t, terminator := r } := by
  have hno : .shutdown ∉ p.sent k := by
    intro hk
    rcases h.halted k hk with hmem | hex
    · simp [hc] at hmem
    · exact hf hex
  constructor
  · intro k'
    by_cases hk : k' = k
    · subst hk
      simpa [push] using hno
    · simpa [push, Function.update_of_ne hk] using h.last k'
  · intro k' hk'
    by_cases hk : k' = k
    · subst hk
      simp only [push, Function.update_self, List.mem_append, hno, false_or] at hk' ⊢
      exact .inl (.inr hk')
    · simp only [push, Function.update_of_ne hk] at hk' ⊢
      exact h.halted k' hk'

theorem Stopped.step (h : Stopped p) (hcount : Counted p) (hm : p.Moves p') : Stopped p' := by
  have other : ∀ {k : Nat} {f : Fiber}, p.fiber k ≠ .exited →
      ∀ k', p.fiber k' = .exited → Function.update p.fiber k f k' = .exited := by
    intro k f hne k' hex
    have hk : k' ≠ k := by
      rintro rfl
      exact hne hex
    rw [Function.update_of_ne hk, hex]
  cases hm with
  | launch | take | create | terminate | join | joined | close | abandon | seize | watch =>
    exact h.kept rfl (fun _ => .inl) (fun _ => id)
  | @recover id k ht hf =>
    have hone : p.trustee.holds k = 1 := by simp [ht, Trustee.holds]
    exact absurd hf (hcount.reaches (by omega))
  | @deliver id k ht hf =>
    have hone : p.trustee.holds k = 1 := by simp [ht, Trustee.holds]
    exact h.pushed (hcount.drained (by omega)) hf _ _
  | @first id k ht =>
    have habs := (hcount.unborn k (.inl ⟨id, ht⟩)).2
    have hone : p.trustee.holds k = 1 := by simp [ht, Trustee.holds]
    exact h.pushed (hcount.drained (by omega)) (by simp [habs]) _ _
  | @spawn k ht =>
    have habs := (hcount.unborn k (.inr ht)).2
    exact h.kept rfl (fun _ => .inl) (other (by simp [habs]))
  | @receive k id rest hf hc =>
    obtain rfl := hcount.single hc
    refine h.kept rfl (fun k' hk' => .inl ?_) (other (by simp [hf]))
    have hk : k' ≠ k := by
      rintro rfl
      simp [hc] at hk'
    simpa [Function.update_of_ne hk] using hk'
  | @stop k rest hf hc =>
    refine h.kept rfl (fun k' hk' => ?_) (other (by simp [hf]))
    by_cases hk : k' = k
    · subst hk
      simp [leave]
    · simpa [leave, Function.update_of_ne hk] using .inl hk'
  | @crash k id hf =>
    refine h.kept rfl (fun k' hk' => ?_) (other (by simp [hf]))
    by_cases hk : k' = k
    · subst hk
      simp [leave]
    · simpa [leave, Function.update_of_ne hk] using .inl hk'
  | finish hf | requeue hf => exact h.kept rfl (fun _ => .inl) (other (by simp [hf]))
  | @miss k last m hm hf hm' =>
    exact absurd hf (hcount.reaches (by simp [hm, Terminator.holds]))
  | @dismiss k last m hm hf hm' =>
    have hone : p.terminator.holds k = 1 := by simp [hm, Terminator.holds]
    exact h.pushed (hcount.drained (by omega)) hf _ _

end Stopped

structure Joined (p : FiberPool) : Prop where
  unborn : ∀ k, k < p.channels → p.fiber k = .absent →
    (∃ id, p.trustee = .first id k) ∨ p.trustee = .spawning k
  handled : ∀ k, k < p.channels → p.fiber k ≠ .absent → k ∈ p.handles
  waited : ∀ handles, p.trustee = .joining handles →
    ∀ k, k < p.channels → k ∉ handles → p.fiber k = .exited
  awaited : p.trustee = .awaiting → p.done = true
  closed : p.done = true → p.trustee = .awaiting ∨ p.trustee = .gone
  joined : p.done = true → ∀ k, k < p.channels → p.fiber k = .exited

section Joined

variable {p p' : FiberPool}

theorem Joined.init : Joined FiberPool.init := by
  constructor <;> simp [FiberPool.init]

theorem Joined.spawned (h : Joined p) {k : Nat} {f : Fiber} (hne : p.fiber k ≠ .absent)
    (hex : p.fiber k ≠ .exited) (hf : f ≠ .absent) (hch : p'.channels = p.channels)
    (hfiber : p'.fiber = Function.update p.fiber k f) (hhandles : p'.handles = p.handles)
    (ht : p'.trustee = p.trustee) (hdone : p'.done = p.done) : Joined p' := by
  have other : ∀ k', p.fiber k' = .exited → p'.fiber k' = .exited := by
    intro k' hk'
    have hk : k' ≠ k := by
      rintro rfl
      exact hex hk'
    rw [hfiber, Function.update_of_ne hk, hk']
  constructor
  · intro k' hk' habs
    rw [hch] at hk'
    rw [ht]
    by_cases hk : k' = k
    · subst hk
      rw [hfiber, Function.update_self] at habs
      exact absurd habs hf
    · rw [hfiber, Function.update_of_ne hk] at habs
      exact h.unborn k' hk' habs
  · intro k' hk' habs
    rw [hch] at hk'
    rw [hhandles]
    by_cases hk : k' = k
    · exact hk ▸ h.handled k (hk ▸ hk') hne
    · rw [hfiber, Function.update_of_ne hk] at habs
      exact h.handled k' hk' habs
  · intro handles hj k' hk' hmem
    rw [hch] at hk'
    rw [ht] at hj
    exact other k' (h.waited handles hj k' hk' hmem)
  · rw [ht, hdone]
    exact h.awaited
  · rw [ht, hdone]
    exact h.closed
  · intro hd k' hk'
    rw [hch] at hk'
    rw [hdone] at hd
    exact other k' (h.joined hd k' hk')

theorem Joined.dispatched (h : Joined p)
    (hunborn : ∀ k, ((∃ id, p.trustee = .first id k) ∨ p.trustee = .spawning k) →
      (∃ id, p'.trustee = .first id k) ∨ p'.trustee = .spawning k)
    (hch : p'.channels = p.channels) (hfiber : p'.fiber = p.fiber)
    (hhandles : p'.handles = p.handles) (hj : ∀ handles, p'.trustee ≠ .joining handles)
    (hw : p'.trustee ≠ .awaiting) (hdone : p'.done = false) : Joined p' := by
  constructor
  · intro k hk habs
    rw [hch] at hk
    rw [hfiber] at habs
    exact hunborn k (h.unborn k hk habs)
  · rw [hch, hfiber, hhandles]
    exact h.handled
  · intro handles hj'
    exact absurd hj' (hj handles)
  · intro hw'
    exact absurd hw' hw
  · simp [hdone]
  · simp [hdone]

theorem Joined.early (h : Joined p) (hw : p.trustee ≠ .awaiting) (hg : p.trustee ≠ .gone) :
    p.done = false := by
  cases hd : p.done with
  | false => rfl
  | true => exact ((h.closed hd).elim hw hg).elim

theorem Joined.step (h : Joined p) (hcount : Counted p) (hm : p.Moves p') : Joined p' := by
  cases hm with
  | launch ht | take ht _ | recover ht _ | deliver ht _ | first ht =>
    exact h.dispatched (by simp [ht]) rfl rfl rfl (by simp) (by simp)
      (h.early (by simp [ht]) (by simp [ht]))
  | @create id ht =>
    have hdone := h.early (by simp [ht]) (by simp [ht])
    have hnew := hcount.unmade p.channels (Nat.le_refl _)
    have hold : ∀ k, k < p.channels + 1 → k = p.channels ∨ k < p.channels :=
      fun k hk => (Nat.lt_succ_iff_lt_or_eq.mp hk).symm
    refine ⟨fun k hk habs => ?_, fun k hk habs => ?_, by simp, by simp, by simp [hdone],
      by simp [hdone]⟩
    · rcases hold k hk with rfl | hlt
      · exact .inl ⟨id, rfl⟩
      · have := h.unborn k hlt habs
        simp [ht] at this
    · rcases hold k hk with rfl | hlt
      · exact absurd hnew habs
      · exact h.handled k hlt habs
  | @spawn k ht =>
    have hdone := h.early (by simp [ht]) (by simp [ht])
    refine ⟨fun k' hk' habs => ?_, fun k' hk' habs => ?_, by simp, by simp,
      by simp [setFiber, hdone], by simp [setFiber, hdone]⟩
    · by_cases hk : k' = k
      · subst hk
        simp [setFiber] at habs
      · simp only [setFiber, Function.update_of_ne hk] at habs
        have := h.unborn k' hk' habs
        simp [ht, Ne.symm hk] at this
    · by_cases hk : k' = k
      · simp [hk]
      · simp only [setFiber, Function.update_of_ne hk] at habs
        simp [h.handled k' hk' habs]
  | terminate ht =>
    have hdone := h.early (by simp [ht]) (by simp [ht])
    have hborn : ∀ k, k < p.channels → p.fiber k ≠ .absent := by
      intro k hk habs
      have := h.unborn k hk habs
      simp [ht] at this
    refine ⟨fun k hk habs => absurd habs (hborn k hk), h.handled, ?_, by simp, by simp [hdone],
      by simp [hdone]⟩
    rintro _ ⟨⟩ k hk hmem
    exact absurd (h.handled k hk (hborn k hk)) hmem
  | @join k handles ht hex =>
    have hdone := h.early (by simp [ht]) (by simp [ht])
    refine ⟨fun k' hk' habs => ?_, h.handled, ?_, by simp, by simp [hdone], by simp [hdone]⟩
    · have := h.unborn k' hk' habs
      simp [ht] at this
    · rintro _ ⟨⟩ k' hk' hmem
      by_cases hk : k' = k
      · exact hk ▸ hex
      · exact h.waited _ ht k' hk' (by simp [hk, hmem])
  | joined ht =>
    refine ⟨fun k hk habs => ?_, h.handled, by simp, fun _ => rfl, fun _ => .inl rfl,
      fun _ k hk => h.waited [] ht k hk (by simp)⟩
    have := h.unborn k hk habs
    simp [ht] at this
  | close ht | abandon ht =>
    refine ⟨fun k hk habs => ?_, h.handled, by simp, by simp, fun _ => .inr rfl, h.joined⟩
    have := h.unborn k hk habs
    simp [ht] at this
  | receive hf | stop hf | crash hf | finish hf | requeue hf =>
    exact h.spawned (by simp [hf]) (by simp [hf]) (by simp) rfl rfl rfl rfl rfl
  | seize | miss | dismiss | watch =>
    exact ⟨h.unborn, h.handled, h.waited, h.awaited, h.closed, h.joined⟩

end Joined

structure Inv (p : FiberPool) : Prop where
  counted : Counted p
  housed : ∃ place, Housed p place
  stopped : Stopped p
  joined : Joined p

theorem Inv.init : Inv FiberPool.init :=
  ⟨Counted.init, ⟨_, Housed.init⟩, Stopped.init, Joined.init⟩

theorem Inv.step {p p' : FiberPool} (h : Inv p) (hm : p.Moves p') : Inv p' := by
  obtain ⟨place, hplace⟩ := h.housed
  exact ⟨h.counted.step hm, hplace.step h.counted hm, h.stopped.step h.counted hm,
    h.joined.step h.counted hm⟩

theorem Reachable.inv {p : FiberPool} (h : p.Reachable) : Inv p :=
  h.invariant Inv.init (fun _ _ _ hp _ hs => hp.step (step_moves hs))

section Consequences

variable {p p' : FiberPool}

/-- A job that has been created is at one place. -/
theorem Inv.placed (h : Inv p) {id : Nat} (hid : id < p.jobs) : ∃! place, p.At id place := by
  obtain ⟨place, hplace⟩ := h.housed
  have hlive : ∀ k, .execute id ∈ p.chan k → p.Live k := by
    intro k hmem
    have hlen := List.length_pos_of_mem hmem
    exact (h.counted.live (by unfold FiberPool.tokens; omega)).1
  have hat : ∀ pl, p.At id pl ↔ place id = some pl := by
    intro pl
    cases pl with
    | hands => exact hplace.hands id
    | channel k => exact (and_iff_left_of_imp (hlive k)).trans (hplace.channel k id)
    | running k => exact hplace.running k id
    | ended => exact hplace.ended id
  have hsome : place id ≠ none := fun hnone => absurd ((hplace.created id).mp hnone) (by omega)
  obtain ⟨pl, hpl⟩ := Option.ne_none_iff_exists'.mp hsome
  refine ⟨pl, (hat pl).mpr hpl, fun pl' hpl' => ?_⟩
  exact Option.some.inj (((hat pl').mp hpl').symm.trans hpl)

/-- Whoever sends to a fiber finds its channel empty and the fiber waiting or not yet
spawned. -/
theorem Inv.vacant (h : Inv p) (hm : p.Moves p') {k : Nat} {m : Message}
    (hsent : p'.sent k = p.sent k ++ [m]) : p.chan k = [] ∧ (p.fiber k).busy = 0 := by
  have hlen : (p'.sent k).length ≠ (p.sent k).length := by
    rw [hsent]
    simp
  -- only the holder of a sender sends, and the sender is all the fiber has
  have hholds : 0 < p.trustee.holds k + p.terminator.holds k := by
    have hsame : ∀ k' : Nat, ∀ m' : Message,
        Function.update p.sent k' (p.sent k' ++ [m']) k = p.sent k ++ [m] → k' = k := by
      intro k' m' he
      by_contra hk
      rw [Function.update_of_ne (Ne.symm hk)] at he
      simpa using congrArg List.length he
    cases hm with
    | recover ht | deliver ht | first ht =>
      obtain rfl := hsame _ _ hsent
      refine Nat.add_pos_left ?_ _
      simp [ht, Trustee.holds]
    | miss hm | dismiss hm =>
      obtain rfl := hsame _ _ hsent
      refine Nat.add_pos_right _ ?_
      simp [hm, Terminator.holds]
    | _ => exact absurd rfl hlen
  have htok := (h.counted.live (k := k) (by unfold FiberPool.tokens; omega)).2
  unfold FiberPool.tokens at htok
  exact ⟨List.eq_nil_of_length_eq_zero (by omega), by omega⟩

theorem Inv.shutdown_count_le (h : Inv p) (k : Nat) : (p.sent k).count .shutdown ≤ 1 := by
  by_cases hne : p.sent k = []
  · simp [hne]
  · have hinit := List.count_eq_zero.mpr (h.stopped.last k)
    rw [← List.dropLast_append_getLast hne, List.count_append, hinit, Nat.zero_add]
    exact Nat.le_trans List.count_le_length (by simp)

end Consequences

end FiberPool

open FiberPool

theorem fiber_pool_conserves {p : FiberPool} (h : p.Reachable) :
    (∀ k, p.tokens k = if p.Live k then 1 else 0) ∧
    (∀ a p' k m, p.step a = some p' → p'.sent k = p.sent k ++ [m] →
      p.chan k = [] ∧ (p.fiber k).busy = 0) ∧
    (∀ id, id < p.jobs → ∃! place, p.At id place) ∧ p.begun.Nodup ∧ p.ended.Nodup ∧
    (∀ k, .shutdown ∉ (p.sent k).dropLast ∧ (p.sent k).count .shutdown ≤ 1) ∧
    (p.done = true → ∀ k, k < p.channels → p.fiber k = .exited) := by
  have hinv := h.inv
  refine ⟨hinv.counted.tokens, fun a p' k m hs hsent => ?_, fun id => hinv.placed,
    ?_, ?_, fun k => ⟨hinv.stopped.last k, hinv.shutdown_count_le k⟩, hinv.joined.joined⟩
  · exact hinv.vacant (step_moves hs) hsent
  · obtain ⟨place, hplace⟩ := hinv.housed
    exact hplace.begunOnce
  · obtain ⟨place, hplace⟩ := hinv.housed
    exact hplace.endedOnce

def panicScript : List Action :=
  [.launch, .trustee, .trustee, .trustee, .launch, .trustee, .trustee, .trustee,
    .fiber 0 false, .fiber 1 false, .fiber 1 true, .fiber 0 false, .fiber 0 false,
    .launch, .trustee, .trustee, .fiber 0 false, .fiber 0 false, .fiber 0 false,
    .terminate, .terminator, .terminator, .terminator, .fiber 0 false,
    .trustee, .trustee, .trustee]

theorem fiber_pool_conserves_panicScript :
    ∃ p : FiberPool, p.Reachable ∧ p.jobs = 3 ∧ p.begun = [0, 1, 2] ∧ p.ended = [1, 0, 2] ∧
      p.done = true ∧ p.sent 0 = [.execute 0, .execute 2, .shutdown] ∧
      p.sent 1 = [.execute 1] ∧ (∀ k, k < p.channels → p.fiber k = .exited) ∧
      ∀ id, id < 3 → ∃! place, p.At id place := by
  obtain ⟨p, hrun, hjobs, hbegun, hended, hdone, hsent, hsent'⟩ :
      ∃ p, Machine.run FiberPool.step FiberPool.init panicScript = some p ∧ p.jobs = 3 ∧
        p.begun = [0, 1, 2] ∧ p.ended = [1, 0, 2] ∧ p.done = true ∧
        p.sent 0 = [.execute 0, .execute 2, .shutdown] ∧ p.sent 1 = [.execute 1] :=
    ⟨_, rfl, rfl, rfl, rfl, rfl, by decide +kernel, by decide +kernel⟩
  have hreach : p.Reachable := (Machine.run_reach hrun).weaken (fun _ _ _ => trivial)
  obtain ⟨-, -, hplaced, -, -, -, hjoined⟩ := fiber_pool_conserves hreach
  exact ⟨p, hreach, hjobs, hbegun, hended, hdone, hsent, hsent', hjoined hdone, hjobs ▸ hplaced⟩

end TrustTee
