import TrustTee.FiberPool
import Mathlib.Data.Finset.Card

set_option autoImplicit false

namespace TrustTee

namespace FiberPool

def live (p : FiberPool) : Nat :=
  ((Finset.range p.channels).filter (fun k => p.fiber k ≠ .exited)).card

/-- Those of them whose sender is not in the queue: they have been sent a job, or run one, or
have not come back from one. -/
def engaged (p : FiberPool) : Nat :=
  ((Finset.range p.channels).filter (fun k => p.fiber k ≠ .exited ∧ k ∉ p.queue)).card

section Steps

variable {p p' : FiberPool}

theorem engaged_le_live (p : FiberPool) : p.engaged ≤ p.live := by
  refine Finset.card_le_card (fun k hk => ?_)
  simp only [Finset.mem_filter] at hk ⊢
  exact ⟨hk.1, hk.2.1⟩

theorem live_le_engaged (hq : p.queue = []) : p.live ≤ p.engaged := by
  refine Finset.card_le_card (fun k hk => ?_)
  simp only [Finset.mem_filter] at hk ⊢
  exact ⟨hk.1, hk.2, by simp [hq]⟩

theorem Counted.stays_ended (h : Counted p) (hm : p.Moves p') {k : Nat}
    (hk : p.fiber k = .exited) : p'.fiber k = .exited := by
  have other : ∀ k' f, p.fiber k' ≠ .exited → Function.update p.fiber k' f k = .exited := by
    intro k' f hne
    have hkk : k ≠ k' := by
      rintro rfl
      exact hne hk
    rw [Function.update_of_ne hkk, hk]
  cases hm with
  | spawn ht => exact other _ _ (by simp [(h.unborn _ (.inr ht)).2])
  | receive hf _ | finish hf | requeue hf => exact other _ _ (by simp [hf])
  | stop hf _ | crash hf => exact other _ _ (by simp [hf])
  | _ => exact hk

theorem step_channels {a : Action} (hs : p.step a = some p') :
    p'.channels = p.channels ∨ p'.queue = [] := by
  cases a with
  | trustee =>
    simp only [step, trusteeStep] at hs
    repeat' split at hs
    all_goals simp only [Option.some.injEq, reduceCtorEq] at hs
    all_goals subst hs
    all_goals first | exact .inl rfl | exact .inr ‹_›
  | launch | terminate | abandon =>
    simp only [step, launch, terminate, abandon] at hs
    split at hs <;> simp only [Option.some.injEq, reduceCtorEq] at hs
    exact .inl (hs ▸ rfl)
  | fiber k panics =>
    simp only [step, fiberStep] at hs
    repeat' split at hs
    all_goals simp only [Option.some.injEq, reduceCtorEq] at hs
    all_goals exact .inl (hs ▸ rfl)
  | terminator =>
    simp only [step, terminatorStep] at hs
    repeat' split at hs
    all_goals simp only [Option.some.injEq, reduceCtorEq] at hs
    all_goals exact .inl (hs ▸ rfl)

/-- The pool grows only when all its fibers are engaged. -/
theorem Counted.grows (h : Counted p) {a : Action} (hs : p.step a = some p') :
    p'.live ≤ p.live ∨ p'.live ≤ p'.engaged := by
  rcases step_channels hs with hch | hq
  · left
    refine Finset.card_le_card (fun k hk => ?_)
    simp only [Finset.mem_filter, hch] at hk ⊢
    exact ⟨hk.1, fun hex => hk.2 (h.stays_ended (step_moves hs) hex)⟩
  · exact .inr (live_le_engaged hq)

end Steps

/-- In every run the pool holds as many fibers at its peak as are engaged at once at theirs. -/
theorem pool_size {u : FiberPool} {l : List (FiberPool × Action)}
    (hrun : Machine.Trace step init l u) (n : Nat) :
    (∀ p ∈ Machine.visited l u, p.live ≤ n) ↔ ∀ p ∈ Machine.visited l u, p.engaged ≤ n := by
  constructor
  · intro h p hp
    exact (engaged_le_live p).trans (h p hp)
  · intro h
    have grows : ∀ p a p', Counted p → step p a = some p' →
        p'.live ≤ p.live ∨ p'.live ≤ p'.engaged := fun p a p' hp hs => hp.grows hs
    exact (hrun.peak_le Counted.init (by simp [live, init])
      (fun p a p' hp hs => hp.step (step_moves hs)) grows h).2

theorem pool_size_panicScript : ∃ u, Machine.run step init panicScript = some u ∧
    ((∀ p ∈ Machine.visited (Machine.trail step init panicScript) u, p.live ≤ 2) ↔
      ∀ p ∈ Machine.visited (Machine.trail step init panicScript) u, p.engaged ≤ 2) := by
  obtain ⟨u, hu⟩ := Machine.run_exists
    (show (Machine.run step init panicScript).isSome = true by decide)
  exact ⟨u, hu, pool_size (Machine.run_trail hu) 2⟩

structure Stranded (p : FiberPool) (n : Nat) : Prop where
  queue : p.queue = []
  trustee : p.trustee = .free
  channels : p.channels = n
  jobs : p.jobs = n
  ended : p.ended.length = n
  fiber : ∀ k, k < n → p.fiber k = .requeue
  chan : p.chan n = [] ∧ ∀ k, n < k → p.chan k = []

theorem Stranded.launch {p : FiberPool} {n : Nat} (h : Stranded p n) :
    ∃ l u, Machine.Trace step p l u ∧ Stranded u (n + 1) ∧
      ∀ t ∈ Machine.visited l u, t.jobs ≤ t.ended.length + 1 := by
  let p₁ : FiberPool := { p with jobs := p.jobs + 1, trustee := .dispatching p.jobs }
  let p₂ : FiberPool := { p₁ with
    queue := [], channels := p.channels + 1, trustee := .first p.jobs p.channels }
  let p₃ : FiberPool := { p₂.push p.channels (.execute p.jobs) with trustee := .spawning p.channels }
  let p₄ : FiberPool := { p₃.setFiber p.channels .recv with
    handles := p.handles ++ [p.channels], trustee := .free }
  let p₅ : FiberPool := { p₄.setFiber p.channels (.running p.jobs) with
    chan := Function.update p₄.chan p.channels [], begun := p.begun ++ [p.jobs] }
  let p₆ : FiberPool := { p₅.setFiber p.channels .requeue with ended := p.ended ++ [p.jobs] }
  have h₁ : p.step .launch = some p₁ := by simp [step, FiberPool.launch, h.trustee, p₁]
  have h₂ : p₁.step .trustee = some p₂ := by
    simp only [step, trusteeStep, p₁, h.queue]
    rfl
  have h₃ : p₂.step .trustee = some p₃ := rfl
  have h₄ : p₃.step .trustee = some p₄ := rfl
  have hchan : p₄.chan p.channels = [.execute p.jobs] := by
    simp [p₄, p₃, p₂, p₁, setFiber, push, h.channels, h.chan.1]
  have h₅ : p₄.step (.fiber p.channels false) = some p₅ := by
    have hrecv : p₄.fiber p.channels = .recv := by simp [p₄, setFiber]
    simp only [step, fiberStep, hrecv, hchan]
    rfl
  have h₆ : p₅.step (.fiber p.channels false) = some p₆ := by
    have hrunning : p₅.fiber p.channels = .running p.jobs := by simp [p₅, setFiber]
    simp only [step, fiberStep, hrunning]
    rfl
  have hfiber : p₆.fiber = Function.update p.fiber p.channels .requeue := by
    simp [p₆, p₅, p₄, p₃, p₂, p₁, setFiber, push]
  have hchans : p₆.chan = Function.update p.chan p.channels [] := by
    simp [p₆, p₅, p₄, p₃, p₂, p₁, setFiber, push]
  have hended : p₆.ended.length = n + 1 := by simp [p₆, h.ended]
  refine ⟨_, p₆, (((((Machine.Trace.start.next h₁).next h₂).next h₃).next h₄).next h₅).next h₆,
    ⟨rfl, rfl, congrArg Nat.succ h.channels, congrArg Nat.succ h.jobs, hended, ?_, ?_⟩, ?_⟩
  · intro k hk
    rw [hfiber, h.channels]
    by_cases hkn : k = n
    · simp [hkn]
    · rw [Function.update_of_ne hkn]
      exact h.fiber k (by omega)
  · have quiet : ∀ k, n < k → p₆.chan k = [] := by
      intro k hk
      rw [hchans, h.channels, Function.update_of_ne (by omega)]
      exact h.chan.2 k hk
    exact ⟨quiet _ (Nat.lt_succ_self n), fun k hk => quiet k (by omega)⟩
  · have hn := h.ended
    have hj := h.jobs
    intro t ht
    have hlaunched : p.jobs + 1 ≤ p.ended.length + 1 := by omega
    simp only [Machine.visited, List.map_append, List.map_cons, List.map_nil, List.nil_append,
      List.mem_append, List.mem_singleton] at ht
    rcases ht with ((((((rfl | rfl) | rfl) | rfl) | rfl) | rfl) | rfl)
    · omega
    · exact hlaunched
    · exact hlaunched
    · exact hlaunched
    · exact hlaunched
    · exact hlaunched
    · rw [hended]
      exact hlaunched.trans (by omega)

/-- Nothing bounds the pool by the jobs there are at once: for every number there is a run in
which each job is launched when all before it have ended, and that many fibers are left. -/
theorem sequential_launches_grow (n : Nat) : ∃ l u, Machine.Trace step init l u ∧ u.live = n ∧
    ∀ p ∈ Machine.visited l u, p.jobs ≤ p.ended.length + 1 := by
  have stranded : ∃ l u, Machine.Trace step init l u ∧ Stranded u n ∧
      ∀ p ∈ Machine.visited l u, p.jobs ≤ p.ended.length + 1 := by
    induction n with
    | zero =>
      refine ⟨[], init, .start, ?_, by simp [Machine.visited, init]⟩
      constructor <;> simp [init]
    | succ n ih =>
      obtain ⟨l, u, hrun, hu, hjobs⟩ := ih
      obtain ⟨m, v, hmore, hv, hmore_jobs⟩ := hu.launch
      refine ⟨l ++ m, v, hrun.append hmore, hv, fun p hp => ?_⟩
      simp only [Machine.visited, List.map_append, List.append_assoc, List.mem_append] at hp
      rcases hp with hp | hp
      · exact hjobs p (by simp [Machine.visited, hp])
      · exact hmore_jobs p (by simpa [Machine.visited] using hp)
  obtain ⟨l, u, hrun, hu, hjobs⟩ := stranded
  refine ⟨l, u, hrun, ?_, hjobs⟩
  rw [live, Finset.filter_true_of_mem, Finset.card_range, hu.channels]
  intro k hk
  rw [Finset.mem_range, hu.channels] at hk
  simp [hu.fiber k hk]

end FiberPool

end TrustTee
