import TrustTee.FiberPool
import TrustTee.Ownership

/-!
The runtime with its fiber pool: launch jobs travel to pooled fibers, and each job holds
an `Arc` of the property cell until it is over.
-/

set_option autoImplicit false

namespace TrustTee

/-- `panicked` says which jobs have unwound, and `freed` counts the deallocations of the
property cell. -/
structure Pooled (T V R : Type) where
  sys : Sys T V R
  pool : FiberPool
  panicked : Nat → Bool
  freed : Nat

variable {T V R : Type}

namespace Pooled

inductive Action (T V R : Type) where
  | client (a : TrustTee.Action T V R) : Action T V R
  | trustee : Action T V R
  | fiber (k : Nat) : Action T V R
  | terminator : Action T V R

def init (value : T) : Pooled T V R where
  sys := Sys.init value
  pool := FiberPool.init
  panicked := fun _ => false
  freed := 0

def moved (p : Pooled T V R) (sys : Sys T V R) : Pooled T V R :=
  { p with sys := sys,
           freed := p.freed + if p.sys.strong ≠ 0 ∧ sys.strong = 0 then 1 else 0 }

/-- The worker's own loop. Its `Launch` arm leaves a job in its hands, and the other ways
out of it end the worker. -/
def loopStep (p : Pooled T V R) : Option (Pooled T V R) := do
  let sys ← p.sys.trusteeStep
  if sys.jobs.length ≠ p.sys.jobs.length then
    let pool ← p.pool.launch
    some { p.moved sys with pool := pool }
  else if sys.exited then
    let pool ← p.pool.abandon
    some { p.moved sys with pool := pool }
  else some (p.moved sys)

def trusteeStep (p : Pooled T V R) : Option (Pooled T V R) :=
  match p.pool.trustee, p.sys.pc with
  | .free, .joining _ => p.pool.terminate.map (fun pool => { p with pool := pool })
  | .free, _ => p.loopStep
  | .gone, .joining _ => some (p.moved (p.sys.exit .terminate))
  | _, _ => p.pool.trusteeStep.map (fun pool => { p with pool := pool })

def fiberStep (p : Pooled T V R) (k : Nat) : Option (Pooled T V R) :=
  match p.pool.fiber k with
  | .running j =>
    if (p.sys.fiber j).isFinished then
      (p.pool.fiberStep k (p.panicked j)).map (fun pool => { p with pool := pool })
    else do
      let sys ← p.sys.fiberStep j
      let unwinds := match p.sys.fiber j, sys.fiber j with
        | .running .., .guard => true
        | _, _ => p.panicked j
      some { p.moved sys with panicked := Function.update p.panicked j unwinds }
  | _ => (p.pool.fiberStep k false).map (fun pool => { p with pool := pool })

def clientStep (bin : Bincode V) (p : Pooled T V R) : TrustTee.Action T V R →
    Option (Pooled T V R)
  | .trustee | .fiber _ => none
  | a => (p.sys.step bin a).map p.moved

def step (bin : Bincode V) (p : Pooled T V R) : Action T V R → Option (Pooled T V R)
  | .client a => p.clientStep bin a
  | .trustee => p.trusteeStep
  | .fiber k => p.fiberStep k
  | .terminator => p.pool.terminatorStep.map (fun pool => { p with pool := pool })

def Reachable (bin : Bincode V) (value : T) (p : Pooled T V R) : Prop :=
  Machine.Reach (step bin) (fun _ _ => True) (init value) p

end Pooled

section Jobs

variable {s s' : Sys T V R}

theorem Arcs.down (h : Arcs s s') (hc : s.Counted) (hz : s.strong = 0) : s'.strong = 0 := by
  unfold Sys.Counted at hc
  rw [hz] at hc
  cases h with
  | kept hs _ _ _ => rw [hs, hz]
  | left hs _ hx _ _ =>
    simp only [hx, Bool.false_eq_true, if_false] at hc
    omega
  | finished hs _ _ hu => omega
  | cloned hs _ hx _ _ =>
    simp only [hx, Bool.false_eq_true, if_false] at hc
    omega

theorem Sys.step_down {bin : Bincode V} {a : Action T V R} (h : s.step bin a = some s')
    (hc : s.Counted) (hz : s.strong = 0) : s'.strong = 0 := by
  by_cases hd : ∃ c, a = .dropValue c
  · obtain ⟨c, rfl⟩ := hd
    simp only [Sys.step, Sys.dropValue] at h
    split at h <;> simp only [Option.some.injEq, reduceCtorEq] at h
    exact h ▸ hz
  · exact (Sys.step_arcs h (fun c ha => hd ⟨c, ha⟩)).down hc hz

theorem Sys.step_finished {bin : Bincode V} {a : Action T V R} (h : s.step bin a = some s')
    {j : Nat} (hj : j < s.jobs.length) (hf : (s.fiber j).isFinished = true) :
    (s'.fiber j).isFinished = true := by
  by_cases ha : a = .trustee
  · subst ha
    rcases Sys.trusteeStep_launches h with ⟨_, hfib⟩ | ⟨_, _, hfib, _⟩
    · rw [hfib, hf]
    · rw [hfib, Function.update_of_ne (Nat.ne_of_lt hj), hf]
  by_cases hi : ∃ i, a = .fiber i
  · obtain ⟨i, rfl⟩ := hi
    obtain ⟨job, hjob, _, _, _, hother, _⟩ := Sys.fiberStep_frame h
    by_cases hij : j = i
    · subst hij
      cases hpc : s.fiber j with
      | finished => simp [Sys.step, Sys.fiberStep, hjob, hpc] at h
      | _ => simp [hpc, FiberPc.isFinished] at hf
    · rw [hother j hij, hf]
  · obtain ⟨_, _, _, _, hfib⟩ := (Sys.step_beside h ha (fun i he => hi ⟨i, he⟩)).worker
    rw [hfib, hf]

theorem Sys.fiberStep_enabled {j : Nat} (hj : j < s.jobs.length)
    (hf : (s.fiber j).isFinished = false) : s.fiberStep j ≠ none := by
  obtain ⟨job, hjob⟩ : ∃ job, s.jobs[j]? = some job := ⟨_, List.getElem?_eq_getElem hj⟩
  cases hpc : s.fiber j with
  | finished => simp [hpc, FiberPc.isFinished] at hf
  | running env args seq =>
    simp only [Sys.fiberStep, hjob, hpc]
    split <;> simp
  | _ => simp [Sys.fiberStep, hjob, hpc]

end Jobs

namespace FiberPool

variable {p p' : FiberPool}

theorem trusteeStep_keeps (h : p.trusteeStep = some p') :
    p'.jobs = p.jobs ∧ p'.ended = p.ended ∧
    ((∃ handles, p'.trustee = .joining handles) ∨ p'.trustee = .awaiting →
      ∃ handles, p.trustee = .joining handles) ∧
    (p'.trustee = .gone → p.trustee = .awaiting ∧ p'.done = p.done) := by
  unfold trusteeStep at h
  cases ht : p.trustee with
  | free => simp [ht] at h
  | gone => simp [ht] at h
  | dispatching id =>
    simp only [ht] at h
    split at h <;> obtain rfl := Option.some.inj h <;> simp
  | sending id k =>
    simp only [ht] at h
    split at h <;> obtain rfl := Option.some.inj h <;> simp [push, bounce]
  | first id k =>
    simp only [ht, Option.some.injEq] at h
    subst h
    simp [push]
  | spawning k =>
    simp only [ht, Option.some.injEq] at h
    subst h
    simp [setFiber]
  | joining handles =>
    cases handles with
    | nil =>
      simp only [ht, Option.some.injEq] at h
      subst h
      simp
    | cons k handles =>
      simp only [ht] at h
      split at h <;> simp only [Option.some.injEq, reduceCtorEq] at h
      subst h
      simp
  | awaiting =>
    simp only [ht] at h
    split at h <;> simp only [Option.some.injEq, reduceCtorEq] at h
    subst h
    simp

theorem fiberStep_keeps {k : Nat} {panics : Bool} (h : p.fiberStep k panics = some p') :
    p'.jobs = p.jobs ∧ p'.trustee = p.trustee ∧ p'.done = p.done ∧
    (p'.ended = p.ended ∨ ∃ id, p.fiber k = .running id ∧ p'.ended = p.ended ++ [id]) := by
  unfold fiberStep at h
  cases hf : p.fiber k with
  | absent => simp [hf] at h
  | exited => simp [hf] at h
  | recv =>
    simp only [hf] at h
    split at h <;> simp only [Option.some.injEq, reduceCtorEq] at h <;> subst h
    · exact ⟨rfl, rfl, rfl, .inl rfl⟩
    · exact ⟨rfl, rfl, rfl, .inl rfl⟩
  | running id =>
    simp only [hf] at h
    split at h <;> obtain rfl := Option.some.inj h <;> exact ⟨rfl, rfl, rfl, .inr ⟨id, rfl, rfl⟩⟩
  | requeue =>
    simp only [hf, Option.some.injEq] at h
    subst h
    exact ⟨rfl, rfl, rfl, .inl rfl⟩

theorem terminatorStep_keeps (h : p.terminatorStep = some p') :
    p'.jobs = p.jobs ∧ p'.trustee = p.trustee ∧ p'.done = p.done ∧ p'.ended = p.ended := by
  unfold terminatorStep at h
  split at h
  · obtain rfl := Option.some.inj h
    exact ⟨rfl, rfl, rfl, rfl⟩
  · split at h <;> obtain rfl := Option.some.inj h <;> exact ⟨rfl, rfl, rfl, rfl⟩
  · dsimp only at h
    split at h <;> obtain rfl := Option.some.inj h <;> exact ⟨rfl, rfl, rfl, rfl⟩
  · simp at h
  · simp at h

end FiberPool

namespace Pooled

variable {bin : Bincode V} {value : T} {p p' : Pooled T V R}

theorem clientStep_moved {a : TrustTee.Action T V R} (hs : p.clientStep bin a = some p') :
    a ≠ .trustee ∧ ∃ sys, p.sys.step bin a = some sys ∧ p.moved sys = p' := by
  unfold clientStep at hs
  split at hs
  · simp at hs
  · simp at hs
  · rename_i ha _
    exact ⟨ha, Option.map_eq_some_iff.mp hs⟩

/-- The worker and the pool agree on the jobs, on which of them are over, and on where the
trustee is. -/
structure Inv (bin : Bincode V) (value : T) (p : Pooled T V R) : Prop where
  reach : TrustTee.Reachable bin (fun _ _ => True) value p.sys
  counted : p.sys.Counted
  freed : p.freed = if p.sys.strong = 0 then 1 else 0
  pool : p.pool.Reachable
  jobs : p.pool.jobs = p.sys.jobs.length
  ended : ∀ j ∈ p.pool.ended, (p.sys.fiber j).isFinished = true
  joining : (∃ handles, p.pool.trustee = .joining handles) ∨ p.pool.trustee = .awaiting →
    ∃ b, p.sys.pc = .joining b
  gone : p.sys.exited = true → p.pool.trustee = .gone
  quit : p.pool.trustee = .gone →
    p.sys.exited = true ∨ p.pool.done = true ∧ ∃ b, p.sys.pc = .joining b

theorem Inv.init : Inv bin value (Pooled.init value : Pooled T V R) where
  reach := .start
  counted := rfl
  freed := rfl
  pool := .start
  jobs := rfl
  ended := by simp [Pooled.init, FiberPool.init]
  joining := by simp [Pooled.init, FiberPool.init]
  gone := by simp [Pooled.init, Sys.init, Sys.exited]
  quit := by simp [Pooled.init, FiberPool.init]

theorem Inv.housed (h : Inv bin value p) {j : Nat} (hj : j < p.sys.jobs.length) :
    ∃! place, p.pool.At j place :=
  h.pool.inv.placed (h.jobs ▸ hj)

theorem Inv.ended_lt (h : Inv bin value p) {j : Nat} (hj : j ∈ p.pool.ended) :
    j < p.sys.jobs.length := by
  obtain ⟨place, hplace⟩ := h.pool.inv.housed
  have hat := (hplace.ended j).mp hj
  by_contra hge
  have hnone := (hplace.created j).mpr (by rw [h.jobs]; omega)
  simp [hat] at hnone

theorem Inv.moved_freed (h : Inv bin value p) {a : TrustTee.Action T V R} {sys : Sys T V R}
    (hs : p.sys.step bin a = some sys) :
    (p.moved sys).freed = if sys.strong = 0 then 1 else 0 := by
  have hdown := Sys.step_down hs h.counted
  unfold moved
  rw [h.freed]
  by_cases hz : p.sys.strong = 0
  · simp [hz, hdown hz]
  · simp [hz]

theorem Inv.pooled (h : Inv bin value p) {pool : FiberPool} (hpool : pool.Reachable)
    (hjobs : pool.jobs = p.pool.jobs) (ht : pool.trustee = p.pool.trustee)
    (hdone : pool.done = p.pool.done)
    (hended : ∀ j ∈ pool.ended, (p.sys.fiber j).isFinished = true) :
    Inv bin value { p with pool := pool } where
  reach := h.reach
  counted := h.counted
  freed := h.freed
  pool := hpool
  jobs := hjobs.trans h.jobs
  ended := hended
  joining := by rw [ht]; exact h.joining
  gone := by rw [ht]; exact h.gone
  quit := by rw [ht, hdone]; exact h.quit

theorem Inv.aside (h : Inv bin value p) {a : TrustTee.Action T V R} {sys : Sys T V R}
    (hs : p.sys.step bin a = some sys) (ha : a ≠ .trustee) (panicked : Nat → Bool) :
    Inv bin value { p.moved sys with panicked := panicked } := by
  obtain ⟨hpc, _, _, hjobs⟩ := Sys.step_aside hs ha
  have hex : sys.exited = p.sys.exited := by rw [Sys.exited, hpc]; rfl
  exact {
    reach := h.reach.next (by cases a <;> trivial) hs
    counted := Sys.step_counted hs h.counted
    freed := h.moved_freed hs
    pool := h.pool
    jobs := h.jobs.trans (congrArg List.length hjobs.symm)
    ended := fun j hj => Sys.step_finished hs (h.ended_lt hj) (h.ended j hj)
    joining := fun ht => hpc ▸ h.joining ht
    gone := fun hx => h.gone (hex ▸ hx)
    quit := fun ht => by
      show sys.exited = true ∨ p.pool.done = true ∧ ∃ b, sys.pc = .joining b
      rw [hex, hpc]
      exact h.quit ht }

theorem Inv.loopStep (h : Inv bin value p) (hfree : p.pool.trustee = .free)
    (hs : p.loopStep = some p') : Inv bin value p' := by
  unfold Pooled.loopStep at hs
  obtain ⟨sys, hsys, hs⟩ := Option.bind_eq_some_iff.mp hs
  have hstep : p.sys.step bin .trustee = some sys := hsys
  have hreach : TrustTee.Reachable bin (fun _ _ => True) value sys :=
    h.reach.next (a := .trustee) trivial hstep
  have hcounted := Sys.step_counted hstep h.counted
  have hfreed := h.moved_freed hstep
  have hended : ∀ j ∈ p.pool.ended, (sys.fiber j).isFinished = true :=
    fun j hj => Sys.step_finished hstep (h.ended_lt hj) (h.ended j hj)
  rcases Sys.trusteeStep_launches hsys with ⟨hjobs, _⟩ | ⟨job, hjobs, _, hex⟩
  · rw [if_neg (by simp [hjobs])] at hs
    have hlen : p.pool.jobs = sys.jobs.length := h.jobs.trans (by rw [hjobs])
    split at hs
    · rename_i hex
      have hpool : p.pool.step .abandon = some { p.pool with trustee := .gone } := by
        simp [FiberPool.step, FiberPool.abandon, hfree]
      simp only [FiberPool.abandon, hfree, Option.bind_eq_bind, Option.bind_some,
        Option.some.injEq] at hs
      subst hs
      exact ⟨hreach, hcounted, hfreed, h.pool.next trivial hpool, hlen, hended, by simp,
        fun _ => rfl, fun _ => .inl hex⟩
    · rename_i hex
      obtain rfl := Option.some.inj hs
      exact ⟨hreach, hcounted, hfreed, h.pool, hlen, hended, by simp [Pooled.moved, hfree],
        fun hx => absurd hx hex, by simp [Pooled.moved, hfree]⟩
  · rw [if_pos (by simp [hjobs])] at hs
    have hpool : p.pool.step .launch =
        some { p.pool with jobs := p.pool.jobs + 1, trustee := .dispatching p.pool.jobs } := by
      simp [FiberPool.step, FiberPool.launch, hfree]
    simp only [FiberPool.launch, hfree, Option.bind_eq_bind, Option.bind_some,
      Option.some.injEq] at hs
    subst hs
    refine ⟨hreach, hcounted, hfreed, h.pool.next trivial hpool, ?_, hended, by simp,
      fun hx => absurd hx (by simp [Pooled.moved, hex]), by simp⟩
    simp [Pooled.moved, hjobs, h.jobs]

theorem Inv.fibersDone (h : Inv bin value p) (hgone : p.pool.trustee = .gone)
    (hdone : p.pool.done = true) : p.sys.fibersDone = true := by
  unfold Sys.fibersDone
  rw [List.all_eq_true]
  intro j hj
  obtain ⟨place, hat, _⟩ := h.housed (List.mem_range.mp hj)
  have hex := h.pool.inv.joined.joined hdone
  have hcounted := h.pool.inv.counted
  cases place with
  | hands => simp [FiberPool.At, hgone, FiberPool.Trustee.job?] at hat
  | channel k => exact absurd (hex k hat.2.1) hat.2.2
  | running k =>
    have hrun : p.pool.fiber k = .running j := hat
    have hlt : k < p.pool.channels := by
      by_contra hge
      have := hcounted.unmade k (by omega)
      simp [hrun] at this
    have := hex k hlt
    simp [hrun] at this
  | ended => exact h.ended j hat

theorem Inv.trusteeStep (h : Inv bin value p) (hs : p.trusteeStep = some p') :
    Inv bin value p' := by
  unfold Pooled.trusteeStep at hs
  split at hs
  · rename_i b hfree hpc
    have hex : p.sys.exited = false := by simp [Sys.exited, hpc]
    have hpool : p.pool.step .terminate = some { p.pool with
        trustee := .joining p.pool.handles, terminator := .polling } := by
      simp [FiberPool.step, FiberPool.terminate, hfree]
    simp only [FiberPool.terminate, hfree, Option.map_some, Option.some.injEq] at hs
    subst hs
    exact ⟨h.reach, h.counted, h.freed, h.pool.next trivial hpool, h.jobs, h.ended,
      fun _ => ⟨b, hpc⟩, fun hx => absurd hx (by simp [hex]), by simp⟩
  · exact h.loopStep ‹_› hs
  · rename_i b hgone hpc
    obtain rfl := Option.some.inj hs
    have hdone : p.pool.done = true := by
      rcases h.quit hgone with hx | ⟨hd, _⟩
      · simp [Sys.exited, hpc] at hx
      · exact hd
    have hstep : p.sys.step bin .trustee = some (p.sys.exit .terminate) := by
      simp [Sys.step, Sys.trusteeStep, hpc, h.fibersDone hgone hdone]
    exact ⟨h.reach.next (a := .trustee) trivial hstep, Sys.step_counted hstep h.counted, h.moved_freed hstep,
      h.pool, h.jobs, h.ended, by simp [Pooled.moved, hgone], fun _ => hgone, fun _ => .inl rfl⟩
  · obtain ⟨pool, hpool, rfl⟩ := Option.map_eq_some_iff.mp hs
    obtain ⟨hjobs, hended, hjoining, hgone⟩ := FiberPool.trusteeStep_keeps hpool
    have hnot : p.sys.exited = false := by
      cases hx : p.sys.exited with
      | false => rfl
      | true =>
        have := h.gone hx
        simp [FiberPool.trusteeStep, this] at hpool
    refine ⟨h.reach, h.counted, h.freed, h.pool.next (a := .trustee) trivial hpool,
      hjobs.trans h.jobs, fun j hj => h.ended j (hended ▸ hj), fun ht => ?_,
      fun hx => absurd hx (by simp [hnot]), fun ht => ?_⟩
    · exact h.joining (.inl (hjoining ht))
    · obtain ⟨hw, hd⟩ := hgone ht
      exact .inr ⟨hd.trans (h.pool.inv.joined.awaited hw), h.joining (.inr hw)⟩

theorem Inv.fiberStep (h : Inv bin value p) {k : Nat} (hs : p.fiberStep k = some p') :
    Inv bin value p' := by
  unfold Pooled.fiberStep at hs
  split at hs
  · rename_i j hrun
    split at hs
    · rename_i hfin
      obtain ⟨pool, hpool, rfl⟩ := Option.map_eq_some_iff.mp hs
      obtain ⟨hjobs, ht, hdone, hended⟩ := FiberPool.fiberStep_keeps hpool
      refine h.pooled (h.pool.next (a := .fiber k _) trivial hpool) hjobs ht hdone ?_
      intro i hi
      rcases hended with he | ⟨id, hid, he⟩
      · exact h.ended i (he ▸ hi)
      · obtain rfl : j = id := by simpa [hrun] using hid
        rw [he] at hi
        rcases List.mem_append.mp hi with hi | hi
        · exact h.ended i hi
        · exact List.mem_singleton.mp hi ▸ hfin
    · obtain ⟨sys, hsys, hs⟩ := Option.bind_eq_some_iff.mp hs
      obtain rfl := Option.some.inj hs
      exact h.aside (a := .fiber j) hsys (by simp) _
  · rename_i hrun
    obtain ⟨pool, hpool, rfl⟩ := Option.map_eq_some_iff.mp hs
    obtain ⟨hjobs, ht, hdone, hended⟩ := FiberPool.fiberStep_keeps hpool
    refine h.pooled (h.pool.next (a := .fiber k _) trivial hpool) hjobs ht hdone ?_
    rcases hended with he | ⟨id, hid, _⟩
    · rw [he]
      exact h.ended
    · exact absurd hid (hrun id)

theorem Inv.step (h : Inv bin value p) {a : Action T V R} (hs : p.step bin a = some p') :
    Inv bin value p' := by
  cases a with
  | trustee => exact h.trusteeStep hs
  | fiber k => exact h.fiberStep hs
  | terminator =>
    obtain ⟨pool, hpool, rfl⟩ := Option.map_eq_some_iff.mp hs
    obtain ⟨hjobs, ht, hdone, hended⟩ := FiberPool.terminatorStep_keeps hpool
    exact h.pooled (h.pool.next (a := .terminator) trivial hpool) hjobs ht hdone
      (hended ▸ h.ended)
  | client a =>
    obtain ⟨ha, sys, hsys, rfl⟩ := clientStep_moved hs
    exact h.aside hsys ha p.panicked

theorem Reachable.inv (h : Reachable bin value p) : Inv bin value p :=
  h.invariant Inv.init (fun _ _ _ hp _ hs => hp.step hs)

/-- A job that is not over is with somebody who will run it: the trustee, which is still
there, or a live fiber, which can take its next step. -/
theorem Inv.underway (h : Inv bin value p) {j : Nat} (hj : j < p.sys.jobs.length)
    (hf : (p.sys.fiber j).isFinished = false) :
    (p.sys.exited = false ∧ p.pool.At j .hands) ∨
    (∃ k, p.pool.At j (.channel k)) ∨ ∃ k, p.pool.At j (.running k) := by
  obtain ⟨place, hat, _⟩ := h.housed hj
  cases place with
  | hands =>
    refine .inl ⟨?_, hat⟩
    cases hx : p.sys.exited with
    | false => rfl
    | true => simp [FiberPool.At, h.gone hx, FiberPool.Trustee.job?] at hat
  | channel k => exact .inr (.inl ⟨k, hat⟩)
  | running k => exact .inr (.inr ⟨k, hat⟩)
  | ended =>
    have := h.ended j hat
    simp [hf] at this

theorem Inv.progress (h : Inv bin value p) (hx : p.sys.exited = true) {j : Nat}
    (hj : j < p.sys.jobs.length) (hf : (p.sys.fiber j).isFinished = false) :
    ∃ k, p.fiberStep k ≠ none := by
  have hpool := h.pool.inv
  rcases h.underway hj hf with ⟨hx', _⟩ | ⟨k, hmem, hlive⟩ | ⟨k, hrun⟩
  · simp [hx] at hx'
  · refine ⟨k, ?_⟩
    have htok := hpool.counted.tokens k
    rw [if_pos hlive] at htok
    have hlen := List.length_pos_of_mem hmem
    unfold FiberPool.tokens at htok
    have hidle : (p.pool.fiber k).busy = 0 := by omega
    -- the message is all that the fiber has, so it is waiting for it
    cases hk : p.pool.fiber k with
    | absent =>
      have := hpool.joined.unborn k hlive.1 hk
      simp [h.gone hx] at this
    | exited => exact absurd hk hlive.2
    | running id => simp [hk, FiberPool.Fiber.busy] at hidle
    | requeue => simp [hk, FiberPool.Fiber.busy] at hidle
    | recv =>
      cases hc : p.pool.chan k with
      | nil => simp [hc] at hlen
      | cons m rest => cases m <;> simp [Pooled.fiberStep, hk, FiberPool.fiberStep, hc]
  · refine ⟨k, ?_⟩
    have hrun' : p.pool.fiber k = .running j := hrun
    have henabled := Sys.fiberStep_enabled hj hf
    obtain ⟨sys, hsys⟩ := Option.ne_none_iff_exists'.mp henabled
    simp [Pooled.fiberStep, hrun', hf, hsys]

end Pooled

/-- The strong count is that of the worker and of the jobs that are not over, so the cell
lasts while a job may go to it, and goes once, with the last of them. -/
theorem cell_outlives_jobs {bin : Bincode V} {value : T} {p : Pooled T V R}
    (h : p.Reachable bin value) :
    p.sys.strong = (if p.sys.exited = true then 0 else 1) + p.sys.unfinished ∧
    p.freed = (if p.sys.exited = true ∧ p.sys.unfinished = 0 then 1 else 0) ∧
    (∀ j, j < p.sys.jobs.length → (p.sys.fiber j).isFinished = false →
      p.sys.strong ≠ 0 ∧ p.freed = 0) ∧
    (p.sys.exited = true → (∀ k, p.fiberStep k = none) → p.freed = 1) := by
  have hinv := h.inv
  have hcounted : p.sys.strong = _ := hinv.counted
  have hfreed := hinv.freed
  have hzero : p.sys.strong = 0 ↔ p.sys.exited = true ∧ p.sys.unfinished = 0 := by
    rw [hcounted]
    split <;> simp [*]
  have hopen : ∀ j, j < p.sys.jobs.length → (p.sys.fiber j).isFinished = false →
      p.sys.strong ≠ 0 := by
    intro j hj hf hz
    have hpos : 0 < p.sys.unfinished := Counting.count_pos hj hf
    exact Nat.ne_of_gt hpos (hzero.mp hz).2
  refine ⟨hcounted, hfreed.trans (if_congr hzero rfl rfl), fun j hj hf => ?_, fun hx hstuck => ?_⟩
  · have hne := hopen j hj hf
    exact ⟨hne, by rw [hfreed, if_neg hne]⟩
  · have hdone : p.sys.unfinished = 0 := by
      unfold Sys.unfinished
      rw [Nat.count_iff_forall_not]
      intro j hj hf
      obtain ⟨k, hk⟩ := hinv.progress hx hj hf
      exact hk (hstuck k)
    rw [hfreed, if_pos (hzero.mpr ⟨hx, hdone⟩)]

def launchAndLeave : List (Pooled.Action Nat UInt8 Nat) :=
  [.client .register, .client .register,
    .client (.issue 0 (.launch (fun n => (n + 1, .returned n)))), .client (.client 0),
    .client (.client 0), .client (.issue 1 .intoInner), .client (.client 1),
    .client (.client 1)] ++ List.replicate 21 .trustee

theorem cell_outlives_jobs_launchAndLeave : ∃ p : Pooled Nat UInt8 Nat,
    p.Reachable byteBincode 5 ∧ p.sys.exited = true ∧ p.sys.strong = 1 ∧
      p.sys.unfinished = 1 ∧ p.freed = 0 := by
  obtain ⟨p, hrun, hex, hjobs, hfin⟩ :
      ∃ p, Machine.run (Pooled.step byteBincode) (Pooled.init 5) launchAndLeave = some p ∧
        p.sys.exited = true ∧ p.sys.jobs.length = 1 ∧ (p.sys.fiber 0).isFinished = false :=
    ⟨_, rfl, rfl, rfl, rfl⟩
  have hreach : p.Reachable byteBincode 5 :=
    (Machine.run_reach hrun).weaken (fun _ _ _ => trivial)
  obtain ⟨hstrong, _, hopen, _⟩ := cell_outlives_jobs hreach
  have hone : p.sys.unfinished = 1 := by
    simp [Sys.unfinished, hjobs, Nat.count_succ, hfin]
  exact ⟨p, hreach, hex, by rw [hstrong, hone]; simp [hex], hone,
    (hopen 0 (by rw [hjobs]; exact Nat.one_pos) hfin).2⟩

end TrustTee
