import TrustTee.Endless
import TrustTee.FiberPool
import Mathlib.Algebra.Order.BigOperators.Group.Finset
import Mathlib.Data.Nat.Pairing

set_option autoImplicit false

namespace TrustTee

namespace FiberPool

/-- How far fiber `k` is from its end: a job before it, a job in its hands, its sender to be
pushed, in the pool, in the terminator's hands, and a `Shutdown` before it. -/
def stage (p : FiberPool) (k : Nat) : Nat :=
  if p.fiber k = .exited then 0 else
  match p.chan k, p.fiber k with
  | .execute _ :: _, _ => 6
  | .shutdown :: _, _ => 1
  | [], .running _ => 5
  | [], .requeue => 4
  | [], _ => if p.terminator.holds k = 0 then 3 else 2

def Trustee.left : Trustee → Nat
  | .joining handles => handles.length + 2
  | .awaiting => 1
  | _ => 0

def left (p : FiberPool) : Nat :=
  ∑ k ∈ Finset.range p.channels, p.stage k + p.trustee.left +
    if p.terminator = .finished then 0 else 1

def Terminator.late : Terminator → Prop
  | .popping true | .sending _ true | .finished => True
  | _ => False

structure Closing (p : FiberPool) : Prop where
  handles : ∀ k ∈ p.handles, p.fiber k ≠ .absent
  joins : ∀ handles, p.trustee = .joining handles → ∀ k ∈ handles, p.fiber k ≠ .absent
  closed : p.terminator ≠ .absent → p.trustee = .gone → p.done = true
  late : p.terminator.late → p.done = true

section Closing

variable {p p' : FiberPool}

theorem Closing.init : Closing FiberPool.init := by
  constructor <;> simp [FiberPool.init, Terminator.late]

theorem Moves.present (h : p.Moves p') {k : Nat} (hk : p.fiber k ≠ .absent) :
    p'.fiber k ≠ .absent := by
  have other : ∀ k' f, f ≠ .absent → Function.update p.fiber k' f k ≠ .absent := by
    intro k' f hf
    by_cases hkk : k = k'
    · subst hkk
      rwa [Function.update_self]
    · rwa [Function.update_of_ne hkk]
  cases h <;> first | exact hk | exact other _ _ (by simp)

theorem Closing.fiber (h : Closing p) (hm : p.Moves p') (hhandles : p'.handles = p.handles)
    (ht : p'.trustee = p.trustee) (hr : p'.terminator = p.terminator) (hd : p'.done = p.done) :
    Closing p' := by
  refine ⟨fun k hk => hm.present (h.handles k (hhandles ▸ hk)), fun handles hj k hk => ?_, ?_, ?_⟩
  · exact hm.present (h.joins handles (ht ▸ hj) k hk)
  · rw [ht, hr, hd]
    exact h.closed
  · rw [hr, hd]
    exact h.late

theorem Closing.trusteeStep (h : Closing p) (hi : Inv p) (hs : p.trusteeStep = some p') :
    Closing p' := by
  have hm : p.Moves p' := trusteeStep_moves hs
  unfold FiberPool.trusteeStep at hs
  cases ht : p.trustee with
  | dispatching id =>
    simp only [ht] at hs
    split at hs <;> obtain rfl := Option.some.inj hs <;>
      exact ⟨h.handles, by simp, by simp, h.late⟩
  | sending id k =>
    simp only [ht] at hs
    split at hs <;> obtain rfl := Option.some.inj hs <;>
      exact ⟨h.handles, by simp, by simp, h.late⟩
  | first id k =>
    simp only [ht, Option.some.injEq] at hs
    subst hs
    exact ⟨h.handles, by simp, by simp, h.late⟩
  | spawning k =>
    simp only [ht, Option.some.injEq] at hs
    subst hs
    refine ⟨fun k' hk' => ?_, by simp, by simp, h.late⟩
    rcases List.mem_append.mp hk' with hk' | hk'
    · exact hm.present (h.handles k' hk')
    · obtain rfl := List.mem_singleton.mp hk'
      simp [setFiber]
  | joining handles =>
    have hjoins := h.joins handles ht
    cases handles with
    | nil =>
      simp only [ht, Option.some.injEq] at hs
      subst hs
      exact ⟨h.handles, by simp, by simp, fun _ => rfl⟩
    | cons k handles =>
      simp only [ht] at hs
      split at hs <;> simp only [Option.some.injEq, reduceCtorEq] at hs
      subst hs
      refine ⟨h.handles, ?_, by simp, h.late⟩
      rintro _ ⟨⟩ k' hk'
      exact hjoins k' (List.mem_cons_of_mem k hk')
  | awaiting =>
    simp only [ht] at hs
    split at hs <;> simp only [Option.some.injEq, reduceCtorEq] at hs
    subst hs
    exact ⟨h.handles, by simp, fun _ _ => hi.joined.awaited ht, h.late⟩
  | free | gone => simp [ht] at hs

theorem Closing.terminatorStep (h : Closing p) (hs : p.terminatorStep = some p') :
    Closing p' := by
  unfold FiberPool.terminatorStep at hs
  have hlate := h.late
  cases hr : p.terminator with
  | polling =>
    simp only [hr, Option.some.injEq] at hs
    subst hs
    refine ⟨h.handles, h.joins, fun _ => h.closed (by simp [hr]), fun hl => ?_⟩
    cases hd : p.done with
    | true => rfl
    | false => simp [Terminator.late, hd] at hl
  | popping last =>
    simp only [hr] at hs hlate
    split at hs <;> obtain rfl := Option.some.inj hs <;>
      refine ⟨h.handles, h.joins, fun _ => h.closed (by simp [hr]), fun hl => hlate ?_⟩ <;>
      cases last <;> simp_all [Terminator.late]
  | sending k last =>
    simp only [hr] at hs hlate
    obtain rfl := Option.some.inj hs
    split <;> refine ⟨h.handles, h.joins, fun _ => h.closed (by simp [hr]), fun hl => hlate ?_⟩ <;>
      cases last <;> simp_all [Terminator.late]
  | absent | finished => simp [hr] at hs

theorem Closing.step (h : Closing p) (hi : Inv p) {a : Action} (hs : p.step a = some p') :
    Closing p' := by
  have alone : p.trustee = .free → p.terminator = .absent := fun ht => hi.counted.alone (.inl ht)
  cases a with
  | launch =>
    simp only [FiberPool.step, FiberPool.launch] at hs
    split at hs <;> simp only [Option.some.injEq, reduceCtorEq] at hs
    subst hs
    exact ⟨h.handles, by simp, by simp, h.late⟩
  | terminate =>
    simp only [FiberPool.step, FiberPool.terminate] at hs
    split at hs <;> simp only [Option.some.injEq, reduceCtorEq] at hs
    subst hs
    refine ⟨h.handles, ?_, by simp, by simp [Terminator.late]⟩
    rintro _ ⟨⟩
    exact h.handles
  | abandon =>
    simp only [FiberPool.step, FiberPool.abandon] at hs
    split at hs <;> simp only [Option.some.injEq, reduceCtorEq] at hs
    rename_i hfree
    subst hs
    exact ⟨h.handles, by simp, fun hr => absurd (alone hfree) hr, h.late⟩
  | trustee => exact h.trusteeStep hi hs
  | fiber k panics =>
    have hm := step_moves hs
    have hs : p.fiberStep k panics = some p' := hs
    unfold FiberPool.fiberStep at hs
    repeat' split at hs
    all_goals first
      | (obtain rfl := Option.some.inj hs; exact h.fiber hm rfl rfl rfl rfl)
      | simp at hs
  | terminator => exact h.terminatorStep hs

end Closing

section Left

variable {p p' : FiberPool}

theorem left_lt (hch : p'.channels = p.channels) {k : Nat} (hk : k < p.channels)
    (hlt : p'.stage k < p.stage k) (hle : ∀ k', k' ≠ k → p'.stage k' = p.stage k')
    (ht : p'.trustee = p.trustee) (hr : p.terminator = .finished → p'.terminator = .finished) :
    p'.left < p.left := by
  have hsum : ∑ k ∈ Finset.range p.channels, p'.stage k <
      ∑ k ∈ Finset.range p.channels, p.stage k := by
    refine Finset.sum_lt_sum (fun k' _ => ?_) ⟨k, Finset.mem_range.mpr hk, hlt⟩
    by_cases hkk : k' = k
    · exact hkk ▸ hlt.le
    · exact (hle k' hkk).le
  unfold left
  rw [hch, ht]
  by_cases hf : p.terminator = .finished
  · rw [if_pos hf, if_pos (hr hf)]
    omega
  · rw [if_neg hf]
    split <;> omega

theorem Counted.waits (h : Counted p) {k : Nat}
    (hpos : 0 < p.queue.count k + p.terminator.holds k) : k < p.channels ∧
      p.stage k = if p.terminator.holds k = 0 then 3 else 2 := by
  obtain ⟨⟨hk, hex⟩, htok⟩ := h.live (k := k) (by unfold FiberPool.tokens; omega)
  have hchan := h.drained (k := k) (by omega)
  unfold FiberPool.tokens at htok
  refine ⟨hk, ?_⟩
  unfold stage
  rw [if_neg hex, hchan]
  cases hf : p.fiber k <;> simp [hf, Fiber.busy] at htok hex ⊢ <;> omega

theorem stage_congr {k : Nat} (hf : p'.fiber k = p.fiber k) (hc : p'.chan k = p.chan k)
    (hr : p'.terminator.holds k = p.terminator.holds k) : p'.stage k = p.stage k := by
  unfold stage
  rw [hf, hc, hr]

theorem Inv.fiberStep_left (h : Inv p) {k : Nat} {panics : Bool}
    (hs : p.fiberStep k panics = some p') : p'.left < p.left := by
  have hk : p.fiber k ≠ .absent → k < p.channels := by
    intro hne
    by_contra hk
    exact hne (h.counted.unmade k (not_lt.mp hk))
  have hempty : (p.fiber k).busy = 1 → p.chan k = [] ∧ p.terminator.holds k = 0 := by
    intro hb
    have htok := (h.counted.live (k := k) (by unfold FiberPool.tokens; omega)).2
    unfold FiberPool.tokens at htok
    exact ⟨List.eq_nil_of_length_eq_zero (by omega), by omega⟩
  unfold FiberPool.fiberStep at hs
  cases hf : p.fiber k with
  | recv =>
    simp only [hf] at hs
    have hlt := hk (by simp [hf])
    cases hc : p.chan k with
    | nil => simp [hc] at hs
    | cons m rest =>
      obtain rfl := h.counted.single hc
      cases m with
      | execute id =>
        simp only [hc, Option.some.injEq] at hs
        subst hs
        refine left_lt rfl hlt ?_ (fun k' hkk => stage_congr ?_ ?_ rfl) rfl (fun he => he)
        · simp [stage, setFiber, hf, hc]
        · exact Function.update_of_ne hkk _ _
        · exact Function.update_of_ne hkk _ _
      | shutdown =>
        simp only [hc, Option.some.injEq] at hs
        subst hs
        refine left_lt rfl hlt ?_ (fun k' hkk => stage_congr ?_ ?_ rfl) rfl (fun he => he)
        · simp [stage, leave, hf, hc]
        · exact Function.update_of_ne hkk _ _
        · exact Function.update_of_ne hkk _ _
  | running id =>
    have hlt := hk (by simp [hf])
    obtain ⟨hc, _⟩ := hempty (by simp [hf, Fiber.busy])
    simp only [hf] at hs
    split at hs <;> obtain rfl := Option.some.inj hs
    · refine left_lt rfl hlt ?_ (fun k' hkk => stage_congr ?_ ?_ rfl) rfl (fun he => he)
      · simp [stage, leave, hf, hc]
      · exact Function.update_of_ne hkk _ _
      · exact Function.update_of_ne hkk _ _
    · refine left_lt rfl hlt ?_ (fun k' hkk => stage_congr ?_ rfl rfl) rfl (fun he => he)
      · simp [stage, setFiber, hf, hc]
      · exact Function.update_of_ne hkk _ _
  | requeue =>
    have hlt := hk (by simp [hf])
    obtain ⟨hc, hz⟩ := hempty (by simp [hf, Fiber.busy])
    simp only [hf, Option.some.injEq] at hs
    subst hs
    refine left_lt rfl hlt ?_ (fun k' hkk => stage_congr ?_ rfl rfl) rfl (fun he => he)
    · simp [stage, setFiber, hf, hc, hz]
    · exact Function.update_of_ne hkk _ _
  | absent | exited => simp [hf] at hs

theorem left_trustee {t : Trustee} {d : Bool} (h : t.left < p.trustee.left) :
    { p with trustee := t, done := d }.left < p.left := by
  have hstage : ∀ k, { p with trustee := t, done := d }.stage k = p.stage k := fun _ => rfl
  simp only [left, hstage]
  omega

theorem Inv.trusteeStep_left (hq : p.trustee.Quiet) (hs : p.trusteeStep = some p') :
    p'.left < p.left := by
  unfold FiberPool.trusteeStep at hs
  cases ht : p.trustee with
  | joining handles =>
    cases handles with
    | nil =>
      simp only [ht, Option.some.injEq] at hs
      subst hs
      exact left_trustee (by simp [ht, Trustee.left])
    | cons k handles =>
      simp only [ht] at hs
      split at hs <;> simp only [Option.some.injEq, reduceCtorEq] at hs
      subst hs
      exact left_trustee (d := p.done) (by simp [ht, Trustee.left])
  | awaiting =>
    simp only [ht] at hs
    split at hs <;> simp only [Option.some.injEq, reduceCtorEq] at hs
    subst hs
    exact left_trustee (d := p.done) (by simp [ht, Trustee.left])
  | free | gone => simp [ht] at hs
  | _ => simp [ht, Trustee.Quiet] at hq

/-- The terminator looks into the pool and takes nothing. -/
inductive Watches (p : FiberPool) : FiberPool → Prop where
  | look : p.terminator = .polling → Watches p { p with terminator := .popping p.done }
  | pass : p.terminator = .popping false → p.queue = [] →
      Watches p { p with terminator := .polling }

theorem Watches.left_eq (h : p.Watches p') : p'.left = p.left := by
  cases h with
  | look hr =>
    have hstage : ∀ k, { p with terminator := .popping p.done }.stage k = p.stage k :=
      fun k => stage_congr rfl rfl (by rw [hr]; rfl)
    simp [left, hstage, hr]
  | pass hr _ =>
    have hstage : ∀ k, { p with terminator := .polling }.stage k = p.stage k :=
      fun k => stage_congr rfl rfl (by rw [hr]; rfl)
    simp [left, hstage, hr]

theorem Inv.terminatorStep_left (h : Inv p) (hs : p.terminatorStep = some p') :
    p'.left < p.left ∨ p.Watches p' := by
  have hi' : Inv p' := h.step (terminatorStep_moves hs)
  unfold FiberPool.terminatorStep at hs
  cases hr : p.terminator with
  | polling =>
    simp only [hr, Option.some.injEq] at hs
    exact .inr (hs ▸ .look hr)
  | popping last =>
    simp only [hr] at hs
    cases hq : p.queue with
    | nil =>
      simp only [hq, Option.some.injEq] at hs
      subst hs
      cases last with
      | false => exact .inr (by simpa [hq] using Watches.pass hr hq)
      | true =>
        have hstage : ∀ k, { p with queue := [], terminator := .finished }.stage k = p.stage k :=
          fun k => stage_congr rfl rfl (by rw [hr]; rfl)
        left
        simp only [left, if_true, hstage, hr]
        simp
    | cons k queue =>
      simp only [hq, Option.some.injEq] at hs
      subst hs
      obtain ⟨hlt, hstage⟩ := h.counted.waits (k := k) (by simp [hq])
      obtain ⟨_, hstage'⟩ := hi'.counted.waits (k := k) (by simp [Terminator.holds])
      refine .inl (left_lt rfl hlt ?_ (fun k' hkk => stage_congr rfl rfl ?_) rfl (by simp [hr]))
      · rw [hstage, hstage']
        simp [hr, Terminator.holds]
      · simp [hr, Terminator.holds, Ne.symm hkk]
  | sending k last =>
    have hex := h.counted.reaches (k := k) (by simp [hr, Terminator.holds])
    obtain ⟨hlt, hstage⟩ := h.counted.waits (k := k) (by simp [hr, Terminator.holds])
    have hchan := h.counted.drained (k := k) (by simp [hr, Terminator.holds])
    simp only [hr, if_neg hex, Option.some.injEq] at hs
    subst hs
    refine .inl (left_lt rfl hlt ?_ (fun k' hkk => stage_congr rfl ?_ ?_) rfl (by simp [hr]))
    · rw [hstage]
      simp [stage, push, hex, hchan, hr, Terminator.holds]
    · exact Function.update_of_ne hkk _ _
    · cases last <;> simp [hr, Terminator.holds, Ne.symm hkk]
  | absent | finished => simp [hr] at hs

/-- A step after the terminator's start brings the end nearer, but for the terminator's looking
into an empty pool. -/
theorem Inv.step_left (h : Inv p) (hr : p.terminator ≠ .absent) {a : Action}
    (hs : p.step a = some p') : p'.left < p.left ∨ a = .terminator ∧ p.Watches p' := by
  have hquiet : p.trustee ≠ .free ∧ p.trustee.Quiet := by
    constructor
    · exact fun ht => hr (h.counted.alone (.inl ht))
    · by_contra hq
      exact hr (h.counted.alone (.inr hq))
  cases a with
  | launch | terminate | abandon =>
    simp only [FiberPool.step, FiberPool.launch, FiberPool.terminate, FiberPool.abandon] at hs
    split at hs <;> simp only [Option.some.injEq, reduceCtorEq] at hs
    exact absurd ‹_› hquiet.1
  | trustee => exact .inl (Inv.trusteeStep_left hquiet.2 hs)
  | fiber k panics => exact .inl (h.fiberStep_left hs)
  | terminator => exact (h.terminatorStep_left hs).imp_right (fun hw => ⟨rfl, hw⟩)

end Left

/-- The worker is in the `Terminate` arm or has come out of it. -/
structure Ending (p : FiberPool) : Prop where
  inv : Inv p
  closing : Closing p
  begun : p.terminator ≠ .absent

section Ending

variable {p p' : FiberPool}

theorem Ending.step (h : Ending p) {a : Action} (hs : p.step a = some p') : Ending p' := by
  refine ⟨h.inv.step (step_moves hs), h.closing.step h.inv hs, ?_⟩
  have hbegun := h.begun
  cases a with
  | launch | terminate | abandon =>
    simp only [FiberPool.step, FiberPool.launch, FiberPool.terminate, FiberPool.abandon] at hs
    split at hs <;> simp only [Option.some.injEq, reduceCtorEq] at hs
    exact absurd (h.inv.counted.alone (.inl ‹_›)) hbegun
  | trustee =>
    have hs : p.trusteeStep = some p' := hs
    unfold FiberPool.trusteeStep at hs
    repeat' split at hs
    all_goals first
      | (obtain rfl := Option.some.inj hs; exact hbegun)
      | simp at hs
  | fiber k panics =>
    have hs : p.fiberStep k panics = some p' := hs
    unfold FiberPool.fiberStep at hs
    repeat' split at hs
    all_goals first
      | (obtain rfl := Option.some.inj hs; exact hbegun)
      | simp at hs
  | terminator =>
    have hs : p.terminatorStep = some p' := hs
    unfold FiberPool.terminatorStep at hs
    cases hr : p.terminator with
    | polling =>
      simp only [hr, Option.some.injEq] at hs
      simp [← hs]
    | popping last =>
      simp only [hr] at hs
      split at hs <;> obtain rfl := Option.some.inj hs <;> cases last <;> simp
    | sending k last =>
      simp only [hr, Option.some.injEq] at hs
      subst hs
      cases last <;> simp
    | absent => exact absurd hr hbegun
    | finished => simp [hr] at hs

theorem Ending.quiet (h : Ending p) : p.trustee.Quiet ∧ p.trustee ≠ .free := by
  constructor
  · by_contra hq
    exact h.begun (h.inv.counted.alone (.inr hq))
  · exact fun ht => h.begun (h.inv.counted.alone (.inl ht))

theorem Ending.fiber_able (h : Ending p) {k : Nat} (hk : 0 < (p.chan k).length + (p.fiber k).busy)
    (panics : Bool) : p.fiberStep k panics ≠ none := by
  obtain ⟨⟨hlt, hex⟩, _⟩ := h.inv.counted.live (k := k) (by unfold FiberPool.tokens; omega)
  unfold FiberPool.fiberStep
  cases hf : p.fiber k with
  | recv =>
    cases hc : p.chan k with
    | nil => simp [hc, hf, Fiber.busy] at hk
    | cons m rest => cases m <;> simp
  | running id => cases panics <;> simp
  | requeue => simp
  | exited => exact absurd hf hex
  | absent =>
    have hq := h.quiet.1
    rcases h.inv.joined.unborn k hlt hf with ⟨id, ht⟩ | ht <;> simp [ht, Trustee.Quiet] at hq

theorem Ending.terminator_able (h : Ending p) (hf : p.terminator ≠ .finished) :
    p.terminatorStep ≠ none := by
  have hbegun := h.begun
  unfold FiberPool.terminatorStep
  cases hr : p.terminator with
  | absent => exact absurd hr hbegun
  | finished => exact absurd hr hf
  | popping last => cases hq : p.queue <;> simp
  | _ => simp

end Ending

structure Busily (p : Machine.Path (Machine.offer FiberPool.step)) : Prop where
  trustee : p.Fair (· = .trustee)
  terminator : p.Fair (· = .terminator)
  fiber : ∀ k, p.Fair (fun a => ∃ panics, a = .fiber k panics)

section Paths

variable {p : Machine.Path (Machine.offer FiberPool.step)} {n : Nat}

theorem Ending.path (h : Ending (p.state n)) : ∀ m, n ≤ m → Ending (p.state m) := by
  intro m hm
  induction m, hm using Nat.le_induction with
  | base => exact h
  | succ m hm ih =>
    rcases Machine.offer_cases (p.next m) with hs | ⟨_, hs⟩
    · exact ih.step hs
    · exact hs ▸ ih

theorem Ending.nearer {party : Action → Prop} {X : FiberPool → Prop} (rank : FiberPool → Nat)
    (hfair : p.Fair party) (a₀ : Action) (ha₀ : party a₀)
    (able : ∀ s a, Ending s → X s → party a → s.step a ≠ none)
    (helps : ∀ s a t, Ending s → X s → party a → s.step a = some t →
      t.left < s.left ∨ X t ∧ rank t < rank s)
    (keeps : ∀ s t, Ending s → X s → ¬ party .terminator → s.Watches t → X t ∧ rank t = rank s)
    (h : Ending (p.state n)) (hX : X (p.state n)) :
    ∃ m, n ≤ m ∧ (p.state m).left < (p.state n).left := by
  refine @Machine.Path.variant _ _ _ p (fun _ _ => True) n _ _ _
    (fun s => Ending s ∧ X s ∧ s.left = (p.state n).left)
    (fun s => s.left < (p.state n).left) party rank hfair (fun _ _ => trivial) ?_ ?_ ?_
    n le_rfl ⟨h, hX, rfl⟩
  · rintro s _
    exact ⟨a₀, ha₀, by simp [Machine.offer]⟩
  · rintro s a t ⟨h, hX, hl⟩ _ hs ha
    rcases Machine.offer_cases hs with hs | ⟨hs, _⟩
    · rcases h.inv.step_left h.begun hs with hlt | ⟨_, hw⟩
      · exact .inl (hl ▸ hlt)
      rcases helps s a t h hX ha hs with hlt | ⟨hX', hr⟩
      · exact .inl (hl ▸ hlt)
      · exact .inr ⟨⟨h.step hs, hX', hw.left_eq.trans hl⟩, hr⟩
    · exact absurd hs (able s a h hX ha)
  · rintro s a t ⟨h, hX, hl⟩ _ hs ha
    rcases Machine.offer_cases hs with hs | ⟨_, rfl⟩
    · rcases h.inv.step_left h.begun hs with hlt | ⟨rfl, hw⟩
      · exact .inl (hl ▸ hlt)
      · obtain ⟨hX', hr⟩ := keeps s t h hX ha hw
        exact .inr ⟨⟨h.step hs, hX', hw.left_eq.trans hl⟩, hr.le⟩
    · exact .inr ⟨⟨h, hX, hl⟩, le_rfl⟩

theorem Ending.fiber_nearer (hfair : Busily p) (h : Ending (p.state n)) {k : Nat}
    (hk : 0 < ((p.state n).chan k).length + ((p.state n).fiber k).busy) :
    ∃ m, n ≤ m ∧ (p.state m).left < (p.state n).left := by
  refine Ending.nearer (X := fun s => 0 < (s.chan k).length + (s.fiber k).busy) (fun _ => 0)
    (hfair.fiber k) (.fiber k false) ⟨false, rfl⟩ ?_ ?_ ?_ h hk
  · rintro s _ h hX ⟨panics, rfl⟩
    exact h.fiber_able hX panics
  · rintro s _ t h _ ⟨panics, rfl⟩ hs
    exact .inl (h.inv.fiberStep_left hs)
  · rintro s t _ hX _ hw
    cases hw <;> exact ⟨hX, rfl⟩

theorem Ending.sender_nearer (hfair : Busily p) (h : Ending (p.state n)) {k : Nat}
    (hk : 0 < (p.state n).queue.count k + (p.state n).terminator.holds k) :
    ∃ m, n ≤ m ∧ (p.state m).left < (p.state n).left := by
  refine Ending.nearer (X := fun s => 0 < s.queue.count k + s.terminator.holds k)
    (fun s => if s.terminator = .polling then 1 else 0) hfair.terminator .terminator rfl ?_ ?_ ?_
    h hk
  · rintro s _ h hX rfl
    refine h.terminator_able (fun hf => ?_)
    have hd := h.closing.late (by simp [hf, Terminator.late])
    obtain ⟨⟨hlt, hex⟩, _⟩ := h.inv.counted.live (k := k) (by unfold FiberPool.tokens; omega)
    exact hex (h.inv.joined.joined hd k hlt)
  · rintro s _ t h hX rfl hs
    rcases h.inv.terminatorStep_left hs with hlt | hw
    · exact .inl hlt
    · cases hw with
      | look hr =>
        rw [hr] at hX
        exact .inr ⟨hX, by simp [hr]⟩
      | pass hr hq => simp [hr, hq, Terminator.holds] at hX
  · rintro s t _ _ hne _
    exact absurd rfl hne

theorem Ending.joins_nearer (hfair : Busily p) (h : Ending (p.state n)) {handles : List Nat}
    (ht : (p.state n).trustee = .joining handles)
    (hex : ∀ k ∈ handles, (p.state n).fiber k = .exited) :
    ∃ m, n ≤ m ∧ (p.state m).left < (p.state n).left := by
  refine Ending.nearer
    (X := fun s => s.trustee = .joining handles ∧ ∀ k ∈ handles, s.fiber k = .exited)
    (fun _ => 0) hfair.trustee .trustee rfl ?_ ?_ ?_ h ⟨ht, hex⟩
  · rintro s _ h ⟨ht, hex⟩ rfl
    cases handles with
    | nil => simp [FiberPool.step, trusteeStep, ht]
    | cons k handles => simp [FiberPool.step, trusteeStep, ht, hex k (.head _)]
  · rintro s _ t h _ rfl hs
    exact .inl (Inv.trusteeStep_left h.quiet.1 hs)
  · rintro s t _ hX _ hw
    cases hw <;> exact ⟨hX, rfl⟩

def Terminator.turn : Terminator → Nat
  | .popping false => 2
  | .polling => 1
  | _ => 0

theorem Ending.terminator_nearer (hfair : Busily p) (h : Ending (p.state n))
    (hd : (p.state n).done = true) (hf : (p.state n).terminator ≠ .finished) :
    ∃ m, n ≤ m ∧ (p.state m).left < (p.state n).left := by
  refine Ending.nearer (X := fun s => s.done = true ∧ s.terminator ≠ .finished)
    (fun s => s.terminator.turn) hfair.terminator .terminator rfl ?_ ?_ ?_ h ⟨hd, hf⟩
  · rintro s _ h ⟨_, hf⟩ rfl
    exact h.terminator_able hf
  · rintro s _ t h ⟨hd, hf⟩ rfl hs
    rcases h.inv.terminatorStep_left hs with hlt | hw
    · exact .inl hlt
    · cases hw with
      | look hr => exact .inr ⟨⟨hd, by simp⟩, by simp [hr, hd, Terminator.turn]⟩
      | pass hr _ => exact .inr ⟨⟨hd, by simp⟩, by simp [hr, Terminator.turn]⟩
  · rintro s t _ _ hne _
    exact absurd rfl hne

theorem Ending.closes (hfair : Busily p) (h : Ending (p.state n))
    (ht : (p.state n).trustee = .awaiting) (hf : (p.state n).terminator = .finished) :
    ∃ m, n ≤ m ∧ (p.state m).left < (p.state n).left := by
  refine Ending.nearer (X := fun s => s.trustee = .awaiting ∧ s.terminator = .finished)
    (fun _ => 0) hfair.trustee .trustee rfl ?_ ?_ ?_ h ⟨ht, hf⟩
  · rintro s _ h ⟨ht, hf⟩ rfl
    simp [FiberPool.step, trusteeStep, ht, hf]
  · rintro s _ t h _ rfl hs
    exact .inl (Inv.trusteeStep_left h.quiet.1 hs)
  · rintro s t _ ⟨_, hf⟩ _ hw
    cases hw <;> simp_all

/-- The pool is not yet shut down, so somebody brings it nearer to that. -/
theorem Ending.progress (hfair : Busily p) (h : Ending (p.state n))
    (hno : ¬ ((p.state n).trustee = .gone ∧ (p.state n).terminator = .finished)) :
    ∃ m, n ≤ m ∧ (p.state m).left < (p.state n).left := by
  by_cases hown : ∃ k, 0 < ((p.state n).chan k).length + ((p.state n).fiber k).busy
  · obtain ⟨k, hk⟩ := hown
    exact h.fiber_nearer hfair hk
  by_cases hsender : ∃ k, 0 < (p.state n).queue.count k + (p.state n).terminator.holds k
  · obtain ⟨k, hk⟩ := hsender
    exact h.sender_nearer hfair hk
  by_cases hdone : (p.state n).done = true ∧ (p.state n).terminator ≠ .finished
  · exact h.terminator_nearer hfair hdone.1 hdone.2
  have hq := h.quiet
  cases ht : (p.state n).trustee with
  | joining handles =>
    refine h.joins_nearer hfair ht (fun k hk => ?_)
    -- a fiber that nobody has anything of is not alive
    have hlt : k < (p.state n).channels := by
      by_contra hlt
      exact h.closing.joins handles ht k hk (h.inv.counted.unmade k (not_lt.mp hlt))
    by_contra hex
    have htok := h.inv.counted.tokens k
    rw [if_pos ⟨hlt, hex⟩] at htok
    have hown' := not_exists.mp hown k
    have hsender' := not_exists.mp hsender k
    simp only [FiberPool.tokens, ht, Trustee.holds] at htok
    omega
  | awaiting =>
    refine h.closes hfair ht ?_
    by_contra hf
    exact hdone ⟨h.inv.joined.awaited ht, hf⟩
  | gone =>
    refine absurd ⟨ht, ?_⟩ hno
    by_contra hf
    exact hdone ⟨h.closing.closed h.begun ht, hf⟩
  | free => exact absurd ht hq.2
  | _ => simp [ht, Trustee.Quiet] at hq

end Paths

end FiberPool

open FiberPool

/-- The pool shuts down. Once the worker has begun to terminate, under any schedule that names
everybody again and again, all jobs come to their end, panics or not, every fiber is stopped, no
sender is left behind, and the terminator and the worker return. -/
theorem pool_shuts_down {p : Machine.Path (Machine.offer FiberPool.step)}
    (hstart : p.state 0 = FiberPool.init) (hfair : Busily p) {n : Nat}
    (hn : (p.state n).terminator ≠ .absent) :
    ∃ M, ∀ m, M ≤ m → (p.state m).trustee = .gone ∧ (p.state m).terminator = .finished ∧
      (p.state m).queue = [] ∧ (∀ k, k < (p.state m).channels → (p.state m).fiber k = .exited) ∧
      ∀ id, id < (p.state m).jobs → id ∈ (p.state m).ended := by
  have hinv : ∀ m, Inv (p.state m) ∧ Closing (p.state m) := by
    intro m
    induction m with
    | zero =>
      rw [hstart]
      exact ⟨.init, .init⟩
    | succ m ih =>
      rcases Machine.offer_cases (p.next m) with hs | ⟨_, hs⟩
      · exact ⟨ih.1.step (step_moves hs), ih.2.step ih.1 hs⟩
      · exact hs ▸ ih
  have hend : ∀ m, n ≤ m → Ending (p.state m) :=
    Ending.path ⟨(hinv n).1, (hinv n).2, hn⟩
  have hmono : ∀ m, n ≤ m → (p.state (m + 1)).left ≤ (p.state m).left := by
    intro m hm
    rcases Machine.offer_cases (p.next m) with hs | ⟨_, hs⟩
    · rcases (hinv m).1.step_left (hend m hm).begun hs with hlt | ⟨_, hw⟩
      · exact hlt.le
      · exact hw.left_eq.le
    · exact (congrArg FiberPool.left hs).le
  obtain ⟨M, hM, hover⟩ := Machine.Path.descent
    (Q := fun s => s.trustee = .gone ∧ s.terminator = .finished) hmono
    (fun m hm hno => (hend m hm).progress hfair hno)
  refine ⟨M, fun m hm => ?_⟩
  obtain ⟨ht, hr⟩ := hover m hm
  have h := hend m (hM.trans hm)
  have hd := h.closing.closed h.begun ht
  have hex := h.inv.joined.joined hd
  refine ⟨ht, hr, ?_, hex, fun id hid => ?_⟩
  · refine List.eq_nil_iff_forall_not_mem.mpr (fun k hk => ?_)
    have hcount := List.count_pos_iff.mpr hk
    obtain ⟨⟨hlt, hne⟩, _⟩ := h.inv.counted.live (k := k) (by unfold FiberPool.tokens; omega)
    exact hne (hex k hlt)
  · obtain ⟨pl, hat, _⟩ := h.inv.placed hid
    cases pl with
    | hands => simp [FiberPool.At, ht, Trustee.job?] at hat
    | channel k => exact absurd (hex k hat.2.1) hat.2.2
    | running k =>
      have hrun : (p.state m).fiber k = .running id := hat
      have hlt : k < (p.state m).channels := by
        by_contra hlt
        have := h.inv.counted.unmade k (not_lt.mp hlt)
        simp [hrun] at this
      have := hex k hlt
      simp [hrun] at this
    | ended => exact hat

def everybody (n : Nat) : Action :=
  match n % 3 with
  | 0 => .trustee
  | 1 => .terminator
  | _ => .fiber (n / 3).unpair.1 false

theorem pool_shuts_down_everybody :
    ∃ p : Machine.Path (Machine.offer FiberPool.step), p.state 0 = FiberPool.init ∧
      (p.state 6).jobs = 1 ∧ (p.state 6).fiber 0 = .running 0 ∧
      ∃ M, ∀ m, M ≤ m → (p.state m).trustee = .gone ∧ (p.state m).terminator = .finished ∧
        (p.state m).queue = [] ∧
        (∀ k, k < (p.state m).channels → (p.state m).fiber k = .exited) ∧
        ∀ id, id < (p.state m).jobs → id ∈ (p.state m).ended := by
  obtain ⟨u, hu, hjobs, hfiber, hterm⟩ : ∃ u, Machine.run (Machine.offer FiberPool.step)
      FiberPool.init [.launch, .trustee, .trustee, .trustee, .fiber 0 false, .terminate] = some u ∧
        u.jobs = 1 ∧ u.fiber 0 = .running 0 ∧ u.terminator ≠ .absent :=
    ⟨_, rfl, rfl, rfl, by decide⟩
  obtain ⟨q, hq, hacts⟩ := Machine.Path.forever (I := fun _ => True)
    (fun n s _ => ⟨_, (rfl : Machine.offer FiberPool.step s (everybody n) = _), trivial⟩)
    (trivial : (fun _ => True) u)
  obtain ⟨p, hp, hlater, _⟩ := Machine.Path.scripted hu q hq
  have hact : ∀ n, p.act (n + 6) = everybody n := fun n => (hlater n).2.trans (hacts n).1
  have hu' : p.state 6 = u := (hlater 0).1.trans hq
  have hfair : Busily p := by
    refine ⟨fun n => ⟨3 * n + 6, by omega, .inl ?_⟩, fun n => ⟨3 * n + 1 + 6, by omega, .inl ?_⟩,
      fun k n => ⟨3 * Nat.pair k n + 2 + 6, ?_, .inl ⟨false, ?_⟩⟩⟩
    · simp [hact, everybody]
    · simp [hact, everybody]
    · have := Nat.right_le_pair k n
      omega
    · have hdiv : (3 * Nat.pair k n + 2) / 3 = Nat.pair k n := by omega
      rw [hact, everybody, Nat.mul_add_mod, hdiv, Nat.unpair_pair]
      rfl
  exact ⟨p, hp, by rw [hu', hjobs], by rw [hu', hfiber],
    pool_shuts_down hp hfair (n := 6) (by rw [hu']; exact hterm)⟩

end TrustTee
