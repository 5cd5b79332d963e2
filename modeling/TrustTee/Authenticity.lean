import TrustTee.Exclusion

set_option autoImplicit false

namespace TrustTee
open AtomicObject

variable {T V R : Type}

def Ended (value : T) (h : List (Event T V R)) (c k : Nat) (f : Body T R)
    (out : Outcome R) : Prop :=
  ∃ i g, At h i (.app c k g) ∧ (f (replay value (h.take i))).2 = out

/-- What request `k` of client `c` returned comes from that request: its own closure ran to
completion and produced it. A batch returns `()`, and `into_inner` the property. -/
def Produced (bin : Bincode V) (value : T) (h : List (Event T V R)) (c k : Nat)
    (y : Payload T R) : Op T V R → Prop
  | .apply f | .with_ f | .launch f =>
    ∃ r, Ended value h c k f (.returned r) ∧ y = .result (some r)
  | .applyWith f w => ∃ v r, (bin.serialize w).bind bin.deserialize = some v ∧
    Ended value h c k (f v) (.returned r) ∧ y = .result (some r)
  | .applyBatchMut _ _ => y = .result none
  | .intoInner => ∃ t, y = .moved t
  | .terminate => False

/-- No operation has returned what was in the slot before: every reply was produced by the
request it answers. -/
def AuthenticReplies (bin : Bincode V) (value : T) (s : Sys T V R) : Prop :=
  ∀ c k op y, Event.call c k op ∈ s.hist → Event.ret c k y ∈ s.hist →
    Produced bin value s.hist c k y op

def LaunchesReturn (value : T) (s : Sys T V R) : Prop :=
  ∀ c k f y, Event.call c k (.launch f) ∈ s.hist → Event.ret c k y ∈ s.hist →
    ¬ Ended value s.hist c k f .panicked

section Runs

variable {bin : Bincode V} {w : Workload T V R} {value : T} {s : Sys T V R}

theorem Reachable.call_eq (h : Reachable bin w value s) {c k : Nat} {op op' : Op T V R}
    (hc : Event.call c k op ∈ s.hist) (hc' : Event.call c k op' ∈ s.hist) : op = op' := by
  obtain ⟨i, hi⟩ := exists_at hc
  obtain ⟨j, hj⟩ := exists_at hc'
  exact (h.history.call_unique i j c k op op' hi hj).2

theorem Reachable.body_eq (h : Reachable bin w value s) {c k i : Nat} {op : Op T V R}
    {g : Body T (Option R)} (hc : Event.call c k op ∈ s.hist) (hg : At s.hist i (.app c k g)) :
    g = op.ran bin := by
  obtain ⟨_, op', _, hop', hf⟩ := h.history.after_call i c k g hg
  rw [hf, ← h.call_eq hc hop'.mem]
  rfl

theorem Reachable.answers (h : Reachable bin w value s) {c k : Nat} {op : Op T V R}
    {y : Payload T R} (hc : Event.call c k op ∈ s.hist) (hy : Event.ret c k y ∈ s.hist) :
    ∃ last, LastOutcome value s.hist c k last ∧ op.Answers last y := by
  obtain ⟨j, hj⟩ := exists_at hy
  obtain ⟨op', last, hop, hlast, hans⟩ := h.history.answered j c k y hj
  obtain rfl := h.call_eq hc hop
  exact ⟨last, hlast, hans⟩

theorem Reachable.ended (h : Reachable bin w value s) {c k : Nat} {op : Op T V R}
    {f : Body T R} {out : Outcome (Option R)} (hc : Event.call c k op ∈ s.hist)
    (hf : op.ran bin = f.lift some) (hlast : LastOutcome value s.hist c k (some out)) :
    ∃ out', Ended value s.hist c k f out' ∧ out = out'.map some := by
  obtain ⟨i, g, hi, he, _⟩ := hlast
  refine ⟨_, ⟨i, g, hi, rfl⟩, ?_⟩
  rw [he, h.body_eq hc hi, hf]
  rfl

theorem Outcome.map_returned {α β : Type} {f : α → β} {out : Outcome α} {b : β}
    (h : .returned b = out.map f) : ∃ a, out = .returned a ∧ b = f a := by
  cases out with
  | returned a => exact ⟨a, rfl, Outcome.returned.inj h⟩
  | panicked => cases h

/-- A request that the loop serves itself returns what its closure produced. -/
theorem Reachable.produced (h : Reachable bin w value s) {c k : Nat} {op : Op T V R}
    {f : Body T R} {y : Payload T R} (hc : Event.call c k op ∈ s.hist)
    (hf : op.ran bin = f.lift some) (hlast : ∃ last, LastOutcome value s.hist c k last ∧
      ∃ r, last = some (.returned r) ∧ y = .result r) :
    ∃ r, Ended value s.hist c k f (.returned r) ∧ y = .result (some r) := by
  obtain ⟨_, hl, r, rfl, rfl⟩ := hlast
  obtain ⟨out, hend, hr⟩ := h.ended hc hf hl
  obtain ⟨r', rfl, rfl⟩ := Outcome.map_returned hr
  exact ⟨r', hend, rfl⟩

theorem Reachable.produced_with (h : Reachable bin w value s) {c k : Nat}
    {f : V → Body T R} {x : V} {y : Payload T R}
    (hc : Event.call c k (.applyWith f x) ∈ s.hist)
    (hlast : ∃ last, LastOutcome value s.hist c k last ∧
      ∃ r, last = some (.returned r) ∧ y = .result r) :
    Produced bin value s.hist c k y (.applyWith f x) := by
  unfold Produced
  cases hv : (bin.serialize x).bind bin.deserialize with
  | some v =>
    obtain ⟨r, hend, hy⟩ := h.produced (f := f v) hc (by simp only [Op.ran, hv]) hlast
    exact ⟨v, r, hv, hend, hy⟩
  | none =>
    obtain ⟨_, hl, r, rfl, _⟩ := hlast
    obtain ⟨i, g, hi, he, _⟩ := hl
    rw [h.body_eq hc hi] at he
    simp [Op.ran, hv] at he

theorem Reachable.launch_reply (h : Reachable bin w value s) {c k : Nat} {f : Body T R}
    {y : Payload T R} (hc : Event.call c k (.launch f) ∈ s.hist)
    (hy : Event.ret c k y ∈ s.hist) : ∃ out, Ended value s.hist c k f out ∧
      (∀ out', Ended value s.hist c k f out' → out' = out) ∧
      ∀ r, out = .returned r → y = .result (some r) := by
  obtain ⟨_, hlast, out, rfl, hout⟩ := h.answers hc hy
  obtain ⟨out', hend, rfl⟩ := h.ended hc rfl hlast
  refine ⟨out', hend, ?_, ?_⟩
  · rintro _ ⟨i', g', hi', rfl⟩
    obtain ⟨i, g, hi, rfl⟩ := hend
    -- one application only, so the two positions are the same
    have hone : apps c k s.hist = 1 := by
      obtain ⟨j, hj⟩ := exists_at hy
      obtain ⟨_, op', _, hop', happs⟩ := h.history.complete j c k y hj
      rw [happs, ← h.call_eq hc hop'.mem]
      rfl
    rw [apps_unique hone hi hi']
  · rintro r rfl
    exact hout (some r) rfl

/-- In every run, every reply is authentic exactly if no closure of a launch that has
returned panicked. -/
theorem launch_authentic_iff (h : Reachable bin w value s) :
    AuthenticReplies bin value s ↔ LaunchesReturn value s := by
  constructor
  · intro ha c k f y hc hy hp
    obtain ⟨out, _, huniq, _⟩ := h.launch_reply hc hy
    obtain ⟨r, hr, _⟩ := ha c k (.launch f) y hc hy
    have := (huniq _ hr).trans (huniq _ hp).symm
    simp at this
  · intro hl c k op y hc hy
    cases op with
    | apply f => exact h.produced hc rfl (h.answers hc hy)
    | with_ f => exact h.produced hc rfl (h.answers hc hy)
    | applyWith f x => exact h.produced_with hc (h.answers hc hy)
    | applyBatchMut f n =>
      obtain ⟨_, _, hans⟩ := h.answers hc hy
      exact hans
    | intoInner =>
      obtain ⟨_, _, hans⟩ := h.answers hc hy
      exact hans
    | terminate =>
      obtain ⟨_, _, hans⟩ := h.answers hc hy
      exact hans
    | launch f =>
      obtain ⟨out, hend, _, hout⟩ := h.launch_reply hc hy
      cases out with
      | returned r => exact ⟨r, hend, hout r rfl⟩
      | panicked => exact absurd hend (hl c k f y hc hy)

end Runs

theorem launch_authentic_iff_launchThenApply :
    ∃ s, Machine.run (Sys.step byteBincode) (Sys.init 5) launchThenApply = some s ∧
      (AuthenticReplies byteBincode 5 s ↔ LaunchesReturn 5 s) := by
  obtain ⟨s, hs⟩ := Machine.run_exists (show (Machine.run (Sys.step byteBincode)
    (Sys.init 5) launchThenApply).isSome = true by decide)
  have hr : Reachable byteBincode (fun _ _ => True) 5 s :=
    .scripted hs (fun a _ => by cases a <;> trivial)
  exact ⟨s, hs, launch_authentic_iff hr⟩

def applyThenPanic : List (Action Nat UInt8 Nat) :=
  [.register, .issue 0 (.apply (fun t => (t, .returned 41))), .client 0, .client 0] ++
    List.replicate 12 .trustee ++ [.client 0, .client 0,
    .issue 0 (.launch (fun t => (t, .panicked))), .client 0, .client 0] ++
    List.replicate 10 .trustee ++ List.replicate 3 (.fiber 0) ++ [.client 0, .client 0]

/-- The launch returns the 41 that the `apply` before it left in the slot. -/
theorem panicked_launch_not_authentic :
    ¬ ∀ s : Sys Nat UInt8 Nat, Reachable byteBincode (fun _ _ => True) 5 s →
      AuthenticReplies byteBincode 5 s := by
  intro h
  have hs : ∃ s ops g g' y,
      Machine.run (Sys.step byteBincode) (Sys.init 5) applyThenPanic = some s ∧
      s.hist = [.call 0 0 ops, .app 0 0 g, .ret 0 0 y,
        .call 0 1 (.launch (fun t => (t, .panicked))), .app 0 1 g', .ret 0 1 (.result (some 41))] :=
    ⟨_, _, _, _, _, rfl, rfl⟩
  obtain ⟨s, ops, g, g', y, hs, hh⟩ := hs
  have hr : Reachable byteBincode (fun _ _ => True) 5 s :=
    .scripted hs (fun a _ => by cases a <;> trivial)
  obtain ⟨r, ⟨i, g, _, hr⟩, _⟩ := h s hr 0 1 (.launch (fun t => (t, .panicked))) (.result (some 41))
    (by simp [hh]) (by simp [hh])
  simp at hr

end TrustTee
