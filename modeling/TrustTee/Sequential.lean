import TrustTee.AtomicObject

set_option autoImplicit false

namespace AtomicObject

variable {ι Q σ ρ υ : Type}

def Spec.times (spec : Spec Q σ ρ υ) (q : Q) : Nat → σ → σ × Option ρ
  | 0, w => (w, none)
  | n + 1, w =>
    let out := spec.body q (spec.times q n w).1
    (out.1, some out.2)

/-- Requests one after the other, each with a right answer, and the value they leave. -/
inductive Sequence (spec : Spec Q σ ρ υ) (v : σ) : List (Q × υ) → σ → Prop where
  | nil : Sequence spec v [] v
  | snoc {l : List (Q × υ)} {w : σ} {q : Q} {y : υ} : Sequence spec v l w →
      spec.answers q (spec.times q (spec.reps q) w).2 y →
      Sequence spec v (l ++ [(q, y)]) (spec.times q (spec.reps q) w).1

def Event.called? : Event ι Q σ ρ υ → Option Q
  | .call _ _ q => some q
  | _ => none

def Event.returned? : Event ι Q σ ρ υ → Option υ
  | .ret _ _ y => some y
  | _ => none

def calls (h : History ι Q σ ρ υ) : List Q := h.filterMap Event.called?

def answers (h : History ι Q σ ρ υ) : List υ := h.filterMap Event.returned?

theorem calls_concat (h : History ι Q σ ρ υ) (e : Event ι Q σ ρ υ) :
    calls (h ++ [e]) = calls h ++ e.called?.toList := by
  cases e <;> simp [calls, Event.called?]

theorem answers_concat (h : History ι Q σ ρ υ) (e : Event ι Q σ ρ υ) :
    answers (h ++ [e]) = answers h ++ e.returned?.toList := by
  cases e <;> simp [answers, Event.returned?]

/-- Where the only client of an object is: what it has been answered is explained by its
requests in order, and the current one is executed on what they have left. -/
def Solo (spec : Spec Q σ ρ υ) (v : σ) (c : ι) (o : Obj ι Q σ ρ υ) : Prop :=
  ∃ l w, Sequence spec v l w ∧ answers o.hist = l.map Prod.snd ∧
    match o.phase c with
    | .idle => calls o.hist = l.map Prod.fst ∧ o.value = w
    | .active q i last => calls o.hist = l.map Prod.fst ++ [q] ∧
        (o.value, last) = spec.times q i w

theorem Solo.init {spec : Spec Q σ ρ υ} {v : σ} {c : ι} : Solo spec v c (Obj.init v) :=
  ⟨[], v, .nil, rfl, rfl, rfl⟩

section

variable [DecidableEq ι] {spec : Spec Q σ ρ υ} {v : σ} {c : ι} {o o' : Obj ι Q σ ρ υ}

theorem Step.hist_prefix (h : Step spec o o') : ∃ e, o'.hist = o.hist ++ [e] := by
  cases h with
  | call _ | app _ _ _ | ret _ _ => exact ⟨_, rfl⟩

theorem Solo.step (hsolo : Solo spec v c o) (h : Step spec o o')
    (hc : ∀ e ∈ o'.hist, e.tag.1 = c) : Solo spec v c o' := by
  obtain ⟨l, w, hseq, hans, hph⟩ := hsolo
  cases h with
  | @call c' q hidle =>
    obtain rfl : c' = c := hc (.call c' (o.seq c') q) (by simp [Obj.call])
    simp only [hidle] at hph
    obtain ⟨hcalls, rfl⟩ := hph
    refine ⟨l, o.value, hseq, ?_, ?_⟩
    · simpa [Obj.call, answers_concat, Event.returned?] using hans
    · simp [Obj.call, calls_concat, Event.called?, hcalls, Spec.times]
  | @app c' q i last hactive hlt _ =>
    obtain rfl : c' = c := hc (.app c' (o.seq c') (spec.body q)) (by simp [Obj.app])
    simp only [hactive] at hph
    obtain ⟨hcalls, htimes⟩ := hph
    have hvalue : o.value = (spec.times q i w).1 := congrArg Prod.fst htimes
    refine ⟨l, w, hseq, ?_, ?_⟩
    · simpa [Obj.app, answers_concat, Event.returned?] using hans
    · simp [Obj.app, calls_concat, Event.called?, hcalls, Spec.times, hvalue]
  | @ret c' q last y hactive hy =>
    obtain rfl : c' = c := hc (.ret c' (o.seq c') y) (by simp [Obj.ret])
    simp only [hactive] at hph
    obtain ⟨hcalls, htimes⟩ := hph
    have hvalue : o.value = (spec.times q (spec.reps q) w).1 := congrArg Prod.fst htimes
    have hlast : last = (spec.times q (spec.reps q) w).2 := congrArg Prod.snd htimes
    refine ⟨l ++ [(q, y)], _, hseq.snoc (hlast ▸ hy), ?_, ?_⟩
    · simp [Obj.ret, answers_concat, Event.returned?, hans]
    · simp [Obj.ret, calls_concat, Event.called?, hcalls, hvalue]

theorem solo (h : Relation.ReflTransGen (Step spec) (Obj.init v) o)
    (hc : ∀ e ∈ o.hist, e.tag.1 = c) : Solo spec v c o := by
  induction h with
  | refl => exact .init
  | tail _ hs ih =>
    obtain ⟨e, he⟩ := hs.hist_prefix
    exact (ih (fun x hx => hc x (by simp [he, hx]))).step hs hc

end

end AtomicObject
