import Mathlib.Data.List.Basic
import Mathlib.Logic.Relation

/-!
Runs of a labelled machine given by a partial step function, and the rules by which
a property of single steps becomes a property of whole runs.
-/

set_option autoImplicit false

namespace Machine

variable {S A : Type}

/-- A run from `s`: the list holds each state the run left with the action taken
there, oldest first, and the last argument is the state it has reached. -/
inductive Trace (step : S → A → Option S) (s : S) : List (S × A) → S → Prop where
  | start : Trace step s [] s
  | next {l : List (S × A)} {t u : S} {a : A} :
      Trace step s l t → step t a = some u → Trace step s (l ++ [(t, a)]) u

def visited (l : List (S × A)) (u : S) : List S := l.map Prod.fst ++ [u]

theorem mem_visited_next {l : List (S × A)} {t u x : S} {a : A} :
    x ∈ visited (l ++ [(t, a)]) u ↔ x ∈ visited l t ∨ x = u := by
  simp [visited, or_assoc]

theorem last_mem_visited (l : List (S × A)) (u : S) : u ∈ visited l u := by
  simp [visited]

section Rules

variable {step : S → A → Option S} {s u : S} {l : List (S × A)}

/-- The invariant rule, under a discipline `ok` that every step of the run obeys. -/
theorem Trace.invariant {P : S → Prop} {ok : S → A → Prop} (base : P s)
    (keep : ∀ t a v, P t → ok t a → step t a = some v → P v)
    (h : Trace step s l u) (hok : ∀ x ∈ l, ok x.1 x.2) : P u := by
  induction h with
  | start => exact base
  | @next l t u a h hs ih =>
    have ht : P t := ih (fun x hx => hok x (by simp [hx]))
    exact keep t a u ht (hok (t, a) (by simp)) hs

theorem Trace.always {P : S → Prop} {ok : S → A → Prop} (base : P s)
    (keep : ∀ t a v, P t → ok t a → step t a = some v → P v)
    (h : Trace step s l u) (hok : ∀ x ∈ l, ok x.1 x.2) : ∀ t ∈ visited l u, P t := by
  induction h with
  | start => simpa [visited] using base
  | @next l t u a h hs ih =>
    have hl : ∀ x ∈ l, ok x.1 x.2 := fun x hx => hok x (by simp [hx])
    intro x hx
    rcases mem_visited_next.mp hx with hx | rfl
    · exact ih hl x hx
    · have ht : P t := ih hl t (last_mem_visited l t)
      exact keep t a _ ht (hok (t, a) (by simp)) hs

theorem Trace.fine {I : S → Prop} {Fine ok : S → A → Prop} (base : I s)
    (keep : ∀ t a v, I t → ok t a → step t a = some v → I v)
    (fine : ∀ t a v, I t → ok t a → step t a = some v → Fine t a)
    (h : Trace step s l u) (hok : ∀ x ∈ l, ok x.1 x.2) : ∀ x ∈ l, Fine x.1 x.2 := by
  induction h with
  | start => simp
  | @next l t u a h hs ih =>
    have hl : ∀ x ∈ l, ok x.1 x.2 := fun x hx => hok x (by simp [hx])
    have ha : ok t a := hok (t, a) (by simp)
    intro x hx
    rcases List.mem_append.mp hx with hx | hx
    · exact ih hl x hx
    · obtain rfl := List.mem_singleton.mp hx
      exact fine t a u (h.invariant base keep hl) ha hs

/-- The rule for an exact condition. When an invariant makes states good and lasts as long
as the steps obey `ok`, steps that obey are fine, and the first step that does not is not
fine or leaves a state that is not good, a whole run stays good and fine exactly if all its
steps obey. -/
theorem Trace.exact_mixed {I Good : S → Prop} {Fine ok : S → A → Prop} (base : I s)
    (keep : ∀ t a v, I t → ok t a → step t a = some v → I v) (good : ∀ t, I t → Good t)
    (fine : ∀ t a v, I t → ok t a → step t a = some v → Fine t a)
    (bad : ∀ t a v, I t → ¬ ok t a → step t a = some v → Fine t a → ¬ Good v)
    (h : Trace step s l u) :
    (∀ x ∈ visited l u, Good x) ∧ (∀ x ∈ l, Fine x.1 x.2) ↔ ∀ x ∈ l, ok x.1 x.2 := by
  induction h with
  | start => simp [visited, good s base]
  | @next l t u a h hs ih =>
    have hlast : ∀ P : S → A → Prop,
        (∀ x ∈ l ++ [(t, a)], P x.1 x.2) ↔ (∀ x ∈ l, P x.1 x.2) ∧ P t a := by
      intro P
      simp [or_imp, forall_and]
    have hvisited : (∀ x ∈ visited (l ++ [(t, a)]) u, Good x) ↔
        (∀ x ∈ visited l t, Good x) ∧ Good u := by
      simp [mem_visited_next, or_imp, forall_and]
    rw [hlast, hlast, hvisited]
    constructor
    · rintro ⟨⟨hg, hu⟩, hf, hlf⟩
      have hok : ∀ x ∈ l, ok x.1 x.2 := ih.mp ⟨hg, hf⟩
      have ht : I t := h.invariant base keep hok
      refine ⟨hok, ?_⟩
      by_contra hn
      exact bad t a u ht hn hs hlf hu
    · rintro ⟨hok, ha⟩
      have ht : I t := h.invariant base keep hok
      obtain ⟨hg, hf⟩ := ih.mpr hok
      exact ⟨⟨hg, good u (keep t a u ht ha hs)⟩, hf, fine t a u ht ha hs⟩

theorem Trace.exact {I Good : S → Prop} {ok : S → A → Prop} (base : I s)
    (keep : ∀ t a v, I t → ok t a → step t a = some v → I v) (good : ∀ t, I t → Good t)
    (bad : ∀ t a v, I t → ¬ ok t a → step t a = some v → ¬ Good v)
    (h : Trace step s l u) :
    (∀ x ∈ visited l u, Good x) ↔ ∀ x ∈ l, ok x.1 x.2 := by
  have hm := @Trace.exact_mixed _ _ _ _ _ _ I Good (fun _ _ => True) ok base keep good
    (fun _ _ _ _ _ _ => trivial) (fun t a v ht ha hs _ => bad t a v ht ha hs) h
  simpa using hm

theorem Trace.exact_steps {I : S → Prop} {Fine ok : S → A → Prop} (base : I s)
    (keep : ∀ t a v, I t → ok t a → step t a = some v → I v)
    (agree : ∀ t a v, I t → step t a = some v → (Fine t a ↔ ok t a))
    (h : Trace step s l u) : (∀ x ∈ l, Fine x.1 x.2) ↔ ∀ x ∈ l, ok x.1 x.2 := by
  have hm := @Trace.exact_mixed _ _ _ _ _ _ I (fun _ => True) Fine ok base keep
    (fun _ _ => trivial) (fun t a v ht ha hs => (agree t a v ht hs).mpr ha)
    (fun t a v ht ha hs hf => absurd ((agree t a v ht hs).mp hf) ha) h
  simpa using hm

/-- The potential rule: as long as `On` holds, the steps that are counted are paid for by the
potential and by the steps that raise it. -/
theorem Trace.count_le {I On : S → Prop} {potential : S → Nat} {counted raises : S → A → Bool}
    (base : I s) (keep : ∀ t a v, I t → step t a = some v → I v)
    (stays : ∀ t a v, I t → step t a = some v → On v → On t)
    (pays : ∀ t a v, I t → On t → On v → step t a = some v →
      potential v + (counted t a).toNat ≤ potential t + (raises t a).toNat)
    (h : Trace step s l u) (hu : On u) : potential u + l.countP (fun x => counted x.1 x.2) ≤
      potential s + l.countP (fun x => raises x.1 x.2) := by
  induction h with
  | start => simp
  | @next l t u a h hs ih =>
    have keep' : ∀ t a v, I t → True → step t a = some v → I v :=
      fun t a v ht _ => keep t a v ht
    have hi : I t := h.invariant base keep' (fun _ _ => trivial)
    have hon : On t := stays t a u hi hs hu
    have hpay := pays t a u hi hon hu hs
    have hsofar := ih hon
    simp only [List.countP_append, List.countP_singleton]
    cases hcount : counted t a <;> cases hraise : raises t a <;>
      simp only [hcount, hraise, Bool.toNat_true, Bool.toNat_false, Bool.false_eq_true,
        if_true, if_false] at hpay ⊢ <;> omega

/-- The rule for peaks: what grows only where it does not pass `g` has no higher peak than
`g` has. -/
theorem Trace.peak_le {I : S → Prop} {f g : S → Nat} {n : Nat} (base : I s) (start : f s ≤ g s)
    (keep : ∀ t a v, I t → step t a = some v → I v)
    (grows : ∀ t a v, I t → step t a = some v → f v ≤ f t ∨ f v ≤ g v) (h : Trace step s l u)
    (hg : ∀ t ∈ visited l u, g t ≤ n) : I u ∧ ∀ t ∈ visited l u, f t ≤ n := by
  induction h with
  | start =>
    refine ⟨base, fun t ht => ?_⟩
    obtain rfl : t = s := by simpa [visited] using ht
    exact Nat.le_trans start (hg t ht)
  | @next l t u a h hs ih =>
    obtain ⟨hi, hbefore⟩ := ih (fun x hx => hg x (mem_visited_next.mpr (.inl hx)))
    refine ⟨keep t a u hi hs, fun x hx => ?_⟩
    rcases mem_visited_next.mp hx with hx | rfl
    · exact hbefore x hx
    · rcases grows t a x hi hs with hle | hle
      · exact Nat.le_trans hle (hbefore t (last_mem_visited l t))
      · exact Nat.le_trans hle (hg x (last_mem_visited _ x))

theorem Trace.append {t : S} {m : List (S × A)} (h : Trace step s l t)
    (h' : Trace step t m u) : Trace step s (l ++ m) u := by
  induction h' with
  | start => simpa using h
  | next _ hs ih => simpa [← List.append_assoc] using ih.next hs

theorem Trace.split {l₁ l₂ : List (S × A)} {t : S} {a : A}
    (h : Trace step s (l₁ ++ (t, a) :: l₂) u) :
    Trace step s l₁ t ∧ ∃ v, step t a = some v ∧ Trace step v l₂ u := by
  generalize hl : l₁ ++ (t, a) :: l₂ = l at h
  induction h generalizing l₂ with
  | start => simp at hl
  | @next l' t' u' a' h hs ih =>
    rcases l₂.eq_nil_or_concat with rfl | ⟨l₃, x, rfl⟩
    · obtain ⟨rfl, hx⟩ := List.append_inj' hl rfl
      obtain ⟨rfl, rfl⟩ := Prod.mk.inj (List.singleton_inj.mp hx)
      exact ⟨h, u', hs, .start⟩
    · have hl : (l₁ ++ (t, a) :: l₃) ++ [x] = l' ++ [(t', a')] := by simpa using hl
      obtain ⟨hl', hx⟩ := List.append_inj' hl rfl
      obtain rfl := List.singleton_inj.mp hx
      obtain ⟨hbefore, v, hv, hafter⟩ := ih hl'
      exact ⟨hbefore, v, hv, by simpa using hafter.next hs⟩

theorem Trace.before {x : S × A} (h : Trace step s l u) (hx : x ∈ l) :
    ∃ l', Trace step s l' x.1 := by
  obtain ⟨l₁, l₂, rfl⟩ := List.append_of_mem hx
  exact ⟨l₁, h.split.1⟩

end Rules

/-- What a run from `s` can reach when every step obeys `ok`. -/
def Reach (step : S → A → Option S) (ok : S → A → Prop) (s u : S) : Prop :=
  ∃ l, Trace step s l u ∧ ∀ x ∈ l, ok x.1 x.2

section Reachable

variable {step : S → A → Option S} {ok : S → A → Prop} {s u : S}

theorem Reach.start : Reach step ok s s := ⟨[], .start, by simp⟩

theorem Reach.next {t : S} {a : A} (h : Reach step ok s t) (ha : ok t a)
    (hs : step t a = some u) : Reach step ok s u := by
  obtain ⟨l, ht, hl⟩ := h
  refine ⟨l ++ [(t, a)], ht.next hs, ?_⟩
  intro x hx
  rcases List.mem_append.mp hx with hx | hx
  · exact hl x hx
  · obtain rfl := List.mem_singleton.mp hx
    exact ha

theorem Reach.trans {t : S} (h : Reach step ok s t) (h' : Reach step ok t u) :
    Reach step ok s u := by
  obtain ⟨l, hl, hok⟩ := h
  obtain ⟨l', hl', hok'⟩ := h'
  refine ⟨l ++ l', hl.append hl', ?_⟩
  intro x hx
  exact (List.mem_append.mp hx).elim (hok x) (hok' x)

theorem Reach.invariant {P : S → Prop} (h : Reach step ok s u) (base : P s)
    (keep : ∀ t a v, P t → ok t a → step t a = some v → P v) : P u := by
  obtain ⟨l, ht, hl⟩ := h
  exact ht.invariant base keep hl

theorem Reach.weaken {ok' : S → A → Prop} (h : Reach step ok s u)
    (hw : ∀ t a, ok t a → ok' t a) : Reach step ok' s u := by
  obtain ⟨l, ht, hl⟩ := h
  exact ⟨l, ht, fun x hx => hw _ _ (hl x hx)⟩

/-- Forward simulation: if a concrete step is matched by abstract steps from every
related state, what a concrete run reaches is related to something abstract steps reach. -/
theorem Reach.simulate {T : Type} {next : T → T → Prop} {R : S → T → Prop} {x : T}
    (h : Reach step ok s u) (base : R s x)
    (sim : ∀ t a v y, R t y → ok t a → step t a = some v →
      ∃ z, Relation.ReflTransGen next y z ∧ R v z) :
    ∃ y, Relation.ReflTransGen next x y ∧ R u y := by
  refine h.invariant (P := fun t => ∃ y, Relation.ReflTransGen next x y ∧ R t y)
    ⟨x, .refl, base⟩ ?_
  rintro t a v ⟨y, hy, hR⟩ ha hs
  obtain ⟨z, hz, hR'⟩ := sim t a v y hR ha hs
  exact ⟨z, hy.trans hz, hR'⟩

end Reachable

def run (step : S → A → Option S) : S → List A → Option S
  | s, [] => some s
  | s, a :: as => (step s a).bind (fun t => run step t as)

theorem run_append (step : S → A → Option S) (s : S) (as bs : List A) :
    run step s (as ++ bs) = (run step s as).bind (fun t => run step t bs) := by
  induction as generalizing s with
  | nil => rfl
  | cons a as ih => cases hs : step s a <;> simp [run, hs, ih]

theorem run_trace {step : S → A → Option S} {s u : S} {as : List A}
    (h : run step s as = some u) : ∃ l, Trace step s l u ∧ l.map Prod.snd = as := by
  induction as generalizing s with
  | nil =>
    obtain rfl := Option.some.inj h
    exact ⟨[], .start, rfl⟩
  | cons a as ih =>
    obtain ⟨t, ht, h⟩ := Option.bind_eq_some_iff.mp h
    obtain ⟨l, hl, hm⟩ := ih h
    exact ⟨(s, a) :: l, (Trace.start.next ht).append hl, by simp [hm]⟩

def trail (step : S → A → Option S) : S → List A → List (S × A)
  | _, [] => []
  | s, a :: as => match step s a with
    | some t => (s, a) :: trail step t as
    | none => []

theorem run_trail {step : S → A → Option S} {s u : S} {as : List A}
    (h : run step s as = some u) : Trace step s (trail step s as) u := by
  induction as generalizing s with
  | nil =>
    obtain rfl := Option.some.inj h
    exact .start
  | cons a as ih =>
    obtain ⟨t, ht, h⟩ := Option.bind_eq_some_iff.mp h
    have hl := (Trace.start.next ht).append (ih h)
    simpa [trail, ht] using hl

theorem run_reach {step : S → A → Option S} {s u : S} {as : List A}
    (h : run step s as = some u) : Reach step (fun _ a => a ∈ as) s u := by
  obtain ⟨l, hl, rfl⟩ := run_trace h
  exact ⟨l, hl, fun x hx => List.mem_map_of_mem hx⟩

theorem run_exists {step : S → A → Option S} {s : S} {as : List A}
    (h : (run step s as).isSome = true) : ∃ u, run step s as = some u :=
  Option.isSome_iff_exists.mp h

end Machine
