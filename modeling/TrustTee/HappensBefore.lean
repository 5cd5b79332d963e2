import TrustTee.Machine

/-!
Happens-before in an interleaving of threads that synchronise through variables, which they
load with acquire and store to with release: the order, the rules by which what a thread or a
variable knows of the past grows from event to event, and the rule for a resource that is
handed from one to the next.
-/

set_option autoImplicit false

namespace HappensBefore

variable {P X : Type}

/-- An event: whose it is, what it loads with acquire and what it stores to with release. -/
structure Event (P X : Type) where
  thread : P
  acquires : Option X
  releases : Option X

/-- Program order, and an acquire that reads from the last release before it. -/
inductive Direct (es : List (Event P X)) (i j : Nat) : Prop where
  | program {e f : Event P X} : i < j → es[i]? = some e → es[j]? = some f →
      e.thread = f.thread → Direct es i j
  | reads {e f : Event P X} {x : X} : i < j → es[i]? = some e → es[j]? = some f →
      e.releases = some x → f.acquires = some x →
      (∀ k g, i < k → k < j → es[k]? = some g → g.releases ≠ some x) → Direct es i j

def Before (es : List (Event P X)) : Nat → Nat → Prop := Relation.TransGen (Direct es)

def Knows (es : List (Event P X)) (p : P) (i : Nat) : Prop :=
  ∃ k e, es[k]? = some e ∧ e.thread = p ∧ (i = k ∨ Before es i k)

def Carries (es : List (Event P X)) (x : X) (i : Nat) : Prop :=
  ∃ k e, es[k]? = some e ∧ e.releases = some x ∧ (i = k ∨ Before es i k) ∧
    ∀ k' g, k < k' → es[k']? = some g → g.releases ≠ some x

section Rules

variable {es : List (Event P X)} {e : Event P X} {p : P} {x : X} {i j : Nat}

theorem getElem?_append {k : Nat} {g : Event P X} (h : es[k]? = some g) :
    (es ++ [e])[k]? = some g := by
  obtain ⟨hlt, _⟩ := List.getElem?_eq_some_iff.mp h
  rw [List.getElem?_append_left hlt, h]

theorem getElem?_append_cases {k : Nat} {g : Event P X} (h : (es ++ [e])[k]? = some g) :
    es[k]? = some g ∨ k = es.length ∧ g = e := by
  by_cases hk : k < es.length
  · rw [List.getElem?_append_left hk] at h
    exact .inl h
  · obtain ⟨hlt, _⟩ := List.getElem?_eq_some_iff.mp h
    simp only [List.length_append, List.length_singleton] at hlt
    obtain rfl : k = es.length := by omega
    exact .inr ⟨rfl, by simpa using h.symm⟩

theorem getElem?_of_append {k : Nat} {g : Event P X} (hk : k < es.length)
    (h : (es ++ [e])[k]? = some g) : es[k]? = some g :=
  (getElem?_append_cases h).resolve_right (fun hl => by omega)

theorem getElem?_last : (es ++ [e])[es.length]? = some e := by
  simp

theorem Direct.append (h : Direct es i j) : Direct (es ++ [e]) i j := by
  cases h with
  | program hlt hi hj ht => exact .program hlt (getElem?_append hi) (getElem?_append hj) ht
  | reads hlt hi hj hr ha hbetween =>
    obtain ⟨hjlt, _⟩ := List.getElem?_eq_some_iff.mp hj
    refine .reads hlt (getElem?_append hi) (getElem?_append hj) hr ha (fun k g hk hkj hg => ?_)
    exact hbetween k g hk hkj (getElem?_of_append (Nat.lt_trans hkj hjlt) hg)

theorem Before.append (h : Before es i j) : Before (es ++ [e]) i j :=
  Relation.TransGen.mono (fun _ _ hd => Direct.append hd) _ _ h

theorem Knows.append (h : Knows es p i) : Knows (es ++ [e]) p i := by
  obtain ⟨k, g, hk, hp, hb⟩ := h
  exact ⟨k, g, getElem?_append hk, hp, hb.imp_right Before.append⟩

theorem Knows.self : Knows (es ++ [e]) e.thread es.length :=
  ⟨es.length, e, getElem?_last, rfl, .inl rfl⟩

theorem Carries.append (h : Carries es x i) (hx : e.releases ≠ some x) :
    Carries (es ++ [e]) x i := by
  obtain ⟨k, g, hk, hr, hb, hlast⟩ := h
  refine ⟨k, g, getElem?_append hk, hr, hb.imp_right Before.append, fun k' g' hk' hg' => ?_⟩
  rcases getElem?_append_cases hg' with hg' | ⟨_, rfl⟩
  · exact hlast k' g' hk' hg'
  · exact hx

theorem Knows.before (h : Knows es e.thread i) : Before (es ++ [e]) i es.length := by
  obtain ⟨k, g, hk, hp, hb⟩ := h
  obtain ⟨hlt, _⟩ := List.getElem?_eq_some_iff.mp hk
  have hd : Direct (es ++ [e]) k es.length :=
    .program hlt (getElem?_append hk) getElem?_last hp
  rcases hb with rfl | hb
  · exact .single hd
  · exact hb.append.tail hd

theorem Carries.before (h : Carries es x i) (ha : e.acquires = some x) :
    Before (es ++ [e]) i es.length := by
  obtain ⟨k, g, hk, hr, hb, hlast⟩ := h
  obtain ⟨hlt, _⟩ := List.getElem?_eq_some_iff.mp hk
  have hd : Direct (es ++ [e]) k es.length :=
    .reads hlt (getElem?_append hk) getElem?_last hr ha
      (fun k' g' hk' hlt' hg' => hlast k' g' hk' (getElem?_of_append hlt' hg'))
  rcases hb with rfl | hb
  · exact .single hd
  · exact hb.append.tail hd

theorem Before.knows (h : Before (es ++ [e]) i es.length) : Knows (es ++ [e]) e.thread i :=
  ⟨es.length, e, getElem?_last, rfl, .inr h⟩

/-- A release hands on all that its thread knows. -/
theorem Knows.release (h : Knows (es ++ [e]) e.thread i) (hr : e.releases = some x) :
    Carries (es ++ [e]) x i := by
  have hlast : ∀ k g, es.length < k → (es ++ [e])[k]? = some g → g.releases ≠ some x := by
    intro k g hk hg
    obtain ⟨hlt, _⟩ := List.getElem?_eq_some_iff.mp hg
    simp only [List.length_append, List.length_singleton] at hlt
    omega
  refine ⟨es.length, e, getElem?_last, hr, ?_, hlast⟩
  obtain ⟨k, g, hk, hp, hb⟩ := h
  rcases getElem?_append_cases hk with hk' | ⟨rfl, _⟩
  · right
    obtain ⟨hlt, _⟩ := List.getElem?_eq_some_iff.mp hk'
    have hd : Direct (es ++ [e]) k es.length := .program hlt hk getElem?_last hp
    rcases hb with rfl | hb
    · exact .single hd
    · exact hb.tail hd
  · exact hb

inductive Holder (P X : Type) where
  | thread (p : P) : Holder P X
  | variable (x : X) : Holder P X

def Holder.Has (es : List (Event P X)) : Holder P X → Nat → Prop
  | .thread p, i => Knows es p i
  | .variable x, i => Carries es x i

/-- How an event hands on a resource, which it may touch if its thread has it or gets it. -/
inductive Passes (e : Event P X) (touches : Prop) : Holder P X → Holder P X → Prop where
  | stay {p : P} : (touches → p = e.thread) → Passes e touches (.thread p) (.thread p)
  | rest {x : X} : e.releases ≠ some x → ¬ touches → Passes e touches (.variable x) (.variable x)
  | take {x : X} : e.acquires = some x → Passes e touches (.variable x) (.thread e.thread)
  | give {x : X} : e.releases = some x → Passes e touches (.thread e.thread) (.variable x)

theorem Passes.has {touches : Prop} {a b : Holder P X} (h : Passes e touches a b)
    (ha : a.Has es i) : b.Has (es ++ [e]) i := by
  cases h with
  | stay _ => exact Knows.append ha
  | rest hr _ => exact Carries.append ha hr
  | take hacq => exact (Carries.before ha hacq).knows
  | give hr => exact Knows.release (Knows.append ha) hr

theorem Passes.touched {touches : Prop} {a b : Holder P X} (h : Passes e touches a b)
    (ht : touches) : b.Has (es ++ [e]) es.length := by
  cases h with
  | stay hown =>
    rw [hown ht]
    exact Knows.self
  | rest _ hnot => exact absurd ht hnot
  | take _ => exact Knows.self
  | give hr => exact Knows.self.release hr

end Rules

section Machines

variable {P X S A : Type} {step : S → A → Option S} {event : S → A → Event P X}
  {touches : S → A → Prop} {Custody : S → Holder P X → Prop} {I : S → Prop} {s u : S}
  {l : List (S × A)}

def events (event : S → A → Event P X) (l : List (S × A)) : List (Event P X) :=
  l.map (fun x => event x.1 x.2)

theorem touched_known (base : I s) (keep : ∀ t a v, I t → step t a = some v → I v)
    (passes : ∀ t a v b, I t → step t a = some v → Custody v b →
      ∃ a', Custody t a' ∧ Passes (event t a) (touches t a) a' b)
    (h : Machine.Trace step s l u) : I u ∧ ∀ b, Custody u b → ∀ i x, l[i]? = some x →
      touches x.1 x.2 → b.Has (events event l) i := by
  induction h with
  | start => exact ⟨base, by simp⟩
  | @next l t u a h hs ih =>
    obtain ⟨hi, ih⟩ := ih
    refine ⟨keep t a u hi hs, fun b hb i x hx ht => ?_⟩
    obtain ⟨a', ha', hpass⟩ := passes t a u b hi hs hb
    have hevents : events event (l ++ [(t, a)]) = events event l ++ [event t a] := by
      simp [events]
    rw [hevents]
    by_cases hlt : i < l.length
    · rw [List.getElem?_append_left hlt] at hx
      exact hpass.has (ih a' ha' i x hx ht)
    · obtain ⟨hle, _⟩ := List.getElem?_eq_some_iff.mp hx
      simp only [List.length_append, List.length_singleton] at hle
      obtain rfl : i = l.length := by omega
      obtain rfl : (t, a) = x := by simpa using hx
      have hnew : b.Has (events event l ++ [event t a]) (events event l).length :=
        hpass.touched ht
      simpa [events] using hnew

/-- The rule for a resource that one thread after another has: when it goes from thread to
thread by releases and acquires only, and is touched only by a thread that has it or gets it,
all that touch it are ordered. -/
theorem touched_in_order (base : I s) (keep : ∀ t a v, I t → step t a = some v → I v)
    (passes : ∀ t a v b, I t → step t a = some v → Custody v b →
      ∃ a', Custody t a' ∧ Passes (event t a) (touches t a) a' b)
    (held : ∀ t a v, I t → step t a = some v → touches t a → ∃ b, Custody t b ∧
      (b = .thread (event t a).thread ∨ ∃ x, b = .variable x ∧ (event t a).acquires = some x))
    (h : Machine.Trace step s l u) {i j : Nat} {x y : S × A} (hij : i < j) (hi : l[i]? = some x)
    (hj : l[j]? = some y) (hx : touches x.1 x.2) (hy : touches y.1 y.2) :
    Before (events event l) i j := by
  induction h with
  | start => simp at hi
  | @next l t u a h hs ih =>
    have hevents : events event (l ++ [(t, a)]) = events event l ++ [event t a] := by
      simp [events]
    rw [hevents]
    obtain ⟨hle, _⟩ := List.getElem?_eq_some_iff.mp hj
    simp only [List.length_append, List.length_singleton] at hle
    rw [List.getElem?_append_left (by omega)] at hi
    by_cases hlt : j < l.length
    · rw [List.getElem?_append_left hlt] at hj
      exact (ih hi hj).append
    · obtain rfl : j = l.length := by omega
      obtain rfl : (t, a) = y := by simpa using hj
      obtain ⟨hI, hknown⟩ := touched_known base keep passes h
      have hlen : (events event l).length = l.length := by simp [events]
      rw [← hlen]
      obtain ⟨b, hb, rfl | ⟨z, rfl, ha⟩⟩ := held t a u hI hs hy
      · exact Knows.before (hknown _ hb i x hi hx)
      · exact Carries.before (hknown _ hb i x hi hx) ha

end Machines

end HappensBefore
