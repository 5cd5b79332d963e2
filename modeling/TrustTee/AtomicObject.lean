import Mathlib.Data.List.Basic
import Mathlib.Logic.Function.Basic
import Mathlib.Logic.Relation

/-!
An object whose value changes only in single indivisible applications, each between the
call and the return of the request it belongs to, and what the order of these
applications says about the history a set of clients observes.
-/

set_option autoImplicit false

namespace AtomicObject

variable {ι Q σ ρ υ : Type}

/-- A history entry: client `c` calls its `k`-th request, a function of the value is
applied on behalf of that request, or the request returns. -/
inductive Event (ι Q σ ρ υ : Type) where
  | call (c : ι) (k : Nat) (q : Q) : Event ι Q σ ρ υ
  | app (c : ι) (k : Nat) (f : σ → σ × ρ) : Event ι Q σ ρ υ
  | ret (c : ι) (k : Nat) (y : υ) : Event ι Q σ ρ υ

abbrev History (ι Q σ ρ υ : Type) := List (Event ι Q σ ρ υ)

/-- The sequential meaning of requests. A request applies `body` exactly `reps` times;
`inline` requests are not interleaved with each other's applications. `answers q last y`
says that `y` is a right answer when the last application had outcome `last`. -/
structure Spec (Q σ ρ υ : Type) where
  body : Q → σ → σ × ρ
  reps : Q → Nat
  inline : Q → Bool
  answers : Q → Option ρ → υ → Prop

def replay (v : σ) : History ι Q σ ρ υ → σ
  | [] => v
  | .app _ _ f :: h => replay (f v).1 h
  | _ :: h => replay v h

def apps [DecidableEq ι] (c : ι) (k : Nat) : History ι Q σ ρ υ → Nat
  | [] => 0
  | .app c' k' _ :: h => (if c' = c ∧ k' = k then 1 else 0) + apps c k h
  | _ :: h => apps c k h

def Event.tag : Event ι Q σ ρ υ → ι × Nat
  | .call c k _ | .app c k _ | .ret c k _ => (c, k)

theorem replay_append (v : σ) (g h : History ι Q σ ρ υ) :
    replay v (g ++ h) = replay (replay v g) h := by
  induction g generalizing v with
  | nil => rfl
  | cons e g ih => cases e <;> simp [replay, ih]

theorem apps_append [DecidableEq ι] (c : ι) (k : Nat) (g h : History ι Q σ ρ υ) :
    apps c k (g ++ h) = apps c k g + apps c k h := by
  induction g with
  | nil => simp [apps]
  | cons e g ih => cases e <;> simp [apps, ih, Nat.add_assoc]

theorem apps_pos [DecidableEq ι] {c : ι} {k : Nat} {h : History ι Q σ ρ υ}
    (hp : 0 < apps c k h) : ∃ f, Event.app c k f ∈ h := by
  induction h with
  | nil => simp [apps] at hp
  | cons e h ih =>
    cases e with
    | app c' k' f =>
      by_cases ht : c' = c ∧ k' = k
      · obtain ⟨rfl, rfl⟩ := ht
        exact ⟨f, by simp⟩
      · obtain ⟨g, hg⟩ := ih (by simpa [apps, ht] using hp)
        exact ⟨g, by simp [hg]⟩
    | call c' k' q =>
      obtain ⟨g, hg⟩ := ih hp
      exact ⟨g, by simp [hg]⟩
    | ret c' k' y =>
      obtain ⟨g, hg⟩ := ih hp
      exact ⟨g, by simp [hg]⟩

theorem apps_eq_zero [DecidableEq ι] {c : ι} {k : Nat} {h : History ι Q σ ρ υ}
    (hn : ∀ f, Event.app c k f ∉ h) : apps c k h = 0 := by
  by_contra hp
  obtain ⟨f, hf⟩ := apps_pos (Nat.pos_of_ne_zero hp)
  exact hn f hf

def At (h : History ι Q σ ρ υ) (i : Nat) (e : Event ι Q σ ρ υ) : Prop := h[i]? = some e

theorem at_concat {h : History ι Q σ ρ υ} {e x : Event ι Q σ ρ υ} {i : Nat} :
    At (h ++ [e]) i x ↔ At h i x ∨ (i = h.length ∧ x = e) := by
  unfold At
  rcases Nat.lt_trichotomy i h.length with hi | rfl | hi
  · simp [List.getElem?_append_left hi, Nat.ne_of_lt hi]
  · simp [eq_comm]
  · rw [List.getElem?_append_right (Nat.le_of_lt hi)]
    have h1 : h[i]? = none := List.getElem?_eq_none (Nat.le_of_lt hi)
    have h2 : i - h.length ≠ 0 := by omega
    simp [h1, h2, Nat.ne_of_gt hi]

theorem At.lt {h : History ι Q σ ρ υ} {e : Event ι Q σ ρ υ} {i : Nat} (hi : At h i e) :
    i < h.length := (List.getElem?_eq_some_iff.mp hi).1

theorem At.mem {h : History ι Q σ ρ υ} {e : Event ι Q σ ρ υ} {i : Nat} (hi : At h i e) :
    e ∈ h := List.mem_of_getElem? hi

theorem exists_at {h : History ι Q σ ρ υ} {e : Event ι Q σ ρ υ} (he : e ∈ h) :
    ∃ i, At h i e := List.mem_iff_getElem?.mp he

theorem At.concat {h : History ι Q σ ρ υ} {e x : Event ι Q σ ρ υ} {i : Nat}
    (hi : At h i x) : At (h ++ [e]) i x := at_concat.mpr (.inl hi)

theorem At.of_concat {h : History ι Q σ ρ υ} {e x : Event ι Q σ ρ υ} {i : Nat}
    (hi : At (h ++ [e]) i x) (hx : x ≠ e) : At h i x := by
  rcases at_concat.mp hi with hi | ⟨_, he⟩
  · exact hi
  · exact absurd he hx

theorem At.earlier {h : History ι Q σ ρ υ} {e x y : Event ι Q σ ρ υ} {i j : Nat}
    (hi : At (h ++ [e]) i x) (hj : At (h ++ [e]) j y) (hij : i < j) : At h i x := by
  have hlast : j ≤ h.length := by
    rcases at_concat.mp hj with hj | ⟨hj, _⟩
    · exact Nat.le_of_lt hj.lt
    · exact Nat.le_of_eq hj
  rcases at_concat.mp hi with hi | ⟨hi, _⟩
  · exact hi
  · omega

theorem take_concat {h : History ι Q σ ρ υ} {e : Event ι Q σ ρ υ} {i : Nat}
    (hi : i ≤ h.length) : (h ++ [e]).take i = h.take i :=
  List.take_append_of_le_length hi

theorem apps_unique [DecidableEq ι] {c : ι} {k : Nat} {h : History ι Q σ ρ υ}
    (hone : apps c k h = 1) {i j : Nat} {f g : σ → σ × ρ} (hi : At h i (.app c k f))
    (hj : At h j (.app c k g)) : i = j := by
  have before : ∀ {i j : Nat} {f g : σ → σ × ρ}, At h i (.app c k f) →
      At h j (.app c k g) → ¬ i < j := by
    intro i j f g hi hj hlt
    obtain ⟨hil, hie⟩ := List.getElem?_eq_some_iff.mp hi
    have hj' : At (h.drop (i + 1)) (j - (i + 1)) (.app c k g) := by
      unfold At
      rw [List.getElem?_drop, show i + 1 + (j - (i + 1)) = j by omega]
      exact hj
    have hsplit : h = h.take i ++ .app c k f :: h.drop (i + 1) := by
      rw [← hie, ← List.drop_eq_getElem_cons hil, List.take_append_drop]
    have hsum := congrArg (apps c k) hsplit
    rw [apps_append, hone] at hsum
    have hrest : 0 < apps c k (h.drop (i + 1)) := by
      by_contra hz
      have hdrop : h.drop (i + 1) = (h.drop (i + 1)).take (j - (i + 1)) ++
          .app c k g :: (h.drop (i + 1)).drop (j - (i + 1) + 1) := by
        obtain ⟨hjl, hje⟩ := List.getElem?_eq_some_iff.mp hj'
        rw [← hje, ← List.drop_eq_getElem_cons hjl, List.take_append_drop]
      have := congrArg (apps c k) hdrop
      rw [apps_append] at this
      simp only [apps, and_self, ↓reduceIte] at this
      omega
    simp only [apps, and_self, ↓reduceIte] at hsum
    omega
  have h₁ := before hi hj
  have h₂ := before hj hi
  omega

/-- `last` is the outcome of the latest application made for request `k` of `c`, computed
by replaying everything before it. -/
def LastOutcome (v : σ) (h : History ι Q σ ρ υ) (c : ι) (k : Nat) : Option ρ → Prop
  | none => ∀ f, Event.app c k f ∉ h
  | some r => ∃ i f, At h i (.app c k f) ∧ r = (f (replay v (h.take i))).2 ∧
      ∀ j g, At h j (.app c k g) → j ≤ i

theorem LastOutcome.concat {v : σ} {h : History ι Q σ ρ υ} {c : ι} {k : Nat}
    {last : Option ρ} {e : Event ι Q σ ρ υ} (hl : LastOutcome v h c k last)
    (he : ∀ f, e ≠ .app c k f) : LastOutcome v (h ++ [e]) c k last := by
  cases last with
  | none =>
    intro f hf
    rcases List.mem_append.mp hf with hf | hf
    · exact hl f hf
    · exact he f (List.mem_singleton.mp hf).symm
  | some r =>
    obtain ⟨i, f, hi, hr, hmax⟩ := hl
    refine ⟨i, f, hi.concat, ?_, ?_⟩
    · rw [take_concat (Nat.le_of_lt hi.lt)]
      exact hr
    · intro j g hj
      rcases at_concat.mp hj with hj | ⟨_, hj⟩
      · exact hmax j g hj
      · exact absurd hj.symm (he g)

theorem LastOutcome.app {v : σ} {h : History ι Q σ ρ υ} {c : ι} {k : Nat}
    {f : σ → σ × ρ} : LastOutcome v (h ++ [.app c k f]) c k (some (f (replay v h)).2) := by
  refine ⟨h.length, f, at_concat.mpr (.inr ⟨rfl, rfl⟩), by simp, ?_⟩
  intro j g hj
  rcases at_concat.mp hj with hj | ⟨rfl, _⟩
  · exact Nat.le_of_lt hj.lt
  · exact Nat.le_refl _

/-- What a history of requests on an object that started as `v` and now holds `value`
must satisfy to be explained by the order of its applications. -/
structure Linearizable [DecidableEq ι] (spec : Spec Q σ ρ υ) (v : σ)
    (h : History ι Q σ ρ υ) (value : σ) : Prop where
  fold : value = replay v h
  call_unique : ∀ i j c k q q', At h i (.call c k q) → At h j (.call c k q') → i = j ∧ q = q'
  after_call : ∀ i c k f, At h i (.app c k f) →
    ∃ j q, j < i ∧ At h j (.call c k q) ∧ f = spec.body q
  at_most : ∀ i c k q, At h i (.call c k q) → apps c k h ≤ spec.reps q
  complete : ∀ i c k y, At h i (.ret c k y) →
    ∃ j q, j < i ∧ At h j (.call c k q) ∧ apps c k h = spec.reps q
  before_ret : ∀ i j c k f y, At h i (.app c k f) → At h j (.ret c k y) → i < j
  program_order : ∀ i j c k k' f f', At h i (.app c k f) → At h j (.app c k' f') →
    k < k' → i < j
  real_time : ∀ i j a b c k y c' k' q' f f', At h i (.ret c k y) →
    At h j (.call c' k' q') → i < j → At h a (.app c k f) → At h b (.app c' k' f') → a < b
  contiguous : ∀ i j m c k f f' c' k' g q q', At h i (.app c k f) → At h j (.app c' k' g) →
    At h m (.app c k f') → i < j → j < m → Event.call c k q ∈ h → Event.call c' k' q' ∈ h →
    spec.inline q → spec.inline q' → c' = c ∧ k' = k
  answered : ∀ i c k y, At h i (.ret c k y) →
    ∃ q last, Event.call c k q ∈ h ∧ LastOutcome v h c k last ∧ spec.answers q last y

/-- Two specifications that agree on the requests of a history explain it alike. -/
theorem Linearizable.congr [DecidableEq ι] {spec spec' : Spec Q σ ρ υ} {v value : σ}
    {h : History ι Q σ ρ υ} (hl : Linearizable spec v h value)
    (body : ∀ c k q, Event.call c k q ∈ h → spec.body q = spec'.body q)
    (reps : ∀ c k q, Event.call c k q ∈ h → spec.reps q = spec'.reps q)
    (inline : ∀ c k q, Event.call c k q ∈ h → spec'.inline q → spec.inline q)
    (answers : ∀ c k q last y, Event.call c k q ∈ h → spec.answers q last y →
      spec'.answers q last y) : Linearizable spec' v h value where
  fold := hl.fold
  call_unique := hl.call_unique
  after_call := by
    intro i c k f hi
    obtain ⟨j, q, hj, hq, hf⟩ := hl.after_call i c k f hi
    exact ⟨j, q, hj, hq, hf.trans (body c k q hq.mem)⟩
  at_most := by
    intro i c k q hi
    rw [← reps c k q hi.mem]
    exact hl.at_most i c k q hi
  complete := by
    intro i c k y hi
    obtain ⟨j, q, hj, hq, hr⟩ := hl.complete i c k y hi
    exact ⟨j, q, hj, hq, hr.trans (reps c k q hq.mem)⟩
  before_ret := hl.before_ret
  program_order := hl.program_order
  real_time := hl.real_time
  contiguous := by
    intro i j m c k f f' c' k' g q q' h₁ h₂ h₃ hij hjm hq hq' hin hin'
    exact hl.contiguous i j m c k f f' c' k' g q q' h₁ h₂ h₃ hij hjm hq hq'
      (inline c k q hq hin) (inline c' k' q' hq' hin')
  answered := by
    intro i c k y hi
    obtain ⟨q, last, hq, hlast, ha⟩ := hl.answered i c k y hi
    exact ⟨q, last, hq, hlast, answers c k q last y hq ha⟩

/-- What one client is doing: nothing, or a request of which `done` applications have
been made, the latest with outcome `last`. -/
inductive Phase (Q ρ : Type) where
  | idle : Phase Q ρ
  | active (q : Q) (done : Nat) (last : Option ρ) : Phase Q ρ

structure Obj (ι Q σ ρ υ : Type) where
  value : σ
  seq : ι → Nat
  phase : ι → Phase Q ρ
  hist : History ι Q σ ρ υ

def Obj.init (v : σ) : Obj ι Q σ ρ υ := ⟨v, fun _ => 0, fun _ => .idle, []⟩

def Obj.MidBatch (spec : Spec Q σ ρ υ) (o : Obj ι Q σ ρ υ) (c : ι) : Prop :=
  ∃ q i last, o.phase c = .active q i last ∧ spec.inline q ∧ 0 < i ∧ i < spec.reps q

section

variable [DecidableEq ι]

def Obj.call (o : Obj ι Q σ ρ υ) (c : ι) (q : Q) : Obj ι Q σ ρ υ :=
  { o with phase := Function.update o.phase c (.active q 0 none),
           hist := o.hist ++ [.call c (o.seq c) q] }

def Obj.app (spec : Spec Q σ ρ υ) (o : Obj ι Q σ ρ υ) (c : ι) (q : Q) (i : Nat) :
    Obj ι Q σ ρ υ :=
  { o with value := (spec.body q o.value).1,
           phase := Function.update o.phase c
             (.active q (i + 1) (some (spec.body q o.value).2)),
           hist := o.hist ++ [.app c (o.seq c) (spec.body q)] }

def Obj.ret (o : Obj ι Q σ ρ υ) (c : ι) (y : υ) : Obj ι Q σ ρ υ :=
  { o with seq := Function.update o.seq c (o.seq c + 1),
           phase := Function.update o.phase c .idle,
           hist := o.hist ++ [.ret c (o.seq c) y] }

inductive Step (spec : Spec Q σ ρ υ) : Obj ι Q σ ρ υ → Obj ι Q σ ρ υ → Prop where
  | call {o : Obj ι Q σ ρ υ} {c : ι} {q : Q} : o.phase c = .idle → Step spec o (o.call c q)
  | app {o : Obj ι Q σ ρ υ} {c : ι} {q : Q} {i : Nat} {last : Option ρ} :
      o.phase c = .active q i last → i < spec.reps q →
      (spec.inline q → ∀ c', c' ≠ c → ¬ o.MidBatch spec c') →
      Step spec o (o.app spec c q i)
  | ret {o : Obj ι Q σ ρ υ} {c : ι} {q : Q} {last : Option ρ} {y : υ} :
      o.phase c = .active q (spec.reps q) last → spec.answers q last y →
      Step spec o (o.ret c y)

structure Inv (spec : Spec Q σ ρ υ) (v : σ) (o : Obj ι Q σ ρ υ) : Prop where
  fold : o.value = replay v o.hist
  tags : ∀ e ∈ o.hist, e.tag.2 < o.seq e.tag.1 ∨
    (e.tag.2 = o.seq e.tag.1 ∧ o.phase e.tag.1 ≠ .idle)
  past : ∀ c k, k < o.seq c → ∃ y, Event.ret c k y ∈ o.hist
  current : ∀ c q i last, o.phase c = .active q i last →
    Event.call c (o.seq c) q ∈ o.hist ∧ apps c (o.seq c) o.hist = i ∧ i ≤ spec.reps q ∧
    (∀ y, Event.ret c (o.seq c) y ∉ o.hist) ∧ LastOutcome v o.hist c (o.seq c) last
  call_unique : ∀ i j c k q q', At o.hist i (.call c k q) → At o.hist j (.call c k q') →
    i = j ∧ q = q'
  after_call : ∀ i c k f, At o.hist i (.app c k f) →
    ∃ j q, j < i ∧ At o.hist j (.call c k q) ∧ f = spec.body q
  complete : ∀ i c k y, At o.hist i (.ret c k y) →
    ∃ j q, j < i ∧ At o.hist j (.call c k q) ∧ apps c k o.hist = spec.reps q
  before_ret : ∀ i j c k f y, At o.hist i (.app c k f) → At o.hist j (.ret c k y) → i < j
  program_order : ∀ i j c k k' f f', At o.hist i (.app c k f) →
    At o.hist j (.app c k' f') → k < k' → i < j
  contiguous : ∀ i j m c k f f' c' k' g q q', At o.hist i (.app c k f) →
    At o.hist j (.app c' k' g) → At o.hist m (.app c k f') → i < j → j < m →
    Event.call c k q ∈ o.hist → Event.call c' k' q' ∈ o.hist →
    spec.inline q → spec.inline q' → c' = c ∧ k' = k
  batch : ∀ c i j f c' k' g q', o.MidBatch spec c → At o.hist i (.app c (o.seq c) f) →
    i < j → At o.hist j (.app c' k' g) → Event.call c' k' q' ∈ o.hist → spec.inline q' →
    c' = c ∧ k' = o.seq c
  answered : ∀ i c k y, At o.hist i (.ret c k y) →
    ∃ q last, Event.call c k q ∈ o.hist ∧ LastOutcome v o.hist c k last ∧
      spec.answers q last y

section Steps

variable {spec : Spec Q σ ρ υ} {v : σ} {o : Obj ι Q σ ρ υ} {c : ι} {q : Q}

theorem Inv.init : Inv spec v (Obj.init v : Obj ι Q σ ρ υ) := by
  constructor <;> simp [Obj.init, replay, At]

theorem Inv.fresh (hi : Inv spec v o) (hc : o.phase c = .idle) {e : Event ι Q σ ρ υ}
    (he : e ∈ o.hist) : e.tag ≠ (c, o.seq c) := by
  intro ht
  have h := hi.tags e he
  simp [ht, hc] at h

theorem Inv.later (hi : Inv spec v o) {e : Event ι Q σ ρ υ} (he : e ∈ o.hist) :
    e.tag.2 ≤ o.seq e.tag.1 := by
  rcases hi.tags e he with h | h <;> omega

theorem Inv.mem_call_unique (hi : Inv spec v o) {k : Nat} {q' : Q}
    (h : Event.call c k q ∈ o.hist) (h' : Event.call c k q' ∈ o.hist) : q = q' := by
  obtain ⟨i, hi'⟩ := exists_at h
  obtain ⟨j, hj⟩ := exists_at h'
  exact (hi.call_unique i j c k q q' hi' hj).2

theorem Inv.call (hi : Inv spec v o) (hc : o.phase c = .idle) : Inv spec v (o.call c q) := by
  have hnew : ∀ e ∈ o.hist, e.tag ≠ (c, o.seq c) := fun e he => hi.fresh hc he
  have happ : ∀ i c' k f, At (o.hist ++ [.call c (o.seq c) q]) i (.app c' k f) →
      At o.hist i (.app c' k f) := by
    intro i c' k f h
    exact h.of_concat (by simp)
  have hret : ∀ i c' k y, At (o.hist ++ [.call c (o.seq c) q]) i (.ret c' k y) →
      At o.hist i (.ret c' k y) := by
    intro i c' k y h
    exact h.of_concat (by simp)
  -- a call that has an application or a return is not the new one
  have hcall : ∀ c' k q', Event.call c' k q' ∈ o.hist ++ [Event.call c (o.seq c) q] →
      (c', k) ≠ (c, o.seq c) → Event.call c' k q' ∈ o.hist := by
    intro c' k q' h hne
    rcases List.mem_append.mp h with h | h
    · exact h
    · simp only [List.mem_singleton, Event.call.injEq] at h
      exact absurd (by simp [h]) hne
  have hcnt : ∀ c' k, apps c' k (o.hist ++ [.call c (o.seq c) q]) = apps c' k o.hist := by
    intro c' k
    simp [apps_append, apps]
  constructor
  · simp only [Obj.call, replay_append, replay]
    exact hi.fold
  · intro e he
    simp only [Obj.call] at he ⊢
    rcases List.mem_append.mp he with he | he
    · rcases hi.tags e he with h | ⟨h, hp⟩
      · exact .inl h
      · by_cases hec : e.tag.1 = c
        · exact absurd hc (hec ▸ hp)
        · exact .inr ⟨h, by simpa [hec] using hp⟩
    · obtain rfl := List.mem_singleton.mp he
      exact .inr ⟨rfl, by simp [Event.tag]⟩
  · intro c' k hk
    obtain ⟨y, hy⟩ := hi.past c' k hk
    exact ⟨y, by simp [Obj.call, hy]⟩
  · intro c' q' i last hp
    simp only [Obj.call] at hp ⊢
    by_cases hcc : c' = c
    · subst hcc
      simp only [Function.update_self, Phase.active.injEq] at hp
      obtain ⟨rfl, rfl, rfl⟩ := hp
      have hz : apps c' (o.seq c') o.hist = 0 :=
        apps_eq_zero (fun f hf => hnew _ hf rfl)
      refine ⟨by simp, by rw [hcnt, hz], Nat.zero_le _, ?_, ?_⟩
      · intro y hy
        have hy : Event.ret c' (o.seq c') y ∈ o.hist := by simpa using hy
        exact hnew _ hy rfl
      · intro f hf
        have hf : Event.app c' (o.seq c') f ∈ o.hist := by simpa using hf
        exact hnew _ hf rfl
    · simp only [Function.update_of_ne hcc] at hp
      obtain ⟨h1, h2, h3, h4, h5⟩ := hi.current c' q' i last hp
      refine ⟨by simp [h1], by rw [hcnt, h2], h3, ?_, h5.concat (by simp)⟩
      intro y hy
      exact h4 y (by simpa using hy)
  · intro i j c' k q₁ q₂ h₁ h₂
    rcases at_concat.mp h₁ with h₁ | ⟨e₁, h₁⟩ <;> rcases at_concat.mp h₂ with h₂ | ⟨e₂, h₂⟩
    · exact hi.call_unique i j c' k q₁ q₂ h₁ h₂
    · simp only [Event.call.injEq] at h₂
      exact absurd (by simp [Event.tag, h₂]) (hnew _ h₁.mem)
    · simp only [Event.call.injEq] at h₁
      exact absurd (by simp [Event.tag, h₁]) (hnew _ h₂.mem)
    · simp only [Event.call.injEq] at h₁ h₂
      exact ⟨by rw [e₁, e₂], by rw [h₁.2.2, h₂.2.2]⟩
  · intro i c' k f h
    obtain ⟨j, q', hj, hq, hf⟩ := hi.after_call i c' k f (happ _ _ _ _ h)
    exact ⟨j, q', hj, hq.concat, hf⟩
  · intro i c' k y h
    obtain ⟨j, q', hj, hq, hr⟩ := hi.complete i c' k y (hret _ _ _ _ h)
    exact ⟨j, q', hj, hq.concat, by simp only [Obj.call, hcnt, hr]⟩
  · intro i j c' k f y h₁ h₂
    exact hi.before_ret i j c' k f y (happ _ _ _ _ h₁) (hret _ _ _ _ h₂)
  · intro i j c' k k' f f' h₁ h₂
    exact hi.program_order i j c' k k' f f' (happ _ _ _ _ h₁) (happ _ _ _ _ h₂)
  · intro i j m c₁ k f f' c₂ k' g q₁ q₂ h₁ h₂ h₃ hij hjm hq₁ hq₂
    have h₁ := happ _ _ _ _ h₁
    have h₂ := happ _ _ _ _ h₂
    exact hi.contiguous i j m c₁ k f f' c₂ k' g q₁ q₂ h₁ h₂ (happ _ _ _ _ h₃) hij hjm
      (hcall _ _ _ hq₁ (hnew _ h₁.mem)) (hcall _ _ _ hq₂ (hnew _ h₂.mem))
  · intro c₁ i j f c₂ k' g q₂ hm h₁ hij h₂ hq₂ hin
    have h₁ := happ _ _ _ _ h₁
    have h₂ := happ _ _ _ _ h₂
    have hne : c₁ ≠ c := by
      rintro rfl
      exact hnew _ h₁.mem rfl
    have hm : o.MidBatch spec c₁ := by
      simpa [Obj.MidBatch, Obj.call, Function.update_of_ne hne] using hm
    exact hi.batch c₁ i j f c₂ k' g q₂ hm h₁ hij h₂ (hcall _ _ _ hq₂ (hnew _ h₂.mem)) hin
  · intro i c' k y h
    obtain ⟨q', last, hq, hl, ha⟩ := hi.answered i c' k y (hret _ _ _ _ h)
    exact ⟨q', last, by simp [Obj.call, hq], hl.concat (by simp), ha⟩

theorem Inv.app {i : Nat} {last : Option ρ} (hi : Inv spec v o)
    (hc : o.phase c = .active q i last) (hlt : i < spec.reps q)
    (hex : spec.inline q → ∀ c', c' ≠ c → ¬ o.MidBatch spec c') :
    Inv spec v (o.app spec c q i) := by
  obtain ⟨hq, hcnt, _, hnoret, _⟩ := hi.current c q i last hc
  have hcall : ∀ j c' k q', At (o.hist ++ [.app c (o.seq c) (spec.body q)]) j (.call c' k q') →
      At o.hist j (.call c' k q') := by
    intro j c' k q' h
    exact h.of_concat (by simp)
  have hmem : ∀ c' k q', Event.call c' k q' ∈ o.hist ++ [.app c (o.seq c) (spec.body q)] →
      Event.call c' k q' ∈ o.hist := by
    intro c' k q' h
    simpa using h
  have hret : ∀ j c' k y, At (o.hist ++ [.app c (o.seq c) (spec.body q)]) j (.ret c' k y) →
      At o.hist j (.ret c' k y) := by
    intro j c' k y h
    exact h.of_concat (by simp)
  have happs : ∀ c' k, (c', k) ≠ (c, o.seq c) →
      apps c' k (o.hist ++ [.app c (o.seq c) (spec.body q)]) = apps c' k o.hist := by
    intro c' k hne
    have : ¬ (c = c' ∧ o.seq c = k) := by
      rintro ⟨rfl, rfl⟩
      exact hne rfl
    simp [apps_append, apps, this]
  have hseen : ∀ j f, At o.hist j (.app c (o.seq c) f) → 0 < i := by
    intro j f h
    by_contra h0
    have hz : apps c (o.seq c) o.hist = 0 := by omega
    have := apps_append c (o.seq c) (o.hist.take j) (o.hist.drop j)
    rw [List.take_append_drop, hz] at this
    have hd : o.hist.drop j = .app c (o.seq c) f :: o.hist.drop (j + 1) := by
      obtain ⟨hl, he⟩ := List.getElem?_eq_some_iff.mp h
      rw [List.drop_eq_getElem_cons hl, he]
    rw [hd] at this
    simp [apps] at this
    omega
  constructor <;> try simp only [Obj.app]
  · simp only [replay_append, replay]
    rw [hi.fold]
  · intro e he
    rcases List.mem_append.mp he with he | he
    · rcases hi.tags e he with h | ⟨h, hp⟩
      · exact .inl h
      · refine .inr ⟨h, ?_⟩
        by_cases hec : e.tag.1 = c
        · simp [hec]
        · simpa [hec] using hp
    · obtain rfl := List.mem_singleton.mp he
      exact .inr ⟨rfl, by simp [Event.tag]⟩
  · intro c' k hk
    obtain ⟨y, hy⟩ := hi.past c' k hk
    exact ⟨y, by simp [hy]⟩
  · intro c' q' j last' hp
    by_cases hcc : c' = c
    · subst hcc
      simp only [Function.update_self, Phase.active.injEq] at hp
      obtain ⟨rfl, rfl, rfl⟩ := hp
      refine ⟨by simp [hq], by simp [apps_append, apps, hcnt], hlt, ?_, ?_⟩
      · intro y hy
        exact hnoret y (by simpa using hy)
      · rw [hi.fold]
        exact LastOutcome.app
    · simp only [Function.update_of_ne hcc] at hp
      obtain ⟨h1, h2, h3, h4, h5⟩ := hi.current c' q' j last' hp
      refine ⟨by simp [h1], ?_, h3, ?_, h5.concat ?_⟩
      · rw [happs _ _ (by simp [hcc]), h2]
      · intro y hy
        exact h4 y (by simpa using hy)
      · intro f hf
        simp only [Event.app.injEq] at hf
        exact hcc hf.1.symm
  · intro j m c' k q₁ q₂ h₁ h₂
    exact hi.call_unique j m c' k q₁ q₂ (hcall _ _ _ _ h₁) (hcall _ _ _ _ h₂)
  · intro j c' k f h
    rcases at_concat.mp h with h | ⟨rfl, he⟩
    · obtain ⟨m, q', hm, hq', hf⟩ := hi.after_call j c' k f h
      exact ⟨m, q', hm, hq'.concat, hf⟩
    · simp only [Event.app.injEq] at he
      obtain ⟨rfl, rfl, rfl⟩ := he
      obtain ⟨m, hm⟩ := exists_at hq
      exact ⟨m, q, hm.lt, hm.concat, rfl⟩
  · intro j c' k y h
    replace h := hret _ _ _ _ h
    obtain ⟨m, q', hm, hq', hr⟩ := hi.complete j c' k y h
    have hne : (c', k) ≠ (c, o.seq c) := by
      intro he
      simp only [Prod.mk.injEq] at he
      obtain ⟨rfl, rfl⟩ := he
      exact hnoret y h.mem
    exact ⟨m, q', hm, hq'.concat, by rw [happs _ _ hne, hr]⟩
  · intro j m c' k f y h₁ h₂
    replace h₂ := hret _ _ _ _ h₂
    rcases at_concat.mp h₁ with h₁ | ⟨rfl, he⟩
    · exact hi.before_ret j m c' k f y h₁ h₂
    · simp only [Event.app.injEq] at he
      obtain ⟨rfl, rfl, _⟩ := he
      exact absurd h₂.mem (hnoret y)
  · intro j m c' k k' f f' h₁ h₂ hk
    rcases at_concat.mp h₁ with hl₁ | ⟨rfl, he₁⟩ <;>
      rcases at_concat.mp h₂ with hl₂ | ⟨rfl, he₂⟩
    · exact hi.program_order j m c' k k' f f' hl₁ hl₂ hk
    · exact hl₁.lt
    · simp only [Event.app.injEq] at he₁
      obtain ⟨rfl, rfl, _⟩ := he₁
      have := hi.later hl₂.mem
      simp only [Event.tag] at this
      omega
    · simp only [Event.app.injEq] at he₁ he₂
      omega
  · intro a b m c₁ k f f' c₂ k' g q₁ q₂ h₁ h₂ h₃ hab hbm hq₁ hq₂ hin₁ hin₂
    replace h₁ := h₁.earlier h₂ hab
    replace h₂ := h₂.earlier h₃ hbm
    replace hq₁ := hmem _ _ _ hq₁
    replace hq₂ := hmem _ _ _ hq₂
    rcases at_concat.mp h₃ with h₃ | ⟨_, h₃⟩
    · exact hi.contiguous a b m c₁ k f f' c₂ k' g q₁ q₂ h₁ h₂ h₃ hab hbm hq₁ hq₂ hin₁ hin₂
    · simp only [Event.app.injEq] at h₃
      obtain ⟨rfl, rfl, _⟩ := h₃
      obtain rfl := hi.mem_call_unique hq₁ hq
      exact hi.batch c₁ a b f c₂ k' g q₂ ⟨q₁, i, last, hc, hin₁, hseen a f h₁, hlt⟩ h₁ hab h₂
        hq₂ hin₂
  · intro c₁ a b f c₂ k' g q₂ hmid h₁ hab h₂ hq₂ hin
    replace hq₂ := hmem _ _ _ hq₂
    replace h₁ := h₁.earlier h₂ hab
    by_cases hcc : c₁ = c
    · subst hcc
      rcases at_concat.mp h₂ with h₂ | ⟨_, h₂⟩
      · obtain ⟨q', _, _, hph, hinq, _, _⟩ := hmid
        simp only [Function.update_self, Phase.active.injEq] at hph
        obtain ⟨rfl, _, _⟩ := hph
        exact hi.batch c₁ a b f c₂ k' g q₂ ⟨q, i, last, hc, hinq, hseen a f h₁, hlt⟩ h₁ hab
          h₂ hq₂ hin
      · simp only [Event.app.injEq] at h₂
        exact ⟨h₂.1, h₂.2.1⟩
    · replace hmid : o.MidBatch spec c₁ := by
        simpa [Obj.MidBatch, Function.update_of_ne hcc] using hmid
      rcases at_concat.mp h₂ with h₂ | ⟨_, h₂⟩
      · exact hi.batch c₁ a b f c₂ k' g q₂ hmid h₁ hab h₂ hq₂ hin
      · simp only [Event.app.injEq] at h₂
        obtain ⟨rfl, rfl, _⟩ := h₂
        obtain rfl := hi.mem_call_unique hq₂ hq
        exact absurd hmid (hex hin c₁ hcc)
  · intro j c' k y h
    replace h := hret _ _ _ _ h
    obtain ⟨q', last', hq', hl, ha⟩ := hi.answered j c' k y h
    refine ⟨q', last', by simp [hq'], hl.concat ?_, ha⟩
    intro f hf
    simp only [Event.app.injEq] at hf
    obtain ⟨rfl, rfl, _⟩ := hf
    exact hnoret y h.mem

theorem Inv.ret {last : Option ρ} {y : υ} (hi : Inv spec v o)
    (hc : o.phase c = .active q (spec.reps q) last) (ha : spec.answers q last y) :
    Inv spec v (o.ret c y) := by
  obtain ⟨hq, hcnt, _, _, hlast⟩ := hi.current c q _ last hc
  have hcall : ∀ j c' k q', At (o.hist ++ [.ret c (o.seq c) y]) j (.call c' k q') →
      At o.hist j (.call c' k q') := by
    intro j c' k q' h
    exact h.of_concat (by simp)
  have hmem : ∀ c' k q', Event.call c' k q' ∈ o.hist ++ [.ret c (o.seq c) y] →
      Event.call c' k q' ∈ o.hist := by
    intro c' k q' h
    simpa using h
  have happ : ∀ j c' k f, At (o.hist ++ [.ret c (o.seq c) y]) j (.app c' k f) →
      At o.hist j (.app c' k f) := by
    intro j c' k f h
    exact h.of_concat (by simp)
  have happs : ∀ c' k, apps c' k (o.hist ++ [.ret c (o.seq c) y]) = apps c' k o.hist := by
    intro c' k
    simp [apps_append, apps]
  constructor
  · simp only [Obj.ret, replay_append, replay]
    exact hi.fold
  · intro e he
    simp only [Obj.ret] at he ⊢
    rcases List.mem_append.mp he with he | he
    · by_cases hec : e.tag.1 = c
      · have := hi.later he
        rw [hec] at this ⊢
        exact .inl (by simp; omega)
      · rcases hi.tags e he with h | ⟨h, hp⟩
        · exact .inl (by simpa [hec] using h)
        · exact .inr (by simpa [hec] using ⟨h, hp⟩)
    · obtain rfl := List.mem_singleton.mp he
      exact .inl (by simp [Event.tag])
  · intro c' k hk
    simp only [Obj.ret] at hk ⊢
    by_cases hcc : c' = c
    · subst hcc
      simp only [Function.update_self] at hk
      rcases Nat.lt_succ_iff_lt_or_eq.mp hk with hk | rfl
      · obtain ⟨y', hy⟩ := hi.past c' k hk
        exact ⟨y', by simp [hy]⟩
      · exact ⟨y, by simp⟩
    · simp only [Function.update_of_ne hcc] at hk
      obtain ⟨y', hy⟩ := hi.past c' k hk
      exact ⟨y', by simp [hy]⟩
  · intro c' q' j last' hp
    simp only [Obj.ret] at hp ⊢
    by_cases hcc : c' = c
    · subst hcc
      simp at hp
    · simp only [Function.update_of_ne hcc] at hp ⊢
      obtain ⟨h1, h2, h3, h4, h5⟩ := hi.current c' q' j last' hp
      refine ⟨by simp [h1], by rw [happs, h2], h3, ?_, h5.concat (by simp)⟩
      intro y' hy
      simp only [List.mem_append, List.mem_singleton, Event.ret.injEq] at hy
      rcases hy with hy | hy
      · exact h4 y' hy
      · exact hcc hy.1
  · intro j m c' k q₁ q₂ h₁ h₂
    exact hi.call_unique j m c' k q₁ q₂ (hcall _ _ _ _ h₁) (hcall _ _ _ _ h₂)
  · intro j c' k f h
    obtain ⟨m, q', hm, hq', hf⟩ := hi.after_call j c' k f (happ _ _ _ _ h)
    exact ⟨m, q', hm, hq'.concat, hf⟩
  · intro j c' k y' h
    rcases at_concat.mp h with h | ⟨rfl, he⟩
    · obtain ⟨m, q', hm, hq', hr⟩ := hi.complete j c' k y' h
      exact ⟨m, q', hm, hq'.concat, by simp only [Obj.ret, happs, hr]⟩
    · simp only [Event.ret.injEq] at he
      obtain ⟨rfl, rfl, rfl⟩ := he
      obtain ⟨m, hm⟩ := exists_at hq
      exact ⟨m, q, hm.lt, hm.concat, by simp only [Obj.ret, happs, hcnt]⟩
  · intro j m c' k f y' h₁ h₂
    have h₁ := happ _ _ _ _ h₁
    rcases at_concat.mp h₂ with h₂ | ⟨rfl, _⟩
    · exact hi.before_ret j m c' k f y' h₁ h₂
    · exact h₁.lt
  · intro j m c' k k' f f' h₁ h₂
    exact hi.program_order j m c' k k' f f' (happ _ _ _ _ h₁) (happ _ _ _ _ h₂)
  · intro a b m c₁ k f f' c₂ k' g q₁ q₂ h₁ h₂ h₃ hab hbm hq₁ hq₂
    exact hi.contiguous a b m c₁ k f f' c₂ k' g q₁ q₂ (happ _ _ _ _ h₁) (happ _ _ _ _ h₂)
      (happ _ _ _ _ h₃) hab hbm (hmem _ _ _ hq₁) (hmem _ _ _ hq₂)
  · intro c₁ a b f c₂ k' g q₂ hmid h₁ hab h₂ hq₂ hin
    have hcc : c₁ ≠ c := by
      rintro rfl
      obtain ⟨q', _, _, hph, _⟩ := hmid
      simp [Obj.ret] at hph
    have hmid : o.MidBatch spec c₁ := by
      simpa [Obj.MidBatch, Obj.ret, Function.update_of_ne hcc] using hmid
    simp only [Obj.ret, Function.update_of_ne hcc] at h₁ ⊢
    exact hi.batch c₁ a b f c₂ k' g q₂ hmid (happ _ _ _ _ h₁) hab (happ _ _ _ _ h₂)
      (hmem _ _ _ hq₂) hin
  · intro j c' k y' h
    rcases at_concat.mp h with h | ⟨_, h⟩
    · obtain ⟨q', last', hq', hl, ha'⟩ := hi.answered j c' k y' h
      exact ⟨q', last', by simp [Obj.ret, hq'], hl.concat (by simp), ha'⟩
    · simp only [Event.ret.injEq] at h
      obtain ⟨rfl, rfl, rfl⟩ := h
      exact ⟨q, last, by simp [Obj.ret, hq], hlast.concat (by simp), ha⟩

theorem Inv.step {o' : Obj ι Q σ ρ υ} (hi : Inv spec v o) (h : Step spec o o') :
    Inv spec v o' := by
  cases h with
  | call hc => exact hi.call hc
  | app hc hlt hex => exact hi.app hc hlt hex
  | ret hc ha => exact hi.ret hc ha

theorem Inv.reach (h : Relation.ReflTransGen (Step spec) (Obj.init v) o) : Inv spec v o := by
  induction h with
  | refl => exact Inv.init
  | tail _ hs ih => exact ih.step hs

theorem Inv.at_most (hi : Inv spec v o) {k : Nat} (h : Event.call c k q ∈ o.hist) :
    apps c k o.hist ≤ spec.reps q := by
  rcases hi.tags _ h with hk | ⟨hk, hp⟩
  · obtain ⟨y, hy⟩ := hi.past c k hk
    obtain ⟨i, hy⟩ := exists_at hy
    obtain ⟨j, q', _, hq', hr⟩ := hi.complete i c k y hy
    rw [hi.mem_call_unique h hq'.mem]
    exact Nat.le_of_eq hr
  · simp only [Event.tag] at hk hp
    subst hk
    cases hph : o.phase c with
    | idle => exact absurd hph hp
    | active q' i last =>
      obtain ⟨hq', hcnt, hle, _⟩ := hi.current c q' i last hph
      rw [hi.mem_call_unique h hq', hcnt]
      exact hle

/-- An application lies between its call and its return, so the order of applications
never contradicts the order in which requests return and are called. -/
theorem Inv.linearizable (hi : Inv spec v o) : Linearizable spec v o.hist o.value where
  fold := hi.fold
  call_unique := hi.call_unique
  after_call := hi.after_call
  at_most := fun i c k q h => hi.at_most h.mem
  complete := hi.complete
  before_ret := hi.before_ret
  program_order := hi.program_order
  real_time := by
    intro i j a b c k y c' k' q' f f' hret hcall hij ha hb
    have h₁ : a < i := hi.before_ret a i c k f y ha hret
    obtain ⟨j', q'', hj', hcall', _⟩ := hi.after_call b c' k' f' hb
    have h₂ : j' = j := (hi.call_unique j' j c' k' q'' q' hcall' hcall).1
    omega
  contiguous := hi.contiguous
  answered := hi.answered

end Steps
end
end AtomicObject
