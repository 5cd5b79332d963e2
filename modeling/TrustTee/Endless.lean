import TrustTee.Machine
import Mathlib.Order.WellFounded

/-!
Endless runs of a machine under a scheduler that is fair to each of its parties, and the
rules by which a step that helps becomes something that happens in the end.
-/

set_option autoImplicit false

namespace Machine

variable {S A : Type} {step : S → A → Option S}

/-- The descent rule: where, as long as `Q` fails, some step keeps `P` and makes the rank smaller,
steps like it lead to `Q`. -/
theorem Reach.until {α : Type} [Preorder α] [WellFoundedLT α] {P Q : S → Prop}
    {ok : S → A → Prop} (rank : S → α)
    (h : ∀ t, P t → Q t ∨ ∃ a u, ok t a ∧ step t a = some u ∧
      (Q u ∨ P u ∧ rank u < rank t))
    {s : S} (hs : P s) : ∃ u, Reach step ok s u ∧ Q u := by
  generalize hr : rank s = r
  induction r using WellFoundedLT.induction generalizing s with
  | ind r ih =>
  subst hr
  rcases h s hs with hq | ⟨a, t, ha, ht, hq | ⟨hP, hlt⟩⟩
  · exact ⟨s, .start, hq⟩
  · exact ⟨t, Reach.start.next ha ht, hq⟩
  · obtain ⟨u, hu, hq⟩ := ih _ hlt hP rfl
    exact ⟨u, (Reach.start.next ha ht).trans hu, hq⟩

structure Path (step : S → A → Option S) where
  state : Nat → S
  act : Nat → A
  next : ∀ n, step (state n) (act n) = some (state (n + 1))

/-- A scheduler that may name any action: nothing happens when the one it names is not possible. -/
def offer (step : S → A → Option S) (s : S) (a : A) : Option S := some ((step s a).getD s)

theorem offer_cases {s t : S} {a : A} (h : offer step s a = some t) :
    step s a = some t ∨ step s a = none ∧ t = s := by
  unfold offer at h
  cases hs : step s a with
  | none => exact .inr ⟨rfl, by simpa [hs, eq_comm] using h⟩
  | some u => exact .inl (by simpa [hs] using h)

namespace Path

/-- The scheduler is fair to a party: time and again the party moves or has no move. -/
def Fair (p : Path step) (party : A → Prop) : Prop :=
  ∀ n, ∃ m, n ≤ m ∧ (party (p.act m) ∨ ∀ a, party a → step (p.state m) a = none)

section Rules

variable {p : Path step} {ok : S → A → Prop} {N : Nat}

theorem reach (p : Path step) {n : Nat} (hok : ∀ m, m < n → ok (p.state m) (p.act m)) :
    Reach step ok (p.state 0) (p.state n) := by
  induction n with
  | zero => exact .start
  | succ n ih =>
    have hn := ih (fun m hm => hok m (by omega))
    exact hn.next (hok n (by omega)) (p.next n)

/-- The variant rule. A party that is never without a move while `P` lasts, and that the
scheduler is fair to, brings about `Q` when each of its moves takes `P` to a smaller rank
and no move of the others takes it to a larger one. -/
theorem variant {α : Type} [Preorder α] [WellFoundedLT α] {P Q : S → Prop}
    {party : A → Prop} (rank : S → α) (hfair : p.Fair party)
    (hok : ∀ n, N ≤ n → ok (p.state n) (p.act n))
    (enabled : ∀ s, P s → ∃ a, party a ∧ step s a ≠ none)
    (helps : ∀ s a t, P s → ok s a → step s a = some t → party a →
      Q t ∨ P t ∧ rank t < rank s)
    (keeps : ∀ s a t, P s → ok s a → step s a = some t → ¬ party a →
      Q t ∨ P t ∧ rank t ≤ rank s)
    {n : Nat} (hn : N ≤ n) (hP : P (p.state n)) : ∃ m, n ≤ m ∧ Q (p.state m) := by
  generalize hr : rank (p.state n) = r
  induction r using WellFoundedLT.induction generalizing n with
  | ind r ih =>
  subst hr
  by_contra hnever
  have hno : ∀ m, n ≤ m → ¬ Q (p.state m) := fun m hm hQ => hnever ⟨m, hm, hQ⟩
  -- until the party moves, `P` lasts and the rank has not grown
  have hlast : ∀ m, n ≤ m → P (p.state m) ∧
      (rank (p.state m) ≤ rank (p.state n)) := by
    intro m hm
    induction m, hm using Nat.le_induction with
    | base => exact ⟨hP, le_rfl⟩
    | succ m hm ihm =>
      obtain ⟨hPm, hle⟩ := ihm
      have hnext := p.next m
      have hokm := hok m (hn.trans hm)
      by_cases hparty : party (p.act m)
      · obtain ⟨hPt, hlt⟩ := (helps _ _ _ hPm hokm hnext hparty).resolve_left (hno _ (by omega))
        exact ⟨hPt, hlt.le.trans hle⟩
      · obtain ⟨hPt, hle'⟩ := (keeps _ _ _ hPm hokm hnext hparty).resolve_left (hno _ (by omega))
        exact ⟨hPt, hle'.trans hle⟩
  obtain ⟨m, hm, hmove⟩ := hfair n
  obtain ⟨hPm, hle⟩ := hlast m hm
  have hparty : party (p.act m) := by
    rcases hmove with h | h
    · exact h
    · obtain ⟨a, ha, hen⟩ := enabled _ hPm
      exact absurd (h a ha) hen
  obtain ⟨hPt, hlt⟩ := (helps _ _ _ hPm (hok m (hn.trans hm)) (p.next m) hparty).resolve_left
    (hno _ (by omega))
  obtain ⟨k, hk, hQ⟩ := ih _ (lt_of_lt_of_le hlt hle) (by omega : N ≤ m + 1) hPt rfl
  exact hno k (by omega) hQ

/-- What is left to do never grows. If it always becomes less in the end while `Q` fails, there
is a moment from which `Q` holds for ever. -/
theorem descent {w : S → Nat} {Q : S → Prop}
    (hmono : ∀ n, N ≤ n → w (p.state (n + 1)) ≤ w (p.state n))
    (hless : ∀ n, N ≤ n → ¬ Q (p.state n) → ∃ m, n ≤ m ∧ w (p.state m) < w (p.state n)) :
    ∃ m, N ≤ m ∧ ∀ n, m ≤ n → Q (p.state n) := by
  have hle : ∀ m, N ≤ m → ∀ n, m ≤ n → w (p.state n) ≤ w (p.state m) := by
    intro m hm n hn
    induction n, hn using Nat.le_induction with
    | base => exact le_rfl
    | succ n hn ih => exact (hmono n (hm.trans hn)).trans ih
  suffices h : ∀ k m, N ≤ m → w (p.state m) = k → ∃ m, N ≤ m ∧ ∀ n, m ≤ n → Q (p.state n) from
    h _ N le_rfl rfl
  intro k
  induction k using Nat.strong_induction_on with
  | _ k ih =>
  intro m hm hk
  by_cases hq : ∀ n, m ≤ n → Q (p.state n)
  · exact ⟨m, hm, hq⟩
  · obtain ⟨n, hn, hno⟩ := not_forall₂.mp hq
    obtain ⟨m', hm', hlt⟩ := hless n (hm.trans hn) hno
    exact ih _ (hk ▸ hlt.trans_le (hle m hm n hn)) m' (by omega) rfl

/-- Where nothing happens without lowering what is left, a move that the scheduler names again
and again is made, or another is. -/
theorem runs_down {p : Path (offer step)} {w : S → Nat} {Q : S → Prop}
    (hless : ∀ n t, N ≤ n → step (p.state n) (p.act n) = some t → w t < w (p.state n))
    (hmove : ∀ n, N ≤ n → ¬ Q (p.state n) →
      ∃ a, p.Fair (· = a) ∧ step (p.state n) a ≠ none) :
    ∃ m, N ≤ m ∧ ∀ n, m ≤ n → Q (p.state n) := by
  have hstep : ∀ n, N ≤ n → p.state (n + 1) = p.state n ∨
      w (p.state (n + 1)) < w (p.state n) := by
    intro n hn
    rcases offer_cases (p.next n) with hs | ⟨_, hs⟩
    · exact .inr (hless n _ hn hs)
    · exact .inl hs
  refine descent (w := w) (fun n hn => ?_) (fun n hn hno => ?_)
  · rcases hstep n hn with hs | hlt
    · rw [hs]
    · exact hlt.le
  · obtain ⟨a, hfair, hable⟩ := hmove n hn hno
    obtain ⟨m, hm, hact⟩ := hfair n
    have hact : p.act m = a := hact.resolve_right (fun h => by simpa [offer] using h a rfl)
    by_contra hnever
    have hsame : ∀ k, n ≤ k → p.state k = p.state n := by
      intro k hk
      induction k, hk using Nat.le_induction with
      | base => rfl
      | succ k hk ih =>
        refine ((hstep k (hn.trans hk)).resolve_right fun hlt => ?_).trans ih
        exact hnever ⟨k + 1, by omega, ih ▸ hlt⟩
    obtain ⟨t, ht⟩ := Option.ne_none_iff_exists'.mp hable
    have hlt := hless m t (hn.trans hm) (by rw [hsame m hm, hact, ht])
    have hnext : p.state (m + 1) = t := by
      have h := p.next m
      rw [offer, hsame m hm, hact, ht] at h
      exact (Option.some.inj h).symm
    rw [hsame m hm, ← hnext] at hlt
    exact hnever ⟨m + 1, by omega, hlt⟩

end Rules

section Construction

theorem forever {I : S → Prop} {acts : Nat → A}
    (h : ∀ n s, I s → ∃ t, step s (acts n) = some t ∧ I t) {u : S} (hu : I u) :
    ∃ q : Path step, q.state 0 = u ∧ ∀ n, q.act n = acts n ∧ I (q.state n) := by
  let state : Nat → S := fun n => n.rec u (fun n s => (step s (acts n)).getD s)
  have hI : ∀ n, I (state n) := by
    intro n
    induction n with
    | zero => exact hu
    | succ n ih =>
      obtain ⟨t, ht, hIt⟩ := h n _ ih
      have : state (n + 1) = t := by
        change (step (state n) (acts n)).getD (state n) = t
        rw [ht]
        rfl
      rwa [this]
  refine ⟨⟨state, acts, fun n => ?_⟩, rfl, fun n => ⟨rfl, hI n⟩⟩
  obtain ⟨t, ht, _⟩ := h n _ (hI n)
  change step (state n) (acts n) = some ((step (state n) (acts n)).getD (state n))
  rw [ht]
  rfl

theorem scripted {s u : S} {as : List A} (h : run step s as = some u) (q : Path step)
    (hq : q.state 0 = u) : ∃ p : Path step, p.state 0 = s ∧
      (∀ n, p.state (n + as.length) = q.state n ∧ p.act (n + as.length) = q.act n) ∧
      ∀ n, n < as.length → p.act n ∈ as := by
  induction as generalizing s with
  | nil =>
    obtain rfl := Option.some.inj h
    exact ⟨q, hq, fun n => ⟨rfl, rfl⟩, by simp⟩
  | cons a as ih =>
    obtain ⟨t, ht, h⟩ := Option.bind_eq_some_iff.mp h
    obtain ⟨p, hp, hlater, hsoon⟩ := ih h
    refine ⟨⟨fun n => n.casesOn s p.state, fun n => n.casesOn a p.act, fun n => ?_⟩, rfl, ?_, ?_⟩
    · cases n with
      | zero =>
        subst hp
        exact ht
      | succ n => exact p.next n
    · intro n
      exact hlater n
    · intro n hn
      cases n with
      | zero => exact .head _
      | succ n => exact List.mem_cons_of_mem _ (hsoon n (by simpa using hn))

end Construction

end Path

end Machine
