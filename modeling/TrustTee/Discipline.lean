import TrustTee.Orphans

set_option autoImplicit false

namespace TrustTee
open Header

variable {T V R : Type}

/-- What the callers have done: the handles they have made and not let go of, and whether one
of them has told the worker to end. -/
structure Ledger where
  handles : List Nat
  closing : Bool
  deriving DecidableEq, Repr

namespace Ledger

def start : Ledger := ⟨[0], false⟩

def without (g : Ledger) (c : Nat) : Ledger := { g with handles := g.handles.filter (· ≠ c) }

/-- A handle is let go of when it is dropped, when the assertion of `into_inner` panics, and
when `into_inner` comes back. -/
def enter (g : Ledger) (s : Population T V R) : Deed T V R → Ledger
  | .cloneHandle _ | .entrust => { g with handles := s.sys.created :: g.handles }
  | .dropHandle c => { g.without c with closing := g.closing || decide (s.LastOwner c) }
  | .intoInner c =>
    if s.owner c = .absent then g.without c else { g with closing := true }
  | .client c =>
    match (s.sys.client c).pc with
    | .reading .intoInner => g.without c
    | _ => g
  | .dropRuntime => { g with closing := true }
  | _ => g

/-- `into_inner` is for the only handle left, the `Runtime` is dropped after all handles,
nobody makes a handle once the worker has been told to end, and no closure panics in the
trustee loop. -/
def permits (g : Ledger) (s : Population T V R) : Deed T V R → Bool
  | .intoInner c => decide (s.owner c = .absent) || decide (g.handles = [c])
  | .dropRuntime => g.handles.isEmpty
  | .entrust => !g.closing
  | .trustee =>
    match s.sys.pc with
    | .inClosure _ _ _ env args _ =>
      match (env.call args s.sys.prop).2 with
      | .returned _ => true
      | .panicked => false
    | _ => true
  | _ => true

def admits (g : Ledger) : List (Population T V R × Deed T V R) → Bool
  | [] => true
  | (s, a) :: l => g.permits s a && (g.enter s a).admits l

def after (g : Ledger) (l : List (Population T V R × Deed T V R)) : Ledger :=
  l.foldl (fun g x => g.enter x.1 x.2) g

theorem admits_concat (g : Ledger) (l : List (Population T V R × Deed T V R))
    (s : Population T V R) (a : Deed T V R) :
    g.admits (l ++ [(s, a)]) = true ↔ g.admits l = true ∧ (g.after l).permits s a = true := by
  induction l generalizing g with
  | nil => simp [admits, after]
  | cons x l ih =>
    simp only [List.cons_append, admits, Bool.and_eq_true, ih, and_assoc]
    rfl

theorem after_concat (g : Ledger) (l : List (Population T V R × Deed T V R))
    (s : Population T V R) (a : Deed T V R) :
    g.after (l ++ [(s, a)]) = (g.after l).enter s a := by
  simp [after]

end Ledger

/-- What a channel is to the callers: nobody's, a handle that can be used, one that
`into_inner` is consuming, or the temporary channel of a `Runtime::drop`. -/
inductive Standing where
  | absent | free | moving | joiner
  deriving DecidableEq, Repr

def Op.standing : Op T V R → Standing
  | .intoInner => .moving
  | .terminate => .joiner
  | _ => .free

def ClientPc.standing : ClientPc T V R → Standing
  | .idle => .free
  | .encoded op | .loaded op _ | .waiting op _ | .reading op => op.standing
  | .owning _ | .gone => .absent

def Sys.standing (s : Sys T V R) (c : Nat) : Standing :=
  if c < s.created then (s.client c).pc.standing else .absent

section Standings

variable {bin : Bincode V} {s s' : Sys T V R} {c : Nat}

theorem Sys.live_iff : s.live c = true ↔ s.standing c = .free ∨ s.standing c = .moving := by
  unfold Sys.live Sys.standing
  by_cases hc : c < s.created
  · simp only [hc, decide_true, Bool.true_and, if_true]
    cases hpc : (s.client c).pc with
    | encoded op | loaded op r | waiting op r | reading op =>
      cases op <;> simp [ClientPc.held, ClientPc.standing, Op.standing]
    | idle | owning d | gone => simp [ClientPc.held, ClientPc.standing]
  · simp [hc]

theorem Sys.standing_update {x : Standing} (hcr : s'.created = s.created)
    (hothers : ∀ c', c' ≠ c → s'.client c' = s.client c') (hc : s'.standing c = x) :
    s'.standing = Function.update s.standing c x := by
  funext c'
  by_cases hcc : c' = c
  · subst hcc
    rw [Function.update_self, hc]
  · rw [Function.update_of_ne hcc]
    unfold Sys.standing
    rw [hcr, hothers c' hcc]

theorem Sys.standing_issue {op : Op T V R} (hs : s.issue bin c op = some s') :
    s.standing c = .free ∧ s'.standing = Function.update s.standing c op.standing := by
  obtain ⟨hidle, hcr, hpc, hothers⟩ := Sys.issue_spec hs
  have hlt : c < s.created := by
    unfold Sys.issue at hs
    rw [hidle] at hs
    by_contra hn
    simp [hn] at hs
  refine ⟨by simp [Sys.standing, hlt, hidle, ClientPc.standing],
    Sys.standing_update hcr hothers ?_⟩
  simp [Sys.standing, hcr, hlt, hpc, ClientPc.standing]

theorem Sys.standing_register (hnew : (s.client s.created).pc = .idle) :
    s.register.standing = Function.update s.standing s.created .free := by
  funext c'
  by_cases hcc : c' = s.created
  · subst hcc
    simp [Sys.standing, Sys.register, hnew, ClientPc.standing]
  · rw [Function.update_of_ne hcc]
    unfold Sys.standing Sys.register
    by_cases hlt : c' < s.created
    · simp [hlt, Nat.lt_succ_of_lt hlt]
    · have hge : ¬ c' < s.created + 1 := by omega
      simp [hlt, hge]

theorem Sys.standing_sendTerminate (hnew : (s.client s.created).pc = .idle)
    (hs : s.sendTerminate bin = some s') :
    s'.standing = Function.update s.standing s.created .joiner := by
  have hissue := (Sys.standing_issue hs).2
  rw [Sys.standing_register hnew] at hissue
  simpa [Op.standing] using hissue

theorem Sys.standing_dropHandle (hs : s.dropHandle c = some s') :
    s.standing c = .free ∧ s'.standing = Function.update s.standing c .absent := by
  unfold Sys.dropHandle at hs
  split at hs
  · rename_i hpc
    split at hs <;> simp only [Option.some.injEq, reduceCtorEq] at hs
    rename_i hlt
    subst hs
    refine ⟨by simp [Sys.standing, hlt, hpc, ClientPc.standing], Sys.standing_update rfl ?_ ?_⟩
    · exact fun c' hc => by simp [Sys.setClient, Function.update_of_ne hc]
    · simp [Sys.standing, Sys.setClient, ClientPc.standing]
  · simp at hs

theorem Sys.standing_dropValue (hs : s.dropValue c = some s') : s'.standing = s.standing := by
  unfold Sys.dropValue at hs
  split at hs <;> simp only [Option.some.injEq, reduceCtorEq] at hs
  rename_i hpc
  subst hs
  funext c'
  by_cases hcc : c' = c
  · subst hcc
    simp [Sys.standing, Sys.setClient, hpc, ClientPc.standing]
  · simp [Sys.standing, Sys.setClient, Function.update_of_ne hcc]

theorem Sys.standing_clientStep (ht : (s.client c).pc ≠ .reading .terminate)
    (hs : s.clientStep c = some s') :
    s'.standing = match (s.client c).pc with
      | .reading .intoInner => Function.update s.standing c .absent
      | _ => s.standing := by
  have hcr := Sys.clientStep_created hs
  have hothers : ∀ c', c' ≠ c → s'.client c' = s.client c' :=
    fun c' hc => (Sys.clientStep_frame hs hc).1
  have same : (s'.client c).pc.standing = (s.client c).pc.standing → s'.standing = s.standing := by
    intro hpc
    rw [Sys.standing_update (x := s.standing c) hcr hothers (by simp [Sys.standing, hcr, hpc]),
      Function.update_eq_self]
  unfold Sys.clientStep at hs
  cases hpc : (s.client c).pc with
  | encoded op | loaded op r =>
    simp only [hpc, Option.some.injEq] at hs
    refine same ?_
    subst hs
    simp [Sys.setClient, Sys.setChan, hpc, ClientPc.standing]
  | waiting op r =>
    refine same ?_
    cases op with
    | terminate =>
      simp only [hpc] at hs
      split at hs <;> simp only [Option.some.injEq, reduceCtorEq] at hs
      rw [← hs]
    | _ =>
      simp only [hpc] at hs
      split at hs <;> obtain rfl := Option.some.inj hs <;>
        simp [Sys.setClient, hpc, ClientPc.standing]
  | reading op =>
    cases op with
    | terminate => exact absurd hpc ht
    | intoInner =>
      refine Sys.standing_update hcr hothers ?_
      simp only [hpc, Option.some.injEq] at hs
      subst hs
      simp [Sys.standing, Sys.setClient, Sys.log, ClientPc.standing]
    | _ =>
      refine same ?_
      simp only [hpc, Option.some.injEq] at hs
      subst hs
      simp [Sys.setClient, Sys.log, hpc, ClientPc.standing, Op.standing]
  | idle | owning d | gone => simp [hpc] at hs

theorem Sys.standing_congr (hcl : s'.client = s.client) (hcr : s'.created = s.created) :
    s'.standing = s.standing := by
  funext c
  simp only [Sys.standing, hcl, hcr]

end Standings

/-- The ledger agrees with the channels. The owners of all handles are alike, a handle that is
being consumed is the only one, and once a `Runtime::drop` joins the worker there is none. -/
structure Tidy (g : Ledger) (s : Population T V R) : Prop where
  alike : (s.runtime = false ∧ s.spares = 0 ∧ ∀ c ∈ g.handles, s.owner c = .real) ∨
    ∀ c, s.owner c ≠ .real
  handles : ∀ c, c ∈ g.handles ↔ s.sys.standing c = .free ∨ s.sys.standing c = .moving
  moving : ∀ c, s.sys.standing c = .moving → ∀ c' ∈ g.handles, c' = c
  joiner : ∀ c, s.sys.standing c = .joiner → g.handles = []
  quiet : g.closing = false → s.sys.exited = false ∧
    ∀ c, s.sys.standing c ≠ .moving ∧ s.sys.standing c ≠ .joiner

section Changes

variable {g g' : Ledger} {s s' : Population T V R} {c : Nat}

theorem Ledger.mem_without {c' : Nat} : c' ∈ (g.without c).handles ↔ c' ∈ g.handles ∧ c' ≠ c := by
  simp [Ledger.without]

theorem Tidy.same (h : Tidy g s) (hst : s'.sys.standing = s.sys.standing)
    (hex : g.closing = false → s'.sys.exited = false) (howner : s'.owner = s.owner)
    (hrt : s.runtime = false → s.spares = 0 → s'.runtime = false ∧ s'.spares = 0) :
    Tidy g s' where
  alike := by
    rw [howner]
    exact h.alike.imp_left (fun ⟨h₁, h₂, h₃⟩ => ⟨(hrt h₁ h₂).1, (hrt h₁ h₂).2, h₃⟩)
  handles := by rw [hst]; exact h.handles
  moving := by rw [hst]; exact h.moving
  joiner := by rw [hst]; exact h.joiner
  quiet := fun hc => ⟨hex hc, by rw [hst]; exact (h.quiet hc).2⟩

theorem Tidy.lets_go (h : Tidy g s)
    (hst : s'.sys.standing = Function.update s.sys.standing c .absent)
    (hhandles : g'.handles = (g.without c).handles)
    (hclosing : g'.closing = false → g.closing = false)
    (hex : s'.sys.exited = s.sys.exited) (howner : s'.owner = s.owner)
    (hrt : s'.runtime = s.runtime) (hsp : s'.spares = s.spares) : Tidy g' s' := by
  have hstand : ∀ c' x, s'.sys.standing c' = x → x ≠ .absent → c' ≠ c ∧ s.sys.standing c' = x := by
    intro c' x hx hne
    rw [hst] at hx
    by_cases hcc : c' = c
    · subst hcc
      rw [Function.update_self] at hx
      exact absurd hx.symm hne
    · exact ⟨hcc, by rwa [Function.update_of_ne hcc] at hx⟩
  constructor
  · rw [howner, hrt, hsp, hhandles]
    exact h.alike.imp_left (fun ⟨h₁, h₂, h₃⟩ =>
      ⟨h₁, h₂, fun c' hc' => h₃ c' (Ledger.mem_without.mp hc').1⟩)
  · intro c'
    rw [hhandles, Ledger.mem_without, h.handles, hst]
    by_cases hcc : c' = c
    · subst hcc
      simp
    · simp [hcc]
  · intro d hd c' hc'
    rw [hhandles, Ledger.mem_without] at hc'
    exact h.moving d (hstand d _ hd (by simp)).2 c' hc'.1
  · intro d hd
    rw [hhandles, Ledger.without, h.joiner d (hstand d _ hd (by simp)).2]
    rfl
  · intro hc
    obtain ⟨hex', hq⟩ := h.quiet (hclosing hc)
    rw [hex]
    refine ⟨hex', fun d => ⟨fun hd => ?_, fun hd => ?_⟩⟩
    · exact (hq d).1 (hstand d _ hd (by simp)).2
    · exact (hq d).2 (hstand d _ hd (by simp)).2

theorem Tidy.makes (h : Tidy g s) {o : Owner}
    (hst : s'.sys.standing = Function.update s.sys.standing c .free)
    (hno : ∀ d, s.sys.standing d ≠ .moving ∧ s.sys.standing d ≠ .joiner)
    (hex : s'.sys.exited = s.sys.exited) (howner : s'.owner = Function.update s.owner c o)
    (hrt : s'.runtime = s.runtime) (hsp : s'.spares = s.spares)
    (ho : (s.runtime = false ∧ s.spares = 0 → (∀ c ∈ g.handles, s.owner c = .real) → o = .real) ∧
      ((∀ c, s.owner c ≠ .real) → o ≠ .real)) :
    Tidy { g with handles := c :: g.handles } s' := by
  have hno' : ∀ d, s'.sys.standing d ≠ .moving ∧ s'.sys.standing d ≠ .joiner := by
    intro d
    rw [hst]
    by_cases hdc : d = c
    · subst hdc
      simp
    · simpa [Function.update_of_ne hdc] using hno d
  constructor
  · rw [howner, hrt, hsp]
    rcases h.alike with ⟨h₁, h₂, h₃⟩ | hno
    · refine .inl ⟨h₁, h₂, fun c' hc' => ?_⟩
      by_cases hcc : c' = c
      · subst hcc
        rw [Function.update_self]
        exact ho.1 ⟨h₁, h₂⟩ h₃
      · rw [Function.update_of_ne hcc]
        exact h₃ c' ((List.mem_cons.mp hc').resolve_left hcc)
    · refine .inr (fun c' => ?_)
      by_cases hcc : c' = c
      · subst hcc
        rw [Function.update_self]
        exact ho.2 hno
      · rw [Function.update_of_ne hcc]
        exact hno c'
  · intro c'
    rw [List.mem_cons, h.handles, hst]
    by_cases hcc : c' = c
    · subst hcc
      simp
    · simp [hcc]
  · exact fun d hd => absurd hd (hno' d).1
  · exact fun d hd => absurd hd (hno' d).2
  · intro hc
    rw [hex]
    exact ⟨(h.quiet hc).1, hno'⟩

theorem Tidy.moves (h : Tidy g s) (hfree : s.sys.standing c = .free) (hall : g.handles = [c])
    (hst : s'.sys.standing = Function.update s.sys.standing c .moving) (howner : s'.owner = s.owner)
    (hrt : s'.runtime = s.runtime) (hsp : s'.spares = s.spares) :
    Tidy { g with closing := true } s' := by
  constructor
  · rw [howner, hrt, hsp]
    exact h.alike
  · intro c'
    rw [h.handles, hst]
    by_cases hcc : c' = c
    · subst hcc
      simp [hfree]
    · simp [Function.update_of_ne hcc]
  · intro d hd c' hc'
    have hc' : c' ∈ g.handles := hc'
    rw [hall] at hc'
    by_cases hdc : d = c
    · rw [hdc]
      exact List.mem_singleton.mp hc'
    · rw [hst, Function.update_of_ne hdc] at hd
      exact h.moving d hd c' (by rwa [hall])
  · intro d hd
    by_cases hdc : d = c
    · subst hdc
      simp [hst] at hd
    · rw [hst, Function.update_of_ne hdc] at hd
      exact h.joiner d hd
  · intro hc
    cases hc

theorem Tidy.joins (h : Tidy g s) (hnone : g.handles = [])
    (hnew : s.sys.standing c = .absent)
    (hst : s'.sys.standing = Function.update s.sys.standing c .joiner) (howner : s'.owner = s.owner)
    (hrt : s.runtime = false → s'.runtime = false) (hsp : s'.spares = s.spares) :
    Tidy { g with closing := true } s' := by
  constructor
  · rw [howner, hsp]
    exact h.alike.imp_left (fun ⟨h₁, h₂, h₃⟩ => ⟨hrt h₁, h₂, h₃⟩)
  · intro c'
    rw [h.handles, hst]
    by_cases hcc : c' = c
    · subst hcc
      simp [hnew]
    · simp [Function.update_of_ne hcc]
  · intro d _ c' hc'
    have hc' : c' ∈ g.handles := hc'
    simp [hnone] at hc'
  · exact fun _ _ => hnone
  · intro hc
    cases hc

end Changes

section Runs

variable {bin : Bincode V} {value : T} {g : Ledger} {s s' : Population T V R}

theorem Tidy.live_mem (h : Tidy g s) {c : Nat} (hl : s.sys.live c = true) : c ∈ g.handles :=
  (h.handles c).mpr (Sys.live_iff.mp hl)

theorem Reachable.serving_standing {x : Sys T V R} (h : Reachable bin (fun _ _ => True) value x)
    {b : Batch} {op : Op T V R} {r : Bool} (hw : (x.client b.chan).pc = .waiting op r) :
    x.standing b.chan = op.standing := by
  have hlt : b.chan < x.created := by
    by_contra hge
    rw [h.unregistered (Nat.le_of_not_lt hge)] at hw
    cases hw
  simp [Sys.standing, hlt, hw, ClientPc.standing]

/-- What the ledger permits is in order. -/
theorem Kept.orderly (h : Kept bin value s) (ht : Tidy g s) {a : Deed T V R}
    (hp : g.permits s a = true) (hs : s.step bin a = some s') : Orderly s a := by
  cases a with
  | intoInner c =>
    intro howner c' hne
    simp only [Ledger.permits, Bool.or_eq_true, decide_eq_true_eq] at hp
    by_contra hl
    have hmem := ht.live_mem (by simpa using hl)
    rw [hp.resolve_left howner] at hmem
    exact hne (List.mem_singleton.mp hmem)
  | entrust => exact (ht.quiet (by simpa [Ledger.permits] using hp)).1
  | cloneHandle c =>
    show s.sys.exited = false
    by_contra hex
    simp only [Population.step] at hs
    split at hs
    · rename_i hpc
      split at hs <;> simp only [Option.some.injEq, reduceCtorEq] at hs
      exact (h.released (by simpa using hex)).not_idle ‹_› hpc
    · simp at hs
  | trustee =>
    have hinv := h.reach.inv
    unfold Orderly
    cases hpc : s.sys.pc with
    | inClosure b hdr k env args seq =>
      intro hpanic
      simp [Ledger.permits, hpc, hpanic] at hp
    | moveStore b r =>
      intro c hne
      obtain ⟨op, ⟨hw, _, _⟩, hok⟩ := hinv.serving b (by simp [hpc, TrusteePc.batch?])
      simp only [hpc, PcOk] at hok
      obtain ⟨rfl, _⟩ := hok
      by_contra hl
      exact hne (ht.moving b.chan (h.reach.serving_standing hw) c (ht.live_mem (by simpa using hl)))
    | joining b =>
      intro c
      obtain ⟨op, ⟨hw, _, _⟩, hok⟩ := hinv.serving b (by simp [hpc, TrusteePc.batch?])
      simp only [hpc, PcOk] at hok
      subst hok
      by_contra hl
      have hmem := ht.live_mem (by simpa using hl)
      simp [ht.joiner b.chan (h.reach.serving_standing hw)] at hmem
    | _ => trivial
  | _ => trivial

theorem Population.step_exited {a : Deed T V R} (ha : a ≠ .trustee)
    (hs : s.step bin a = some s') : s'.sys.exited = s.sys.exited := by
  unfold Sys.exited
  rw [Population.step_pc ha hs]

theorem Population.lastOwner_congr {x : Sys T V R} {c : Nat} (hcr : x.created = s.sys.created)
    (hlive : ∀ c', c' ≠ c → x.live c' = s.sys.live c') :
    ({ s with sys := x } : Population T V R).LastOwner c ↔ s.LastOwner c := by
  unfold Population.LastOwner
  dsimp only
  rw [hcr]
  refine and_congr_right (fun _ => forall_congr' (fun c' => imp_congr_right (fun _ =>
    forall_congr' (fun hne => ?_))))
  rw [hlive c' hne]

theorem Tidy.lastOwner (h : Tidy g s) {c : Nat} (hlast : s.LastOwner c) :
    (g.without c).handles = [] := by
  rcases h.alike with ⟨_, _, hreal⟩ | hnone
  · refine List.eq_nil_iff_forall_not_mem.mpr (fun c' hc' => ?_)
    obtain ⟨hmem, hne⟩ := Ledger.mem_without.mp hc'
    have hl : s.sys.live c' = true := Sys.live_iff.mpr ((h.handles c').mp hmem)
    exact hlast.2 c' (Sys.live_created hl) hne hl (hreal c' hmem)
  · exact absurd hlast.1 (hnone c)

theorem Reachable.standing_new {x : Sys T V R} (h : Reachable bin (fun _ _ => True) value x) :
    (x.client x.created).pc = .idle ∧ x.standing x.created = .absent :=
  ⟨h.unregistered (Nat.le_refl _), by simp [Sys.standing]⟩

theorem Tidy.release {c : Nat} (h : Tidy g s) (hr : Reachable bin (fun _ _ => True) value s.sys)
    (hnone : s.LastOwner c → g.handles = []) (hs : s.release bin c = some s') :
    Tidy { g with closing := g.closing || decide (s.LastOwner c) } s' := by
  unfold Population.release at hs
  split at hs
  · rename_i hlast
    obtain ⟨x, hx, hs⟩ := Option.bind_eq_some_iff.mp hs
    obtain rfl := Option.some.inj hs
    have hj : Tidy { g with closing := true } { s with sys := x } :=
      h.joins (hnone hlast) hr.standing_new.2
        (Sys.standing_sendTerminate hr.standing_new.1 hx) rfl id rfl
    simpa [hlast] using hj
  · rename_i hlast
    obtain rfl := Option.some.inj hs
    simpa [hlast] using h

theorem Sys.standing_live {x y : Sys T V R} {c : Nat} (h : y.standing c = x.standing c) :
    y.live c = x.live c := by
  rw [Bool.eq_iff_iff, Sys.live_iff, Sys.live_iff, h]

theorem Tidy.dropHandle (h : Tidy g s) (hk : Kept bin value s) {c : Nat}
    (hs : s.step bin (.dropHandle c) = some s') : Tidy (g.enter s (.dropHandle c)) s' := by
  obtain ⟨x, hx, hs⟩ := Option.bind_eq_some_iff.mp hs
  obtain ⟨_, hst⟩ := Sys.standing_dropHandle hx
  have hstep : s.sys.step bin (.dropHandle c) = some x := hx
  have hcr : x.created = s.sys.created := by
    unfold Sys.dropHandle at hx
    split at hx
    · split at hx <;> simp only [Option.some.injEq, reduceCtorEq] at hx
      rw [← hx]
      rfl
    · simp at hx
  have hlast := @Population.lastOwner_congr _ _ _ s x c hcr
    (fun c' hne => Sys.standing_live (by rw [hst, Function.update_of_ne hne]))
  have hex : x.exited = s.sys.exited := Sys.exited_aside hstep (by simp)
  have hgone : Tidy (g.without c) { s with sys := x } :=
    h.lets_go hst rfl id hex rfl rfl rfl
  have hrel := hgone.release (hk.reach.free hstep) (fun hl => h.lastOwner (hlast.mp hl)) hs
  simpa only [Ledger.enter, Ledger.without, decide_eq_decide.mpr hlast] using hrel

theorem Tidy.client (h : Tidy g s) (hk : Kept bin value s) {c : Nat}
    (hs : s.step bin (.client c) = some s') : Tidy (g.enter s (.client c)) s' := by
  obtain ⟨x, hx, hs⟩ := Option.bind_eq_some_iff.mp hs
  have hstep : s.sys.step bin (.client c) = some x := hx
  have hst := Sys.standing_clientStep (hk.reach.terminate_unread c) hx
  have hex : x.exited = s.sys.exited := Sys.exited_aside hstep (by simp)
  by_cases hread : (s.sys.client c).pc = .reading .intoInner
  · have hmoving : s.sys.standing c = .moving := by
      have hlt : c < s.sys.created := by
        by_contra hge
        rw [hk.reach.unregistered (Nat.le_of_not_lt hge)] at hread
        cases hread
      simp [Sys.standing, hlt, hread, ClientPc.standing, Op.standing]
    have howning : ∃ d, (x.client c).pc = .owning d := by
      simp only [Sys.clientStep, hread, Option.some.injEq] at hx
      subst hx
      exact ⟨_, by simp only [Sys.setClient, Sys.log, Function.update_self]; rfl⟩
    obtain ⟨d, hd⟩ := howning
    simp only [hread] at hst
    simp only [hd] at hs
    have hgone : Tidy (g.without c) { s with sys := x } :=
      h.lets_go hst rfl id hex rfl rfl rfl
    have hnone : (g.without c).handles = [] :=
      List.eq_nil_iff_forall_not_mem.mpr (fun c' hc' =>
        (Ledger.mem_without.mp hc').2 (h.moving c hmoving c' (Ledger.mem_without.mp hc').1))
    have hclosing : g.closing = true := by
      by_contra hc
      exact ((h.quiet (by simpa using hc)).2 c).1 hmoving
    have hrel := hgone.release (hk.reach.free hstep) (fun _ => hnone) hs
    simpa [Ledger.enter, Ledger.without, hread, hclosing] using hrel
  · have hsame : x.standing = s.sys.standing := by
      rw [hst]
      split
      · exact absurd ‹_› hread
      · rfl
    have hnot : ∀ d, (x.client c).pc ≠ .owning d := by
      intro d hd
      rcases (Sys.clientStep_beside hx).client c with ⟨hcl, _⟩ | ⟨hnext, _⟩
      · rw [hcl] at hd
        simp [Sys.clientStep, hd] at hx
      · rw [hd] at hnext
        generalize hpc : (s.sys.client c).pc = pc at hnext
        cases hnext
        exact hread hpc
    have henter : g.enter s (.client c) = g := by
      simp only [Ledger.enter]
    split at hs
    · exact absurd ‹_› (hnot _)
    · obtain rfl := Option.some.inj hs
      rw [henter]
      exact h.same hsame (fun hc => hex.trans (h.quiet hc).1) rfl (fun h₁ h₂ => ⟨h₁, h₂⟩)

theorem Tidy.cloneHandle (h : Tidy g s) (hk : Kept bin value s) {c : Nat}
    (hs : s.step bin (.cloneHandle c) = some s') : Tidy (g.enter s (.cloneHandle c)) s' := by
  have hex := Population.step_exited (by simp) hs
  simp only [Population.step] at hs
  split at hs
  · rename_i hpc
    split at hs <;> simp only [Option.some.injEq, reduceCtorEq] at hs
    rename_i hlt
    have hfree : s.sys.standing c = .free := by
      simp [Sys.standing, hlt, hpc, ClientPc.standing]
    have hmem : c ∈ g.handles := (h.handles c).mpr (.inl hfree)
    -- the handle that is cloned is in use, so none is being consumed and nobody joins
    have hno : ∀ d, s.sys.standing d ≠ .moving ∧ s.sys.standing d ≠ .joiner := by
      refine fun d => ⟨fun hd => ?_, fun hd => ?_⟩
      · obtain rfl := h.moving d hd c hmem
        rw [hd] at hfree
        cases hfree
      · simp [h.joiner d hd] at hmem
    subst hs
    exact h.makes (Sys.standing_register hk.reach.standing_new.1) hno hex rfl rfl rfl
      ⟨fun _ hreal => hreal c hmem, fun hnone => hnone c⟩
  · simp at hs

theorem Tidy.intoInner (h : Tidy g s) {c : Nat} (hp : g.permits s (.intoInner c) = true)
    (hs : s.step bin (.intoInner c) = some s') : Tidy (g.enter s (.intoInner c)) s' := by
  simp only [Population.step] at hs
  by_cases howner : s.owner c = .absent
  · rw [if_pos howner] at hs
    obtain ⟨x, hx, hs⟩ := Option.bind_eq_some_iff.mp hs
    obtain rfl := Option.some.inj hs
    have hstep : s.sys.step bin (.dropHandle c) = some x := hx
    simp only [Ledger.enter, if_pos howner]
    exact h.lets_go (Sys.standing_dropHandle hx).2 rfl id (Sys.exited_aside hstep (by simp))
      rfl rfl rfl
  · rw [if_neg howner] at hs
    obtain ⟨x, hx, hs⟩ := Option.bind_eq_some_iff.mp hs
    obtain rfl := Option.some.inj hs
    have hall : g.handles = [c] := by simpa [Ledger.permits, howner] using hp
    simp only [Ledger.enter, if_neg howner]
    exact h.moves (Sys.standing_issue hx).1 hall (Sys.standing_issue hx).2 rfl rfl rfl

theorem Tidy.trustee (h : Tidy g s) (hk : Kept bin value s)
    (hp : g.permits s .trustee = true) (hs : s.step bin .trustee = some s') :
    Tidy (g.enter s .trustee) s' := by
  have hord := hk.orderly h hp hs
  obtain ⟨x, hx, hs⟩ := Option.bind_eq_some_iff.mp hs
  obtain rfl := Option.some.inj hs
  obtain ⟨hcl, hcr, _⟩ := Sys.trusteeStep_frame hx
  refine h.same (Sys.standing_congr hcl hcr) (fun hc => ?_) rfl (fun h₁ h₂ => ⟨h₁, h₂⟩)
  -- the worker ends for a request that is not there, or by a panic
  by_contra hex
  have hex : x.exited = true := by simpa using hex
  obtain ⟨_, _, hcases⟩ := hk.reach.inv.trusteeStep_exits hx hex
  have hq := (h.quiet hc).2
  unfold Orderly at hord
  rcases hcases with ⟨b, hdr, k, env, args, seq, hpc, hout, _⟩ | ⟨b, r, hpc, _, _⟩ |
    ⟨b, hpc, _⟩
  · simp only [hpc] at hord
    exact hord hout
  · obtain ⟨op, ⟨hw, _, _⟩, hok⟩ := hk.reach.inv.serving b (by simp [hpc, TrusteePc.batch?])
    simp only [hpc, PcOk] at hok
    obtain ⟨rfl, _⟩ := hok
    exact (hq b.chan).1 (hk.reach.serving_standing hw)
  · obtain ⟨op, ⟨hw, _, _⟩, hok⟩ := hk.reach.inv.serving b (by simp [hpc, TrusteePc.batch?])
    simp only [hpc, PcOk] at hok
    subst hok
    exact (hq b.chan).2 (hk.reach.serving_standing hw)

theorem Tidy.step (h : Tidy g s) (hk : Kept bin value s) {a : Deed T V R}
    (hp : g.permits s a = true) (hs : s.step bin a = some s') : Tidy (g.enter s a) s' := by
  have hexited : a ≠ .trustee → g.closing = false → s'.sys.exited = false :=
    fun ha hc => (Population.step_exited ha hs).trans (h.quiet hc).1
  cases a with
  | dropHandle c => exact h.dropHandle hk hs
  | client c => exact h.client hk hs
  | cloneHandle c => exact h.cloneHandle hk hs
  | entrust =>
    have hex := Population.step_exited (by simp) hs
    have hopen : g.closing = false := by simpa [Ledger.permits] using hp
    simp only [Population.step] at hs
    split at hs <;> simp only [Option.some.injEq, reduceCtorEq] at hs
    rename_i hsome
    subst hs
    refine h.makes (Sys.standing_register hk.reach.standing_new.1) (h.quiet hopen).2 hex rfl rfl
      rfl ⟨fun hnone => ?_, fun _ => by simp⟩
    simp [hnone.1, hnone.2] at hsome
  | intoInner c => exact h.intoInner hp hs
  | call c op =>
    have hs : ∃ x, s.sys.issue bin c op = some x ∧ s' = { s with sys := x } ∧
        op.standing = .free := by
      cases op with
      | intoInner => cases hs
      | terminate => cases hs
      | _ =>
        obtain ⟨x, hx, hs⟩ := Option.bind_eq_some_iff.mp hs
        exact ⟨x, hx, (Option.some.inj hs).symm, rfl⟩
    obtain ⟨x, hx, rfl, hop⟩ := hs
    obtain ⟨hfree, hst⟩ := Sys.standing_issue hx
    rw [hop, ← hfree, Function.update_eq_self] at hst
    exact h.same hst (hexited (by simp)) rfl (fun h₁ h₂ => ⟨h₁, h₂⟩)
  | dropValue c =>
    obtain ⟨x, hx, hs⟩ := Option.bind_eq_some_iff.mp hs
    obtain rfl := Option.some.inj hs
    exact h.same (Sys.standing_dropValue hx) (hexited (by simp)) rfl (fun h₁ h₂ => ⟨h₁, h₂⟩)
  | cloneRuntime | dropSpare =>
    simp only [Population.step] at hs
    split at hs <;> simp only [Option.some.injEq, reduceCtorEq] at hs
    rename_i hsome
    subst hs
    exact h.same rfl (hexited (by simp)) rfl (fun h₁ h₂ => by simp [h₁, h₂] at hsome)
  | dropRuntime =>
    simp only [Population.step] at hs
    split at hs
    · obtain ⟨x, hx, hs⟩ := Option.bind_eq_some_iff.mp hs
      obtain rfl := Option.some.inj hs
      have hnone : g.handles = [] := by simpa [Ledger.permits] using hp
      exact h.joins hnone hk.reach.standing_new.2
        (Sys.standing_sendTerminate hk.reach.standing_new.1 hx) rfl (fun _ => rfl) rfl
    · simp at hs
  | fiber j =>
    obtain ⟨x, hx, hs⟩ := Option.bind_eq_some_iff.mp hs
    obtain rfl := Option.some.inj hs
    obtain ⟨_, _, hcl, _⟩ := Sys.fiberStep_frame hx
    have hst := Sys.standing_congr hcl (Sys.fiberStep_aside hx).2.2.2
    exact h.same hst (hexited (by simp)) rfl (fun h₁ h₂ => ⟨h₁, h₂⟩)
  | trustee => exact h.trustee hk hp hs

theorem Tidy.begins {p : Population T V R} (hp : p = .entrusted value ∨ p = .spawned value) :
    Kept bin value p ∧ Tidy .start p := by
  have hr : Reachable bin (fun _ _ => True) value (Sys.init value : Sys T V R).register :=
    Reachable.free Machine.Reach.start (a := .register) rfl
  have hstand : ∀ c, (Sys.init value : Sys T V R).register.standing c =
      if c = 0 then .free else .absent := by
    intro c
    by_cases hc : c = 0
    · subst hc
      rfl
    · have hge : ¬ c < 0 + 1 := by omega
      simp [Sys.standing, Sys.register, Sys.init, hc]
  have tidy : ∀ q : Population T V R, q.sys = (Sys.init value).register →
      ((q.runtime = false ∧ q.spares = 0 ∧ ∀ c ∈ [0], q.owner c = .real) ∨
        ∀ c, q.owner c ≠ .real) → Tidy .start q := by
    intro q hq halike
    refine ⟨halike, fun c => ?_, fun c hc => ?_, fun c hc => ?_,
      fun _ => ⟨by rw [hq]; rfl, fun c => ?_⟩⟩
    all_goals rw [hq, hstand] at *
    all_goals by_cases hc0 : c = 0 <;> simp_all [Ledger.start]
  rcases hp with rfl | rfl
  · refine ⟨⟨hr, fun hex => (Bool.false_ne_true hex).elim⟩, tidy _ rfl (.inl ⟨rfl, rfl, ?_⟩)⟩
    simp [Population.entrusted]
  · refine ⟨⟨hr, fun hex => (Bool.false_ne_true hex).elim⟩, tidy _ rfl (.inr (fun c => ?_))⟩
    by_cases hc : c = 0 <;> simp [Population.spawned, hc]

end Runs

/-- For any handles on one runtime, from `Remote::entrust` or `Runtime::spawn` on: when the
callers keep to their ledger, nobody is left behind by the worker's end, and the assertion of
`into_inner` accepts the last handle only. -/
theorem disciplined_no_orphans {bin : Bincode V} {value : T} {p : Population T V R}
    (hp : p = .entrusted value ∨ p = .spawned value)
    {l : List (Population T V R × Deed T V R)} {u : Population T V R}
    (h : Machine.Trace (Population.step bin) p l u) (hl : Ledger.start.admits l = true) :
    (∀ x ∈ Machine.visited l u, NoOrphans x) ∧ ∀ x ∈ l, SoundAssertion x.1 x.2 := by
  suffices hall : Kept bin value u ∧ Tidy (Ledger.start.after l) u ∧
      (∀ x ∈ Machine.visited l u, NoOrphans x) ∧ ∀ x ∈ l, SoundAssertion x.1 x.2 from hall.2.2
  induction h with
  | start =>
    obtain ⟨hk, ht⟩ := Tidy.begins hp
    exact ⟨hk, ht, by simpa [Machine.visited] using noOrphans_iff.mpr hk.released, by simp⟩
  | @next l t u a h hs ih =>
    obtain ⟨hl, ha⟩ := (Ledger.admits_concat _ l t a).mp hl
    obtain ⟨hk, ht, hno, hsound⟩ := ih hl
    have hord := hk.orderly ht ha hs
    have hk' := hk.step hord hs
    refine ⟨hk', by rw [Ledger.after_concat]; exact ht.step hk ha hs, ?_, ?_⟩
    · intro x hx
      rcases Machine.mem_visited_next.mp hx with hx | rfl
      · exact hno x hx
      · exact noOrphans_iff.mpr hk'.released
    · intro x hx
      rcases List.mem_append.mp hx with hx | hx
      · exact hsound x hx
      · obtain rfl := List.mem_singleton.mp hx
        rintro c rfl
        exact hord

def takeOutAlone : List (Deed Nat UInt8 Nat) :=
  [.cloneHandle 0, .call 1 (.apply (fun t => (t + 1, .returned t))), .client 1, .client 1] ++
    List.replicate 14 .trustee ++ [.client 1, .client 1, .dropHandle 1, .intoInner 0, .client 0,
    .client 0] ++ List.replicate 8 .trustee ++ [.client 0, .client 0]

theorem disciplined_no_orphans_takeOutAlone :
    ∃ l u, Machine.Trace (Population.step byteBincode) (.entrusted 5) l u ∧
      l.map Prod.snd = takeOutAlone ∧ u.sys.exited = true ∧
      (∀ x ∈ Machine.visited l u, NoOrphans x) ∧ ∀ x ∈ l, SoundAssertion x.1 x.2 := by
  obtain ⟨u, hu, hex⟩ : ∃ u, Machine.run (Population.step byteBincode) (.entrusted 5)
      takeOutAlone = some u ∧ u.sys.exited = true := ⟨_, rfl, rfl⟩
  have htrail : (Machine.trail (Population.step byteBincode) (.entrusted 5) takeOutAlone).map
      Prod.snd = takeOutAlone := rfl
  exact ⟨_, u, Machine.run_trail hu, htrail, hex,
    disciplined_no_orphans (.inl rfl) (Machine.run_trail hu) (by decide)⟩

def takeOutBesideApply : List (Deed Nat UInt8 Nat) :=
  [.cloneHandle 0, .call 1 (.apply (fun t => (t + 1, .returned t))), .client 1, .client 1,
    .intoInner 0, .client 0, .client 0] ++ List.replicate 10 .trustee

/-- The clone's request is never answered. -/
theorem clone_left_behind :
    ¬ ∀ l (u : Population Nat UInt8 Nat), Machine.Trace (Population.step byteBincode)
      (.entrusted 5) l u →
      (∀ x ∈ Machine.visited l u, NoOrphans x) ∧ ∀ x ∈ l, SoundAssertion x.1 x.2 := by
  intro h
  obtain ⟨u, hu, hex, hpc, hready⟩ : ∃ u, Machine.run (Population.step byteBincode)
      (.entrusted 5) takeOutBesideApply = some u ∧ u.sys.exited = true ∧
      (u.sys.client 1).pc = .waiting (.apply (fun t => (t + 1, .returned t))) true ∧
      ready (u.sys.chan 1).respWord = false := ⟨_, rfl, rfl, rfl, rfl⟩
  obtain ⟨l, hl, _⟩ := Machine.run_trace hu
  have hn := (h l u hl).1 u (Machine.last_mem_visited l u) hex 1 (by
    obtain rfl := Option.some.inj hu
    decide)
  exact hn.1 ⟨_, _, hpc, by simp [hready]⟩

end TrustTee
