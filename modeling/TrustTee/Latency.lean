import TrustTee.Liveness

set_option autoImplicit false

namespace TrustTee
open Header

variable {T V R : Type}

def beginsRound (s : Sys T V R) : Action T V R → Bool
  | .trustee => match s.pc with
    | .loop => true
    | _ => false
  | _ => false

def beginsOp (_ : Sys T V R) : Action T V R → Bool
  | .issue _ _ => true
  | _ => false

def roundsBegun (l : List (Sys T V R × Action T V R)) : Nat :=
  l.countP (fun x => beginsRound x.1 x.2)

def opsBegun (l : List (Sys T V R × Action T V R)) : Nat :=
  l.countP (fun x => beginsOp x.1 x.2)

/-- Rounds to come at most while channel `c` is in the queue: to the next sixteenth, which
drains, and sixteen for each 256 channels before it. -/
def Sys.roundsQueued (s : Sys T V R) (c : Nat) : Nat :=
  match s.pc with
  | .drain d => 16 * ((c - s.clients.length + d) / 256)
  | _ => 16 - s.loopCounter % 16 + 16 * ((c - s.clients.length) / 256)

section Queue

variable {bin : Bincode V} {w : Workload T V R} {value : T} {s s' : Sys T V R} {c : Nat}

theorem Sys.roundsQueued_outside (h : ∀ d, s.pc ≠ .drain d) :
    s.roundsQueued c = 16 - s.loopCounter % 16 + 16 * ((c - s.clients.length) / 256) := by
  unfold Sys.roundsQueued
  split
  · exact absurd ‹_› (h _)
  · rfl

theorem Sys.enterSweep_undrained (s : Sys T V R) (d : Nat) : s.enterSweep.pc ≠ .drain d := by
  unfold Sys.enterSweep
  split <;> simp [Sys.goto]

theorem beginsRound_of_ne {a : Action T V R} (h : s.pc ≠ .loop ∨ a ≠ .trustee) :
    beginsRound s a = false := by
  unfold beginsRound
  split
  · split
    · exact absurd ‹_› (h.resolve_right (fun ha => ha rfl))
    · rfl
  · rfl

/-- Each round that begins while a channel waits brings it nearer to its drain. -/
theorem Reachable.queue_pays (h : Reachable bin w value s) {a : Action T V R}
    (hs : s.step bin a = some s') (hc : c < s.created) (hq : s'.clients.length ≤ c) :
    s'.roundsQueued c + (beginsRound s a).toNat ≤ s.roundsQueued c := by
  by_cases ha : a = .trustee
  swap
  · have hb := h.aside ha hs
    rw [beginsRound_of_ne (.inr ha)]
    simp only [Sys.roundsQueued, hb.pc, hb.clients, hb.loopCounter]
    exact Nat.le_refl _
  subst ha
  simp only [Sys.step] at hs
  by_cases hloop : s.pc = .loop
  · have hhead : (beginsRound s (.trustee : Action T V R)).toNat = 1 := by
      simp [beginsRound, hloop]
    have hrest : s.roundsQueued c = 16 - s.loopCounter % 16 +
        16 * ((c - s.clients.length) / 256) := Sys.roundsQueued_outside (by simp [hloop])
    rw [hhead, hrest]
    simp only [Sys.trusteeStep, hloop] at hs
    split at hs <;> obtain rfl := Option.some.inj hs
    · simp only [Sys.roundsQueued, Sys.goto]
      omega
    · rename_i hno
      obtain ⟨_, hcount⟩ := not_or.mp hno
      rw [Sys.roundsQueued_outside (Sys.enterSweep_undrained _)]
      simp only [Sys.enterSweep, Sys.goto]
      omega
  rw [beginsRound_of_ne (.inl hloop)]
  by_cases hdrain : ∃ d, s.pc = .drain d
  · obtain ⟨d, hpc⟩ := hdrain
    have hwhole := h.clients_le
    simp only [Sys.trusteeStep, hpc] at hs
    split at hs
    · split at hs <;> obtain rfl := Option.some.inj hs
      · simp only [List.length_append, List.length_singleton] at hq
        simp only [Sys.roundsQueued, hpc, List.length_append, List.length_singleton,
          Bool.toNat_false]
        have hsame : c - (s.clients.length + 1) + (d + 1) = c - s.clients.length + d := by omega
        rw [hsame]
        exact Nat.le_refl _
      · rename_i hreg
        simp only [Sys.enterSweep, Sys.goto] at hq
        simp only [hreg, List.length_nil] at hwhole
        omega
    · rename_i hd
      obtain rfl := Option.some.inj hs
      rw [Sys.roundsQueued_outside (Sys.enterSweep_undrained _)]
      simp only [Sys.roundsQueued, hpc, Sys.enterSweep, Sys.goto, Bool.toNat_false]
      have hnext : (c - s.clients.length) / 256 + 1 ≤ (c - s.clients.length + d) / 256 := by
        omega
      omega
  · have hdrain' : ∀ d, s.pc ≠ .drain d := fun d hd => hdrain ⟨d, hd⟩
    obtain ⟨hcount, hpc'⟩ := Sys.trusteeStep_counts hs hloop hdrain'
    have hlen : s'.clients.length = s.clients.length := by
      rcases Sys.trusteeStep_registry h.inv hs with ⟨_, he⟩ | ⟨d, _, hpc, _⟩
      · simpa using congrArg List.length he
      · exact absurd hpc (hdrain' d)
    rw [Sys.roundsQueued_outside hdrain', Sys.roundsQueued_outside hpc', hcount, hlen]
    exact Nat.le_refl _

theorem Sys.trusteeStep_drained (hs : s.trusteeStep = some s') {d : Nat}
    (hpc' : s'.pc = .drain d) : d ≤ 256 := by
  by_cases hloop : s.pc = .loop
  · simp only [Sys.trusteeStep, hloop] at hs
    split at hs <;> obtain rfl := Option.some.inj hs
    · simp only [Sys.goto, TrusteePc.drain.injEq] at hpc'
      omega
    · exact absurd hpc' (Sys.enterSweep_undrained _ d)
  by_cases hdrain : ∃ e, s.pc = .drain e
  · obtain ⟨e, he⟩ := hdrain
    simp only [Sys.trusteeStep, he] at hs
    split at hs
    · split at hs <;> obtain rfl := Option.some.inj hs
      · simp only [TrusteePc.drain.injEq] at hpc'
        omega
      · exact absurd hpc' (Sys.enterSweep_undrained _ d)
    · obtain rfl := Option.some.inj hs
      exact absurd hpc' (Sys.enterSweep_undrained _ d)
  · exact absurd hpc' ((Sys.trusteeStep_counts hs hloop (fun e he => hdrain ⟨e, he⟩)).2 d)

theorem Reachable.drained_le (h : Reachable bin w value s) {d : Nat} (hpc : s.pc = .drain d) :
    d ≤ 256 := by
  refine h.invariant (P := fun s => ∀ d, s.pc = .drain d → d ≤ 256) (by simp [Sys.init]) ?_ d hpc
  intro t a v ht _ hs d hpc
  by_cases ha : a = .trustee
  · subst ha
    exact Sys.trusteeStep_drained hs hpc
  · exact ht d ((Sys.step_aside hs ha).1 ▸ hpc)

theorem Reachable.roundsQueued_le (h : Reachable bin w value s) :
    s.roundsQueued c ≤ 16 * ((c - s.clients.length) / 256 + 1) := by
  by_cases hdrain : ∃ d, s.pc = .drain d
  · obtain ⟨d, hpc⟩ := hdrain
    have hd := h.drained_le hpc
    simp only [Sys.roundsQueued, hpc]
    omega
  · rw [Sys.roundsQueued_outside (fun d hd => hdrain ⟨d, hd⟩)]
    omega

end Queue

/-- The operations that have been begun and not been served yet. -/
def Sys.unserved (s : Sys T V R) : Nat :=
  ((Finset.range s.created).filter (fun c => 4 ≤ s.pending c)).card

def Owes (s : Sys T V R) (c : Nat) : Prop :=
  (∃ d, s.pc = .drain d) ∨ Coming s c ∨ (∃ b, s.pc.batch? = some b) ∨ s.exited = true

section Unserved

variable {bin : Bincode V} {w : Workload T V R} {value : T} {s s' : Sys T V R} {c : Nat}

theorem Sys.mem_unserved (h : Reachable bin w value s) :
    c ∈ (Finset.range s.created).filter (fun c => 4 ≤ s.pending c) ↔ 4 ≤ s.pending c := by
  simp only [Finset.mem_filter, Finset.mem_range, and_iff_right_iff_imp]
  intro hp
  by_contra hc
  exact Sys.pending_pos (by omega) (h.unregistered (not_lt.mp hc))

theorem Reachable.unserved_le (h : Reachable bin w value s) {a : Action T V R}
    (hs : s.step bin a = some s') : s'.unserved ≤ s.unserved + (beginsOp s a).toNat := by
  have h' : Reachable bin (fun _ _ => True) value s' :=
    h.any.next (by cases a <;> trivial) hs
  by_cases ha : ∃ c op, a = .issue c op
  · obtain ⟨c, op, rfl⟩ := ha
    have hsub : (Finset.range s'.created).filter (fun c => 4 ≤ s'.pending c) ⊆
        insert c ((Finset.range s.created).filter (fun c => 4 ≤ s.pending c)) := by
      intro c' hc'
      rw [Sys.mem_unserved h'] at hc'
      rw [Finset.mem_insert, Sys.mem_unserved h]
      by_cases hc : c' = c
      · exact .inl hc
      · right
        have hb := Sys.issue_beside hs
        obtain ⟨_, _, _, hjobs, _⟩ := hb.worker
        rcases hb.client c' with ⟨hcl, hch⟩ | ⟨next, _⟩
        · simpa only [Sys.pending, hcl, hch, hjobs] using hc'
        · generalize (s.client c').pc = pc at next
          generalize (s'.client c').pc = pc' at next
          cases next
          exact absurd rfl hc
    have hcard := (Finset.card_le_card hsub).trans (Finset.card_insert_le _ _)
    simpa [Sys.unserved, beginsOp] using hcard
  · have hsub : (Finset.range s'.created).filter (fun c => 4 ≤ s'.pending c) ⊆
        (Finset.range s.created).filter (fun c => 4 ≤ s.pending c) := by
      intro c' hc'
      rw [Sys.mem_unserved h'] at hc'
      rw [Sys.mem_unserved h]
      exact hc'.trans (h.inv.pending_le (fun c op he => ha ⟨c, op, he⟩) hs c')
    exact (Finset.card_le_card hsub).trans (Nat.le_add_right _ _)

theorem Reachable.unserved_lt (h : Reachable bin w value s) (hs : s.trusteeStep = some s')
    {op : Op T V R} {r : Bool} (ho : Outstanding s c op r)
    (hserved : Served s' c (s.client c).seq) : s'.unserved < s.unserved := by
  have hstep : s.step bin .trustee = some s' := hs
  have h' : Reachable bin (fun _ _ => True) value s' := h.any.next (a := .trustee) trivial hs
  have hcl := (Sys.trusteeStep_frame hs).1
  have hfour := h.inv.pending_outstanding.mpr ⟨op, r, ho⟩
  have hthree : s'.pending c ≤ 3 :=
    Sys.pending_served (by rw [hcl]; exact ho.1) (by rw [hcl]; exact hserved)
  refine Finset.card_lt_card ((Finset.ssubset_iff_of_subset ?_).mpr ⟨c, ?_, ?_⟩)
  · intro c' hc'
    rw [Sys.mem_unserved h'] at hc'
    rw [Sys.mem_unserved h]
    exact hc'.trans (h.inv.pending_le (by simp) hstep c')
  · rw [Sys.mem_unserved h]
    omega
  · rw [Sys.mem_unserved h']
    omega

inductive Waits (s : Sys T V R) (a : Action T V R) (s' : Sys T V R) (c : Nat) : Prop where
  | goes_on : beginsRound s a = false → (Owes s c → Owes s' c) → Waits s a s' c
  | begins : beginsRound s a = true → ¬ Owes s c → Owes s' c → Waits s a s' c
  | serves : beginsRound s a = false → s'.unserved < s.unserved → Waits s a s' c

theorem Reachable.waits (h : Reachable bin w value s) {a : Action T V R}
    (hs : s.step bin a = some s') (hl : c < s.clients.length) {op : Op T V R} {r : Bool}
    (ho : Outstanding s c op r) : Waits s a s' c := by
  by_cases ha : a = .trustee
  swap
  · obtain ⟨hpc, _, hstart, _⟩ := Sys.step_aside hs ha
    obtain ⟨_, _, hch⟩ := ho.keep hs ha
    refine .goes_on (beginsRound_of_ne (.inr ha)) (fun howes => ?_)
    simpa only [Owes, Coming, Sys.exited, hpc, hstart, hch] using howes
  subst ha
  simp only [Sys.step] at hs
  by_cases hloop : s.pc = .loop
  · refine .begins (by simp [beginsRound, hloop]) ?_ ?_
    · rintro (⟨d, hd⟩ | hc | ⟨b, hb⟩ | hx)
      · simp [hloop] at hd
      · exact hc.inside hloop
      · simp [hloop, TrusteePc.batch?] at hb
      · simp [Sys.exited, hloop] at hx
    · rcases h.begins hl (.inl hloop) hs with hc | ⟨hd, _⟩
      · exact .inr (.inl hc)
      · exact .inl hd
  have hnone : beginsRound s (.trustee : Action T V R) = false :=
    beginsRound_of_ne (.inl hloop)
  by_cases hb : ∃ b, s.pc.batch? = some b
  · obtain ⟨b, hb⟩ := hb
    obtain ⟨op', hout, _⟩ := h.inv.serving b hb
    rcases h.inv.serves hb hs with ⟨b', hb', _⟩ | hserved | ⟨cause, hx⟩
    · exact .goes_on hnone (fun _ => .inr (.inr (.inl ⟨b', hb'⟩)))
    · exact .serves hnone (h.unserved_lt hs hout hserved)
    · exact .goes_on hnone (fun _ => .inr (.inr (.inr (by simp [Sys.exited, hx]))))
  refine .goes_on hnone ?_
  rintro (hd | hc | hb' | hx)
  · rcases h.begins hl (.inr hd) hs with hc | ⟨hd', _⟩
    · exact .inr (.inl hc)
    · exact .inl hd'
  · rcases h.comes ho hl hc hs with hb' | hc'
    · exact .inr (.inr (.inl hb'))
    · exact .inr (.inl hc')
  · exact absurd hb' hb
  · rw [Sys.trusteeStep_alive hs] at hx
    cases hx

theorem Reachable.waited (h : Reachable bin w value s) {a : Action T V R}
    (hs : s.step bin a = some s') {op : Op T V R} {r : Bool} {k : Nat}
    (hw : Served s c k ∨ Outstanding s c op r ∧ (s.client c).seq = k) :
    Served s' c k ∨ Outstanding s' c op r ∧ (s'.client c).seq = k := by
  rcases hw with hserved | ⟨ho, hk⟩
  · exact .inl (hserved.step h.inv hs)
  by_cases ha : a = .trustee
  · subst ha
    have hcl := (Sys.trusteeStep_frame hs).1
    have hpc : (s'.client c).pc = .waiting op r := by rw [hcl]; exact ho.1
    rcases (h.inv.step hs).outstanding_or_served hpc with ho' | hserved
    · exact .inr ⟨ho', by rw [hcl]; exact hk⟩
    · rw [hcl, hk] at hserved
      exact .inl hserved
  · obtain ⟨ho', hcl, _⟩ := ho.keep hs ha
    exact .inr ⟨ho', by rw [hcl]; exact hk⟩

theorem Reachable.counts (h : Reachable bin w value s) {op : Op T V R} {r : Bool}
    (ho : Outstanding s c op r) : c < s.created ∧ 0 < s.unserved := by
  have hmem := (Sys.mem_unserved h).mpr (h.inv.pending_outstanding.mpr ⟨op, r, ho⟩).ge
  exact ⟨Finset.mem_range.mp (Finset.mem_filter.mp hmem).1, Finset.card_pos.mpr ⟨c, hmem⟩⟩

theorem Reachable.enters_list (h : Reachable bin w value s) {a : Action T V R}
    (hs : s.step bin a = some s') (hq : s.clients.length ≤ c) (hl : c < s'.clients.length) :
    beginsRound s a = false ∧ Owes s' c := by
  by_cases ha : a = .trustee
  · subst ha
    rcases Sys.trusteeStep_registry h.inv hs with ⟨_, he⟩ | ⟨d, cp, hpc, _, _, _, hpc'⟩
    · have := congrArg List.length he
      simp only [List.length_map] at this
      omega
    · exact ⟨beginsRound_of_ne (.inl (by simp [hpc])), .inl ⟨d + 1, hpc'⟩⟩
  · rw [(Sys.step_aside hs ha).2.1] at hl
    omega

end Unserved

section Runs

variable {bin : Bincode V} {w : Workload T V R} {value : T} {s u : Sys T V R} {c : Nat}
  {l : List (Sys T V R × Action T V R)}

/-- A channel is in the trustee's list after sixteen rounds for each 256 channels before it
in the queue, and sixteen more, whatever the clients do. -/
theorem registration_rounds (h : Reachable bin w value s) (hc : c < s.created)
    (hrun : Machine.Trace (Sys.step bin) s l u) (hq : u.clients.length ≤ c) :
    roundsBegun l ≤ 16 * ((c - s.clients.length) / 256 + 1) := by
  let I : Sys T V R → Prop := fun t => Reachable bin (fun _ _ => True) value t ∧ c < t.created
  let Queued : Sys T V R → Prop := fun t => t.clients.length ≤ c
  have keep : ∀ t a v, I t → Sys.step bin t a = some v → I v := by
    rintro t a v ⟨ht, hct⟩ hs
    exact ⟨ht.next (by cases a <;> trivial) hs, hct.trans_le (Sys.step_created hs)⟩
  have stays : ∀ t a v, I t → Sys.step bin t a = some v → Queued v → Queued t := by
    rintro t a v ⟨ht, _⟩ hs hv
    exact (ht.grows (Machine.Trace.start.next hs)).2.1.trans hv
  have pays : ∀ t a v, I t → Queued t → Queued v → Sys.step bin t a = some v →
      v.roundsQueued c + (beginsRound t a).toNat ≤ t.roundsQueued c + false.toNat := by
    rintro t a v ⟨ht, hct⟩ _ hv hs
    exact ht.queue_pays hs hct hv
  have hcount := hrun.count_le ⟨h.any, hc⟩ keep stays pays hq
  have hbound := h.roundsQueued_le (c := c)
  simp only [List.countP_false, Function.const_apply] at hcount
  unfold roundsBegun
  omega

def secondHandle : List (Action Nat UInt8 Nat) :=
  [.register] ++ List.replicate 4 .trustee ++ [.register]

theorem registration_rounds_secondHandle : ∃ s u : Sys Nat UInt8 Nat,
    Machine.run (Sys.step byteBincode) (Sys.init 5) secondHandle = some s ∧
    Machine.run (Sys.step byteBincode) s (List.replicate 59 .trustee) = some u ∧
    u.clients.length ≤ 1 ∧
    roundsBegun (Machine.trail (Sys.step byteBincode) s (List.replicate 59 .trustee)) ≤
      16 * ((1 - s.clients.length) / 256 + 1) := by
  obtain ⟨s, hs, hcreated, hrun⟩ : ∃ s,
      Machine.run (Sys.step byteBincode) (Sys.init 5) secondHandle = some s ∧ 1 < s.created ∧
        ((Machine.run (Sys.step byteBincode) s (List.replicate 59 .trustee)).map
          (fun u => u.clients.length)) = some 1 := ⟨_, rfl, by decide, by decide⟩
  obtain ⟨u, hu, hlen⟩ := Option.map_eq_some_iff.mp hrun
  have hr : Reachable byteBincode (fun _ _ => True) 5 s :=
    .scripted hs (fun a _ => by cases a <;> trivial)
  exact ⟨s, u, hs, hu, hlen.le,
    registration_rounds hr hcreated (Machine.run_trail hu) hlen.le⟩

/-- A request is taken up at the latest when its channel has come out of the queue and the
trustee has begun as many rounds as there were requests unserved, this one included, and
operations begun since. -/
theorem request_rounds (h : Reachable bin w value s) (hrun : Machine.Trace (Sys.step bin) s l u)
    {op op' : Op T V R} {r r' : Bool} (ho : Outstanding s c op r) (hu : Outstanding u c op' r')
    (hk : (u.client c).seq = (s.client c).seq) : roundsBegun l ≤
      16 * ((c + 256 - s.clients.length) / 256) + s.unserved + opsBegun l := by
  classical
  let Waiting : Sys T V R → Prop := fun t =>
    Outstanding t c op r ∧ (t.client c).seq = (s.client c).seq
  let I : Sys T V R → Prop := fun t => Reachable bin (fun _ _ => True) value t ∧
    (Served t c (s.client c).seq ∨ Waiting t)
  let potential : Sys T V R → Nat := fun t =>
    (if t.clients.length ≤ c then t.roundsQueued c else if Owes t c then 0 else 1) + t.unserved
  have keep : ∀ t a v, I t → Sys.step bin t a = some v → I v := by
    rintro t a v ⟨ht, hw⟩ hs
    exact ⟨ht.next (by cases a <;> trivial) hs, ht.waited hs hw⟩
  have waiting : ∀ t, I t → ∀ op' r', Outstanding t c op' r' →
      (t.client c).seq = (s.client c).seq → Waiting t := by
    rintro t ⟨ht, hserved | hw⟩ op' r' ho' hk'
    · have hthree := Sys.pending_served ho'.1 (by rw [hk']; exact hserved)
      have hfour := ht.inv.pending_outstanding.mpr ⟨op', r', ho'⟩
      omega
    · exact hw
  have stays : ∀ t a v, I t → Sys.step bin t a = some v → Waiting v → Waiting t := by
    rintro t a v ⟨ht, hserved | hw⟩ hs ⟨ho', hk'⟩
    · have hthree := Sys.pending_served ho'.1 (by rw [hk']; exact hserved.step ht.inv hs)
      have hfour := (ht.inv.step hs).pending_outstanding.mpr ⟨op, r, ho'⟩
      omega
    · exact hw
  have pays : ∀ t a v, I t → Waiting t → Waiting v → Sys.step bin t a = some v →
      potential v + (beginsRound t a).toNat ≤ potential t + (beginsOp t a).toNat := by
    rintro t a v ⟨ht, _⟩ ⟨hot, _⟩ _ hs
    have hun := ht.unserved_le hs
    have hgrow := (ht.grows (Machine.Trace.start.next hs)).2.1
    simp only [potential]
    by_cases hq : t.clients.length ≤ c
    · rw [if_pos hq]
      by_cases hq' : v.clients.length ≤ c
      · rw [if_pos hq']
        have hpay := ht.queue_pays hs (ht.counts hot).1 hq'
        omega
      · obtain ⟨hround, howes⟩ := ht.enters_list hs hq (not_le.mp hq')
        rw [if_neg hq', if_pos howes, hround, Bool.toNat_false]
        omega
    · rw [if_neg hq, if_neg (by omega)]
      cases ht.waits hs (by omega) hot with
      | goes_on hround howes =>
        rw [hround, Bool.toNat_false]
        by_cases hown : Owes t c
        · rw [if_pos hown, if_pos (howes hown)]
          omega
        · rw [if_neg hown]
          split <;> omega
      | begins hround hno howes =>
        rw [hround, Bool.toNat_true, if_neg hno, if_pos howes]
        omega
      | serves hround hlt =>
        rw [hround, Bool.toNat_false]
        split <;> split <;> omega
  have base : I s := ⟨h.any, .inr ⟨ho, rfl⟩⟩
  have keep' : ∀ t a v, I t → True → Sys.step bin t a = some v → I v :=
    fun t a v ht _ => keep t a v ht
  have hend : I u := hrun.invariant base keep' (fun _ _ => trivial)
  have hcount := hrun.count_le base keep stays pays (waiting u hend op' r' hu hk)
  have hleft := (hend.1.counts hu).2
  have hqueue := h.roundsQueued_le (c := c)
  simp only [potential] at hcount
  unfold roundsBegun opsBegun
  by_cases hq : s.clients.length ≤ c
  · rw [if_pos hq] at hcount
    omega
  · have hcredit : (if Owes s c then 0 else 1) ≤ 1 := by split <;> omega
    rw [if_neg hq] at hcount
    omega

def twoPublished : List (Action Nat UInt8 Nat) :=
  List.replicate 2 .register ++ [0, 1].flatMap (fun c =>
    [.issue c (.apply (fun t => (t + 1, .returned t))), .client c, .client c])

theorem request_rounds_twoPublished : ∃ s u : Sys Nat UInt8 Nat,
    Machine.run (Sys.step byteBincode) (Sys.init 5) twoPublished = some s ∧
    Machine.run (Sys.step byteBincode) s (List.replicate 16 .trustee) = some u ∧
    s.pending 1 = 4 ∧ u.pending 1 = 4 ∧
    roundsBegun (Machine.trail (Sys.step byteBincode) s (List.replicate 16 .trustee)) ≤
      16 * ((1 + 256 - s.clients.length) / 256) + s.unserved +
        opsBegun (Machine.trail (Sys.step byteBincode) s (List.replicate 16 .trustee)) := by
  obtain ⟨s, hs, hwait, hrun⟩ : ∃ s,
      Machine.run (Sys.step byteBincode) (Sys.init 5) twoPublished = some s ∧ s.pending 1 = 4 ∧
        ((Machine.run (Sys.step byteBincode) s (List.replicate 16 .trustee)).map
          (fun u => (u.pending 1, (u.client 1).seq))) = some (4, (s.client 1).seq) :=
    ⟨_, rfl, by decide, by decide⟩
  obtain ⟨u, hu, hend⟩ := Option.map_eq_some_iff.mp hrun
  obtain ⟨hwait', hseq⟩ := Prod.mk.inj hend
  have hr : Reachable byteBincode (fun _ _ => True) 5 s :=
    .scripted hs (fun a _ => by cases a <;> trivial)
  have hru := (hr.grows (Machine.run_trail hu)).1
  obtain ⟨op, r, ho⟩ := hr.inv.pending_outstanding.mp hwait
  obtain ⟨op', r', ho'⟩ := hru.inv.pending_outstanding.mp hwait'
  exact ⟨s, u, hs, hu, hwait, hwait', request_rounds hr (Machine.run_trail hu) ho ho' hseq⟩

end Runs

end TrustTee
