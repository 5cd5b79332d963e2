import TrustTee.Orphans

/-!
The handles that come from one `Remote::entrust` through clones. They share the `Runtime`
with the worker; they may be moved anywhere, into closures sent through the family and into
the property as well. The last one that is dropped ends the worker.
-/

set_option autoImplicit false

namespace TrustTee
open Header

variable {T V R : Type}

/-- Code that may have handles: a thread or other code outside the worker, the closure of
the request on channel `c` (in the worker's loop or on a fiber), and the destructor of the
property, run by whoever drops its last `Arc`. -/
inductive Ctx where
  | outside (i : Nat) : Ctx
  | closure (c : Nat) : Ctx
  | teardown : Ctx
  deriving DecidableEq, Repr

/-- Where a handle is. Captures of a closure are held by it from its encoding on. -/
inductive Place where
  | held (x : Ctx) : Place
  | stored : Place
  | reply (c : Nat) : Place
  | dropped : Place
  deriving DecidableEq, Repr

structure Runtime where
  worker : Bool
  owners : Nat
  deriving DecidableEq, Repr

def Runtime.clone (_ : Runtime) : Runtime := ⟨false, 1⟩

/-- One `Arc` goes. With the last one `Runtime::drop` runs; the answer says whether it takes
a worker. -/
def Runtime.dropArc (rt : Runtime) : Runtime × Bool :=
  if rt.owners = 1 then (⟨false, 0⟩, rt.worker) else ({ rt with owners := rt.owners - 1 }, false)

/-- A family on its runtime. `user` and `stamp` say who started the operation in flight on a
channel, and when; `terminators` (a ghost) who ran the `Runtime::drop` that joins the
worker. -/
structure Family (T V R : Type) where
  sys : Sys T V R
  runtime : Runtime
  place : Nat → Place
  user : Nat → Ctx
  stamp : Nat → Nat
  clock : Nat
  terminators : List Ctx

inductive Move (T V R : Type) where
  | clone (x : Ctx) (c : Nat) : Move T V R
  | drop (x : Ctx) (c : Nat) : Move T V R
  | give (x : Ctx) (c : Nat) (p : Place) : Move T V R
  | call (x : Ctx) (c : Nat) (op : Op T V R) (captures : List Nat) : Move T V R
  | client (c : Nat) : Move T V R
  | trustee : Move T V R
  | fiber (j : Nat) : Move T V R

def ClientPc.calling (pc : ClientPc T V R) : Bool :=
  match pc.op? with
  | some .terminate | none => false
  | some _ => true

def ClientPc.terminating (pc : ClientPc T V R) : Bool :=
  match pc.op? with
  | some .terminate => true
  | _ => false

def Sys.loopRuns (s : Sys T V R) (c : Nat) : Bool :=
  match s.pc with
  | .inClosure b _ _ _ _ _ => b.chan == c
  | _ => false

def Sys.fiberRuns (s : Sys T V R) (j c : Nat) : Bool :=
  match s.jobs[j]?, s.fiber j with
  | some job, .running _ _ _ => job.chan == c
  | _, _ => false

def Sys.runs (s : Sys T V R) (c : Nat) : Bool :=
  s.loopRuns c || (List.range s.jobs.length).any (fun j => s.fiberRuns j c)

def Ctx.inside : Ctx → Bool
  | .outside _ => false
  | _ => true

def Ctx.mayGive : Ctx → Place → Bool
  | .closure c, .reply c' => c == c'
  | _, .reply _ | _, .dropped => false
  | _, _ => true

/-- `into_inner` is no operation of these runs, and the `fn` of a batch captures nothing. -/
def Op.sends : Op T V R → List Nat → Bool
  | .intoInner, _ | .terminate, _ => false
  | .applyBatchMut _ _, captures => captures.isEmpty
  | _, _ => true

namespace Family

def join (bin : Bincode V) (s : Family T V R) (x : Ctx) : Option (Family T V R) := do
  let y ← s.sys.sendTerminate bin
  some { s with sys := y, terminators := s.terminators ++ [x] }

/-- `Remote::entrust` and `Trust::entrust_with_pin` on thread `i`. The handle that
`Runtime::spawn` returns goes at the end, and with it the clone that it owns. -/
def entrust (bin : Bincode V) (value : T) (i : Nat) : Option (Family T V R) :=
  let rt : Runtime := ⟨true, 1⟩
  let s : Family T V R :=
    { sys := (Sys.init value).register
      runtime := rt
      place := Function.update (fun _ => .dropped) 0 (.held (.outside i))
      user := fun _ => .teardown
      stamp := fun _ => 0
      clock := 0
      terminators := [] }
  if rt.clone.dropArc.2 = true then s.join bin (.outside i) else some s

def blocked (s : Family T V R) (x : Ctx) : Bool :=
  (List.range s.sys.created).any (fun c =>
    (s.sys.client c).pc.calling && decide (s.user c = x))

def active (s : Family T V R) (x : Ctx) : Bool :=
  !s.blocked x && match x with
    | .outside _ => true
    | .closure c => s.sys.runs c
    | .teardown => decide (s.sys.strong = 0)

/-- The code gets at the property: a closure or the destructor does, and so does a caller on
the trustee's thread, by a handle that it keeps when the others are given away. -/
def atProperty (s : Family T V R) (x : Ctx) (others : List Nat) : Bool :=
  x.inside || (List.range s.sys.created).any (fun c =>
    decide (s.place c = .held x) && decide (c ∉ others))

def canUse (s : Family T V R) (x : Ctx) (c : Nat) : Bool :=
  decide (c < s.sys.created) && s.active x &&
    (decide (s.place c = .held x) || (decide (s.place c = .stored) && s.atProperty x []))

def settled (s : Family T V R) (c : Nat) : Bool :=
  !s.blocked (.closure c) &&
    (List.range s.sys.created).all (fun c' => decide (s.place c' ≠ .held (.closure c)))

def release (bin : Bincode V) (s : Family T V R) (x : Ctx) (c : Nat) : Option (Family T V R) :=
  let s' := { s with place := Function.update s.place c .dropped, runtime := s.runtime.dropArc.1 }
  if s.runtime.dropArc.2 = true then s'.join bin x else some s'

def step (bin : Bincode V) (s : Family T V R) : Move T V R → Option (Family T V R)
  | .clone x c =>
    if s.canUse x c = true then
      some { s with
        sys := s.sys.register
        runtime := { s.runtime with owners := s.runtime.owners + 1 }
        place := Function.update s.place s.sys.created (.held x) }
    else none
  | .drop x c => if s.canUse x c = true then s.release bin x c else none
  | .give x c p =>
    if s.canUse x c = true ∧ x.mayGive p = true ∧ (p = .stored → s.atProperty x [c] = true) then
      some { s with place := Function.update s.place c p }
    else none
  | .call x c op captures =>
    if s.canUse x c = true ∧ op.sends captures = true ∧ c ∉ captures ∧
        s.atProperty x captures = true ∧ ∀ c' ∈ captures, s.canUse x c' = true then do
      let y ← s.sys.issue bin c op
      some { s with
        sys := y
        place := fun c' => if c' ∈ captures then .held (.closure c) else s.place c'
        user := Function.update s.user c x
        stamp := Function.update s.stamp c s.clock
        clock := s.clock + 1 }
    else none
  | .client c => do
    let y ← s.sys.clientStep c
    match (s.sys.client c).pc with
    | .reading _ =>
      -- the handles in the result are the caller's now
      some { s with
        sys := y
        place := fun c' => if s.place c' = .reply c then .held (s.user c) else s.place c' }
    | _ => some { s with sys := y }
  | .trustee =>
    match s.sys.pc with
    | .inClosure b _ _ _ _ _ =>
      if s.settled b.chan = true then do
        let y ← s.sys.trusteeStep
        some { s with sys := y }
      else none
    | _ => do
      let y ← s.sys.trusteeStep
      some { s with sys := y }
  | .fiber j =>
    match s.sys.jobs[j]?, s.sys.fiber j with
    | some job, .running _ _ _ =>
      if s.settled job.chan = true then do
        let y ← s.sys.fiberStep j
        some { s with sys := y }
      else none
    | _, _ => do
      let y ← s.sys.fiberStep j
      some { s with sys := y }

end Family

/-- What the lifetime of a family promises, from the moment the request to terminate has
begun: there is one such request, every handle has been dropped, on every other channel the
ready bits match and no launch is unsignalled, and `Runtime::drop` is run outside the worker
and its fibers. -/
structure Lifetime (s : Family T V R) : Prop where
  once : s.terminators.length ≤ 1 ∧ ∀ c c', (s.sys.client c).pc.terminating = true →
    (s.sys.client c').pc.terminating = true → c = c'
  last : ∀ c c', (s.sys.client c).pc.terminating = true → s.place c' = .dropped
  quiet : ∀ c c', (s.sys.client c).pc.terminating = true → c' ≠ c →
    Quiet (s.sys.chan c') (Busy s.sys c')
  outside : ∀ x ∈ s.terminators, ∃ i, x = .outside i

theorem ClientPc.calling_iff {pc : ClientPc T V R} :
    pc.calling = true ↔ ∃ op, pc.op? = some op ∧ op ≠ .terminate := by
  unfold ClientPc.calling
  cases pc.op? with
  | none => simp
  | some op => cases op <;> simp

theorem ClientPc.terminating_iff {pc : ClientPc T V R} :
    pc.terminating = true ↔ pc.op? = some .terminate := by
  unfold ClientPc.terminating
  cases pc.op? with
  | none => simp
  | some op => cases op <;> simp

theorem ClientPc.op?_none {pc : ClientPc T V R} (hc : pc.calling = false)
    (ht : pc.terminating = false) : pc.op? = none := by
  cases hop : pc.op? with
  | none => rfl
  | some op => cases op <;> simp [ClientPc.calling, ClientPc.terminating, hop] at hc ht

def Sys.Stuck (s : Sys T V R) (c : Nat) : Prop :=
  s.exited = true ∧ ∃ op r, op ≠ .terminate ∧ Outstanding s c op r

section Worker

variable {bin : Bincode V} {w : Workload T V R} {value : T} {s s' : Sys T V R}

theorem Reachable.counted (h : Reachable bin w value s) : s.Counted :=
  h.invariant rfl (fun _ _ _ hc _ hs => Sys.step_counted hs hc)

theorem Sys.fiberRuns_iff {j c : Nat} : s.fiberRuns j c = true ↔
    ∃ job env args seq, s.jobs[j]? = some job ∧ s.fiber j = .running env args seq ∧
      job.chan = c := by
  unfold Sys.fiberRuns
  split
  · rename_i job _ _ _ hj hf
    simp [hj, hf]
  · rename_i hno
    simp only [Bool.false_eq_true, false_iff]
    rintro ⟨job, env, args, seq, hj, hf, _⟩
    exact hno job env args seq hj hf

theorem Sys.runs_iff {c : Nat} : s.runs c = true ↔
    s.loopRuns c = true ∨ ∃ j, s.fiberRuns j c = true := by
  unfold Sys.runs
  simp only [Bool.or_eq_true, List.any_eq_true, List.mem_range]
  refine or_congr_right ⟨fun ⟨j, _, h⟩ => ⟨j, h⟩, fun ⟨j, h⟩ => ⟨j, ?_, h⟩⟩
  obtain ⟨job, _, _, _, hj, _⟩ := Sys.fiberRuns_iff.mp h
  exact (List.getElem?_eq_some_iff.mp hj).1

theorem Inv.runs_calling (hi : Inv bin s) {c : Nat} (h : s.runs c = true) :
    (s.client c).pc.calling = true := by
  rw [ClientPc.calling_iff]
  rcases Sys.runs_iff.mp h with h | ⟨j, h⟩
  · unfold Sys.loopRuns at h
    split at h
    · rename_i b hdr k env args seq hpc
      obtain rfl := eq_of_beq h
      obtain ⟨op, ⟨hw, _, _⟩, hok⟩ := hi.serving b (by simp [hpc, TrusteePc.batch?])
      simp only [hpc, PcOk] at hok
      refine ⟨op, by simp [hw, ClientPc.op?], ?_⟩
      rintro rfl
      have hc := hi.client b.chan
      simp only [ClientOk, hw] at hc
      obtain ⟨hhdr, hcalled, _⟩ := hok
      rw [hhdr, (Op.encode_hdr hc.2.2.1).1] at hcalled
      simp [Op.hdr, RecordHeader.called] at hcalled
    · cases h
  · obtain ⟨job, env, args, seq, hj, hf, rfl⟩ := Sys.fiberRuns_iff.mp h
    obtain ⟨_, f, hw⟩ := hi.fiber_launches hj hf
    exact ⟨.launch f, by simp [hw, ClientPc.op?], by simp⟩

theorem Sys.runs_aside {a : Action T V R} (hs : s.step bin a = some s') (ha : a ≠ .trustee)
    (hf : ∀ j, a ≠ .fiber j) (c : Nat) : s'.runs c = s.runs c := by
  obtain ⟨hpc, _, _, hjobs, hfiber⟩ := (Sys.step_beside hs ha hf).worker
  simp only [Sys.runs, Sys.loopRuns, Sys.fiberRuns, hpc, hjobs, hfiber]

theorem Sys.trusteeStep_jobs (hs : s.trusteeStep = some s') {j : Nat} {job : Job}
    (hj : s.jobs[j]? = some job) : s'.jobs[j]? = some job ∧ s'.fiber j = s.fiber j := by
  have hlt : j < s.jobs.length := (List.getElem?_eq_some_iff.mp hj).1
  rcases Sys.trusteeStep_launches hs with ⟨hjobs, hfib⟩ | ⟨_, hjobs, hfib, _⟩
  · exact ⟨by rw [hjobs, hj], by rw [hfib]⟩
  · exact ⟨by rw [hjobs, List.getElem?_append_left hlt, hj],
      by rw [hfib, Function.update_of_ne (Nat.ne_of_lt hlt)]⟩

theorem Sys.runs_trustee (hs : s.trusteeStep = some s') {c : Nat} (h : s.runs c = true)
    (hend : s.loopRuns c = false) : s'.runs c = true := by
  rcases Sys.runs_iff.mp h with h | ⟨j, h⟩
  · rw [hend] at h
    cases h
  · obtain ⟨job, env, args, seq, hj, hf, hc⟩ := Sys.fiberRuns_iff.mp h
    obtain ⟨hj', hf'⟩ := Sys.trusteeStep_jobs hs hj
    exact Sys.runs_iff.mpr (.inr ⟨j, Sys.fiberRuns_iff.mpr
      ⟨job, env, args, seq, hj', hf'.trans hf, hc⟩⟩)

theorem Sys.runs_fiber {j : Nat} (hs : s.fiberStep j = some s') {c : Nat}
    (h : s.runs c = true) (hend : s.fiberRuns j c = false) : s'.runs c = true := by
  have hpc : s'.pc = s.pc :=
    (Sys.step_aside (show s.step (⟨fun _ => none, fun _ => none⟩ : Bincode V) (.fiber j) = some s'
      from hs) (by simp)).1
  obtain ⟨_, _, _, hjobs, _, hfib, _⟩ := Sys.fiberStep_frame hs
  rcases Sys.runs_iff.mp h with h | ⟨i, h⟩
  · refine Sys.runs_iff.mpr (.inl ?_)
    simpa only [Sys.loopRuns, hpc] using h
  · have hi : i ≠ j := by
      rintro rfl
      rw [hend] at h
      cases h
    refine Sys.runs_iff.mpr (.inr ⟨i, ?_⟩)
    simpa only [Sys.fiberRuns, hjobs, hfib i hi] using h

theorem Sys.Stuck.keep {c : Nat} (h : s.Stuck c) {a : Action T V R}
    (hs : s.step bin a = some s') : s'.Stuck c := by
  obtain ⟨hex, op, r, hop, ho⟩ := h
  have ha : a ≠ .trustee := by
    rintro rfl
    have := Sys.trusteeStep_alive hs
    simp [hex] at this
  exact ⟨(Sys.exited_aside hs ha).trans hex, op, r, hop, (ho.keep hs ha).1⟩

theorem ClientPc.Next.terminating {c : Nat} {a : Action T V R} {pc pc' : ClientPc T V R}
    (h : ClientPc.Next c a pc pc') (ht : pc.terminating = true) (hr : pc ≠ .reading .terminate) :
    pc'.terminating = true := by
  rw [ClientPc.terminating_iff] at ht ⊢
  cases h <;> simp_all [ClientPc.op?]

theorem Sys.step_terminating (hr : Reachable bin w value s) {a : Action T V R}
    (hs : s.step bin a = some s') {c : Nat} (h : (s.client c).pc.terminating = true) :
    (s'.client c).pc.terminating = true := by
  rcases Sys.step_client hs c with hcl | ⟨next, _⟩
  · rwa [hcl]
  · exact next.terminating h (hr.terminate_unread c)

/-- Without an `into_inner` in flight the worker ends because of a request to terminate, or
leaves the request of a closure that panicked. -/
theorem Inv.exits (hi : Inv bin s) (hs : s.trusteeStep = some s') (hex : s'.exited = true)
    (hd : ∀ c, (s.client c).pc.op? ≠ some .intoInner) :
    ∃ c, (s'.client c).pc.terminating = true ∨ s'.Stuck c := by
  obtain ⟨hcl, _, hcases⟩ := hi.trusteeStep_exits hs hex
  rcases hcases with ⟨b, hdr, k, env, args, seq, hpc, hout, _⟩ | ⟨b, r, hpc, _⟩ | ⟨b, hpc, _⟩
  · obtain ⟨op, ⟨hw, hready, hbusy⟩, hok⟩ := hi.serving b (by simp [hpc, TrusteePc.batch?])
    have hop : op ≠ .terminate := by
      rintro rfl
      obtain ⟨_, ho, hne⟩ := ClientPc.calling_iff.mp
        (hi.runs_calling (c := b.chan) (Sys.runs_iff.mpr (.inl (by simp [Sys.loopRuns, hpc]))))
      rw [hw] at ho
      exact hne (Option.some.inj ho).symm
    simp only [Sys.trusteeStep, hpc, hout, Option.some.injEq] at hs
    subst hs
    exact ⟨b.chan, .inr ⟨hex, op, b.reqReady, hop, hw, hready, hbusy⟩⟩
  · obtain ⟨op, ⟨hw, _, _⟩, hok⟩ := hi.serving b (by simp [hpc, TrusteePc.batch?])
    simp only [hpc, PcOk] at hok
    obtain ⟨rfl, _⟩ := hok
    exact absurd (by simp [hw, ClientPc.op?]) (hd b.chan)
  · obtain ⟨op, ⟨hw, _, _⟩, hok⟩ := hi.serving b (by simp [hpc, TrusteePc.batch?])
    simp only [hpc, PcOk] at hok
    subst hok
    exact ⟨b.chan, .inl (by simp [hcl, hw, ClientPc.terminating, ClientPc.op?])⟩

end Worker

def Family.Seat (s : Family T V R) (x : Ctx) (k : Nat) : Prop :=
  match x with
  | .outside i => ∃ c, s.place c = .held (.outside i)
  | .closure c => s.sys.runs c = true ∧ s.stamp c < k
  | .teardown => ∃ c, s.sys.Stuck c ∧ s.stamp c < k

/-- The strong count is the number of handles, and every operation in flight goes back to a
caller outside who has a handle. -/
structure Tended (bin : Bincode V) (value : T) (s : Family T V R) : Prop where
  reach : Reachable bin (fun _ _ => True) value s.sys
  owners : s.runtime.owners = Nat.count (fun c => s.place c ≠ .dropped) s.sys.created
  beyond : ∀ c, s.sys.created ≤ c → s.place c = .dropped
  callers : ∀ c, (s.sys.client c).pc.calling = true → s.Seat (s.user c) (s.stamp c)
  clock : ∀ c, (s.sys.client c).pc.calling = true → s.stamp c < s.clock
  delegated : ∀ c, (s.sys.client c).pc.op? ≠ some .intoInner
  quit : ∀ c, (s.sys.client c).pc.terminating = true → (∀ c', s.place c' = .dropped) ∧
    ∀ c', c' ≠ c → (s.sys.client c').pc.op? = none
  exited : s.sys.exited = true →
    ∃ c, (s.sys.client c).pc.terminating = true ∨ s.sys.Stuck c
  sent : s.terminators = [] ∨ (∃ i, s.terminators = [.outside i]) ∧
    ∃ c, (s.sys.client c).pc.terminating = true

theorem Sys.Stuck.calling {s : Sys T V R} {c : Nat} (h : s.Stuck c) :
    (s.client c).pc.calling = true := by
  obtain ⟨_, op, r, hop, hpc, _⟩ := h
  exact ClientPc.calling_iff.mpr ⟨op, by simp [hpc, ClientPc.op?], hop⟩

section Handles

variable {bin : Bincode V} {value : T} {s s' : Family T V R} {x : Ctx} {c : Nat}

theorem Family.active_blocked (h : s.active x = true) : s.blocked x = false := by
  simp only [Family.active, Bool.and_eq_true, Bool.not_eq_true'] at h
  exact h.1

theorem Family.canUse_iff : s.canUse x c = true ↔ c < s.sys.created ∧ s.active x = true ∧
    (s.place c = .held x ∨ s.place c = .stored ∧ s.atProperty x [] = true) := by
  simp [Family.canUse, and_assoc]

theorem Family.canUse_place (h : s.canUse x c = true) : s.place c ≠ .dropped := by
  obtain ⟨_, _, hp | ⟨hp, _⟩⟩ := Family.canUse_iff.mp h <;> simp [hp]

theorem Family.atProperty_iff {others : List Nat} : s.atProperty x others = true ↔
    x.inside = true ∨ ∃ c, c < s.sys.created ∧ s.place c = .held x ∧ c ∉ others := by
  simp [Family.atProperty]

theorem Tended.created (h : Tended bin value s) (hc : (s.sys.client c).pc.calling = true) :
    c < s.sys.created := by
  by_contra hge
  rw [h.reach.unregistered (Nat.le_of_not_lt hge)] at hc
  cases hc

theorem Tended.blocked (h : Tended bin value s) (hc : (s.sys.client c).pc.calling = true) :
    s.blocked (s.user c) = true := by
  simp only [Family.blocked, List.any_eq_true, List.mem_range, Bool.and_eq_true,
    decide_eq_true_eq]
  exact ⟨c, h.created hc, hc, rfl⟩

theorem Tended.not_terminating (h : Tended bin value s) (hp : s.place c ≠ .dropped) (c' : Nat) :
    (s.sys.client c').pc.terminating = false := by
  by_contra ht
  exact hp ((h.quit c' (by simpa using ht)).1 c)

theorem Tended.seat (h : Tended bin value s) (hx : s.active x = true)
    (hat : s.atProperty x [] = true) (hp : s.place c ≠ .dropped) : s.Seat x s.clock := by
  have hact := hx
  simp only [Family.active, Bool.and_eq_true] at hx
  cases x with
  | outside i =>
    rcases Family.atProperty_iff.mp hat with hin | ⟨c', _, hp', _⟩
    · cases hin
    · exact ⟨c', hp'⟩
  | closure c' =>
    exact ⟨hx.2, h.clock c' (h.reach.inv.runs_calling hx.2)⟩
  | teardown =>
    have hex : s.sys.exited = true := by
      have hcount := h.reach.counted
      unfold Sys.Counted at hcount
      have hzero : s.sys.strong = 0 := by simpa using hx.2
      by_contra hne
      rw [if_neg hne] at hcount
      omega
    obtain ⟨c', ht | hstuck⟩ := h.exited hex
    · rw [h.not_terminating hp] at ht
      cases ht
    · exact ⟨c', hstuck, h.clock c' hstuck.calling⟩

/-- Code inside the worker is there on behalf of a caller outside, who waits and has a
handle. The induction follows the callers back in time. -/
theorem Tended.anchored (h : Tended bin value s) : ∀ {k : Nat} {x : Ctx}, s.Seat x k →
    x.inside = true → ∃ c i, (s.sys.client c).pc.calling = true ∧ s.user c = .outside i ∧
      ∃ c', s.place c' = .held (.outside i) := by
  intro k
  induction k using Nat.strong_induction_on with
  | _ k ih =>
    intro x hseat hin
    have back : ∀ c, (s.sys.client c).pc.calling = true → s.stamp c < k →
        ∃ c i, (s.sys.client c).pc.calling = true ∧ s.user c = .outside i ∧
          ∃ c', s.place c' = .held (.outside i) := by
      intro c hc hlt
      have hcaller := h.callers c hc
      cases hu : s.user c with
      | outside i =>
        rw [hu] at hcaller
        exact ⟨c, i, hc, hu, hcaller⟩
      | closure c' =>
        rw [hu] at hcaller
        exact ih (s.stamp c) hlt hcaller rfl
      | teardown =>
        rw [hu] at hcaller
        exact ih (s.stamp c) hlt hcaller rfl
    cases x with
    | outside i => cases hin
    | closure c => exact back c (h.reach.inv.runs_calling hseat.1) hseat.2
    | teardown =>
      obtain ⟨c, hstuck, hlt⟩ := hseat
      exact back c hstuck.calling hlt

theorem Tended.last (h : Tended bin value s) (hu : s.canUse x c = true)
    (hone : s.runtime.owners = 1) :
    (∃ i, x = .outside i) ∧ ∀ c', (s.sys.client c').pc.calling = false := by
  obtain ⟨hlt, hact, hplace⟩ := Family.canUse_iff.mp hu
  rw [h.owners] at hone
  have idle : ∀ c', (s.sys.client c').pc.calling = false := by
    intro c'
    by_contra hc
    have hc : (s.sys.client c').pc.calling = true := by simpa using hc
    obtain ⟨c₀, i, hc₀, hu₀, d, hd⟩ : ∃ c i, (s.sys.client c).pc.calling = true ∧
        s.user c = .outside i ∧ ∃ c', s.place c' = .held (.outside i) := by
      have hseat := h.callers c' hc
      by_cases hin : (s.user c').inside = true
      · exact h.anchored hseat hin
      · cases hu : s.user c' with
        | outside i =>
          rw [hu] at hseat
          exact ⟨c', i, hc, hu, hseat⟩
        | _ => simp [hu, Ctx.inside] at hin
    have hd' : s.place d ≠ .dropped := by simp [hd]
    have hdlt : d < s.sys.created := by
      by_contra hge
      exact hd' (h.beyond d (Nat.le_of_not_lt hge))
    obtain rfl := Counting.count_one hone hdlt hlt hd' (Family.canUse_place hu)
    rcases hplace with hp | ⟨hp, _⟩
    · rw [hd] at hp
      injection hp with hp
      have := Family.active_blocked hact
      rw [← hp, ← hu₀, h.blocked hc₀] at this
      cases this
    · rw [hd] at hp
      cases hp
  have notInside : x.inside ≠ true := by
    intro hin
    have hseat := h.seat hact (Family.atProperty_iff.mpr (.inl hin)) (Family.canUse_place hu)
    obtain ⟨c₀, _, hc₀, _⟩ := h.anchored hseat hin
    rw [idle c₀] at hc₀
    cases hc₀
  refine ⟨?_, idle⟩
  cases x with
  | outside i => exact ⟨i, rfl⟩
  | _ => exact absurd rfl notInside

theorem Tended.move (h : Tended bin value s) {place : Nat → Place}
    (hx : s.active x = true)
    (hp : ∀ d, place d ≠ s.place d → s.place d = .held x ∨ s.place d = .stored)
    (hc : (s.sys.client c).pc.calling = true) :
    ({ s with place := place } : Family T V R).Seat (s.user c) (s.stamp c) := by
  have hseat := h.callers c hc
  cases hu : s.user c with
  | outside i =>
    rw [hu] at hseat
    obtain ⟨d, hd⟩ := hseat
    refine ⟨d, ?_⟩
    by_contra hne
    rcases hp d (fun he => hne (he.trans hd)) with hown | hst
    · rw [hd] at hown
      injection hown with hown
      have := Family.active_blocked hx
      rw [← hown, ← hu, h.blocked hc] at this
      cases this
    · rw [hd] at hst
      cases hst
  | _ =>
    rw [hu] at hseat
    exact hseat

theorem Family.entrust_eq (i : Nat) : (Family.entrust bin value i : Option (Family T V R)) =
    some { sys := (Sys.init value).register
           runtime := ⟨true, 1⟩
           place := Function.update (fun _ => .dropped) 0 (.held (.outside i))
           user := fun _ => .teardown
           stamp := fun _ => 0
           clock := 0
           terminators := [] } := rfl

theorem Tended.entrust {i : Nat} (h : Family.entrust bin value i = some s) :
    Tended bin value s := by
  rw [Family.entrust_eq] at h
  obtain rfl := Option.some.inj h
  refine ⟨Reachable.free Machine.Reach.start (a := .register) rfl, ?_, ?_, ?_, ?_, ?_, ?_, ?_,
    .inl rfl⟩
  · simp [Sys.register, Sys.init, Nat.count_succ]
  · intro c hc
    have hpos : 0 < c := hc
    simp [Function.update_of_ne hpos.ne']
  · intro c hc
    cases hc
  · intro c hc
    cases hc
  · intro c hc
    cases hc
  · intro c hc
    cases hc
  · intro hex
    cases hex

theorem Tended.advance (h : Tended bin value s) {a : Action T V R} {y : Sys T V R}
    {place : Nat → Place} (hs : s.sys.step bin a = some y) (ha : ∀ c op, a ≠ .issue c op)
    (hcreated : y.created = s.sys.created)
    (hdropped : ∀ c, place c = .dropped ↔ s.place c = .dropped)
    (hheld : ∀ c i, s.place c = .held (.outside i) → place c = .held (.outside i))
    (hruns : ∀ c c', (s.sys.client c).pc.calling = true → s.user c = .closure c' →
      s.sys.runs c' = true → y.runs c' = true)
    (hexit : y.exited = true → s.sys.exited = false →
      ∃ c, (y.client c).pc.terminating = true ∨ y.Stuck c) :
    Tended bin value { s with sys := y, place := place } := by
  have was : ∀ {c op}, (y.client c).pc.op? = some op → (s.sys.client c).pc.op? = some op := by
    intro c op hop
    rcases Sys.step_op hs hop with hop | he
    · exact hop
    · exact absurd he (ha c op)
  have wasCalling : ∀ {c}, (y.client c).pc.calling = true →
      (s.sys.client c).pc.calling = true := by
    intro c hc
    obtain ⟨op, hop, hne⟩ := ClientPc.calling_iff.mp hc
    exact ClientPc.calling_iff.mpr ⟨op, was hop, hne⟩
  constructor
  · exact h.reach.free hs
  · simp only [hcreated, h.owners]
    exact Counting.count_congr (fun c _ => not_congr (hdropped c).symm)
  · intro c hc
    rw [hcreated] at hc
    exact (hdropped c).mpr (h.beyond c hc)
  · intro c hc
    have hseat := h.callers c (wasCalling hc)
    cases hu : s.user c with
    | outside i =>
      rw [hu] at hseat
      obtain ⟨d, hd⟩ := hseat
      exact ⟨d, hheld d i hd⟩
    | closure c' =>
      rw [hu] at hseat
      exact ⟨hruns c c' (wasCalling hc) hu hseat.1, hseat.2⟩
    | teardown =>
      rw [hu] at hseat
      obtain ⟨d, hd, hlt⟩ := hseat
      exact ⟨d, hd.keep hs, hlt⟩
  · intro c hc
    exact h.clock c (wasCalling hc)
  · intro c hop
    exact h.delegated c (was hop)
  · intro c ht
    obtain ⟨hall, hothers⟩ :=
      h.quit c (ClientPc.terminating_iff.mpr (was (ClientPc.terminating_iff.mp ht)))
    refine ⟨fun c' => (hdropped c').mpr (hall c'), fun c' hc' => ?_⟩
    have hothers' := hothers c' hc'
    cases hop : (y.client c').pc.op? with
    | none => rfl
    | some op =>
      rw [was hop] at hothers'
      cases hothers'
  · intro hex
    by_cases hold : s.sys.exited = true
    · obtain ⟨c, ht | hstuck⟩ := h.exited hold
      · exact ⟨c, .inl (Sys.step_terminating h.reach hs ht)⟩
      · exact ⟨c, .inr (hstuck.keep hs)⟩
    · exact hexit hex (by simpa using hold)
  · rcases h.sent with hnone | ⟨hone, c, ht⟩
    · exact .inl hnone
    · exact .inr ⟨hone, c, Sys.step_terminating h.reach hs ht⟩

theorem Tended.put (h : Tended bin value s) (hu : s.canUse x c = true) {p : Place} {rt : Runtime}
    (hrt : rt.owners =
      Nat.count (fun d => Function.update s.place c p d ≠ .dropped) s.sys.created) :
    Tended bin value { s with place := Function.update s.place c p, runtime := rt } := by
  obtain ⟨hlt, hact, hplace⟩ := Family.canUse_iff.mp hu
  have hmove : ∀ d, Function.update s.place c p d ≠ s.place d →
      s.place d = .held x ∨ s.place d = .stored := by
    intro d hne
    by_cases hd : d = c
    · subst hd
      exact hplace.imp_right And.left
    · rw [Function.update_of_ne hd] at hne
      exact absurd rfl hne
  constructor
  · exact h.reach
  · exact hrt
  · intro d hd
    have hne : d ≠ c := (Nat.lt_of_lt_of_le hlt hd).ne'
    exact (Function.update_of_ne hne _ _).trans (h.beyond d hd)
  · intro d hd
    exact h.move hact hmove hd
  · exact h.clock
  · exact h.delegated
  · intro d ht
    have := h.not_terminating (Family.canUse_place hu) d
    rw [this] at ht
    cases ht
  · exact h.exited
  · exact h.sent

theorem Tended.clone (h : Tended bin value s) (hu : s.canUse x c = true) :
    Tended bin value { s with
      sys := s.sys.register
      runtime := { s.runtime with owners := s.runtime.owners + 1 }
      place := Function.update s.place s.sys.created (.held x) } := by
  have hfresh : s.place s.sys.created = .dropped := h.beyond _ (Nat.le_refl _)
  obtain ⟨_, hact, _⟩ := Family.canUse_iff.mp hu
  constructor
  · exact h.reach.free (a := .register) rfl
  · simp only [h.owners, Sys.register, Nat.count_succ, Function.update_self, ne_eq, reduceCtorEq,
      not_false_eq_true, ↓reduceIte]
    congr 1
    refine Counting.count_congr (fun d hd => ?_)
    rw [Function.update_of_ne hd.ne]
  · intro d hd
    have hlt : s.sys.created < d := hd
    exact (Function.update_of_ne hlt.ne' _ _).trans (h.beyond d hlt.le)
  · intro d hd
    have hseat := h.callers d hd
    cases huser : s.user d with
    | outside i =>
      rw [huser] at hseat
      obtain ⟨e, he⟩ := hseat
      refine ⟨e, (Function.update_of_ne ?_ _ _).trans he⟩
      rintro rfl
      rw [hfresh] at he
      cases he
    | _ =>
      rw [huser] at hseat
      exact hseat
  · exact h.clock
  · exact h.delegated
  · intro d ht
    have hno := h.not_terminating (Family.canUse_place hu) d
    exact absurd ht (by simp [Sys.register, hno])
  · exact h.exited
  · exact h.sent

theorem Tended.fewer (h : Tended bin value s) (hu : s.canUse x c = true) :
    s.runtime.owners =
      Nat.count (fun d => Function.update s.place c .dropped d ≠ .dropped) s.sys.created + 1 := by
  obtain ⟨hlt, _, _⟩ := Family.canUse_iff.mp hu
  rw [h.owners]
  refine Counting.count_flip hlt (fun d hd => ?_) (Family.canUse_place hu) (by simp)
  rw [Function.update_of_ne hd]

theorem Runtime.dropArc_owners (rt : Runtime) : rt.dropArc.1.owners = rt.owners - 1 := by
  unfold Runtime.dropArc
  split <;> simp_all

theorem Runtime.dropArc_ends {rt : Runtime} (h : rt.dropArc.2 = true) : rt.owners = 1 := by
  unfold Runtime.dropArc at h
  split at h
  · assumption
  · cases h

theorem Tended.drop (h : Tended bin value s) (hu : s.canUse x c = true)
    (hs : s.release bin x c = some s') : Tended bin value s' := by
  have hfewer := h.fewer hu
  have hkept : Tended bin value { s with
      place := Function.update s.place c .dropped, runtime := s.runtime.dropArc.1 } :=
    h.put hu (by rw [Runtime.dropArc_owners]; omega)
  unfold Family.release at hs
  dsimp only at hs
  split at hs
  · rename_i hends
    have hone := Runtime.dropArc_ends hends
    obtain ⟨⟨i, rfl⟩, hidle⟩ := h.last hu hone
    have hnot := h.not_terminating (Family.canUse_place hu)
    have hall : ∀ d, Function.update s.place c .dropped d = .dropped := by
      intro d
      by_cases hd : d < s.sys.created
      · have hzero : Nat.count (fun d => Function.update s.place c .dropped d ≠ .dropped)
            s.sys.created = 0 := by omega
        simpa using Nat.count_iff_forall_not.mp hzero d hd
      · exact hkept.beyond d (Nat.le_of_not_lt hd)
    obtain ⟨y, hy, hs⟩ := Option.bind_eq_some_iff.mp hs
    obtain rfl := Option.some.inj hs
    obtain ⟨_, _, hnew, hother⟩ := Sys.issue_spec hy
    have hother : ∀ d, d ≠ s.sys.created → y.client d = s.sys.client d := hother
    have hends : (y.client s.sys.created).pc.terminating = true := by
      simp [hnew, ClientPc.terminating, ClientPc.op?]
    have hcalling : ∀ d, (y.client d).pc.calling = false := by
      intro d
      by_cases hd : d = s.sys.created
      · simp [hd, hnew, ClientPc.calling, ClientPc.op?]
      · rw [hother d hd]
        exact hidle d
    have idle : ∀ d, d ≠ s.sys.created → (y.client d).pc.op? = none := by
      intro d hd
      rw [hother d hd]
      exact ClientPc.op?_none (hidle d) (hnot d)
    constructor
    · exact h.reach.sendTerminate hy
    · have hzero : Nat.count (fun d => Function.update s.place c .dropped d ≠ .dropped)
          y.created = 0 := Nat.count_iff_forall_not.mpr (fun d _ => by simp [hall d])
      simp only [Runtime.dropArc_owners, hone]
      exact hzero.symm
    · exact fun d _ => hall d
    · intro d hd
      exact absurd hd (by simp [hcalling d])
    · intro d hd
      exact absurd hd (by simp [hcalling d])
    · intro d hd
      by_cases hne : d = s.sys.created
      · simp [hne, hnew, ClientPc.op?] at hd
      · rw [idle d hne] at hd
        cases hd
    · intro d hd
      refine ⟨hall, fun d' hd' => idle d' ?_⟩
      rintro rfl
      rw [ClientPc.terminating_iff, idle d hd'.symm] at hd
      cases hd
    · exact fun _ => ⟨_, .inl hends⟩
    · rcases h.sent with hnone | ⟨_, d, hd⟩
      · exact .inr ⟨⟨i, by simp [hnone]⟩, _, hends⟩
      · rw [hnot d] at hd
        cases hd
  · obtain rfl := Option.some.inj hs
    exact hkept

/-- Active code starts an operation. The handles its closure captures leave it, but not the
one it is called by. -/
theorem Tended.call (h : Tended bin value s) {op : Op T V R} {captures : List Nat}
    (hu : s.canUse x c = true) (hop : op.sends captures = true)
    (hat : s.atProperty x captures = true) (hcap : ∀ d ∈ captures, s.canUse x d = true)
    {y : Sys T V R} (hs : s.sys.issue bin c op = some y) :
    Tended bin value { s with
      sys := y
      place := fun d => if d ∈ captures then .held (.closure c) else s.place d
      user := Function.update s.user c x
      stamp := Function.update s.stamp c s.clock
      clock := s.clock + 1 } := by
  obtain ⟨hlt, hact, _⟩ := Family.canUse_iff.mp hu
  obtain ⟨hidle, hcreated, hnew, hother⟩ := Sys.issue_spec hs
  have hstep : s.sys.step bin (.issue c op) = some y := hs
  have hnot := h.not_terminating (Family.canUse_place hu)
  have hends : op ≠ .intoInner ∧ op ≠ .terminate := by cases op <;> simp_all [Op.sends]
  have hne : ∀ {d}, (s.sys.client d).pc.calling = true → d ≠ c := by
    rintro d hd rfl
    rw [hidle] at hd
    cases hd
  have hruns := Sys.runs_aside hstep (by simp) (by simp)
  -- seats of the old state, with the captures gone, are seats of the new one
  have seated : ∀ {z : Ctx} {k : Nat}, ({ s with
      place := fun d => if d ∈ captures then .held (.closure c) else s.place d } :
      Family T V R).Seat z k → ({ s with
        sys := y
        place := fun d => if d ∈ captures then .held (.closure c) else s.place d
        user := Function.update s.user c x
        stamp := Function.update s.stamp c s.clock
        clock := s.clock + 1 } : Family T V R).Seat z k := by
    intro z k hz
    cases z with
    | outside i => exact hz
    | closure d =>
      refine ⟨(hruns d).trans hz.1, ?_⟩
      simpa [Function.update_of_ne (hne (h.reach.inv.runs_calling hz.1))] using hz.2
    | teardown =>
      obtain ⟨d, hstuck, hd⟩ := hz
      refine ⟨d, hstuck.keep hstep, ?_⟩
      simpa [Function.update_of_ne (hne hstuck.calling)] using hd
  constructor
  · exact h.reach.free hstep
  · simp only [hcreated, h.owners]
    refine Counting.count_congr (fun d _ => ?_)
    by_cases hd : d ∈ captures
    · simp [hd, Family.canUse_place (hcap d hd)]
    · simp [hd]
  · intro d hd
    rw [hcreated] at hd
    have hout : d ∉ captures := by
      intro hin
      exact absurd (Family.canUse_iff.mp (hcap d hin)).1 (Nat.not_lt_of_le hd)
    simpa [hout] using h.beyond d hd
  · intro d hd
    by_cases hdc : d = c
    · subst hdc
      simp only [Function.update_self]
      refine seated ?_
      cases x with
      | outside i =>
        rcases Family.atProperty_iff.mp hat with hin | ⟨e, _, he, hout⟩
        · cases hin
        · exact ⟨e, by simpa [hout] using he⟩
      | _ => exact h.seat hact (Family.atProperty_iff.mpr (.inl rfl)) (Family.canUse_place hu)
    · simp only [Function.update_of_ne hdc]
      refine seated (h.move hact (fun e he => ?_) (by rwa [hother d hdc] at hd))
      by_cases hin : e ∈ captures
      · exact (Family.canUse_iff.mp (hcap e hin)).2.2.imp_right And.left
      · simp [hin] at he
  · intro d hd
    by_cases hdc : d = c
    · subst hdc
      simp
    · rw [hother d hdc] at hd
      simp only [Function.update_of_ne hdc]
      exact Nat.lt_succ_of_lt (h.clock d hd)
  · intro d hd
    by_cases hdc : d = c
    · subst hdc
      simp only [hnew, ClientPc.op?, Option.some.injEq] at hd
      exact hends.1 hd
    · rw [hother d hdc] at hd
      exact h.delegated d hd
  · intro d hd
    by_cases hdc : d = c
    · subst hdc
      rw [ClientPc.terminating_iff] at hd
      simp only [hnew, ClientPc.op?, Option.some.injEq] at hd
      exact absurd hd hends.2
    · rw [hother d hdc, hnot d] at hd
      cases hd
  · intro hex
    have hold : s.sys.exited = true := (Sys.exited_aside hstep (by simp)).symm.trans hex
    obtain ⟨d, hd | hstuck⟩ := h.exited hold
    · rw [hnot d] at hd
      cases hd
    · exact ⟨d, .inr (hstuck.keep hstep)⟩
  · rcases h.sent with hnone | ⟨_, d, hd⟩
    · exact .inl hnone
    · rw [hnot d] at hd
      cases hd

theorem Family.blocked_closure (h : Tended bin value s) {d : Nat}
    (hd : (s.sys.client d).pc.calling = true) (hu : s.user d = .closure c) :
    s.settled c = false := by
  have := h.blocked hd
  rw [hu] at this
  simp [Family.settled, this]

theorem Tended.client (h : Tended bin value s) (hs : s.step bin (.client c) = some s') :
    Tended bin value s' := by
  obtain ⟨y, hy, hs⟩ := Option.bind_eq_some_iff.mp hs
  have hstep : s.sys.step bin (.client c) = some y := hy
  have hpc := (Sys.step_aside hstep (by simp)).1
  have hruns := Sys.runs_aside hstep (by simp) (by simp)
  have advance : ∀ place : Nat → Place, (∀ d, place d = .dropped ↔ s.place d = .dropped) →
      (∀ d i, s.place d = .held (.outside i) → place d = .held (.outside i)) →
      Tended bin value { s with sys := y, place := place } := by
    intro place hdropped hheld
    refine h.advance hstep (by simp) (Sys.clientStep_created hy) hdropped hheld
      (fun _ d _ _ hr => (hruns d).trans hr) (fun hex hold => ?_)
    unfold Sys.exited at hex hold
    rw [hpc, hold] at hex
    cases hex
  split at hs <;> obtain rfl := Option.some.inj hs
  · refine advance _ (fun d => ?_) (fun d i hd => by simp [hd])
    by_cases hd : s.place d = .reply c <;> simp [hd]
  · exact advance s.place (fun _ => Iff.rfl) (fun _ _ hd => hd)

theorem Tended.trustee (h : Tended bin value s) (hs : s.step bin .trustee = some s') :
    Tended bin value s' := by
  obtain ⟨y, hy, hends, rfl⟩ : ∃ y, s.sys.trusteeStep = some y ∧
      (∀ d, s.sys.loopRuns d = true → s.settled d = true) ∧ s' = { s with sys := y } := by
    simp only [Family.step] at hs
    split at hs
    · rename_i hpc
      split at hs
      · rename_i hset
        obtain ⟨y, hy, hs⟩ := Option.bind_eq_some_iff.mp hs
        refine ⟨y, hy, fun d hd => ?_, (Option.some.inj hs).symm⟩
        simp only [Sys.loopRuns, hpc, beq_iff_eq] at hd
        exact hd ▸ hset
      · simp at hs
    · rename_i hout
      obtain ⟨y, hy, hs⟩ := Option.bind_eq_some_iff.mp hs
      refine ⟨y, hy, fun d hd => ?_, (Option.some.inj hs).symm⟩
      unfold Sys.loopRuns at hd
      split at hd
      · exact absurd ‹_› (hout _ _ _ _ _ _)
      · cases hd
  refine h.advance (a := .trustee) hy (by simp) (Sys.trusteeStep_frame hy).2.1
    (fun _ => Iff.rfl) (fun _ _ hd => hd) (fun d e hd hu hr => ?_)
    (fun hex _ => h.reach.inv.exits hy hex h.delegated)
  refine Sys.runs_trustee hy hr ?_
  by_contra hloop
  have hset := hends e (by simpa using hloop)
  rw [Family.blocked_closure h hd hu] at hset
  cases hset

theorem Tended.fiber (h : Tended bin value s) {j : Nat}
    (hs : s.step bin (.fiber j) = some s') : Tended bin value s' := by
  obtain ⟨y, hy, hends, rfl⟩ : ∃ y, s.sys.fiberStep j = some y ∧
      (∀ d, s.sys.fiberRuns j d = true → s.settled d = true) ∧ s' = { s with sys := y } := by
    simp only [Family.step] at hs
    split at hs
    · rename_i hj hf
      split at hs
      · rename_i hset
        obtain ⟨y, hy, hs⟩ := Option.bind_eq_some_iff.mp hs
        refine ⟨y, hy, fun d hd => ?_, (Option.some.inj hs).symm⟩
        simp only [Sys.fiberRuns, hj, hf, beq_iff_eq] at hd
        exact hd ▸ hset
      · simp at hs
    · rename_i hout
      obtain ⟨y, hy, hs⟩ := Option.bind_eq_some_iff.mp hs
      refine ⟨y, hy, fun d hd => ?_, (Option.some.inj hs).symm⟩
      obtain ⟨_, _, _, _, hj, hf, _⟩ := Sys.fiberRuns_iff.mp hd
      exact absurd hf (hout _ _ _ _ hj)
  have hstep : s.sys.step bin (.fiber j) = some y := hy
  refine h.advance hstep (by simp) (Sys.fiberStep_aside hy).2.2.2
    (fun _ => Iff.rfl) (fun _ _ hd => hd) (fun d e hd hu hr => ?_) (fun hex hold => ?_)
  · refine Sys.runs_fiber hy hr ?_
    by_contra hrun
    have hset := hends e (by simpa using hrun)
    rw [Family.blocked_closure h hd hu] at hset
    cases hset
  · rw [Sys.exited_aside hstep (by simp), hold] at hex
    cases hex

theorem Tended.step (h : Tended bin value s) {m : Move T V R} (hs : s.step bin m = some s') :
    Tended bin value s' := by
  cases m with
  | clone x c =>
    simp only [Family.step] at hs
    split at hs <;> simp only [Option.some.injEq, reduceCtorEq] at hs
    exact hs ▸ h.clone ‹_›
  | drop x c =>
    simp only [Family.step] at hs
    split at hs
    · exact h.drop ‹_› hs
    · simp at hs
  | give x c p =>
    simp only [Family.step] at hs
    split at hs <;> simp only [Option.some.injEq, reduceCtorEq] at hs
    rename_i hcond
    obtain ⟨hu, hgive, _⟩ := hcond
    subst hs
    refine h.put hu (h.owners.trans (Counting.count_congr (fun d _ => ?_)))
    have hp : p ≠ .dropped := by
      rintro rfl
      cases x <;> simp [Ctx.mayGive] at hgive
    by_cases hd : d = c
    · subst hd
      simp [hp, Family.canUse_place hu]
    · rw [Function.update_of_ne hd]
  | call x c op captures =>
    simp only [Family.step] at hs
    split at hs
    · rename_i hcond
      obtain ⟨hu, hop, _, hat, hcap⟩ := hcond
      obtain ⟨y, hy, hs⟩ := Option.bind_eq_some_iff.mp hs
      exact Option.some.inj hs ▸ h.call hu hop hat hcap hy
    · simp at hs
  | client c => exact h.client hs
  | trustee => exact h.trustee hs
  | fiber j => exact h.fiber hs

theorem Tended.lifetime (h : Tended bin value s) : Lifetime s where
  once := by
    refine ⟨?_, fun c c' hc hc' => ?_⟩
    · rcases h.sent with hnone | ⟨⟨i, hone⟩, _⟩
      · simp [hnone]
      · simp [hone]
    · by_contra hne
      rw [ClientPc.terminating_iff, (h.quit c hc).2 c' (Ne.symm hne)] at hc'
      cases hc'
  last := fun c c' hc => (h.quit c hc).1 c'
  quiet := by
    intro c c' hc hne
    have hop := (h.quit c hc).2 c' hne
    have hok := h.reach.inv.client c'
    unfold ClientOk at hok
    cases hpc : (s.sys.client c').pc <;> simp_all [ClientPc.op?]
  outside := by
    intro x hx
    rcases h.sent with hnone | ⟨⟨i, hone⟩, _⟩
    · simp [hnone] at hx
    · exact ⟨i, by simpa [hone] using hx⟩

end Handles

/-- The lifetime of a family from one `Remote::entrust`, whatever is done with its handles. -/
theorem family_lifetime {bin : Bincode V} {value : T} {i : Nat} {s₀ s : Family T V R}
    (h₀ : Family.entrust bin value i = some s₀)
    (h : Machine.Reach (Family.step bin) (fun _ _ => True) s₀ s) : Lifetime s :=
  (h.invariant (Tended.entrust h₀) (fun _ _ _ ht _ hs => ht.step hs)).lifetime

def launchAndDrop : List (Move Nat UInt8 Nat) :=
  [.clone (.outside 0) 0, .clone (.outside 0) 0, .give (.outside 0) 1 (.held (.outside 1)),
    .give (.outside 0) 2 (.held (.outside 1)),
    .call (.outside 1) 1 (.launch (fun t => (t, .returned t))) [2], .client 1, .client 1] ++
  List.replicate 12 .trustee ++
  [.fiber 0, .drop (.closure 1) 2, .fiber 0, .fiber 0, .fiber 0, .client 1, .client 1,
    .drop (.outside 0) 0, .drop (.outside 1) 1, .client 3, .client 3]

theorem family_lifetime_launchAndDrop : ∃ s₀ s : Family Nat UInt8 Nat,
    Family.entrust byteBincode 5 0 = some s₀ ∧
    Machine.run (Family.step byteBincode) s₀ launchAndDrop = some s ∧
    s.terminators = [.outside 1] ∧ (s.sys.client 3).pc.terminating = true ∧
    ready (s.sys.chan 3).reqWord = true ∧ Lifetime s := by
  have hrun : ((Family.entrust byteBincode 5 0).bind
      (fun s₀ => Machine.run (Family.step byteBincode) s₀ launchAndDrop)).map
      (fun s => (s.terminators, (s.sys.client 3).pc.terminating, ready (s.sys.chan 3).reqWord)) =
      some ([.outside 1], true, true) := by decide +kernel
  obtain ⟨s, hs, hends⟩ := Option.map_eq_some_iff.mp hrun
  obtain ⟨s₀, h₀, hs⟩ := Option.bind_eq_some_iff.mp hs
  simp only [Prod.mk.injEq] at hends
  obtain ⟨hwho, hends, hsent⟩ := hends
  refine ⟨s₀, s, h₀, hs, hwho, hends, hsent, ?_⟩
  exact family_lifetime h₀ ((Machine.run_reach hs).weaken (fun _ _ _ => trivial))

end TrustTee
