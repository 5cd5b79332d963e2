import TrustTee.Calls
import TrustTee.Sequential
import TrustTee.Refinement
import Mathlib.Logic.Function.Iterate

set_option autoImplicit false

namespace TrustTee

variable {T V R : Type}

/-- What an operation gives back: a result to its caller, a result to the continuation, or
the value itself. -/
inductive Given (T R : Type) where
  | returned (r : R) : Given T R
  | passed (r : R) : Given T R
  | unit : Given T R
  | inner (t : T) : Given T R
  deriving DecidableEq, Repr

namespace Local

def apply (f : Body T R) : Body T R := f

def applyThen (f : Body T R) : Body T (Given T R) := (apply f).lift .passed

def applyWith (f : V → Body T R) (w : V) : Body T R := f w

def with_ (f : Body T R) : Body T R := f

def applyBatchMut (f : Body T Unit) : Nat → Body T Unit
  | 0, t => (t, .returned ())
  | n + 1, t =>
    match f t with
    | (t', .returned _) => applyBatchMut f n t'
    | (t', .panicked) => (t', .panicked)

def intoInner : Body T T := fun t => (t, .returned t)

/-- A fiber of a scope that is joined before the scope ends. -/
def launch (f : Body T R) : Body T R := f

def launchThen (f : Body T R) : Body T (Given T R) := (launch f).lift .passed

def call : TrustLike T V R → Body T (Given T R)
  | .apply f => (apply f).lift .returned
  | .applyThen f => applyThen f
  | .applyWith f w => (applyWith f w).lift .returned
  | .with_ f => (with_ f).lift .returned
  | .applyBatchMut f n => (applyBatchMut f n.toNat).lift (fun _ => .unit)
  | .launch f => (launch f).lift .returned
  | .launchThen f => launchThen f
  | .intoInner => intoInner.lift .inner

end Local

def callAll (call : TrustLike T V R → Body T (Given T R)) :
    List (TrustLike T V R) → T → T × List (Outcome (Given T R))
  | [], t => (t, [])
  | m :: ms, t =>
    match call m t with
    | (t', .returned g) => ((callAll call ms t').1, .returned g :: (callAll call ms t').2)
    | (t', .panicked) => (t', [.panicked])

namespace TrustLike

def Returns : TrustLike T V R → Prop
  | .apply f | .applyThen f | .with_ f | .launch f | .launchThen f => ∀ t, (f t).2 ≠ .panicked
  | .applyWith f w => ∀ t, (f w t).2 ≠ .panicked
  | .applyBatchMut f _ => ∀ t, (f t).2 ≠ .panicked
  | .intoInner => True

def give : TrustLike T V R → Option R → Option (Given T R)
  | .apply _, r | .applyWith _ _, r | .with_ _, r | .launch _, r => r.map .returned
  | .applyThen _, r | .launchThen _, r => r.map .passed
  | .applyBatchMut _ _, _ => some .unit
  | .intoInner, _ => none

end TrustLike

/-- An operation that leaves the trust to its caller, returns, and can send its argument. -/
structure TrustLike.Proper (bin : Bincode V) (m : TrustLike T V R) : Prop where
  plain : m ≠ .intoInner
  returns : m.Returns
  args : ∀ f w, m = .applyWith f w → ∃ args, bin.serialize w = some args

section Agreement

variable {bin : Bincode V} {m : TrustLike T V R} {ms : List (TrustLike T V R)}

theorem Outcome.returned_of_ne {S : Type} {out : Outcome S} (h : out ≠ .panicked) :
    ∃ r, out = .returned r := by
  cases out with
  | returned r => exact ⟨r, rfl⟩
  | panicked => exact absurd rfl h

theorem Body.lift_returned {S U : Type} {f : Body T S} {t : T} (k : S → U)
    (h : (f t).2 ≠ .panicked) :
    ∃ r, (f t).2 = .returned r ∧ f.lift k t = ((f t).1, .returned (k r)) := by
  obtain ⟨r, hr⟩ := Outcome.returned_of_ne h
  exact ⟨r, hr, by simp [Body.lift, hr, Outcome.map]⟩

theorem Body.lift_ne_panicked {S U : Type} {f : Body T S} (k : S → U)
    (h : ∀ t, (f t).2 ≠ .panicked) (t : T) : (f.lift k t).2 ≠ .panicked := by
  obtain ⟨r, _, hl⟩ := Body.lift_returned k (h t)
  simp [hl]

theorem Local.applyBatchMut_eq {f : Body T Unit} (h : ∀ t, (f t).2 ≠ .panicked) (n : Nat) (t : T) :
    Local.applyBatchMut f n t = ((fun t => (f t).1)^[n] t, .returned ()) := by
  induction n generalizing t with
  | zero => rfl
  | succ n ih =>
    obtain ⟨r, hr⟩ := Outcome.returned_of_ne (h t)
    have hf : f t = ((f t).1, .returned r) := by rw [← hr]
    rw [Local.applyBatchMut, hf]
    exact ih (f t).1

theorem Local.call_returns (h : m.Returns) (t : T) :
    ∃ g, Local.call m t = ((Local.call m t).1, .returned g) := by
  have lifted : ∀ {S : Type} {f : Body T S} (k : S → Given T R), (f t).2 ≠ .panicked →
      ∃ g, f.lift k t = ((f.lift k t).1, .returned g) := by
    intro S f k hf
    obtain ⟨r, _, hl⟩ := Body.lift_returned k hf
    exact ⟨k r, by rw [hl]⟩
  cases m with
  | apply f | applyThen f | with_ f | launch f | launchThen f => exact lifted _ (h t)
  | applyWith f w => exact lifted _ (h t)
  | applyBatchMut f n =>
    refine lifted _ ?_
    rw [Local.applyBatchMut_eq h]
    simp
  | intoInner => exact ⟨.inner t, rfl⟩

theorem callAll_concat (h : ∀ m ∈ ms, m.Returns) (t : T) :
    callAll Local.call (ms ++ [m]) t = ((Local.call m (callAll Local.call ms t).1).1,
      (callAll Local.call ms t).2 ++ [(Local.call m (callAll Local.call ms t).1).2]) := by
  induction ms generalizing t with
  | nil =>
    rcases hm : Local.call m t with ⟨t', g | _⟩ <;> simp [callAll, hm]
  | cons m' ms ih =>
    obtain ⟨g, hg⟩ := Local.call_returns (h m' (by simp)) t
    have hrest := ih (fun x hx => h x (by simp [hx])) (Local.call m' t).1
    have hcons : callAll Local.call (m' :: ms) t =
        ((callAll Local.call ms (Local.call m' t).1).1,
          .returned g :: (callAll Local.call ms (Local.call m' t).1).2) := by
      rw [callAll, hg]
    rw [hcons, List.cons_append, callAll, hg]
    simp only [hrest, List.cons_append]

/-- What the trustee does for a request that returns is what `Local` does. -/
theorem delegation_times (hm : m.Proper bin) (hbin : bin.RoundTrips) (t : T) :
    ((delegation bin).times m.op m.op.reps t).1 = (Local.call m t).1 ∧
      ∀ y, m.op.Answers ((delegation bin).times m.op m.op.reps t).2 y →
        ∃ o g, y = .result o ∧ m.give o = some g ∧ (Local.call m t).2 = .returned g := by
  obtain ⟨hplain, h, hargs⟩ := hm
  -- one execution of a closure that returns
  have single : ∀ {f : Body T R} (k : R → Given T R), m.op.reps = 1 → m.op.ran bin = f.lift some →
      (∀ y o, m.op.Answers (some (.returned o)) y → y = .result o) →
      Local.call m = f.lift k → m.give = Option.map k → (f t).2 ≠ .panicked →
      ((delegation bin).times m.op m.op.reps t).1 = (Local.call m t).1 ∧
      ∀ y, m.op.Answers ((delegation bin).times m.op m.op.reps t).2 y →
        ∃ o g, y = .result o ∧ m.give o = some g ∧ (Local.call m t).2 = .returned g := by
    intro f k hreps hran hans hcall hgive hf
    obtain ⟨r, hr, hl⟩ := Body.lift_returned k hf
    have hbody : (delegation bin).body m.op = f.lift some := hran
    have htimes : (delegation bin).times m.op m.op.reps t =
        ((f t).1, some (.returned (some r))) := by
      rw [hreps]
      simp [AtomicObject.Spec.times, hbody, Body.lift, hr, Outcome.map]
    rw [htimes, hcall, hgive, hl]
    exact ⟨rfl, fun y hy => ⟨some r, k r, hans y _ hy, rfl, rfl⟩⟩
  have first : ∀ y o, (∃ r, some (Outcome.returned o) = some (.returned r) ∧
      y = (.result r : Payload T R)) → y = .result o := by
    rintro y o ⟨r, ho, rfl⟩
    rw [Outcome.returned.inj (Option.some.inj ho)]
  cases m with
  | apply f => exact single .returned rfl rfl first rfl rfl (h t)
  | applyThen f => exact single .passed rfl rfl first rfl rfl (h t)
  | with_ f => exact single .returned rfl rfl first rfl rfl (h t)
  | applyWith f w =>
    obtain ⟨args, ha⟩ := hargs f w rfl
    have hran : Op.ran bin (.applyWith f w) = (f w).lift some := by
      simp [Op.ran, ha, hbin w args ha]
    exact single (f := f w) .returned rfl hran first rfl rfl (h t)
  | launch f | launchThen f =>
    refine single _ rfl rfl ?_ rfl rfl (h t)
    rintro y o ⟨out, hout, hy⟩
    exact hy o (Option.some.inj hout).symm
  | applyBatchMut f n =>
    have htimes : ∀ k, ((delegation bin).times (Op.applyBatchMut f n : Op T V R) k t).1 =
        (fun t => (f t).1)^[k] t := by
      intro k
      induction k with
      | zero => rfl
      | succ k ih =>
        rw [Function.iterate_succ_apply', ← ih]
        rfl
    refine ⟨?_, ?_⟩
    · rw [TrustLike.op, htimes]
      simp [Local.call, Body.lift, Local.applyBatchMut_eq h, Op.reps]
    · rintro y rfl
      exact ⟨none, .unit, rfl, rfl, by
        simp [Local.call, Body.lift, Local.applyBatchMut_eq h, Outcome.map]⟩
  | intoInner => exact absurd rfl hplain

theorem sequence_calls {v w : T} {l : List (Op T V R × Payload T R)} (hbin : bin.RoundTrips)
    (h : AtomicObject.Sequence (delegation bin) v l w) (hl : l.map Prod.fst = ms.map TrustLike.op)
    (hms : ∀ m ∈ ms, m.Proper bin) :
    ∃ (os : List (Option R)) (gs : List (Given T R)), l.map Prod.snd = os.map Payload.result ∧
      List.zipWith TrustLike.give ms os = gs.map some ∧
      callAll Local.call ms v = (w, gs.map Outcome.returned) := by
  induction h generalizing ms with
  | nil =>
    obtain rfl : ms = [] := by simpa using hl.symm
    exact ⟨[], [], rfl, rfl, rfl⟩
  | @snoc l w q y _ hy ih =>
    obtain ⟨ms, m, rfl⟩ : ∃ ms' m, ms = ms' ++ [m] := by
      rcases List.eq_nil_or_concat ms with rfl | ⟨ms', m, rfl⟩
      · simp at hl
      · exact ⟨ms', m, by simp⟩
    simp only [List.map_append, List.map_cons, List.map_nil] at hl
    obtain ⟨hfst, hq⟩ := List.append_inj' hl rfl
    obtain rfl : q = m.op := List.singleton_inj.mp hq
    have hproper : ∀ x ∈ ms, x.Proper bin := fun x hx => hms x (by simp [hx])
    obtain ⟨os, gs, hos, hgs, hall⟩ := ih hfst hproper
    obtain ⟨hw, hans⟩ := delegation_times (hms m (by simp)) hbin w
    obtain ⟨o, g, rfl, hg, hcall⟩ := hans y hy
    refine ⟨os ++ [o], gs ++ [g], ?_, ?_, ?_⟩
    · simp [hos]
    · have hlen : ms.length = os.length := by
        have h₁ := congrArg List.length hfst
        have h₂ := congrArg List.length hos
        simp only [List.length_map] at h₁ h₂
        omega
      rw [List.zipWith_append hlen, hgs]
      simp [hg]
    · rw [callAll_concat (fun x hx => (hproper x hx).returns), hall, hcall]
      have hreps : (delegation bin).reps m.op = m.op.reps := rfl
      simp [hreps, hw]

end Agreement

def World.outcome? (x : World T V R × Act T V R) : Option (Outcome (Option R)) :=
  match x.2 with
  | .ret k =>
    match x.1.stack k with
    | .direct r f _ :: _ => some (f (x.1.rt r).sys.prop).2
    | _ => none
  | _ => none

def lastResult (outs : List (Outcome (Option R))) : Option R :=
  match outs.getLast? with
  | some (.returned r) => r
  | _ => none

def TrustLike.directly (m : TrustLike T V R) (k : Task) (r c : Nat) : List (Act T V R) :=
  .call k m r c :: List.replicate (m.direct.elim 0 Prod.snd) (.ret k)

def World.shortcuts (bin : Bincode V) (k : Task) (r c : Nat) :
    List (TrustLike T V R) → World T V R → Option (World T V R × List (Given T R))
  | [], s => some (s, [])
  | m :: ms, s => do
    let trail := Machine.trail (World.step bin) s (m.directly k r c)
    let u ← Machine.run (World.step bin) s (m.directly k r c)
    let g ← m.give (lastResult (trail.filterMap World.outcome?))
    let v ← shortcuts bin k r c ms u
    some (v.1, g :: v.2)

/-- A task that may call operations of client `c` of runtime `r`, on that runtime's thread. -/
structure AtHome (s : World T V R) (k : Task) (t r c : Nat) : Prop where
  seat : s.seat k = some t
  inCode : s.inCode k = true
  idle : s.busy r c = false
  onTrustee : (s.entering t r c).onTrustee

def World.setProp (s : World T V R) (r : Nat) (p : T) : World T V R :=
  s.setRt r { s.rt r with sys := { (s.rt r).sys with prop := p } }

section Shortcuts

variable {bin : Bincode V} {k : Task} {t r c : Nat}
  {s : World T V R} {m : TrustLike T V R}

theorem AtHome.setProp (h : AtHome s k t r c) (p : T) (e : Entry) :
    AtHome ((s.setProp r p).log k e) k t r c := by
  obtain ⟨hseat, hcode, hidle, hon⟩ := h
  have hpc : ∀ r', (((s.setProp r p).log k e).rt r').sys.pc = (s.rt r').sys.pc := by
    intro r'
    by_cases hr : r' = r
    · subst hr
      simp [World.setProp, World.setRt, World.log]
    · simp [World.setProp, World.setRt, World.log, Function.update_of_ne hr]
  have hfiber : ∀ r', (((s.setProp r p).log k e).rt r').sys.fiber = (s.rt r').sys.fiber := by
    intro r'
    by_cases hr : r' = r
    · subst hr
      simp [World.setProp, World.setRt, World.log]
    · simp [World.setProp, World.setRt, World.log, Function.update_of_ne hr]
  have hwork : ∀ r', ((s.setProp r p).log k e).atWork r' = s.atWork r' := by
    intro r'
    unfold World.atWork
    rw [hpc]
    rfl
  have hstack : ((s.setProp r p).log k e).stack = s.stack := rfl
  have hdestroying : ((s.setProp r p).log k e).destroying = s.destroying := rfl
  refine ⟨hseat, ?_, ?_, hon⟩
  · unfold World.inCode at *
    simp only [hstack, hwork, hfiber, hdestroying]
    exact hcode
  · unfold World.busy at *
    simpa [World.setProp, World.setRt, World.log] using hidle

theorem World.ret_returned {f : Body T (Option R)} {n : Nat} {rest : List (Frame T R)}
    {o : Option R} (hseat : s.seat k = some t) (hstack : s.stack k = .direct r f (n + 1) :: rest)
    (ho : (f (s.rt r).sys.prop).2 = .returned o) :
    s.step bin (.ret k) = some ((s.setProp r (f (s.rt r).sys.prop).1).setStack k
      (if n = 0 then rest else .direct r f n :: rest)) ∧
    World.outcome? (s, Act.ret (V := V) k) = some (.returned o) := by
  refine ⟨?_, by simp only [World.outcome?, hstack, ho]⟩
  have hlast : n + 1 ≤ 1 ↔ n = 0 := by omega
  simp only [World.step, World.ret, hseat, hstack, ho, World.setProp, hlast, Nat.add_sub_cancel]

theorem World.rets {f : Body T (Option R)} (hf : ∀ t, (f t).2 ≠ .panicked) {rest : List (Frame T R)}
    (n : Nat) {s : World T V R} (hseat : s.seat k = some t)
    (hstack : s.stack k = .direct r f (n + 1) :: rest) :
    ∃ outs o, Machine.run (World.step bin) s (List.replicate (n + 1) (.ret k)) =
        some ((s.setProp r ((fun t => (f t).1)^[n + 1] (s.rt r).sys.prop)).setStack k rest) ∧
      (Machine.trail (World.step bin) s (List.replicate (n + 1) (.ret k))).filterMap
        World.outcome? = outs ++ [.returned o] ∧
      (f ((fun t => (f t).1)^[n] (s.rt r).sys.prop)).2 = .returned o := by
  induction n generalizing s with
  | zero =>
    obtain ⟨o, ho⟩ := Outcome.returned_of_ne (hf (s.rt r).sys.prop)
    obtain ⟨hret, hout⟩ := @World.ret_returned T V R bin k t r s f _ rest o hseat hstack ho
    refine ⟨[], o, ?_, ?_, ho⟩
    · simp [Machine.run, hret]
    · simp [Machine.trail, hret, hout]
  | succ n ih =>
    obtain ⟨o, ho⟩ := Outcome.returned_of_ne (hf (s.rt r).sys.prop)
    obtain ⟨hret, hout⟩ := @World.ret_returned T V R bin k t r s f _ rest o hseat hstack ho
    rw [if_neg (Nat.succ_ne_zero n)] at hret
    generalize hs' : (s.setProp r (f (s.rt r).sys.prop).1).setStack k
      (.direct r f (n + 1) :: rest) = s' at hret
    have hprop : (s'.rt r).sys.prop = (f (s.rt r).sys.prop).1 := by
      rw [← hs']
      simp [World.setStack, World.setProp, World.setRt]
    have hseat' : s'.seat k = some t := by rw [← hs']; exact hseat
    have hstack' : s'.stack k = .direct r f (n + 1) :: rest := by
      rw [← hs']
      simp [World.setStack]
    obtain ⟨outs, last, hrun, htrail, hlast⟩ := ih hseat' hstack'
    refine ⟨.returned o :: outs, last, ?_, ?_, ?_⟩
    · rw [List.replicate_succ, Machine.run, hret]
      refine hrun.trans ?_
      rw [hprop, ← hs', Function.iterate_succ_apply _ (n + 1)]
      simp [World.setStack, World.setProp, World.setRt]
    · rw [List.replicate_succ, Machine.trail, hret]
      simp only [List.filterMap_cons, hout, htrail, List.cons_append]
    · rw [Function.iterate_succ_apply, ← hprop]
      exact hlast

theorem TrustLike.direct_local {f : Body T (Option R)} {n : Nat} (hm : m.Returns)
    (hd : m.direct = some (f, n)) (p : T) :
    (∀ t, (f t).2 ≠ .panicked) ∧ (Local.call m p).1 = (fun t => (f t).1)^[n] p ∧
      (n = 0 → m.give none = some .unit ∧ (Local.call m p).2 = .returned .unit) ∧
      ∀ i, n = i + 1 → ∀ o, (f ((fun t => (f t).1)^[i] p)).2 = .returned o →
        ∃ g, m.give o = some g ∧ (Local.call m p).2 = .returned g := by
  -- the closure is called once
  have single : ∀ {f' : Body T R} (k : R → Given T R), (∀ t, (f' t).2 ≠ .panicked) →
      f = f'.lift some → n = 1 → Local.call m = f'.lift k → m.give = Option.map k →
      (∀ t, (f t).2 ≠ .panicked) ∧ (Local.call m p).1 = (fun t => (f t).1)^[n] p ∧
      (n = 0 → m.give none = some .unit ∧ (Local.call m p).2 = .returned .unit) ∧
      ∀ i, n = i + 1 → ∀ o, (f ((fun t => (f t).1)^[i] p)).2 = .returned o →
        ∃ g, m.give o = some g ∧ (Local.call m p).2 = .returned g := by
    rintro f' k hf rfl rfl hcall hgive
    refine ⟨Body.lift_ne_panicked some hf, by rw [hcall]; rfl, by simp, ?_⟩
    intro i hi o ho
    obtain rfl : i = 0 := by omega
    obtain ⟨r, hr, hl⟩ := Body.lift_returned k (hf p)
    have hsome : o = some r := by simpa [Body.lift, hr, Outcome.map, eq_comm] using ho
    exact ⟨k r, by rw [hgive, hsome]; rfl, by rw [hcall, hl]⟩
  cases m with
  | apply f' | with_ f' =>
    obtain ⟨rfl, rfl⟩ := Prod.mk.inj (Option.some.inj hd)
    exact single .returned hm rfl rfl rfl rfl
  | applyThen f' =>
    obtain ⟨rfl, rfl⟩ := Prod.mk.inj (Option.some.inj hd)
    exact single .passed hm rfl rfl rfl rfl
  | applyWith f' w =>
    obtain ⟨rfl, rfl⟩ := Prod.mk.inj (Option.some.inj hd)
    exact @single (f' w) .returned hm rfl rfl rfl rfl
  | applyBatchMut f' k =>
    obtain ⟨rfl, rfl⟩ := Prod.mk.inj (Option.some.inj hd)
    have hcall : Local.call (.applyBatchMut f' k : TrustLike T V R) p =
        ((fun t => (f' t).1)^[k.toNat] p, .returned .unit) := by
      simp [Local.call, Body.lift, Local.applyBatchMut_eq hm, Outcome.map]
    rw [hcall]
    exact ⟨Body.lift_ne_panicked _ hm, rfl, fun _ => ⟨rfl, rfl⟩, fun _ _ _ _ => ⟨.unit, rfl, rfl⟩⟩
  | launch f' | launchThen f' | intoInner => simp [TrustLike.direct] at hd

/-- A call through the shortcut does to the property, and gives to its caller, what `Local`
does. -/
theorem World.shortcut (h : AtHome s k t r c) (hm : m.Returns) (hd : m.direct.isSome = true) :
    ∃ g, Machine.run (World.step bin) s (m.directly k r c) =
        some ((s.setProp r (Local.call m (s.rt r).sys.prop).1).log k .shortcut) ∧
      m.give (lastResult ((Machine.trail (World.step bin) s (m.directly k r c)).filterMap
        World.outcome?)) = some g ∧ (Local.call m (s.rt r).sys.prop).2 = .returned g := by
  obtain ⟨hseat, hcode, hidle, hon⟩ := h
  have hentry : m.entry (s.entering t r c) = .shortcut := (m.entry_shortcut _).mpr ⟨hd, hon⟩
  obtain ⟨⟨f, n⟩, hdir⟩ := Option.isSome_iff_exists.mp hd
  obtain ⟨hf, hprop, hnone, hlast⟩ := TrustLike.direct_local hm hdir (s.rt r).sys.prop
  have hcalls : m.directly k r c = .call k m r c :: List.replicate n (.ret k) := by
    simp [TrustLike.directly, hdir]
  rw [hcalls]
  cases n with
  | zero =>
    have hstep : s.step bin (.call k m r c) = some (s.log k .shortcut) := by
      simp only [World.step, World.call, hseat, hcode, hidle, hentry, hdir]
      rfl
    obtain ⟨hg, hcall⟩ := hnone rfl
    refine ⟨.unit, ?_, ?_, hcall⟩
    · simp [Machine.run, hstep, hprop, World.setProp, World.setRt]
    · simpa [Machine.trail, hstep, World.outcome?, lastResult] using hg
  | succ n =>
    generalize hs' : (s.setStack k (.direct r f (n + 1) :: s.stack k)).log k .shortcut = s'
    have hstep : s.step bin (.call k m r c) = some s' := by
      rw [← hs']
      simp only [World.step, World.call, hseat, hcode, hidle, hentry, hdir]
      rfl
    have hrt : s'.rt = s.rt := by rw [← hs']; rfl
    have hstack : s'.stack k = .direct r f (n + 1) :: s.stack k := by
      rw [← hs']
      simp [World.setStack, World.log]
    obtain ⟨outs, o, hrun, htrail, ho⟩ := @World.rets T V R bin k t r f hf _ n s'
      (by rw [← hs']; exact hseat) hstack
    rw [hrt] at hrun ho
    obtain ⟨g, hg, hcall⟩ := hlast n rfl o ho
    refine ⟨g, ?_, ?_, hcall⟩
    · rw [Machine.run, hstep]
      refine hrun.trans ?_
      rw [hprop, ← hs']
      simp [World.setStack, World.setProp, World.setRt, World.log]
    · rw [Machine.trail, hstep]
      have hcall? : World.outcome? (s, .call k m r c) = none := rfl
      have hres : lastResult (outs ++ [.returned o]) = o := by simp [lastResult]
      simp only [List.filterMap_cons, hcall?, htrail, hres]
      exact hg

theorem World.shortcuts_local (ms : List (TrustLike T V R)) {s : World T V R}
    (h : AtHome s k t r c) (hms : ∀ m ∈ ms, m.Returns ∧ m.direct.isSome = true) :
    ∃ u gs, World.shortcuts bin k r c ms s = some (u, gs) ∧
      callAll Local.call ms (s.rt r).sys.prop = ((u.rt r).sys.prop, gs.map .returned) := by
  induction ms generalizing s with
  | nil => exact ⟨s, [], rfl, rfl⟩
  | cons m ms ih =>
    obtain ⟨hm, hd⟩ := hms m (by simp)
    obtain ⟨g, hrun, hg, hcall⟩ := @World.shortcut T V R bin k t r c s m h hm hd
    obtain ⟨u, gs, hrest, hlocal⟩ := ih (h.setProp (Local.call m (s.rt r).sys.prop).1 .shortcut)
      (fun x hx => hms x (by simp [hx]))
    refine ⟨u, g :: gs, ?_, ?_⟩
    · simp only [World.shortcuts, hrun, hg, hrest, Option.bind_eq_bind, Option.bind_some]
    · have hprop : (((s.setProp r (Local.call m (s.rt r).sys.prop).1).log k
          .shortcut).rt r).sys.prop = (Local.call m (s.rt r).sys.prop).1 := by
        simp [World.log, World.setProp, World.setRt]
      have hpair : Local.call m (s.rt r).sys.prop =
          ((Local.call m (s.rt r).sys.prop).1, .returned g) := by rw [← hcall]
      rw [hprop] at hlocal
      rw [callAll, hpair]
      simp [hlocal]

end Shortcuts

end TrustTee
