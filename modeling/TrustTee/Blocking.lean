import TrustTee.Calls
import TrustTee.Launching
import Mathlib.Data.Nat.Pairing

set_option autoImplicit false

namespace TrustTee

variable {T V R : Type}

/-- Each trustee loop has a thread of its own, for the whole run. -/
def Dedicated (seat : Task → Option Nat) : Prop :=
  ∀ r, ∃ t, t ≠ 0 ∧ seat (.trustee r) = some t ∧ ∀ k, seat k = some t → k = .trustee r

def World.WaitsOn (s : World T V R) (r r' : Nat) : Prop :=
  ∃ c, Frame.waiting r' c ∈ s.stack (.trustee r)

/-- Every call from code on a trustee's thread took the shortcut or panicked, and no
trustee waits, so that none waits for itself through others. -/
structure Unblocked (s : World T V R) : Prop where
  answers : ∀ r e, (Task.trustee r, e) ∈ s.calls →
    e = .shortcut ∨ e = .panic blockingProhibited
  never_waits : ∀ r r' c, Frame.waiting r' c ∉ s.stack (.trustee r)
  no_cycle : ∀ r, ¬ Relation.TransGen s.WaitsOn r r

/-- What code of trustee `r` may call on a handle of runtime `r'`: not `launch`, and
`with` on its own runtime only. -/
def TrustLike.Guards (r r' : Nat) : TrustLike T V R → Prop
  | .launch _ | .launchThen _ => False
  | .with_ _ => r' = r
  | _ => True

/-- A step that is not code on a trustee's thread waiting. The handle that `into_inner` has
taken is dropped by its panic. -/
def Guarded (s : World T V R) : Act T V R → Prop
  | .call (.trustee r) m r' c =>
    m.Guards r r' ∧ (m.consumes = true → ¬ (s.rt r').LastOwner c)
  | .deed (.trustee _) r' a => (s.rt r').drops a = false
  | _ => True

theorem TrustLike.entry_guarded {m : TrustLike T V R} {r r' : Nat} {e : Entering}
    (hm : m.Guards r r') (hmark : e.isTrusteeThread = true) (hown : r' = r → e.onTrustee) :
    m.entry e = .shortcut ∨ m.entry e = .panic blockingProhibited := by
  have hguard : ∀ rest, e.guarded rest = .panic blockingProhibited := by
    intro rest
    unfold Entering.guarded
    rw [if_pos hmark]
  have hlocal : ∀ rest, e.local_ (e.guarded rest) = .shortcut ∨
      e.local_ (e.guarded rest) = .panic blockingProhibited := by
    intro rest
    unfold Entering.local_
    split
    · exact .inl rfl
    · exact .inr (hguard rest)
  cases m with
  | launch f => exact hm.elim
  | launchThen f => exact hm.elim
  | with_ f =>
    left
    show e.local_ .publish = .shortcut
    unfold Entering.local_
    rw [if_pos (hown hm)]
  | intoInner => exact .inr (hguard _)
  | _ => exact hlocal .publish

theorem TrustLike.entry_unguarded {m : TrustLike T V R} {r r' : Nat} {e : Entering}
    (hm : ¬ m.Guards r r') (hother : r' ≠ r → ¬ e.onTrustee) :
    m.entry e = .publish := by
  cases m with
  | launch f => rfl
  | launchThen f => rfl
  | with_ f =>
    show e.local_ .publish = .publish
    unfold Entering.local_
    rw [if_neg (hother hm)]
  | _ => exact absurd trivial hm

def Started (s : World T V R) (r t : Nat) : Prop :=
  match s.phase r with
  | .spawned => s.atWork r = false ∧ s.trusteeId r = 0
  | .marked => s.atWork r = false ∧ s.trusteeId r = 0 ∧ s.isTrustee t = true
  | .identified => s.atWork r = false ∧ s.trusteeId r = t ∧ s.isTrustee t = true
  | .running => (s.destroying (.trustee r) = true → (s.rt r).sys.exited = true) ∧
      s.trusteeId r = t ∧ s.trusteeProp r = true ∧ s.isTrustee t = true
  | .ended => s.atWork r = false ∧ s.trusteeId r = t

structure Shielded (place : Task → Option Nat) (s : World T V R) : Prop where
  seat : s.seat = place
  started : ∀ r t, place (.trustee r) = some t → Started s r t
  nested : s.Nested
  answers : ∀ r e, (Task.trustee r, e) ∈ s.calls →
    e = .shortcut ∨ e = .panic blockingProhibited
  never_waits : ∀ r r' c, Frame.waiting r' c ∉ s.stack (.trustee r)

section Invariant

variable {place : Task → Option Nat} {bin : Bincode V} {s s' : World T V R} {a : Act T V R}

theorem Started.congr {r t : Nat} (h : Started s r t) (hphase : s'.phase r = s.phase r)
    (hid : s'.trusteeId r = s.trusteeId r) (hprop : s'.trusteeProp r = s.trusteeProp r)
    (hmark : s'.isTrustee t = s.isTrustee t)
    (hdestroying : s'.destroying (.trustee r) = s.destroying (.trustee r))
    (hpc : (s'.rt r).sys.pc = (s.rt r).sys.pc) : Started s' r t := by
  have hex : (s'.rt r).sys.exited = (s.rt r).sys.exited := by
    unfold Sys.exited
    rw [hpc]
  have hwork : s'.atWork r = s.atWork r := by
    unfold World.atWork
    rw [hpc, hdestroying]
  unfold Started at h ⊢
  rw [hphase, hid, hprop, hmark, hex, hwork, hdestroying]
  exact h

theorem Started.trusteeId {r t : Nat} (h : Started s r t) :
    s.trusteeId r = 0 ∨ s.trusteeId r = t := by
  unfold Started at h
  split at h
  · exact .inl h.2
  · exact .inl h.2.1
  · exact .inr h.2.1
  · exact .inr h.2.1
  · exact .inr h.2

theorem Started.running {r t : Nat} (h : Started s r t) (hwork : s.atWork r = true) :
    s.trusteeId r = t ∧ s.trusteeProp r = true ∧ s.isTrustee t = true := by
  unfold Started at h
  split at h
  case h_4 => exact h.2
  all_goals
    rw [hwork] at h
    exact absurd h.1 (by simp)

theorem Shielded.init (value : Nat → T) (entrusted : Nat → Bool) :
    Shielded place (World.init value entrusted place : World T V R) where
  seat := rfl
  started := by
    intro r t _
    refine ⟨?_, rfl⟩
    show (World.init value entrusted place : World T V R).atWork r = false
    unfold World.atWork World.init
    dsimp only
    split <;> rfl
  nested := fun _ h => absurd rfl h
  answers := by simp [World.init]
  never_waits := by simp [World.init]

theorem Shielded.unblocked (h : Shielded place s) : Unblocked s where
  answers := h.answers
  never_waits := h.never_waits
  no_cycle := by
    intro r hc
    obtain ⟨r', ⟨c, hw⟩, _⟩ := Relation.TransGen.head'_iff.mp hc
    exact h.never_waits r r' c hw

theorem Dedicated.apart (hp : Dedicated place) {r r' t t' : Nat}
    (ht : place (.trustee r) = some t) (ht' : place (.trustee r') = some t') (hne : r' ≠ r) :
    t' ≠ t := by
  rintro rfl
  obtain ⟨t'', _, hs, honly⟩ := hp r
  rw [ht] at hs
  obtain rfl := Option.some.inj hs
  exact hne (Task.trustee.inj (honly _ ht'))

theorem Shielded.entering (c : Nat) (hp : Dedicated place) (h : Shielded place s) {r r' t : Nat}
    (hc : s.inCode (.trustee r) = true) (ht : s.seat (.trustee r) = some t) :
    (s.entering t r' c).isTrusteeThread = true ∧
      (r' = r → (s.entering t r' c).onTrustee) ∧
      (r' ≠ r → ¬ (s.entering t r' c).onTrustee) := by
  obtain ⟨t', h0, hseat, honly⟩ := hp r
  rw [h.seat, hseat] at ht
  obtain rfl := Option.some.inj ht
  obtain ⟨hid, hprop, hmark⟩ := (h.started r t' hseat).running (h.nested.atWork hc)
  refine ⟨hmark, ?_, ?_⟩
  · rintro rfl
    exact ⟨by rwa [← hid] at h0, hid, hprop⟩
  · rintro hne ⟨hid0, heq, _⟩
    -- the id would belong to the other trustee's thread
    obtain ⟨t'', _, hseat', _⟩ := hp r'
    rcases (h.started r' t'' hseat').trusteeId with h0' | hk
    · exact hid0 h0'
    · obtain rfl : t'' = t' := hk.symm.trans heq
      exact hne (Task.trustee.inj (honly _ hseat'))

theorem Shielded.step_started (hp : Dedicated place) (h : Shielded place s)
    (hs : s.step bin a = some s') {r' t' : Nat} (ht' : place (.trustee r') = some t') :
    Started s' r' t' := by
  have hold : Started s r' t' := h.started r' t' ht'
  by_cases hstart : ∃ r, a = .start r
  · obtain ⟨r, rfl⟩ := hstart
    obtain ⟨t, hseat, hcases⟩ := World.start_cases hs
    have hplace : place (.trustee r) = some t := by rw [← h.seat]; exact hseat
    by_cases hrr : r' = r
    · subst hrr
      rw [hplace] at ht'
      obtain rfl := Option.some.inj ht'
      rcases hcases with ⟨hphase, rfl⟩ | ⟨hphase, rfl⟩ | ⟨hphase, rfl⟩ <;>
        simp only [Started, hphase] at hold <;>
        simp_all [Started, World.atWork]
    · have htt : t' ≠ t := hp.apart hplace ht' hrr
      rcases hcases with ⟨_, rfl⟩ | ⟨_, rfl⟩ | ⟨_, rfl⟩ <;>
        refine hold.congr ?_ ?_ ?_ ?_ rfl rfl <;>
        simp [Function.update_of_ne hrr, Function.update_of_ne htt]
  by_cases htrustee : ∃ r, a = .trustee r
  · obtain ⟨r, rfl⟩ := htrustee
    obtain ⟨t, hseat, hphase, _, hcases⟩ := World.trustee_cases hs
    have hplace : place (.trustee r) = some t := by rw [← h.seat]; exact hseat
    by_cases hrr : r' = r
    · subst hrr
      rw [hplace] at ht'
      obtain rfl := Option.some.inj ht'
      simp only [Started, hphase] at hold
      obtain ⟨hexited, hid, hprop, hmark⟩ := hold
      have notRunning : ∀ {x : Sys T V R}, x.exited = true → x.pc.runsClosure = false := by
        intro x hx
        by_contra hn
        rw [Sys.runsClosure_alive (by simpa using hn)] at hx
        cases hx
      rcases hcases with ⟨hd, rfl⟩ | ⟨hd, x, hx, ⟨_, rfl⟩ | ⟨hex, _, rfl⟩ | ⟨hex, rfl⟩⟩
      · have hrun := notRunning (hexited hd)
        simp [Started, World.finish, World.setDestroying, World.atWork, hrun, hid]
      · simp [Started, World.setRt, hphase, hd, hid, hprop, hmark]
      · simp [Started, World.setDestroying, World.setRt, hphase, hex, hid, hprop, hmark]
      · have hrun := notRunning hex
        simp [Started, World.finish, World.setRt, World.atWork, hd, hrun, hid]
    · have htt : t' ≠ t := hp.apart hplace ht' hrr
      rcases hcases with ⟨_, rfl⟩ | ⟨_, x, _, ⟨_, rfl⟩ | ⟨_, _, rfl⟩ | ⟨_, rfl⟩⟩ <;>
        refine hold.congr ?_ ?_ ?_ ?_ ?_ ?_ <;>
        simp [World.finish, World.setDestroying, World.setRt, Function.update_of_ne htt, hrr]
  · have haside := World.step_aside hs (fun r hr => hstart ⟨r, hr⟩)
      (fun r hr => htrustee ⟨r, hr⟩)
    exact hold.congr (by rw [haside.phase]) (by rw [haside.trusteeId])
      (by rw [haside.trusteeProp]) (by rw [haside.isTrustee]) (haside.destroying r')
      (haside.pc r')

theorem Shielded.answered (hp : Dedicated place) (h : Shielded place s) {m : TrustLike T V R}
    {r r' c t : Nat} (hg : m.Guards r r') (hcode : s.inCode (.trustee r) = true)
    (hseat : s.seat (.trustee r) = some t) : m.entry (s.entering t r' c) = .shortcut ∨
      m.entry (s.entering t r' c) = .panic blockingProhibited := by
  obtain ⟨hmark, hown, _⟩ := h.entering c hp hcode hseat
  exact TrustLike.entry_guarded hg hmark hown

theorem Shielded.step (hp : Dedicated place) (h : Shielded place s) (hg : Guarded s a)
    (hs : s.step bin a = some s') : Shielded place s' where
  seat := by rw [World.step_seat hs, h.seat]
  started := fun _ _ ht => h.step_started hp hs ht
  nested := h.nested.step hs
  answers := by
    intro r e hmem
    rcases World.step_calls hs with heq | ⟨k, m, r', c, t, e', rfl, hseat, hcode, heq, he⟩
    · exact h.answers r e (heq ▸ hmem)
    · rw [heq] at hmem
      rcases List.mem_append.mp hmem with hmem | hmem
      · exact h.answers r e hmem
      · obtain ⟨rfl, rfl⟩ := Prod.mk.inj (List.mem_singleton.mp hmem)
        have hentry := h.answered (c := c) hp hg.1 hcode hseat
        rcases he with rfl | he
        · exact hentry
        · simp [he] at hentry
  never_waits := by
    intro r r' c hmem
    have hold : ∀ r' c, Frame.waiting r' c ∉ s.stack (.trustee r) := h.never_waits r
    have hst := World.step_stack hs (.trustee r)
    generalize s'.stack (.trustee r) = fs at hst hmem
    cases hst with
    | same => exact hold r' c hmem
    | shortcut => exact hold r' c (by simpa using hmem)
    | @publish _ _ c' _ hseat hcode he =>
      have hentry := h.answered (c := c') hp hg.1 hcode hseat
      simp [he] at hentry
    | consumed _ hm hlast => exact hg.2 hm hlast
    | dropped _ hd =>
      have hkept := hg
      simp only [Guarded, hd] at hkept
      cases hkept
    | wait hstack => exact hold _ _ (by rw [hstack]; exact List.mem_cons_self)
    | ret hstack => exact hold r' c (by rw [hstack]; simpa using hmem)
    | back hstack => exact hold r' c (by rw [hstack]; exact List.mem_cons_of_mem _ hmem)

theorem Shielded.unguarded (hp : Dedicated place) (h : Shielded place s) (hg : ¬ Guarded s a)
    (hs : s.step bin a = some s') : ¬ Unblocked s' := by
  intro hu
  cases a with
  | call k m r' c =>
    cases k with
    | trustee r =>
      obtain ⟨t, hseat, hcode, _, hcases⟩ := World.call_cases hs
      by_cases hm : m.Guards r r'
      · obtain ⟨hmark, _⟩ := h.entering c hp hcode hseat
        obtain ⟨hconsumes, hlast⟩ : m.consumes = true ∧ (s.rt r').LastOwner c := by
          by_contra hn
          exact hg ⟨hm, fun h₁ h₂ => hn ⟨h₁, h₂⟩⟩
        have hentry : ∃ msg, m.entry (s.entering t r' c) = .panic msg := by
          cases m with
          | intoInner => exact ⟨blockingProhibited, if_pos hmark⟩
          | _ => cases hconsumes
        obtain ⟨msg, hentry⟩ := hentry
        rcases hcases with ⟨he, _⟩ | ⟨msg', _, ⟨_, w, hw, rfl⟩ | ⟨hno, _⟩⟩ | ⟨he, _⟩
        · rw [hentry] at he
          cases he
        · obtain ⟨p, _, ⟨_, rfl⟩ | ⟨hno, _⟩⟩ := World.deed_cases hw
          · exact hu.never_waits r r' (s.rt r').sys.created (by simp [World.setStack, World.log])
          · simp [Population.drops, hlast] at hno
        · rw [hconsumes] at hno
          cases hno
        · rw [hentry] at he
          cases he
      · obtain ⟨_, _, hother⟩ := h.entering c hp hcode hseat
        have he : m.entry (s.entering t r' c) = .publish := TrustLike.entry_unguarded hm hother
        rcases hcases with ⟨he', _⟩ | ⟨msg, he', _⟩ | ⟨_, ⟨p, _, rfl⟩ | ⟨_, rfl⟩⟩
        · rw [he] at he'
          cases he'
        · rw [he] at he'
          cases he'
        · exact hu.never_waits r r' c (by simp [World.setStack, World.log])
        · have hans := hu.answers r (.panic "bincode serialize") (by simp [World.log])
          simp [blockingProhibited] at hans
    | _ => exact hg trivial
  | deed k r' b =>
    cases k with
    | trustee r =>
      obtain ⟨_, _, hs⟩ := World.deed_step hs
      obtain ⟨p, _, ⟨_, rfl⟩ | ⟨hno, _⟩⟩ := World.deed_cases hs
      · exact hu.never_waits r r' (s.rt r').sys.created (by simp [World.setStack])
      · exact hg hno
    | _ => exact hg trivial
  | _ => exact hg trivial

end Invariant

/-- However closures call each other, no trustee waits in a run exactly if the code on the
trustees' threads calls neither `launch` nor, on another runtime, `with`, and lets go of no
last owner of a worker. -/
theorem trustees_never_block_iff {place : Task → Option Nat} (hp : Dedicated place)
    {bin : Bincode V} {value : Nat → T} {entrusted : Nat → Bool}
    {l : List (World T V R × Act T V R)} {u : World T V R}
    (h : Machine.Trace (World.step bin) (World.init value entrusted place) l u) :
    (∀ x ∈ Machine.visited l u, Unblocked x) ↔ ∀ x ∈ l, Guarded x.1 x.2 :=
  @Machine.Trace.exact _ _ _ _ _ _ (Shielded place) Unblocked Guarded
    (Shielded.init value entrusted) (fun _ _ _ ht ha hs => ht.step hp ha hs)
    (fun _ ht => ht.unblocked) (fun _ _ _ ht ha hs => ht.unguarded hp ha hs) h

def ownThreads : Task → Option Nat
  | .trustee r => some (2 * r + 1)
  | .other i => some (4 * i + 2)
  | .fiber r j => some (4 * Nat.pair r j + 4)

theorem ownThreads_dedicated : Dedicated ownThreads := by
  intro r
  refine ⟨2 * r + 1, by omega, rfl, ?_⟩
  intro k hk
  cases k with
  | trustee r' =>
    have : 2 * r' + 1 = 2 * r + 1 := Option.some.inj hk
    rw [show r' = r by omega]
  | other i =>
    have : 4 * i + 2 = 2 * r + 1 := Option.some.inj hk
    omega
  | fiber r' j =>
    have : 4 * Nat.pair r' j + 4 = 2 * r + 1 := Option.some.inj hk
    omega

def callsFromApply (m : TrustLike Nat UInt8 Nat) : List (Act Nat UInt8 Nat) :=
  List.replicate 3 (.start 0) ++ [.deed (.other 0) 0 (.cloneHandle 0),
    .call (.other 0) (.apply (fun t => (t + 1, .returned t))) 0 0, .wait (.other 0),
    .wait (.other 0)] ++ List.replicate 8 (.trustee 0) ++ [.call (.trustee 0) m 0 1]

def nestedWith : TrustLike Nat UInt8 Nat := .with_ (fun t => (t, .returned t))

theorem trustees_never_block_iff_nestedWith :
    ∃ l u, Machine.Trace (World.step byteBincode)
        (World.init (fun _ => 5) (fun _ => true) ownThreads) l u ∧
      l.map Prod.snd = callsFromApply nestedWith ∧
      ((∀ x ∈ Machine.visited l u, Unblocked x) ↔ ∀ x ∈ l, Guarded x.1 x.2) := by
  obtain ⟨u, hu⟩ := Machine.run_exists (show (Machine.run (World.step byteBincode)
    (World.init (fun _ => 5) (fun _ => true) ownThreads)
    (callsFromApply nestedWith)).isSome = true by decide)
  obtain ⟨l, hl, hm⟩ := Machine.run_trace hu
  exact ⟨l, u, hl, hm, trustees_never_block_iff ownThreads_dedicated hl⟩

/-- A closure that launches on its own trustee leaves the trustee waiting for itself. -/
theorem launch_waits_for_itself :
    ¬ ∀ (s : World Nat UInt8 Nat) l, Machine.Trace (World.step byteBincode)
      (World.init (fun _ => 5) (fun _ => true) ownThreads) l s → Unblocked s := by
  intro h
  obtain ⟨s, hs, hst⟩ : ∃ s, Machine.run (World.step byteBincode)
      (World.init (fun _ => 5) (fun _ => true) ownThreads)
      (callsFromApply (.launch (fun t => (t, .returned t)))) = some s ∧
      s.stack (.trustee 0) = [.waiting 0 1] := ⟨_, rfl, rfl⟩
  obtain ⟨l, hl, _⟩ := Machine.run_trace hs
  refine (h s l hl).no_cycle 0 (.single ⟨1, ?_⟩)
  rw [hst]
  exact List.mem_singleton.mpr rfl

end TrustTee
