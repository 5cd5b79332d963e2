import TrustTee.Saturation
import TrustTee.Liveness

set_option autoImplicit false

namespace TrustTee
open Header

variable {T V R : Type}

/-- A run from the start of a sweep during which no client is added to the list and every
visit finds a request. -/
structure Saturated (bin : Bincode V) (n : Nat) (s : Sys T V R)
    (l : List (Sys T V R × Action T V R)) (u : Sys T V R) : Prop where
  run : Machine.Trace (Sys.step bin) s l u
  enters : s.pc = .sweep n 0
  listed : u.clients.length = n
  found : false ∉ sweepFound l

section Steps

variable {bin : Bincode V} {s s' : Sys T V R}

theorem Sys.trusteeStep_startIdx (h : s.trusteeStep = some s') (hv : s.pc.visiting? = none) :
    s'.startIdx = s.startIdx := by
  have enters : ∀ x : Sys T V R, x.enterSweep.startIdx = x.startIdx := fun _ => rfl
  unfold Sys.trusteeStep at h
  cases hpc : s.pc with
  | loop =>
    simp only [hpc] at h
    split at h <;> obtain rfl := Option.some.inj h <;> rfl
  | drain d | sweep n offs =>
    simp only [hpc] at h
    repeat' split at h
    all_goals
      obtain rfl := Option.some.inj h
      rfl
  | loadedReq n offs idx c w =>
    simp only [hpc] at h
    split at h <;> simp only [Option.some.injEq, reduceCtorEq] at h
    subst h
    obtain ⟨_, _, _, he⟩ := s.visit_frame n offs idx _ w _
    rw [he]
  | exited cause => simp [hpc] at h
  | _ => simp [hpc, TrusteePc.visiting?] at hv

end Steps

/-- How far a saturated run has got: the visits it has made are those of the round robin
whose every visit serves. -/
structure Worn (n start : Nat) (l : List (Sys T V R × Action T V R)) (t : Sys T V R) : Prop where
  visits : ∃ k, sweepVisits l = (List.range k).map (RoundRobin.place n start)
  between : ∀ m offs, t.pc = .sweep m offs → m = n ∧ offs ≤ n ∧
    (sweepFound l).length % n = offs % n ∧
    t.startIdx = RoundRobin.start n start (sweepFound l).length ∧
    sweepVisits l = (List.range (sweepFound l).length).map (RoundRobin.place n start)
  loaded : ∀ m offs idx c w, t.pc = .loadedReq m offs idx c w → m = n ∧
    (sweepFound l).length % n = offs ∧
    idx = RoundRobin.place n start (sweepFound l).length ∧
    t.startIdx = RoundRobin.start n start (sweepFound l).length ∧
    sweepVisits l = (List.range ((sweepFound l).length + 1)).map (RoundRobin.place n start)
  serving : ∀ b, t.pc.visiting? = some b → b.n = n ∧
    ∃ k, (sweepFound l).length = k + 1 ∧ k % n = b.offs ∧
      b.idx = RoundRobin.place n start k ∧
      sweepVisits l = (List.range (k + 1)).map (RoundRobin.place n start)
  outside : t.pc = .loop ∨ (∃ d, t.pc = .drain d) → (sweepFound l).length % n = 0 ∧
    t.startIdx = RoundRobin.start n start (sweepFound l).length ∧
    sweepVisits l = (List.range (sweepFound l).length).map (RoundRobin.place n start)

section Runs

variable {bin : Bincode V} {w : Workload T V R} {value : T} {s t u v : Sys T V R}
  {l : List (Sys T V R × Action T V R)} {n start : Nat}

theorem Worn.at_sweep {offs : Nat} (hpc : t.pc = .sweep n offs) (ho : offs ≤ n)
    (hv : (sweepFound l).length % n = offs % n)
    (hstart : t.startIdx = RoundRobin.start n start (sweepFound l).length)
    (hvis : sweepVisits l = (List.range (sweepFound l).length).map (RoundRobin.place n start)) :
    Worn n start l t := by
  constructor
  · exact ⟨_, hvis⟩
  · intro m offs' hpc'
    obtain ⟨rfl, rfl⟩ := TrusteePc.sweep.inj (hpc.symm.trans hpc')
    exact ⟨rfl, ho, hv, hstart, hvis⟩
  · simp [hpc]
  · simp [hpc, TrusteePc.visiting?]
  · simp [hpc]

theorem Worn.at_loaded {offs idx c : Nat} {reqWord : Word}
    (hpc : t.pc = .loadedReq n offs idx c reqWord) (hv : (sweepFound l).length % n = offs)
    (hidx : idx = RoundRobin.place n start (sweepFound l).length)
    (hstart : t.startIdx = RoundRobin.start n start (sweepFound l).length)
    (hvis : sweepVisits l =
      (List.range ((sweepFound l).length + 1)).map (RoundRobin.place n start)) :
    Worn n start l t := by
  constructor
  · exact ⟨_, hvis⟩
  · simp [hpc]
  · intro m offs' idx' c' reqWord' hpc'
    obtain ⟨rfl, rfl, rfl, rfl, rfl⟩ := TrusteePc.loadedReq.inj (hpc.symm.trans hpc')
    exact ⟨rfl, hv, hidx, hstart, hvis⟩
  · simp [hpc, TrusteePc.visiting?]
  · simp [hpc]

theorem Worn.at_serving {b : Batch} (hb : t.pc.visiting? = some b) (hn : b.n = n) {k : Nat}
    (hk : (sweepFound l).length = k + 1) (ho : k % n = b.offs)
    (hidx : b.idx = RoundRobin.place n start k)
    (hvis : sweepVisits l = (List.range (k + 1)).map (RoundRobin.place n start)) :
    Worn n start l t := by
  constructor
  · exact ⟨_, hvis⟩
  · intro m offs hpc
    simp [hpc, TrusteePc.visiting?] at hb
  · intro m offs idx c reqWord hpc
    simp [hpc, TrusteePc.visiting?] at hb
  · intro b' hb'
    obtain rfl := Option.some.inj (hb.symm.trans hb')
    exact ⟨hn, k, hk, ho, hidx, hvis⟩
  · rintro (hpc | ⟨d, hpc⟩) <;> simp [hpc, TrusteePc.visiting?] at hb

theorem Worn.at_outside (hpc : t.pc = .loop ∨ ∃ d, t.pc = .drain d)
    (hv : (sweepFound l).length % n = 0)
    (hstart : t.startIdx = RoundRobin.start n start (sweepFound l).length)
    (hvis : sweepVisits l = (List.range (sweepFound l).length).map (RoundRobin.place n start)) :
    Worn n start l t := by
  constructor
  · exact ⟨_, hvis⟩
  · rcases hpc with hpc | ⟨d, hpc⟩ <;> simp [hpc]
  · rcases hpc with hpc | ⟨d, hpc⟩ <;> simp [hpc]
  · rcases hpc with hpc | ⟨d, hpc⟩ <;> simp [hpc, TrusteePc.visiting?]
  · exact fun _ => ⟨hv, hstart, hvis⟩

theorem Worn.at_exit {cause : Exit} (hpc : t.pc = .exited cause)
    (hvis : ∃ k, sweepVisits l = (List.range k).map (RoundRobin.place n start)) :
    Worn n start l t := by
  constructor
  · exact hvis
  all_goals simp [hpc, TrusteePc.visiting?]

theorem Worn.step (hi : Inv bin t) (hstart : start < n) (h : Worn n start l t) {a : Action T V R}
    (hs : t.step bin a = some v) (hlen : v.clients.length = n)
    (hfound : false ∉ sweepFound (l ++ [(t, a)])) : Worn n start (l ++ [(t, a)]) v := by
  have hpos : 0 < n := by omega
  by_cases ha : a = .trustee
  · subst ha
    -- a step that begins no visit and makes no test
    have quiet : visited? (t, Action.trustee) = none → found? (t, Action.trustee) = none →
        sweepVisits (l ++ [(t, Action.trustee)]) = sweepVisits l ∧
          sweepFound (l ++ [(t, Action.trustee)]) = sweepFound l := by
      intro hv hf
      rw [sweepVisits_concat, sweepFound_concat, hv, hf]
      simp
    cases Sys.trusteeStep_sweeps hs with
    | between hpc =>
      obtain ⟨hv, hst, hvis⟩ := h.outside hpc
      have hkeep : v.startIdx = t.startIdx := by
        refine Sys.trusteeStep_startIdx hs ?_
        rcases hpc with hpc | ⟨d, hpc⟩ <;> rw [hpc] <;> rfl
      obtain ⟨hl, hl'⟩ := quiet (by rcases hpc with hpc | ⟨d, hpc⟩ <;> simp only [visited?, hpc])
        (by rcases hpc with hpc | ⟨d, hpc⟩ <;> simp only [found?, hpc])
      rw [← hl', ← hl] at hvis
      rw [← hl'] at hv hst
      rcases Sys.trusteeStep_between hs hpc with ⟨d, hpc', _⟩ | ⟨hpc', _⟩ | hpc'
      · exact .at_outside (.inr ⟨d, hpc'⟩) hv (hkeep.trans hst) hvis
      · exact .at_outside (.inl hpc') hv (hkeep.trans hst) hvis
      · rw [hlen] at hpc'
        exact .at_sweep hpc' (Nat.zero_le n) (by rw [hv, Nat.zero_mod]) (hkeep.trans hst) hvis
    | @load m offs cp reqWord hpc hlt hcp hpc' hkeep =>
      obtain ⟨rfl, _, hv, hst, hvis⟩ := h.between _ _ hpc
      have hidx : visited? (t, Action.trustee) =
          some (RoundRobin.index m t.startIdx offs) := by simp only [visited?, hpc, if_pos hlt]
      have hf : found? (t, Action.trustee) = none := by simp only [found?, hpc]
      have hl : sweepFound (l ++ [(t, Action.trustee)]) = sweepFound l := by
        rw [sweepFound_concat, hf]
        simp
      rw [Nat.mod_eq_of_lt hlt] at hv
      have hplace : RoundRobin.index m t.startIdx offs =
          RoundRobin.place m start (sweepFound l).length := by
        rw [RoundRobin.place, hv, hst]
      refine .at_loaded hpc' (by rw [hl, hv]) (by rw [hl, hplace]) (by rw [hl, hkeep, hst]) ?_
      rw [sweepVisits_concat, hidx, hl, hvis, hplace, List.range_succ, List.map_append]
      rfl
    | @finish m offs hpc hlt hpc' =>
      obtain ⟨rfl, ho, hv, hst, hvis⟩ := h.between _ _ hpc
      obtain rfl : offs = m := by omega
      obtain ⟨hl, hl'⟩ := quiet (by simp only [visited?, hpc, if_neg hlt])
        (by simp only [found?, hpc])
      have hkeep := Sys.trusteeStep_startIdx hs (by rw [hpc]; rfl)
      refine .at_outside (.inl hpc') (by rw [hl', hv, Nat.mod_self]) (by rw [hl', hkeep, hst]) ?_
      rw [hl, hl', hvis]
    | @pass m offs idx c cp reqWord hpc hcp hf _ _ =>
      refine absurd ?_ hfound
      have : found? (t, Action.trustee) = some false := by
        simp only [found?, hpc, hcp, Option.map_some, hf]
      rw [sweepFound_concat, this]
      simp
    | @take m offs idx c cp reqWord b hpc hcp hf hpc' hn ho hidx =>
      obtain ⟨rfl, hv, hplace, hst, hvis⟩ := h.loaded _ _ _ _ _ hpc
      have hf' : found? (t, Action.trustee) = some true := by
        simp only [found?, hpc, hcp, Option.map_some, hf]
      have hv' : visited? (t, Action.trustee) = none := by simp only [visited?, hpc]
      have hl : (sweepFound (l ++ [(t, Action.trustee)])).length = (sweepFound l).length + 1 := by
        rw [sweepFound_concat, hf']
        simp
      refine .at_serving (b := b) (by rw [hpc']; rfl) hn hl (by rw [hv, ho])
        (by rw [hidx, hplace]) ?_
      rw [sweepVisits_concat, hv', hvis]
      simp
    | serve hb hb' hn ho hidx =>
      obtain ⟨hn', k, hk, hk', hplace, hvis⟩ := h.serving _ hb
      obtain ⟨hl, hl'⟩ := quiet (visited?_serving hb).1 (visited?_serving hb).2
      exact .at_serving hb' (hn.trans hn') (by rw [hl', hk]) (by rw [hk', ho])
        (by rw [hidx, hplace]) (by rw [hl, hvis])
    | @served b hb hpc' hst =>
      obtain ⟨rfl, k, hk, hk', hplace, hvis⟩ := h.serving _ hb
      obtain ⟨hl, hl'⟩ := quiet (visited?_serving hb).1 (visited?_serving hb).2
      have hlt : k % b.n < b.n := Nat.mod_lt _ hpos
      refine .at_sweep hpc' (by omega) ?_ ?_ ?_
      · rw [hl', hk, ← hk', Nat.mod_add_mod]
      · rw [hl', hk, hst, RoundRobin.start_succ hstart, hplace]
      · rw [hl, hl', hk, hvis]
    | @exit cause hpc' =>
      have hex : v.exited = true := by simp [Sys.exited, hpc']
      obtain ⟨b, hb⟩ : ∃ b, t.pc.visiting? = some b := by
        rcases (hi.trusteeStep_exits hs hex).2.2 with ⟨b, _, _, _, _, _, hpc, _⟩ | ⟨b, _, hpc, _⟩ |
          ⟨b, hpc, _⟩ <;> exact ⟨b, by rw [hpc]; rfl⟩
      obtain ⟨hl, _⟩ := quiet (visited?_serving hb).1 (visited?_serving hb).2
      exact .at_exit hpc' (hl ▸ h.visits)
  · obtain ⟨hpc, _, hst, _⟩ := Sys.step_aside hs ha
    have hv : visited? (t, a) = none := by cases a <;> first | rfl | exact absurd rfl ha
    have hf : found? (t, a) = none := by cases a <;> first | rfl | exact absurd rfl ha
    have hl : sweepVisits (l ++ [(t, a)]) = sweepVisits l := by
      rw [sweepVisits_concat, hv]
      simp
    have hl' : sweepFound (l ++ [(t, a)]) = sweepFound l := by
      rw [sweepFound_concat, hf]
      simp
    constructor
    · rw [hl]
      exact h.visits
    · rw [hpc, hst, hl, hl']
      exact h.between
    · rw [hpc, hst, hl, hl']
      exact h.loaded
    · rw [hpc, hl, hl']
      exact h.serving
    · rw [hpc, hst, hl, hl']
      exact h.outside

theorem Outstanding.passed_by (hr : Reachable bin w value t) {c : Nat} {op : Op T V R} {r : Bool}
    (ho : Outstanding t c op r) {a : Action T V R} (hs : t.step bin a = some v)
    (hnot : ∀ b, t.pc.visiting? = some b → b.idx ≠ c) : Outstanding v c op r := by
  by_cases ha : a = .trustee
  · subst ha
    have hi := hr.inv
    have helse : ∀ b, t.pc.visiting? = some b → Visiting t.clients t.startIdx b → b.chan ≠ c := by
      rintro b hb ⟨_, _, hl⟩ rfl
      exact hnot b hb (hr.located hl)
    have hcl := (Sys.trusteeStep_frame hs).1
    have hpc : (v.client c).pc = .waiting op r := by rw [hcl]; exact ho.1
    have hfour := hi.pending_outstanding.mpr ⟨op, r, ho⟩
    -- neither the response word nor the jobs of this channel change
    have hresp : (v.chan c).respWord = (t.chan c).respWord := by
      rcases Sys.trusteeStep_respWord hs c with he | ⟨b, hb, hchan⟩
      · exact he
      · have hshape := hi.shape
        obtain ⟨hv, hvis⟩ : t.pc.visiting? = some b ∧ Visiting t.clients t.startIdx b := by
          cases hpc : t.pc <;> simp [hpc, TrusteePc.batch?] at hb <;>
            simp only [hpc, Shape] at hshape <;> simp_all [TrusteePc.visiting?]
        exact absurd hchan (helse b hv hvis)
    have hjobs : ∀ job ∈ v.jobs, job.chan = c → job ∈ t.jobs := by
      intro job hj hc
      rcases (Sys.trusteeStep_frame hs).2.2.2 with he | ⟨b, hrec, hleft, hv⟩
      · exact he ▸ hj
      · have hshape := hi.shape
        simp only [hrec, Shape] at hshape
        have hb := helse b (by rw [hrec]; rfl) hshape.1
        obtain ⟨op', _, he, _⟩ := hi.recordStep_taken hrec hleft
        rw [hv, he] at hj
        cases op' with
        | launch f =>
          rcases List.mem_append.mp hj with hj | hj
          · exact hj
          · obtain rfl := List.mem_singleton.mp hj
            exact absurd hc hb
        | _ => exact hj
    have hfour' : v.pending c = 4 := by
      rw [Sys.pending_waiting ho.1] at hfour
      rw [Sys.pending_waiting hpc, hresp, hcl]
      split at hfour
      · simp at hfour
      rename_i hne
      split at hfour
      · simp at hfour
      rename_i hno
      rw [if_neg hne, if_neg]
      rintro ⟨job, hj, hjc⟩
      exact hno ⟨job, hjobs job hj hjc.1, hjc⟩
    obtain ⟨op', r', ho'⟩ := (hi.step (a := .trustee) hs).pending_outstanding.mp hfour'
    obtain ⟨rfl, rfl⟩ := ClientPc.waiting.inj (hpc.symm.trans ho'.1)
    exact ho'
  · exact (ho.keep hs ha).1

/-- Along a saturated run the visits are those of the round robin, and a request to a place
that it misses is not served. -/
theorem Saturated.worn (hr : Reachable bin w value s) (h : Saturated bin n s l u) :
    Worn n s.startIdx l u ∧ ∀ c op r, (∀ k, RoundRobin.place n s.startIdx k ≠ c) →
      Outstanding s c op r → Outstanding u c op r := by
  have hshape := hr.inv.shape
  simp only [h.enters, Shape] at hshape
  obtain ⟨hn, hstart⟩ := hshape
  suffices key : ∀ {l : List (Sys T V R × Action T V R)} {u : Sys T V R},
      Machine.Trace (Sys.step bin) s l u → u.clients.length ≤ n → false ∉ sweepFound l →
      Worn n s.startIdx l u ∧ ∀ c op r, (∀ k, RoundRobin.place n s.startIdx k ≠ c) →
        Outstanding s c op r → Outstanding u c op r from key h.run h.listed.le h.found
  intro l u hrun
  induction hrun with
  | start =>
    exact fun _ _ => ⟨.at_sweep h.enters (Nat.zero_le n) rfl rfl rfl, fun _ _ _ _ ho => ho⟩
  | @next l t v a ht hs ih =>
    intro hle hf
    obtain ⟨htr, hge, _⟩ := hr.grows ht
    obtain ⟨_, hgrow, _⟩ := htr.grows (Machine.Trace.start.next hs)
    have hf' : false ∉ sweepFound l := by
      rw [sweepFound_concat] at hf
      exact fun hm => hf (List.mem_append_left _ hm)
    obtain ⟨hworn, hout⟩ := ih (by omega) hf'
    refine ⟨hworn.step htr.inv hstart hs (by omega) hf, fun c op r hmiss ho => ?_⟩
    refine (hout c op r hmiss ho).passed_by htr hs (fun b hb => ?_)
    obtain ⟨_, k, _, _, hidx, _⟩ := hworn.serving b hb
    rw [hidx]
    exact hmiss k

end Runs

/-- When every visit finds a request, the clients share the trustee if and only if there is a
power of two of them: then each is visited in any two sweeps that follow one another, and
otherwise there is one that is never visited, whose published request waits for as long as
the others keep the trustee busy. -/
theorem saturated_sweeps {bin : Bincode V} {w : Workload T V R} {value : T} {s : Sys T V R}
    (h : Reachable bin w value s) {n : Nat} (hpc : s.pc = .sweep n 0) :
    ((∃ a, n = 2 ^ a) → ∀ l u, Saturated bin n s l u → ∀ q,
      (q + 2) * n ≤ (sweepVisits l).length →
      ∀ i, i < n → i ∈ ((sweepVisits l).drop (q * n)).take (2 * n)) ∧
    ((¬ ∃ a, n = 2 ^ a) → ∃ i, i < n ∧ ∀ l u, Saturated bin n s l u → i ∉ sweepVisits l ∧
      ∀ op r, Outstanding s i op r → Outstanding u i op r) := by
  have hshape := h.inv.shape
  simp only [hpc, Shape] at hshape
  have hstart := hshape.2
  constructor
  · rintro ⟨a, rfl⟩ l u hsat q hlen i hi
    obtain ⟨k, hk⟩ := (hsat.worn h).1.visits
    obtain ⟨v, hle, hlt, hplace⟩ := RoundRobin.place_covers hstart q hi
    rw [hk, List.length_map, List.length_range] at hlen
    rw [hk, ← List.map_drop, ← List.map_take, List.mem_map]
    refine ⟨v, ?_, hplace⟩
    rw [List.mem_iff_getElem?]
    refine ⟨v - q * 2 ^ a, ?_⟩
    have hsum : (q + 2) * 2 ^ a = q * 2 ^ a + 2 * 2 ^ a := Nat.add_mul q 2 (2 ^ a)
    rw [List.getElem?_take_of_lt (by omega), List.getElem?_drop,
      Nat.add_sub_cancel' hle, List.getElem?_range (by omega)]
  · intro hn
    obtain ⟨i, hi, hmiss⟩ := RoundRobin.place_misses hstart hn
    refine ⟨i, hi, fun l u hsat => ?_⟩
    obtain ⟨hworn, hout⟩ := hsat.worn h
    refine ⟨?_, fun op r ho => hout i op r hmiss ho⟩
    obtain ⟨k, hk⟩ := hworn.visits
    rw [hk, List.mem_map]
    rintro ⟨v, _, hv⟩
    exact hmiss v hv

def publishesAgain (c : Nat) : List (Action Nat UInt8 Nat) :=
  [.client c, .client c, .issue c (.apply (fun t => (t + 1, .returned t))), .client c, .client c]

def keptUp : List (Action Nat UInt8 Nat) :=
  List.replicate 8 .trustee ++ publishesAgain 0 ++ List.replicate 18 .trustee ++
    publishesAgain 1 ++ List.replicate 2 .trustee

theorem saturated_sweeps_published :
    (∃ (s u : Sys Nat UInt8 Nat) (l : List (Sys Nat UInt8 Nat × Action Nat UInt8 Nat)),
      Saturated byteBincode 2 s l u ∧ sweepVisits l = [0, 0, 1, 1] ∧
        ∀ i, i < 2 → i ∈ ((sweepVisits l).drop (0 * 2)).take (2 * 2)) ∧
    ∃ (s u : Sys Nat UInt8 Nat) (l : List (Sys Nat UInt8 Nat × Action Nat UInt8 Nat)),
      Saturated byteBincode 3 s l u ∧ sweepVisits l = [0, 2, 2] ∧
        ∃ i, i < 3 ∧ i ∉ sweepVisits l ∧
          ∀ op r, Outstanding s i op r → Outstanding u i op r := by
  constructor
  · obtain ⟨s, u, hs, hu, henters, hlisted, hfound, hvisits⟩ : ∃ s u,
        Machine.run (Sys.step byteBincode) (Sys.init 5) (published 2 [0, 1]) = some s ∧
        Machine.run (Sys.step byteBincode) s keptUp = some u ∧
        s.pc = .sweep 2 0 ∧ u.clients.length = 2 ∧
        false ∉ sweepFound (Machine.trail (Sys.step byteBincode) s keptUp) ∧
        sweepVisits (Machine.trail (Sys.step byteBincode) s keptUp) = [0, 0, 1, 1] :=
      ⟨_, _, rfl, rfl, rfl, rfl, by decide +kernel, rfl⟩
    have hsat : Saturated byteBincode 2 s _ u := ⟨Machine.run_trail hu, henters, hlisted, hfound⟩
    have htwo : (0 + 2) * 2 ≤
        (sweepVisits (Machine.trail (Sys.step byteBincode) s keptUp)).length := by
      rw [hvisits]
      decide
    exact ⟨s, u, _, hsat, hvisits,
      (saturated_sweeps (published_reachable hs) henters).1 ⟨1, rfl⟩ _ u hsat 0 htwo⟩
  · obtain ⟨s, u, hs, hu, henters, hlisted, hfound, hvisits⟩ : ∃ s u,
        Machine.run (Sys.step byteBincode) (Sys.init 5) (published 3 [0, 1, 2]) = some s ∧
        Machine.run (Sys.step byteBincode) s (List.replicate 17 .trustee) = some u ∧
        s.pc = .sweep 3 0 ∧ u.clients.length = 3 ∧
        false ∉ sweepFound (Machine.trail (Sys.step byteBincode) s (List.replicate 17 .trustee)) ∧
        sweepVisits (Machine.trail (Sys.step byteBincode) s (List.replicate 17 .trustee)) =
          [0, 2, 2] :=
      ⟨_, _, rfl, rfl, rfl, rfl, by decide +kernel, rfl⟩
    have hsat : Saturated byteBincode 3 s _ u := ⟨Machine.run_trail hu, henters, hlisted, hfound⟩
    have hthree : ¬ ∃ a, 3 = 2 ^ a := by
      rintro ⟨a, ha⟩
      match a with
      | 0 | 1 => omega
      | a + 2 =>
        rw [pow_add] at ha
        omega
    obtain ⟨i, hi, h⟩ := (saturated_sweeps (published_reachable hs) henters).2 hthree
    exact ⟨s, u, _, hsat, hvisits, i, hi, h _ u hsat⟩

end TrustTee
