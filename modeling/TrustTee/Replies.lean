import TrustTee.Paths

set_option autoImplicit false

namespace AtomicObject

variable {ι Q σ ρ υ : Type} [DecidableEq ι]

def Event.returnedTo? (c : ι) : Event ι Q σ ρ υ → Option υ
  | .ret c' _ y => if c' = c then some y else none
  | _ => none

def answersTo (c : ι) (h : History ι Q σ ρ υ) : List υ := h.filterMap (Event.returnedTo? c)

theorem answersTo_concat (c : ι) (h : History ι Q σ ρ υ) (e : Event ι Q σ ρ υ) :
    answersTo c (h ++ [e]) = answersTo c h ++ (e.returnedTo? c).toList := by
  cases he : e.returnedTo? c <;> simp [answersTo, he]

theorem length_answersTo {spec : Spec Q σ ρ υ} {v : σ} {o : Obj ι Q σ ρ υ}
    (h : Relation.ReflTransGen (Step spec) (Obj.init v) o) (c : ι) :
    (answersTo c o.hist).length = o.seq c := by
  induction h with
  | refl => rfl
  | tail _ hs ih =>
    cases hs with
    | call _ | app _ _ _ =>
      simpa [Obj.call, Obj.app, answersTo_concat, Event.returnedTo?] using ih
    | @ret c' q last y _ _ =>
      by_cases hc : c' = c
      · subst hc
        simpa [Obj.ret, answersTo_concat, Event.returnedTo?] using ih
      · simpa [Obj.ret, answersTo_concat, Event.returnedTo?, hc,
          Function.update_of_ne (Ne.symm hc)] using ih

end AtomicObject

namespace TrustTee
open Header AtomicObject

variable {T V R : Type} {P : Platform T V R}

theorem Reachable.length_answersTo {bin : Bincode V} {w : Workload T V R} {value : T}
    {s : Sys T V R} (h : Reachable bin w value s) (c : Nat) :
    (answersTo c s.hist).length = (s.client c).seq := by
  obtain ⟨o, ho, hr⟩ := h.simulates
  rw [← hr.hist, AtomicObject.length_answersTo ho, hr.seq]

/-- The bytes that the caller of an operation takes for its answer. -/
def Op.Decodes (P : Platform T V R) : Op T V R → Payload T R → List UInt8 → Prop
  | .applyBatchMut _ _, _, bytes => bytes = []
  | .intoInner, y, bytes => ∃ t, y = .moved t ∧ bytes = P.value.bytes t
  | _, y, bytes => ∀ r, y = .result (some r) → bytes = P.result.bytes r

namespace Slotted

variable {w : Workload T V R} {value : T} {b b' : Slotted P} {c : Nat}

def Gave (b : Slotted P) (c k : Nat) (bytes : List UInt8) : Prop :=
  ∃ op y, Event.call c k op ∈ b.sys.hist ∧ Event.ret c k y ∈ b.sys.hist ∧ op.Decodes P y bytes

/-- What has been read is what was answered, answer by answer, to operations that the workload
allows. -/
structure Delivered (w : Workload T V R) (value : T) (b : Slotted P) : Prop where
  inv : Inv value b
  encodes : ∀ c x, (b.stage c).encodes? = some x → w c x.op
  called : ∀ c k op, Event.call c k op ∈ b.sys.hist → w c op
  count : ∀ c, (b.replies c).length = (answersTo c b.sys.hist).length
  gave : ∀ c k bytes, (b.replies c)[k]? = some bytes → b.Gave c k bytes

def Action.Within (w : Workload T V R) : Action P → Prop
  | .begin_ c x => w c x.op
  | _ => True

theorem Delivered.init (header : RequestRecordHeader) (value : T) :
    Delivered w value (Slotted.init header value : Slotted P) where
  inv := .init header value
  encodes := by simp [Slotted.init, Stage.encodes?]
  called := by simp [Slotted.init, Sys.init]
  count := fun _ => rfl
  gave := by simp [Slotted.init]

theorem Delivered.beside (h : Delivered w value b) (hinv : Inv value b')
    (hstage : ∀ c x, (b'.stage c).encodes? = some x → w c x.op)
    (hreplies : b'.replies = b.replies)
    (hist : b'.sys.hist = b.sys.hist ∨ ∃ e, b'.sys.hist = b.sys.hist ++ [e] ∧
      (∀ c, e.returnedTo? c = none) ∧ ∀ c k op, e = .call c k op → w c op) :
    Delivered w value b' := by
  have hcount : ∀ c, answersTo c b'.sys.hist = answersTo c b.sys.hist := by
    intro c
    rcases hist with hist | ⟨e, hist, he, _⟩
    · rw [hist]
    · rw [hist, answersTo_concat, he c, Option.toList_none, List.append_nil]
  have hmono : ∀ e ∈ b.sys.hist, e ∈ b'.sys.hist := by
    intro e he
    rcases hist with hist | ⟨e', hist, _⟩
    · rwa [hist]
    · simp [hist, he]
  refine ⟨hinv, hstage, fun c k op hcall => ?_, fun c => by rw [hreplies, hcount, h.count],
    fun c k bytes hk => ?_⟩
  · rcases hist with hist | ⟨e, hist, _, he⟩
    · exact h.called c k op (hist ▸ hcall)
    · rw [hist] at hcall
      rcases List.mem_append.mp hcall with hcall | hcall
      · exact h.called c k op hcall
      · exact he c k op (List.mem_singleton.mp hcall).symm
  · rw [hreplies] at hk
    obtain ⟨op, y, hcall, hret, hdec⟩ := h.gave c k bytes hk
    exact ⟨op, y, hmono _ hcall, hmono _ hret, hdec⟩

theorem Delivered.quiet (h : Delivered w value b) (hinv : Inv value b') (hq : Quiet b b') :
    Delivered w value b' := by
  refine h.beside hinv (by rw [hq.stage]; exact h.encodes) hq.replies ?_
  rcases hq.hist with hist | ⟨c, k, f, hist⟩
  · exact .inl hist
  · exact .inr ⟨_, hist, fun _ => rfl, by simp⟩

/-- What a client takes out of the response slot are the bytes of its answer. -/
theorem Inv.decodes (h : Inv value b) {op : Op T V R} {sys : Sys T V R}
    (hpc : (b.sys.client c).pc = .reading op) (hs : b.sys.clientStep c = some sys) :
    ∃ y, sys.hist = b.sys.hist ++ [.ret c (b.sys.client c).seq y] ∧
      op.Decodes P y (b.replyBytes c op) := by
  obtain ⟨o, _, hr⟩ := h.reach.refines
  have hphase := hr.phase c
  simp only [PhaseOk, hpc] at hphase
  obtain ⟨last, _, hans⟩ := hphase
  have hreply := h.reply c
  unfold ReplyOk at hreply
  cases op with
  | applyBatchMut f n =>
    simp only [Sys.clientStep, hpc, Option.some.injEq] at hs
    subst hs
    exact ⟨_, rfl, rfl⟩
  | intoInner =>
    simp only [Sys.clientStep, hpc, Option.some.injEq] at hs
    subst hs
    obtain ⟨t, ht⟩ : ∃ t, (b.sys.chan c).respData = .moved t := hans
    simp only [ht] at hreply
    exact ⟨_, rfl, t, ht, hreply⟩
  | _ =>
    simp only [Sys.clientStep, hpc, Option.some.injEq] at hs
    subst hs
    refine ⟨_, rfl, fun r hr => ?_⟩
    have hdata : (b.sys.chan c).respData = .result (some r) := hr
    simp only [hdata] at hreply
    exact hreply

theorem Delivered.read (h : Delivered w value b) (hinv : Inv value b') {op : Op T V R}
    {sys : Sys T V R} (hpc : (b.sys.client c).pc = .reading op)
    (hs : b.sys.clientStep c = some sys) (hsys : b'.sys = sys)
    (hstage : b'.stage = Function.update b.stage c .idle)
    (hreplies : b'.replies = Function.update b.replies c (b.replies c ++ [b.replyBytes c op])) :
    Delivered w value b' := by
  obtain ⟨y, hist, hdec⟩ := h.inv.decodes hpc hs
  have hseq := h.inv.reach.length_answersTo c
  have hcall := (h.inv.reach.executed hpc).1
  rw [← h.count] at hseq
  rw [← hsys] at hist
  have hold : ∀ c' k bytes, b.Gave c' k bytes → b'.Gave c' k bytes := by
    rintro c' k bytes ⟨op', y', hcall', hret, hdec'⟩
    exact ⟨op', y', by simp [hist, hcall'], by simp [hist, hret], hdec'⟩
  refine ⟨hinv, fun c' x hx => ?_, fun c' k op' hm => ?_, fun c' => ?_, fun c' k bytes hk => ?_⟩
  · rw [hstage] at hx
    by_cases hc : c' = c
    · subst hc
      simp [Stage.encodes?] at hx
    · exact h.encodes c' x (by rwa [Function.update_of_ne hc] at hx)
  · exact h.called c' k op' (by simpa [hist] using hm)
  · rw [hist, answersTo_concat, hreplies]
    by_cases hc : c' = c
    · subst hc
      simp [Event.returnedTo?, h.count]
    · simp [Event.returnedTo?, Ne.symm hc, Function.update_of_ne hc, h.count]
  · rw [hreplies] at hk
    by_cases hc : c' = c
    · subst hc
      rw [Function.update_self, List.getElem?_append] at hk
      split at hk
      · exact hold _ _ _ (h.gave c' k bytes hk)
      · rename_i hlt
        rw [List.getElem?_singleton] at hk
        split at hk
        · rename_i hzero
          obtain rfl := Option.some.inj hk
          obtain rfl : k = (b.sys.client c').seq := by omega
          exact ⟨op, y, by simp [hist, hcall], by simp [hist], hdec⟩
        · simp at hk
    · rw [Function.update_of_ne hc] at hk
      exact hold _ _ _ (h.gave c' k bytes hk)

theorem Delivered.staged (h : Delivered w value b) {st : Stage P}
    (hst : ∀ x, st.encodes? = some x → w c x.op) (c' : Nat) (x : Compiled P)
    (hx : ((Function.update b.stage c st) c').encodes? = some x) : w c' x.op := by
  by_cases hc : c' = c
  · subst hc
    exact hst x (by rwa [Function.update_self] at hx)
  · exact h.encodes c' x (by rwa [Function.update_of_ne hc] at hx)

theorem Delivered.clientStep (h : Delivered w value b) (hs : b.clientStep c = some b') :
    Delivered w value b' := by
  have hinv : Inv value b' := h.inv.clientStep hs
  have hok := h.inv.stage c
  have henc := h.encodes c
  unfold Slotted.clientStep at hs
  cases hst : b.stage c with
  | idle => simp [hst] at hs
  | serialize x | env x args | args x args env =>
    rw [hst] at henc
    have next : ∀ st : Stage P, (st.encodes? = some x ∨ st.encodes? = none) →
        ∀ y, st.encodes? = some y → w c y.op := by
      rintro st (he | he) y hy
      · exact henc y (by rw [← hy, he]; rfl)
      · simp [he] at hy
    simp only [hst] at hs
    split at hs <;> obtain rfl := Option.some.inj hs
    · exact h.beside hinv (h.staged (next _ (.inr rfl))) rfl (.inl rfl)
    · exact h.beside hinv (h.staged (next _ (.inl rfl))) rfl (.inl rfl)
  | panicked msg =>
    simp only [hst, Option.some.injEq] at hs
    subst hs
    exact h.beside hinv (h.staged (by simp [Stage.encodes?])) rfl (.inl rfl)
  | header x args env pos =>
    rw [hst] at henc
    simp only [hst] at hs
    obtain ⟨sys, hsys, hs⟩ := Option.bind_eq_some_iff.mp hs
    obtain rfl := Option.some.inj hs
    have hstep : b.sys.step P.bin (.issue c x.op) = some sys := hsys
    refine h.beside hinv (h.staged (by simp [Stage.encodes?])) rfl ?_
    rcases Sys.step_hist hstep with hist | ⟨e, hlog, hist⟩
    · exact .inl hist
    · cases hlog
      refine .inr ⟨_, hist, fun _ => rfl, fun c' k op he => ?_⟩
      obtain ⟨rfl, _, rfl⟩ := Event.call.inj he
      exact henc x rfl
  | issued x args =>
    simp only [StageOk, hst] at hok
    simp only [hst] at hs
    obtain ⟨sys, hsys, hs⟩ := Option.bind_eq_some_iff.mp hs
    split at hs
    · rename_i op hpc
      obtain rfl := Option.some.inj hs
      obtain rfl : op = x.op := by simpa [hpc, ClientPc.op?] using hok.1
      exact h.read hinv hpc hsys rfl rfl rfl
    · rename_i hread
      obtain rfl := Option.some.inj hs
      exact h.beside hinv h.encodes rfl (.inl (Sys.clientStep_silent hsys hread))

theorem Delivered.step (h : Delivered w value b) {a : Action P} (ha : a.Within w)
    (hs : b.step a = some b') : Delivered w value b' := by
  have hinv : Inv value b' := h.inv.step hs
  cases a with
  | register =>
    obtain rfl := Option.some.inj hs
    exact h.beside hinv h.encodes rfl (.inl rfl)
  | begin_ c x =>
    have hs : b.beginCall c x = some b' := hs
    unfold Slotted.beginCall at hs
    split at hs
    · split at hs <;> simp only [Option.some.injEq, reduceCtorEq] at hs
      subst hs
      refine h.beside hinv (h.staged fun y hy => ?_) rfl (.inl rfl)
      obtain rfl := Option.some.inj hy
      exact ha
    · simp at hs
  | client c => exact h.clientStep hs
  | trustee => exact h.quiet hinv (h.inv.trusteeStep_quiet hs)
  | fiber j => exact h.quiet hinv (h.inv.fiberStep_quiet hs)
  | dropValue c =>
    obtain ⟨sys, hsys, rfl⟩ := Option.map_eq_some_iff.mp hs
    have hstep : b.sys.step P.bin (.dropValue c) = some sys := hsys
    refine h.beside hinv h.encodes rfl ?_
    rcases Sys.step_hist hstep with hist | ⟨e, hlog, _⟩
    · exact .inl hist
    · cases hlog
  | dropHandle c =>
    have hs : b.dropHandle c = some b' := hs
    unfold Slotted.dropHandle at hs
    split at hs
    · obtain ⟨sys, hsys, rfl⟩ := Option.map_eq_some_iff.mp hs
      have hstep : b.sys.step P.bin (.dropHandle c) = some sys := hsys
      refine h.beside hinv h.encodes rfl ?_
      rcases Sys.step_hist hstep with hist | ⟨e, hlog, _⟩
      · exact .inl hist
      · cases hlog
    · simp at hs

theorem Delivered.of_reach {header : RequestRecordHeader}
    (h : Machine.Reach Slotted.step (fun _ a => Action.Within w a)
      (Slotted.init header value) b) :
    Delivered w value b :=
  h.invariant (.init header value) (fun _ _ _ hd ha hs => hd.step ha hs)

theorem writeResult_outside (b : Slotted P) (c' : Nat) (r : Option R) {i : Nat}
    (hi : i < headerBytes.toNat ∨ headerBytes.toNat + P.result.size ≤ i) :
    (b.writeResult c' r).response c i = b.response c i := by
  cases r with
  | none => rfl
  | some r =>
    by_cases hc : c = c'
    · subst hc
      simp only [writeResult, setResponse, Function.update_self]
      rcases hi with hi | hi
      · exact Bytes.write_below hi
      · exact Bytes.write_above (by rwa [P.result.length_bytes])
    · simp only [writeResult, setResponse, Function.update_of_ne hc]

theorem withSys_response {sys : Option (Sys T V R)} (hs : b.withSys sys = some b') :
    b'.response = b.response := by
  obtain ⟨_, _, rfl⟩ := Option.map_eq_some_iff.mp hs
  rfl

theorem clientStep_response (hs : b.clientStep c = some b') : b'.response = b.response := by
  unfold Slotted.clientStep at hs
  split at hs
  · simp at hs
  · split at hs <;> obtain rfl := Option.some.inj hs <;> rfl
  · dsimp only at hs
    split at hs <;> obtain rfl := Option.some.inj hs <;> rfl
  · dsimp only at hs
    split at hs <;> obtain rfl := Option.some.inj hs <;> rfl
  · obtain ⟨sys, _, hs⟩ := Option.bind_eq_some_iff.mp hs
    obtain rfl := Option.some.inj hs
    rfl
  · obtain ⟨sys, _, hs⟩ := Option.bind_eq_some_iff.mp hs
    split at hs <;> obtain rfl := Option.some.inj hs <;> rfl
  · obtain rfl := Option.some.inj hs
    rfl

theorem step_response {a : Action P} (hs : b.step a = some b')
    (hmove : ∀ batch, b.sys.pc ≠ .moveOut batch) {i : Nat}
    (hi : i < headerBytes.toNat ∨ headerBytes.toNat + P.result.size ≤ i) :
    b'.response c i = b.response c i := by
  cases a with
  | register =>
    obtain rfl := Option.some.inj hs
    rfl
  | begin_ c' x =>
    have hs : b.beginCall c' x = some b' := hs
    unfold Slotted.beginCall at hs
    split at hs
    · split at hs <;> simp only [Option.some.injEq, reduceCtorEq] at hs
      subst hs
      rfl
    · simp at hs
  | client c' => rw [clientStep_response hs]
  | dropValue c' => rw [withSys_response hs]
  | dropHandle c' =>
    have hs : b.dropHandle c' = some b' := hs
    unfold Slotted.dropHandle at hs
    split at hs
    · rw [withSys_response hs]
    · simp at hs
  | fiber j =>
    have hs : b.fiberStep j = some b' := hs
    unfold Slotted.fiberStep at hs
    split at hs
    · simp at hs
    · split at hs
      · rw [withSys_response hs]
      · rw [withSys_response hs]
        exact b.writeResult_outside _ _ hi
      · rw [withSys_response hs]
  | trustee =>
    have hs : b.trusteeStep = some b' := hs
    unfold Slotted.trusteeStep at hs
    split at hs
    · split at hs
      · rw [withSys_response hs]
      · dsimp only at hs
        split at hs
        · simp at hs
        · rw [withSys_response hs]
    · split at hs
      · rw [withSys_response hs]
      · dsimp only at hs
        split at hs
        · obtain rfl := Option.some.inj hs
          rfl
        · rw [withSys_response hs]
    · rw [withSys_response hs]
      exact b.writeResult_outside _ _ hi
    · exact absurd ‹_› (hmove _)
    · rw [withSys_response hs]

theorem Delivered.not_moving (h : Delivered delegated value b) (batch : Batch) :
    b.sys.pc ≠ .moveOut batch := by
  intro hpc
  obtain ⟨op, ⟨hw, _⟩, hok⟩ := h.inv.reach.inv.serving batch (by simp [hpc, TrusteePc.batch?])
  simp only [hpc, PcOk] at hok
  subst hok
  exact h.called _ _ _ (h.inv.reach.waiting_called hw)

/-- So nothing outside the results has been written. -/
theorem response_outside {header : RequestRecordHeader}
    (h : Machine.Reach Slotted.step (fun _ a => Action.Within delegated a)
      (Slotted.init header value) b) {i : Nat}
    (hi : i < headerBytes.toNat ∨ headerBytes.toNat + P.result.size ≤ i) :
    b.response c i = 0 := by
  have hd := h.invariant (P := fun b => Delivered delegated value b ∧ b.response c i = 0)
    ⟨.init header value, rfl⟩ (by
      rintro t a v ⟨hd, hz⟩ ha hs
      exact ⟨hd.step ha hs, (step_response hs hd.not_moving hi).trans hz⟩)
  exact hd.2

end Slotted

/-- The bytes are what the closure of request number `k` of client `c` returned on the value
that the requests before it had left; a batch returns nothing. -/
def Op.Received (P : Platform T V R) (value : T) (h : List (TrustTee.Event T V R)) (c k : Nat)
    (bytes : List UInt8) : Op T V R → Prop
  | .applyBatchMut _ _ => bytes = []
  | op => ∃ i r, At h i (.app c k op.meaning) ∧
      (op.meaning (replay value (h.take i))).2 = .returned (some r) ∧ bytes = P.result.bytes r

theorem Body.lift_some {f : Body T R} {t : T} {r : Option R}
    (h : (f.lift some t).2 = .returned r) : ∃ r', r = some r' := by
  unfold Body.lift at h
  cases hf : (f t).2 with
  | panicked => simp [hf, Outcome.map] at h
  | returned r' =>
    refine ⟨r', ?_⟩
    simpa [hf, Outcome.map, eq_comm] using h

theorem Op.Decodes.received {op : Op T V R} {value v : T} {h : List (TrustTee.Event T V R)}
    {c k : Nat} {y : Payload T R} {bytes : List UInt8} (hl : Linearizable requests value h v)
    (hop : delegated c op) (hcall : Event.call c k op ∈ h) (hret : Event.ret c k y ∈ h)
    (hdec : op.Decodes P y bytes) : op.Received P value h c k bytes := by
  obtain ⟨i, hi⟩ := exists_at hret
  obtain ⟨j, hj⟩ := exists_at hcall
  obtain ⟨q, last, hq, hlast, hans⟩ := hl.answered i c k y hi
  obtain ⟨j', hj'⟩ := exists_at hq
  obtain ⟨_, rfl⟩ := hl.call_unique j' j c k q op hj' hj
  have value_at : ∀ r, last = some (.returned r) → ∃ i, At h i (.app c k q.meaning) ∧
      (q.meaning (replay value (h.take i))).2 = .returned r := by
    rintro r rfl
    obtain ⟨i', f, hi', hr, _⟩ := hlast
    obtain ⟨m, q', _, hm, rfl⟩ := hl.after_call i' c k f hi'
    obtain ⟨_, rfl⟩ := hl.call_unique m j c k q' q hm hj
    exact ⟨i', hi', hr.symm⟩
  cases q with
  | applyBatchMut f n => exact hdec
  | launch f | intoInner | terminate => exact absurd hop id
  | _ =>
    obtain ⟨r, hr, rfl⟩ := hans
    obtain ⟨i', hi', hout⟩ := value_at r hr
    obtain ⟨r', rfl⟩ := Body.lift_some hout
    exact ⟨i', r', hi', hout, hdec r' rfl⟩

/-- The bytes are linearizable when results fit the response slot, as nothing else sees to.
Whatever the interleaving of the steps in which clients write requests, the worker reads them
and writes results, and clients read those, what any client has read for its requests, one
after the other, is what one order of all requests gives; and no byte outside the payloads has
been written. -/
theorem replies_linearizable (hbin : P.bin.RoundTrips)
    (hfit : headerBytes.toNat + P.result.size ≤ slotBytes.toNat) {header : RequestRecordHeader}
    {value : T} {b : Slotted P}
    (h : Machine.Reach Slotted.step (fun _ a => Slotted.Action.Within delegated a)
      (Slotted.init header value) b) :
    Linearizable requests value b.sys.hist b.sys.prop ∧
      (∀ c, (b.replies c).length = (b.sys.client c).seq ∧
        ∀ k bytes, (b.replies c)[k]? = some bytes → ∃ op, Event.call c k op ∈ b.sys.hist ∧
          apps c k b.sys.hist = op.reps ∧ op.Received P value b.sys.hist c k bytes) ∧
      ∀ c i, (i < headerBytes.toNat ∨ slotBytes.toNat ≤ i) → b.response c i = 0 := by
  have hd := Slotted.Delivered.of_reach h
  have hr := hd.inv.reach
  have hl : Linearizable requests value b.sys.hist b.sys.prop := by
    refine hr.history.congr ?_ ?_ ?_ ?_
    · intro c k op hc
      exact Op.ran_eq_meaning hbin (hr.called hc).2
    · intro c k op _
      rfl
    · intro c k op hc _
      exact delegated_inline (hd.called c k op hc)
    · intro c k op last y _ ha
      exact ha
  refine ⟨hl, fun c => ⟨(hd.count c).trans (hr.length_answersTo c), fun k bytes hk => ?_⟩,
    fun c i hi => Slotted.response_outside h (hi.imp_right (Nat.le_trans hfit))⟩
  obtain ⟨op, y, hcall, hret, hdec⟩ := hd.gave c k bytes hk
  refine ⟨op, hcall, ?_, hdec.received hl (hd.called c k op hcall) hcall hret⟩
  obtain ⟨i, hi⟩ := exists_at hret
  obtain ⟨j, hj⟩ := exists_at hcall
  obtain ⟨m, q, _, hm, happs⟩ := hl.complete i c k y hi
  obtain ⟨_, rfl⟩ := hl.call_unique m j c k q op hm hj
  exact happs

def twoAdd : List (Slotted.Action bytePlatform) :=
  [.register, .register, .begin_ 0 (.applyAdding 3), .begin_ 1 (.applyAdding 4)] ++
    (List.replicate 6 [.client 1, .client 0]).flatten ++ List.replicate 26 .trustee ++
    List.replicate 2 (.client 0) ++ List.replicate 2 (.client 1)

theorem replies_linearizable_twoAdd : ∃ b : Slotted bytePlatform,
    b.replies 0 = [LittleEndian.bytes 8 5] ∧ b.replies 1 = [LittleEndian.bytes 8 8] ∧
    Linearizable requests 5 b.sys.hist b.sys.prop ∧
      (∀ c, (b.replies c).length = (b.sys.client c).seq ∧
        ∀ k bytes, (b.replies c)[k]? = some bytes → ∃ op, Event.call c k op ∈ b.sys.hist ∧
          apps c k b.sys.hist = op.reps ∧
            op.Received bytePlatform 5 b.sys.hist c k bytes) ∧
      ∀ c i, (i < headerBytes.toNat ∨ slotBytes.toNat ≤ i) → b.response c i = 0 := by
  obtain ⟨b, hrun, h0, h1⟩ : ∃ b, Machine.run Slotted.step
      (Slotted.init ⟨0, 0, .terminate, 0, 0, 0, 0⟩ 5) twoAdd = some b ∧
      b.replies 0 = [LittleEndian.bytes 8 5] ∧ b.replies 1 = [LittleEndian.bytes 8 8] :=
    ⟨_, rfl, by decide +kernel, by decide +kernel⟩
  have hwithin : ∀ a ∈ twoAdd, Slotted.Action.Within delegated a := by
    simp [twoAdd, Slotted.Action.Within, Compiled.applyAdding, delegated, Body.Returns, adding,
      or_imp, forall_and]
  exact ⟨b, h0, h1, replies_linearizable byteBincode_roundTrips
    (by decide) ((Machine.run_reach hrun).weaken fun _ a ha => hwithin a ha)⟩

end TrustTee
