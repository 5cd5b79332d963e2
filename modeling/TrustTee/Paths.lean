import TrustTee.Local
import TrustTee.Recovery

set_option autoImplicit false

namespace TrustTee
open Header

variable {T V R : Type} {P : Platform T V R}

def Stage.encodes? : Stage P → Option (Compiled P)
  | .serialize x | .env x _ | .args x _ _ | .header x _ _ _ => some x
  | _ => none

theorem Compiled.not_fails {x : Compiled P} (h : ¬ x.Fails) :
    ∃ args, x.op.args P.bin = some args ∧ envOffset x.capture + x.capture.size ≤ slotBytes ∧
      argsOffset x.capture args + BitVec.ofNat 64 args.length ≤ slotBytes := by
  by_contra hn
  exact h (fun args hargs hfit => hn ⟨args, hargs, hfit⟩)

theorem Sys.clientStep_silent {s s' : Sys T V R} {c : Nat} (h : s.clientStep c = some s')
    (hread : ∀ op, (s.client c).pc ≠ .reading op) : s'.hist = s.hist := by
  cases hpc : (s.client c).pc with
  | waiting op r =>
    cases op <;> simp only [Sys.clientStep, hpc] at h <;> split at h <;>
      simp only [Option.some.injEq, reduceCtorEq] at h <;> subst h <;> rfl
  | reading op => exact absurd hpc (hread op)
  | encoded op | loaded op r =>
    simp only [Sys.clientStep, hpc, Option.some.injEq] at h
    subst h
    rfl
  | _ => simp [Sys.clientStep, hpc] at h

namespace Slotted

variable {value : T} {b b' : Slotted P} {c : Nat} {xs : List (Compiled P)}

/-- A step that only the worker's side can tell. -/
structure Quiet (b b' : Slotted P) : Prop where
  stage : b'.stage = b.stage
  replies : b'.replies = b.replies
  hist : b'.sys.hist = b.sys.hist ∨ ∃ c k f, b'.sys.hist = b.sys.hist ++ [.app c k f]

theorem Quiet.withSys {w : Slotted P} {o : Option (Sys T V R)} (hs : w.withSys o = some b')
    (hstage : w.stage = b.stage) (hreplies : w.replies = b.replies)
    (hist : ∀ s', o = some s' → s'.hist = b.sys.hist ∨ ∃ c k f, s'.hist = b.sys.hist ++ [.app c k f]) :
    Quiet b b' := by
  obtain ⟨s', rfl, rfl⟩ := Option.map_eq_some_iff.mp hs
  exact ⟨hstage, hreplies, hist s' rfl⟩

theorem Inv.trusteeStep_quiet (h : Inv value b) (hs : b.trusteeStep = some b') : Quiet b b' := by
  have hist : ∀ s', b.sys.trusteeStep = some s' →
      s'.hist = b.sys.hist ∨ ∃ c k f, s'.hist = b.sys.hist ++ [.app c k f] := by
    intro s' hs'
    obtain ⟨_, _, hsame | ⟨_, _, _, _, _, _, _, happ⟩, _⟩ := Sys.trusteeStep_frame hs'
    · exact .inl hsame
    · exact .inr ⟨_, _, _, happ⟩
  have written : ∀ c r, (b.writeResult c r).stage = b.stage ∧
      (b.writeResult c r).replies = b.replies := by
    intro c r
    cases r <;> exact ⟨rfl, rfl⟩
  rw [h.trusteeStep_eq] at hs
  unfold Slotted.trusteeSpec at hs
  split at hs
  · split at hs
    · exact .withSys hs rfl rfl hist
    · split at hs
      · exact .withSys hs rfl rfl hist
      · simp at hs
  · split at hs
    · exact .withSys hs rfl rfl hist
    · split at hs
      · exact Option.some.inj hs ▸ ⟨rfl, rfl, .inl rfl⟩
      · simp at hs
      · exact .withSys hs rfl rfl hist
  · exact .withSys hs (written _ _).1 (written _ _).2 hist
  · exact .withSys hs rfl rfl hist
  · exact .withSys hs rfl rfl hist

theorem Inv.fiberStep_quiet (h : Inv value b) {j : Nat} (hs : b.fiberStep j = some b') :
    Quiet b b' := by
  have hist : ∀ s', b.sys.fiberStep j = some s' →
      s'.hist = b.sys.hist ∨ ∃ c k f, s'.hist = b.sys.hist ++ [.app c k f] := by
    intro s' hs'
    rcases Sys.fiberStep_hist hs' with hsame | ⟨_, _, _, _, _, _, happ⟩
    · exact .inl hsame
    · exact .inr ⟨_, _, _, happ⟩
  rw [h.fiberStep_eq] at hs
  unfold Slotted.fiberSpec at hs
  split at hs
  · rename_i r _ _
    cases r <;> exact .withSys hs rfl rfl hist
  · exact .withSys hs rfl rfl hist

def Reads (P : Platform T V R) (y : Payload T R) (bytes : List UInt8) : Prop :=
  ∀ r, y = .result (some r) → bytes = P.result.bytes r

/-- Only client `c` has called anything: it has begun the operations `xs`, and none of them
fails to fit. -/
structure Solo (value : T) (c : Nat) (xs : List (Compiled P)) (b : Slotted P) : Prop where
  inv : Inv value b
  only : ∀ c' k q, AtomicObject.Event.call c' k q ∈ b.sys.hist → c' = c
  begun : AtomicObject.calls b.sys.hist ++ ((b.stage c).encodes?.map Compiled.op).toList =
    xs.map Compiled.op
  fits : ∀ x, (b.stage c).encodes? = some x → ¬ x.Fails
  calm : ∀ msg, b.stage c ≠ .panicked msg
  others : ∀ c', c' ≠ c → b.stage c' = .idle
  replies : List.Forall₂ (Reads P) (AtomicObject.answers b.sys.hist) (b.replies c)

theorem Solo.init (header : RequestRecordHeader) (value : T) (c : Nat) :
    Solo value c [] (Slotted.init header value : Slotted P) where
  inv := .init header value
  only := by simp [Slotted.init, Sys.init]
  begun := rfl
  fits := by simp [Slotted.init, Stage.encodes?]
  calm := by simp [Slotted.init]
  others := fun _ _ => rfl
  replies := .nil

theorem Solo.quiet (h : Solo value c xs b) (hinv : Inv value b') (hq : Quiet b b') :
    Solo value c xs b' := by
  obtain ⟨hstage, hreplies, hist⟩ := hq
  have hcalls : AtomicObject.calls b'.sys.hist = AtomicObject.calls b.sys.hist := by
    rcases hist with hist | ⟨_, _, _, hist⟩
    · rw [hist]
    · simp [hist, AtomicObject.calls_concat, AtomicObject.Event.called?]
  have hanswers : AtomicObject.answers b'.sys.hist = AtomicObject.answers b.sys.hist := by
    rcases hist with hist | ⟨_, _, _, hist⟩
    · rw [hist]
    · simp [hist, AtomicObject.answers_concat, AtomicObject.Event.returned?]
  refine ⟨hinv, ?_, ?_, ?_, ?_, ?_, ?_⟩
  · intro c' k q hm
    rcases hist with hist | ⟨_, _, _, hist⟩
    · exact h.only c' k q (hist ▸ hm)
    · exact h.only c' k q (by simpa [hist] using hm)
  · rw [hcalls, hstage]
    exact h.begun
  · rw [hstage]
    exact h.fits
  · rw [hstage]
    exact h.calm
  · rw [hstage]
    exact h.others
  · rw [hanswers, hreplies]
    exact h.replies

theorem Solo.encoding (h : Solo value c xs b) (hinv : Inv value b') (hsys : b'.sys = b.sys)
    (hreplies : b'.replies = b.replies) (hothers : ∀ c', c' ≠ c → b'.stage c' = b.stage c')
    (henc : (b'.stage c).encodes? = (b.stage c).encodes?)
    (hcalm : ∀ msg, b'.stage c ≠ .panicked msg) : Solo value c xs b' := by
  refine ⟨hinv, by rw [hsys]; exact h.only, by rw [hsys, henc]; exact h.begun,
    by rw [henc]; exact h.fits, hcalm, fun c' hc => (hothers c' hc).trans (h.others c' hc), ?_⟩
  rw [hsys, hreplies]
  exact h.replies

/-- What the client reads as bytes is the answer it is given. -/
theorem Inv.reads (h : Inv value b) {x : Compiled P} {sys : Sys T V R}
    (hpc : (b.sys.client c).pc = .reading x.op) (hs : b.sys.clientStep c = some sys) :
    ∃ y, sys.hist = b.sys.hist ++ [.ret c (b.sys.client c).seq y] ∧
      Reads P y (b.replyBytes c x.op) := by
  obtain ⟨o, _, hr⟩ := h.reach.refines
  have hphase := hr.phase c
  simp only [PhaseOk, hpc] at hphase
  obtain ⟨last, _, hans⟩ := hphase
  have hreply := h.reply c
  unfold ReplyOk at hreply
  cases hx : x.op with
  | applyBatchMut f n =>
    simp only [Sys.clientStep, hpc, hx, Option.some.injEq] at hs
    subst hs
    exact ⟨_, rfl, fun r hr => by simp [Op.reply] at hr⟩
  | intoInner =>
    simp only [Sys.clientStep, hpc, hx, Option.some.injEq] at hs
    subst hs
    rw [hx] at hans
    obtain ⟨t, ht⟩ : ∃ t, (b.sys.chan c).respData = .moved t := hans
    exact ⟨_, rfl, fun r hr => by simp [ht] at hr⟩
  | _ =>
    simp only [Sys.clientStep, hpc, hx, Option.some.injEq] at hs
    subst hs
    refine ⟨_, rfl, fun r hr => ?_⟩
    have hdata : (b.sys.chan c).respData = .result (some r) := hr
    simp only [hdata] at hreply
    exact hreply

theorem Solo.clientStep (h : Solo value c xs b) (hs : b.clientStep c = some b') :
    Solo value c xs b' := by
  have hinv : Inv value b' := h.inv.clientStep hs
  have hok := h.inv.stage c
  have hbegun := h.begun
  unfold Slotted.clientStep at hs
  cases hst : b.stage c with
  | idle => simp [hst] at hs
  | panicked msg => exact absurd hst (h.calm msg)
  | serialize x =>
    obtain ⟨args, hargs, _⟩ := Compiled.not_fails (h.fits x (by rw [hst]; rfl))
    simp only [hst, hargs, Option.some.injEq] at hs
    subst hs
    exact h.encoding hinv rfl rfl (fun c' hc => by simp [setStage, Function.update_of_ne hc])
      (by simp [setStage, hst, Stage.encodes?]) (by simp [setStage])
  | env x args =>
    simp only [StageOk, hst] at hok
    obtain ⟨args', hargs, henv, hfit⟩ := Compiled.not_fails (h.fits x (by rw [hst]; rfl))
    simp only [hst, allocAligned_env, if_pos henv, Option.some.injEq] at hs
    subst hs
    exact h.encoding hinv rfl rfl
      (fun c' hc => by simp [setStage, setRequest, Function.update_of_ne hc])
      (by simp [setStage, hst, Stage.encodes?]) (by simp [setStage])
  | args x args env =>
    simp only [StageOk, hst] at hok
    obtain ⟨_, hargs, rfl, _⟩ := hok
    obtain ⟨args', hargs', henv, hfit⟩ := Compiled.not_fails (h.fits x (by rw [hst]; rfl))
    obtain rfl := Option.some.inj (hargs'.symm.trans hargs)
    simp only [hst, allocAligned_args, if_pos hfit, Option.some.injEq] at hs
    subst hs
    exact h.encoding hinv rfl rfl
      (fun c' hc => by simp [setStage, setRequest, Function.update_of_ne hc])
      (by simp [setStage, hst, Stage.encodes?]) (by simp [setStage])
  | header x args env pos =>
    simp only [hst] at hs
    obtain ⟨sys, hsys, hs⟩ := Option.bind_eq_some_iff.mp hs
    obtain rfl := Option.some.inj hs
    have hist : sys.hist = b.sys.hist ++ [.call c (b.sys.client c).seq x.op] := by
      have hstep : b.sys.step P.bin (.issue c x.op) = some sys := hsys
      simp only [Sys.step, Sys.issue] at hstep
      split at hstep
      · split at hstep
        · obtain ⟨_, _, hstep⟩ := Option.bind_eq_some_iff.mp hstep
          obtain rfl := Option.some.inj hstep
          rfl
        · simp at hstep
      · simp at hstep
    rw [hst] at hbegun
    refine ⟨hinv, ?_, ?_, ?_, ?_, ?_, ?_⟩
    · intro c' k q hm
      have hm : AtomicObject.Event.call c' k q ∈ sys.hist := hm
      rw [hist] at hm
      rcases List.mem_append.mp hm with hm | hm
      · exact h.only c' k q hm
      · obtain ⟨rfl, _⟩ := AtomicObject.Event.call.inj (List.mem_singleton.mp hm)
        rfl
    · have hcalls : AtomicObject.calls sys.hist = AtomicObject.calls b.sys.hist ++ [x.op] := by
        rw [hist, AtomicObject.calls_concat]
        rfl
      have hsame : (AtomicObject.calls sys.hist ++ [] : List (Op T V R)) = xs.map Compiled.op := by
        rw [hcalls, List.append_nil]
        exact hbegun
      simpa [setStage, Stage.encodes?] using hsame
    · simp [setStage, Stage.encodes?]
    · simp [setStage]
    · intro c' hc
      simpa [setStage, setRequest, Function.update_of_ne hc] using h.others c' hc
    · have hans : AtomicObject.answers sys.hist = AtomicObject.answers b.sys.hist := by
        rw [hist, AtomicObject.answers_concat]
        simp [AtomicObject.Event.returned?]
      have hreplies := h.replies
      rw [← hans] at hreplies
      exact hreplies
  | issued x args =>
    simp only [StageOk, hst] at hok
    obtain ⟨hop, _⟩ := hok
    simp only [hst] at hs
    obtain ⟨sys, hsys, hs⟩ := Option.bind_eq_some_iff.mp hs
    split at hs
    · rename_i op hpc
      obtain rfl := Option.some.inj hs
      obtain rfl : op = x.op := by simpa [hpc, ClientPc.op?] using hop
      obtain ⟨y, hist, hreads⟩ := h.inv.reads hpc hsys
      rw [hst] at hbegun
      refine ⟨hinv, ?_, ?_, ?_, ?_, ?_, ?_⟩
      · intro c' k q hm
        have hm : AtomicObject.Event.call c' k q ∈ sys.hist := hm
        exact h.only c' k q (by simpa [hist] using hm)
      · have hcalls : AtomicObject.calls sys.hist = AtomicObject.calls b.sys.hist := by
          rw [hist, AtomicObject.calls_concat]
          simp [AtomicObject.Event.called?]
        simpa [setStage, Stage.encodes?, hcalls] using hbegun
      · simp [setStage, Stage.encodes?]
      · simp [setStage]
      · intro c' hc
        simpa [setStage, Function.update_of_ne hc] using h.others c' hc
      · have hans : AtomicObject.answers sys.hist = AtomicObject.answers b.sys.hist ++ [y] := by
          rw [hist, AtomicObject.answers_concat]
          rfl
        simp only [setStage, Function.update_self, hans]
        exact List.rel_append h.replies (.cons hreads .nil)
    · rename_i hread
      obtain rfl := Option.some.inj hs
      exact h.quiet hinv ⟨rfl, rfl, .inl (Sys.clientStep_silent hsys hread)⟩

def begins (as : List (Action P)) : List (Compiled P) :=
  as.filterMap (fun a => match a with
    | .begin_ _ x => some x
    | _ => none)

def Only (c : Nat) (as : List (Action P)) : Prop :=
  ∀ c' x, Action.begin_ c' x ∈ as → c' = c ∧ ¬ x.Fails

theorem Solo.step (h : Solo value c xs b) {a : Action P} (ha : Only c [a])
    (hs : b.step a = some b') : Solo value c (xs ++ begins [a]) b' := by
  have hinv : Inv value b' := h.inv.step hs
  cases a with
  | register =>
    obtain rfl := Option.some.inj hs
    simpa [begins] using h.quiet hinv ⟨rfl, rfl, .inl rfl⟩
  | begin_ c' x =>
    obtain ⟨rfl, hx⟩ := ha c' x (by simp)
    have hs : b.beginCall c' x = some b' := hs
    unfold Slotted.beginCall at hs
    split at hs
    · rename_i hidle _
      split at hs <;> simp only [Option.some.injEq, reduceCtorEq] at hs
      subst hs
      have hbegun := h.begun
      rw [hidle] at hbegun
      have hcalls : AtomicObject.calls b.sys.hist = xs.map Compiled.op := by
        simpa [Stage.encodes?] using hbegun
      refine ⟨hinv, h.only, ?_, ?_, ?_, ?_, h.replies⟩
      · simp [setStage, Stage.encodes?, begins, hcalls]
      · simpa [setStage, Stage.encodes?] using hx
      · simp [setStage]
      · intro c hc
        simpa [setStage, Function.update_of_ne hc] using h.others c hc
    · simp at hs
  | client c' =>
    by_cases hc : c' = c
    · subst hc
      simpa [begins] using h.clientStep hs
    · have hs : b.clientStep c' = some b' := hs
      simp [Slotted.clientStep, h.others c' hc] at hs
  | trustee => simpa [begins] using h.quiet hinv (h.inv.trusteeStep_quiet hs)
  | fiber j => simpa [begins] using h.quiet hinv (h.inv.fiberStep_quiet hs)
  | dropValue c' =>
    have hq : Quiet b b' := .withSys hs rfl rfl (fun s' hs' => by
      unfold Sys.dropValue at hs'
      split at hs' <;> simp only [Option.some.injEq, reduceCtorEq] at hs'
      exact .inl (hs' ▸ rfl))
    simpa [begins] using h.quiet hinv hq
  | dropHandle c' =>
    have hs : b.dropHandle c' = some b' := hs
    unfold Slotted.dropHandle at hs
    split at hs
    · have hq : Quiet b b' := .withSys hs rfl rfl (fun s' hs' => by
        unfold Sys.dropHandle at hs'
        split at hs'
        · split at hs' <;> simp only [Option.some.injEq, reduceCtorEq] at hs'
          exact .inl (hs' ▸ rfl)
        · simp at hs')
      simpa [begins] using h.quiet hinv hq
    · simp at hs

theorem Solo.run (as : List (Action P)) {b : Slotted P} {xs : List (Compiled P)}
    (h : Solo value c xs b) (has : Only c as) (hs : Machine.run Slotted.step b as = some b') :
    Solo value c (xs ++ begins as) b' := by
  induction as generalizing b xs with
  | nil =>
    obtain rfl := Option.some.inj hs
    simpa [begins] using h
  | cons a as ih =>
    obtain ⟨w, hw, hs⟩ := Option.bind_eq_some_iff.mp hs
    have hstep := h.step (fun c' x hm => has c' x (by simp_all)) hw
    have hrest := ih hstep (fun c' x hm => has c' x (by simp [hm])) hs
    have hcons : begins (a :: as) = begins [a] ++ begins as := by
      cases a <;> simp [begins]
    rw [hcons, ← List.append_assoc]
    exact hrest

end Slotted

end TrustTee
