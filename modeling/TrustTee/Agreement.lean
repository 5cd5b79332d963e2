import TrustTee.Service

set_option autoImplicit false

namespace TrustTee
open Header

variable {T V R : Type} {P : Platform T V R}

structure Layout.Reader {α : Type} (L : Layout α) where
  ofBytes : List UInt8 → Option α
  back : ∀ a, ofBytes (L.bytes a) = some a

def received (rd : P.result.Reader) (rs : List (Request P)) (replies : List (List UInt8)) :
    List (Option (Given T R)) :=
  List.zipWith (fun r bytes => r.method.give (rd.ofBytes bytes)) rs replies

theorem Slotted.Reads.give {rd : P.result.Reader} {m : TrustLike T V R} {o : Option R}
    {g : Given T R} {bytes : List UInt8} (h : Slotted.Reads P (.result o) bytes)
    (hg : m.give o = some g) : m.give (rd.ofBytes bytes) = some g := by
  cases o with
  | some r => rw [h r rfl, rd.back, hg]
  | none =>
    -- only a batch is content with nothing
    cases m with
    | applyBatchMut f n => exact hg
    | _ => simp [TrustLike.give] at hg

theorem received_eq {rd : P.result.Reader} {rs : List (Request P)} {os : List (Option R)}
    {gs : List (Given T R)} {replies : List (List UInt8)}
    (h : List.Forall₂ (Slotted.Reads P) (os.map Payload.result) replies)
    (hlen : rs.length = os.length)
    (hgs : List.zipWith TrustLike.give (rs.map Request.method) os = gs.map some) :
    received rd rs replies = gs.map some := by
  induction rs generalizing os gs replies with
  | nil =>
    obtain rfl : gs = [] := by simpa using hgs.symm
    rfl
  | cons r rs ih =>
    cases os with
    | nil => simp at hlen
    | cons o os =>
      cases h with
      | cons hread hrest =>
        cases gs with
        | nil => simp at hgs
        | cons g gs =>
          simp only [List.map_cons, List.zipWith_cons_cons, List.cons.injEq] at hgs
          have hlen : rs.length = os.length := by simpa using hlen
          have hrest := ih hrest hlen hgs.2
          unfold received at *
          rw [List.zipWith_cons_cons, List.map_cons, hrest, hread.give hgs.1]

namespace Slotted

variable {value : T} {b : Slotted P} {c : Nat} {xs : List (Compiled P)}

theorem Solo.tags (h : Solo value c xs b)
    {o : AtomicObject.Obj Nat (Op T V R) T (Outcome (Option R)) (Payload T R)}
    (hi : AtomicObject.Inv (delegation P.bin) value o) (hist : o.hist = b.sys.hist) :
    ∀ e ∈ o.hist, e.tag.1 = c := by
  intro e he
  obtain ⟨i, hat⟩ := AtomicObject.exists_at he
  cases e with
  | call c' k q => exact h.only c' k q (hist ▸ he)
  | app c' k f =>
    obtain ⟨j, q, _, hj, _⟩ := hi.after_call i c' k f hat
    exact h.only c' k q (hist ▸ hj.mem)
  | ret c' k y =>
    obtain ⟨j, q, _, hj, _⟩ := hi.complete i c' k y hat
    exact h.only c' k q (hist ▸ hj.mem)

theorem Solo.sequence (h : Solo value c xs b) (hidle : b.stage c = .idle) :
    ∃ l, AtomicObject.Sequence (delegation P.bin) value l b.sys.prop ∧
      l.map Prod.fst = xs.map Compiled.op ∧
      l.map Prod.snd = AtomicObject.answers b.sys.hist := by
  obtain ⟨o, ho, hr⟩ := h.inv.reach.simulates
  have hphase : o.phase c = .idle := by
    have hok := h.inv.stage c
    have hph := hr.phase c
    unfold StageOk at hok
    unfold PhaseOk at hph
    simp only [hidle] at hok
    cases hpc : (b.sys.client c).pc <;> simp_all [ClientPc.op?]
  obtain ⟨l, w, hseq, hans, hmatch⟩ :=
    AtomicObject.solo ho (h.tags (.reach ho) hr.hist)
  simp only [hphase] at hmatch
  obtain ⟨hcalls, rfl⟩ := hmatch
  have hbegun := h.begun
  rw [hidle] at hbegun
  refine ⟨l, hr.value ▸ hseq, ?_, by rw [← hr.hist, hans]⟩
  rw [← hcalls, hr.hist, ← hbegun]
  simp [Stage.encodes?]

/-- Then the value is what `Local` leaves, and the bytes read are its results. -/
theorem Solo.agrees {rs : List (Request P)} (h : Solo value c (rs.map Request.compiled) b)
    (hidle : b.stage c = .idle) (hbin : P.bin.RoundTrips) (rd : P.result.Reader) :
    ∃ gs : List (Given T R), callAll Local.call (rs.map Request.method) value =
        (b.sys.prop, gs.map Outcome.returned) ∧
      received rd rs (b.replies c) = gs.map some := by
  obtain ⟨l, hseq, hfst, hsnd⟩ := h.sequence hidle
  have hops : l.map Prod.fst = (rs.map Request.method).map TrustLike.op := by
    rw [hfst, List.map_map, List.map_map]
    exact List.map_congr_left (fun r _ => r.op_eq)
  obtain ⟨os, gs, hos, hgs, hall⟩ := sequence_calls hbin hseq hops (fun m hm => by
    obtain ⟨r, _, rfl⟩ := List.mem_map.mp hm
    exact r.proper)
  have hreplies := h.replies
  rw [← hsnd, hos] at hreplies
  refine ⟨gs, hall, received_eq hreplies ?_ hgs⟩
  have h₁ := congrArg List.length hops
  have h₂ := congrArg List.length hos
  simp only [List.length_map] at h₁ h₂
  omega

structure Calls (header : RequestRecordHeader) (value : T) (c : Nat) (rs : List (Request P))
    (as : List (Action P)) (b : Slotted P) : Prop where
  run : Machine.run Slotted.step (Slotted.init header value) as = some b
  alone : ∀ c' x, Action.begin_ c' x ∈ as → c' = c
  begun : begins as = rs.map Request.compiled
  ended : b.stage c = .idle

theorem mem_begins {as : List (Action P)} {c' : Nat} {x : Compiled P}
    (h : Action.begin_ c' x ∈ as) : x ∈ begins as :=
  List.mem_filterMap.mpr ⟨_, h, rfl⟩

theorem Calls.agrees {header : RequestRecordHeader} {rs : List (Request P)} {as : List (Action P)}
    (h : Calls header value c rs as b) (hbin : P.bin.RoundTrips) (rd : P.result.Reader) :
    ∃ gs : List (Given T R), callAll Local.call (rs.map Request.method) value =
        (b.sys.prop, gs.map Outcome.returned) ∧
      received rd rs (b.replies c) = gs.map some := by
  have honly : Only c as := by
    intro c' x hm
    have hx := mem_begins hm
    rw [h.begun] at hx
    obtain ⟨r, _, rfl⟩ := List.mem_map.mp hx
    exact ⟨h.alone c' _ hm, r.fits⟩
  have hsolo := Solo.run as (Solo.init header value c) honly h.run
  rw [List.nil_append, h.begun] at hsolo
  exact hsolo.agrees h.ended hbin rd

end Slotted

namespace Request

def Locally (value : T) (rs : List (Request P)) (w : T) (gs : List (Given T R)) : Prop :=
  callAll Local.call (rs.map method) value = (w, gs.map .returned)

/-- So they do through the channel: some run completes them, and every one that does. -/
def ThroughChannel (rd : P.result.Reader) (header : RequestRecordHeader) (value : T)
    (rs : List (Request P)) (w : T) (gs : List (Given T R)) : Prop :=
  (∃ c as b, Slotted.Calls header value c rs as b) ∧
    ∀ c as b, Slotted.Calls header value c rs as b →
      b.sys.prop = w ∧ received rd rs (b.replies c) = gs.map some

/-- So they do through the shortcut, for every task on the trustee's thread. -/
def ThroughShortcut (value : T) (rs : List (Request P)) (w : T) (gs : List (Given T R)) : Prop :=
  ∀ (s : World T V R) k t r c, AtHome s k t r c → (s.rt r).sys.prop = value →
    ∃ u, World.shortcuts P.bin k r c (rs.map method) s = some (u, gs) ∧ (u.rt r).sys.prop = w

variable {rs : List (Request P)} {header : RequestRecordHeader} {value w : T}
  {gs : List (Given T R)}

theorem exists_locally (value : T) (rs : List (Request P)) : ∃ w gs, Locally value rs w gs := by
  induction rs generalizing value with
  | nil => exact ⟨value, [], rfl⟩
  | cons r rs ih =>
    obtain ⟨g, hg⟩ := Local.call_returns r.proper.returns value
    obtain ⟨w, gs, hrest⟩ := ih (Local.call r.method value).1
    refine ⟨w, g :: gs, ?_⟩
    unfold Locally at *
    rw [List.map_cons, callAll, hg]
    simp only [hrest, List.map_cons]

theorem Locally.unique {w' : T} {gs' : List (Given T R)} (h : Locally value rs w gs)
    (h' : callAll Local.call (rs.map method) value = (w', gs'.map .returned)) :
    w' = w ∧ gs' = gs := by
  have hpair : (w', gs'.map Outcome.returned) = (w, gs.map Outcome.returned) := h'.symm.trans h
  obtain ⟨hw, hgs⟩ := Prod.mk.inj hpair
  have hinj : Function.Injective (Outcome.returned : Given T R → Outcome (Given T R)) :=
    fun _ _ => Outcome.returned.inj
  exact ⟨hw, hinj.list_map hgs⟩

theorem Locally.throughChannel (h : Locally value rs w gs) (hbin : P.bin.RoundTrips)
    (rd : P.result.Reader) (header : RequestRecordHeader) :
    ThroughChannel rd header value rs w gs := by
  constructor
  · obtain ⟨u, ⟨as, hrun, honly, hbegins⟩, hidle⟩ := Slotted.completes header value rs hbin
    exact ⟨0, as, u, hrun, fun c' x hm => (honly c' x hm).1, hbegins, hidle⟩
  · intro c as b hcalls
    obtain ⟨gs', hall, hrec⟩ := hcalls.agrees hbin rd
    obtain ⟨hw, rfl⟩ := h.unique hall
    exact ⟨hw, hrec⟩

theorem Locally.throughShortcut (h : Locally value rs w gs)
    (hd : ∀ r ∈ rs, r.method.direct.isSome = true) : ThroughShortcut value rs w gs := by
  intro s k t r c hhome hvalue
  obtain ⟨u, gs', hrun, hlocal⟩ := @World.shortcuts_local T V R P.bin k t r c
    (rs.map method) s hhome (by
      intro m hm
      obtain ⟨q, hq, rfl⟩ := List.mem_map.mp hm
      exact ⟨q.proper.returns, hd q hq⟩)
  rw [hvalue] at hlocal
  obtain ⟨hw, rfl⟩ := h.unique hlocal
  exact ⟨u, hrun, hw⟩

end Request

/-- One client's operations give the same results and leave the same value on `Local` and
through the channel, and so do those of them that have a shortcut through the shortcut. -/
theorem paths_agree (hbin : P.bin.RoundTrips) (rd : P.result.Reader)
    (header : RequestRecordHeader) (value : T) (rs : List (Request P)) :
    (∃ w gs, Request.Locally value rs w gs ∧ Request.ThroughChannel rd header value rs w gs) ∧
    ∀ ds : List (Request P), ds.Sublist rs → (∀ r ∈ ds, r.method.direct.isSome = true) →
      ∃ w gs, Request.Locally value ds w gs ∧ Request.ThroughChannel rd header value ds w gs ∧
        Request.ThroughShortcut value ds w gs := by
  constructor
  · obtain ⟨w, gs, h⟩ := Request.exists_locally value rs
    exact ⟨w, gs, h, h.throughChannel hbin rd header⟩
  · intro ds _ hd
    obtain ⟨w, gs, h⟩ := Request.exists_locally value ds
    exact ⟨w, gs, h, h.throughChannel hbin rd header, h.throughShortcut hd⟩

/-- Vtable and capture are those of the operation's closure, and the operation is one that
a list may have. -/
structure Compiles (P : Platform T V R) (m : TrustLike T V R) (vtable : Usize)
    (capture : Capture) : Prop where
  proper : m.Proper P.bin
  envSize : P.image.envSize vtable = capture.size.toNat
  code : P.image.call vtable capture.bytes = m.op.env P.bin
  align : ∃ k, capture.align.toNat = 2 ^ k
  captureSize : capture.size.toNat < 2 ^ 63
  argsSize : ∀ args, m.op.args P.bin = some args → args.length < 2 ^ 63
  fits : ∃ args, m.op.args P.bin = some args ∧
    envOffset capture + capture.size ≤ slotBytes ∧
    argsOffset capture args + BitVec.ofNat 64 args.length ≤ slotBytes
  resultFits : headerBytes.toNat + P.result.size ≤ slotBytes.toNat

theorem TrustLike.op_ne_terminate (m : TrustLike T V R) : m.op ≠ .terminate := by
  cases m <;> simp [TrustLike.op]

section Compile

variable {m : TrustLike T V R} {vtable : Usize} {capture : Capture}

def Compiles.compiled (h : Compiles P m vtable capture) : Compiled P :=
  ⟨m.op, vtable, capture, m.op_ne_terminate, h.envSize, h.code, h.align, h.captureSize, h.argsSize⟩

theorem Compiles.not_fails (h : Compiles P m vtable capture) : ¬ h.compiled.Fails := by
  obtain ⟨args, hargs, hfit⟩ := h.fits
  exact fun hfails => hfails args hargs hfit

def Compiles.request (h : Compiles P m vtable capture) : Request P :=
  ⟨m, h.compiled, rfl, h.proper, h.not_fails, h.resultFits⟩

end Compile

def counting (d : UInt8) : Body Nat UInt8 := fun t => (t + d.toNat, .returned (UInt8.ofNat t))

def countingImage : Image Nat UInt8 where
  envSize vtable := if vtable = 1 then 1 else 0
  call vtable bytes :=
    match vtable.toNat, bytes with
    | 1, [d] => (Op.launch (counting d)).env byteBincode
    | 2, _ => (Op.applyWith counting 0).env byteBincode
    | _, _ => (Op.applyBatchMut doubling 0).env byteBincode

def byteOf (r : UInt8) : List UInt8 := [r]

theorem length_byteOf (r : UInt8) : (byteOf r).length = 1 := rfl

def countingPlatform : Platform Nat UInt8 UInt8 where
  bin := byteBincode
  image := countingImage
  base c := BitVec.ofNat 64 (4096 * (c + 1))
  result := ⟨1, byteOf, length_byteOf⟩
  value := wordLayout

def byteReader : countingPlatform.result.Reader where
  ofBytes bytes := bytes.head?
  back _ := rfl

def fiveCapture : Capture := ⟨1, 1, [5], rfl⟩

theorem applyWithTwo : Compiles countingPlatform (.applyWith counting 2) 2 .empty where
  proper := ⟨by simp, fun t => by simp [counting], by rintro _ _ ⟨⟩; exact ⟨_, rfl⟩⟩
  envSize := rfl
  code := rfl
  align := ⟨0, rfl⟩
  captureSize := by decide
  argsSize := by rintro _ ⟨⟩; simp
  fits := ⟨_, rfl, by decide⟩
  resultFits := by decide

theorem doubleThrice : Compiles countingPlatform (.applyBatchMut doubling 3) 3 .empty where
  proper := ⟨by simp, fun t => by simp [doubling], by simp⟩
  envSize := rfl
  code := rfl
  align := ⟨0, rfl⟩
  captureSize := by decide
  argsSize := by rintro _ ⟨⟩; simp
  fits := ⟨_, rfl, by decide⟩
  resultFits := by decide

theorem launchThenFive : Compiles countingPlatform (.launchThen (counting 5)) 1 fiveCapture where
  proper := ⟨by simp, fun t => by simp [counting], by simp⟩
  envSize := rfl
  code := rfl
  align := ⟨0, rfl⟩
  captureSize := by decide
  argsSize := by rintro _ ⟨⟩; simp
  fits := ⟨_, rfl, by decide⟩
  resultFits := by decide

def threeOperations : List (Request countingPlatform) :=
  [applyWithTwo.request, doubleThrice.request, launchThenFive.request]

def trusteeStarts : List (Act Nat UInt8 UInt8) :=
  [.start 0, .start 0, .start 0]

theorem paths_agree_threeOperations :
    Request.ThroughChannel byteReader ⟨0, 0, .terminate, 0, 0, 0, 0⟩ 7 threeOperations 77
      [.returned 7, .unit, .passed 72] ∧
    ∃ s u, Machine.run (World.step byteBincode)
        (World.init (fun _ => 7) (fun _ => true) (fun _ => some 1)) trusteeStarts = some s ∧
      World.shortcuts byteBincode (.other 0) 0 0
        [.applyWith counting 2, .applyBatchMut doubling 3] s =
          some (u, [.returned 7, .unit]) ∧ (u.rt 0).sys.prop = 72 := by
  obtain ⟨⟨w, gs, hlocal, hchannel⟩, hdirect⟩ := paths_agree byteBincode_roundTrips byteReader
    ⟨0, 0, .terminate, 0, 0, 0, 0⟩ 7 threeOperations
  have hall : Request.Locally 7 threeOperations 77 [.returned 7, .unit, .passed 72] := rfl
  obtain ⟨rfl, rfl⟩ := hall.unique hlocal
  refine ⟨hchannel, ?_⟩
  obtain ⟨w, gs, hlocal, _, hshortcut⟩ := hdirect [applyWithTwo.request, doubleThrice.request]
    (by simp [threeOperations]) (by decide)
  have htwo : Request.Locally 7 [applyWithTwo.request, doubleThrice.request] 72
      [.returned 7, .unit] := rfl
  obtain ⟨rfl, rfl⟩ := htwo.unique hlocal
  obtain ⟨s, hs, hhome, hvalue⟩ : ∃ s, Machine.run (World.step byteBincode)
      (World.init (fun _ => 7) (fun _ => true) (fun _ => some 1)) trusteeStarts = some s ∧
      AtHome s (.other 0) 1 0 0 ∧ (s.rt 0).sys.prop = 7 := by
    refine ⟨_, rfl, ⟨rfl, rfl, rfl, ?_⟩, rfl⟩
    exact ⟨Nat.one_ne_zero, rfl, rfl⟩
  obtain ⟨u, hu, hprop⟩ := hshortcut s (.other 0) 1 0 0 hhome hvalue
  exact ⟨s, u, hs, hu, hprop⟩

end TrustTee
