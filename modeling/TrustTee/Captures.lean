import TrustTee.Serialization
import Mathlib.Data.List.Nodup

/-!
Who owns the values a closure captures while it travels through a request slot
(`encode_closure`, `call_once_shim`, `drop_shim`).
-/

set_option autoImplicit false

namespace TrustTee
open Header

variable {ι : Type}

structure Captured (ι : Type) extends Capture where
  values : List ι
  nodup : values.Nodup

/-- What an encoding leaves, with the captured values that now belong to the bytes in the
slot and those that have been destroyed. -/
structure Encoding (ι : Type) where
  writer : SlotWriter
  result : Except String EncodedHeader
  slot : List ι
  destroyed : List ι

/-- `encode_closure` with the drop flag of `f`: it is a local, dropped when the function
returns or unwinds, until `ptr::write` has moved it into the slot. -/
def encodeOwned (w : SlotWriter) (f : Captured ι) (args : List UInt8) : Encoding ι :=
  match w.allocAligned f.size f.align with
  | (w, .error e) => ⟨w, .error e, [], f.values⟩
  | (w, .ok env) =>
    let w := if f.size ≠ 0 then { w with mem := w.mem.write env.toNat f.bytes } else w
    let slot := if f.size ≠ 0 then f.values else []
    let dropped := if f.size ≠ 0 then [] else f.values
    match w.allocAligned (BitVec.ofNat 64 args.length) 1 with
    | (w, .error e) => ⟨w, .error e, slot, dropped⟩
    | (w, .ok pos) =>
      ⟨{ w with mem := w.mem.write pos.toNat args },
        .ok ⟨env, f.size.setWidth 32, BitVec.ofNat 32 args.length, pos.setWidth 32⟩,
        slot, dropped⟩

/-- The values that `call_once_shim` destroys: it reads an `F` from the slot, or out of
nothing if it has no size, and the call consumes it. -/
def callOnceShim (f : Captured ι) (slot : List ι) : List ι :=
  if f.size = 0 then f.values else slot

def dropShim (f : Captured ι) (slot : List ι) : List ι :=
  if f.size ≠ 0 then slot else []

/-- Every captured value is destroyed exactly once: by the call, by the drop that replaces
it, or on the way out of an encoding that overflows. -/
structure LinearlyOwned [DecidableEq ι] (w : SlotWriter) (f : Captured ι)
    (args : List UInt8) : Prop where
  called : ∀ h, (encodeOwned w f args).result = .ok h → ∀ v ∈ f.values,
    ((encodeOwned w f args).destroyed ++ callOnceShim f (encodeOwned w f args).slot).count v = 1
  dropped : ∀ h, (encodeOwned w f args).result = .ok h → ∀ v ∈ f.values,
    ((encodeOwned w f args).destroyed ++ dropShim f (encodeOwned w f args).slot).count v = 1
  overflowed : (encodeOwned w f args).result = .error "slot overflow" → ∀ v ∈ f.values,
    (encodeOwned w f args).destroyed.count v = 1

def EnvFits (w : SlotWriter) (f : Captured ι) : Prop :=
  nextBoundaryOffset w.cursor f.size f.align + f.size ≤ w.len

def ArgsFit (w : SlotWriter) (f : Captured ι) (args : List UInt8) : Prop :=
  nextBoundaryOffset (nextBoundaryOffset w.cursor f.size f.align + f.size)
    (BitVec.ofNat 64 args.length) 1 + BitVec.ofNat 64 args.length ≤ w.len

section Encoding

variable {w : SlotWriter} {f : Captured ι} {args : List UInt8}

theorem encodeOwned_encodes :
    ((encodeOwned w f args).writer, (encodeOwned w f args).result) =
      encodeClosure w f.toCapture args := by
  unfold encodeOwned encodeClosure
  rcases w.allocAligned f.size f.align with ⟨w₁, _ | env⟩
  · rfl
  · dsimp only
    generalize (if f.size ≠ 0 then { w₁ with mem := w₁.mem.write env.toNat f.bytes }
      else w₁).allocAligned (BitVec.ofNat 64 args.length) 1 = r
    rcases r with ⟨w₂, _ | pos⟩ <;> rfl

theorem encodeOwned_cases (w : SlotWriter) (f : Captured ι) (args : List UInt8) :
    (¬ EnvFits w f ∧ (encodeOwned w f args).result = .error "slot overflow" ∧
      (encodeOwned w f args).destroyed = f.values) ∨
    (EnvFits w f ∧ (encodeOwned w f args).slot = (if f.size ≠ 0 then f.values else []) ∧
      (encodeOwned w f args).destroyed = (if f.size ≠ 0 then [] else f.values) ∧
      ((ArgsFit w f args ∧ ∃ h, (encodeOwned w f args).result = .ok h) ∨
        (¬ ArgsFit w f args ∧ (encodeOwned w f args).result = .error "slot overflow"))) := by
  by_cases he : EnvFits w f
  · refine .inr ⟨he, ?_⟩
    unfold EnvFits at he
    by_cases ha : ArgsFit w f args
    · have ha' := ha
      unfold ArgsFit at ha'
      by_cases h0 : f.size ≠ 0
      · simp only [encodeOwned, SlotWriter.allocAligned, if_pos he, if_pos ha', if_pos h0]
        exact ⟨trivial, trivial, .inl ⟨ha, _, rfl⟩⟩
      · simp only [encodeOwned, SlotWriter.allocAligned, if_pos he, if_pos ha', if_neg h0]
        exact ⟨trivial, trivial, .inl ⟨ha, _, rfl⟩⟩
    · have ha' := ha
      unfold ArgsFit at ha'
      by_cases h0 : f.size ≠ 0
      · simp only [encodeOwned, SlotWriter.allocAligned, if_pos he, if_neg ha', if_pos h0]
        exact ⟨trivial, trivial, .inr ⟨ha, trivial⟩⟩
      · simp only [encodeOwned, SlotWriter.allocAligned, if_pos he, if_neg ha', if_neg h0]
        exact ⟨trivial, trivial, .inr ⟨ha, trivial⟩⟩
  · refine .inl ⟨he, ?_⟩
    unfold EnvFits at he
    simp only [encodeOwned, SlotWriter.allocAligned, if_neg he]
    exact ⟨trivial, trivial⟩

end Encoding

/-- The captured values are owned linearly exactly if none has a destructor, or the
environment does not fit, or the arguments fit exactly when `F` has a size: a closure
without a size is dropped at the end of the encoding and made up again for the call, and
one with a size is not taken back out of the slot when the arguments overflow. -/
theorem captures_linear_iff [DecidableEq ι] (w : SlotWriter) (f : Captured ι)
    (args : List UInt8) : LinearlyOwned w f args ↔
      f.values = [] ∨ (EnvFits w f → (f.size ≠ 0 ↔ ArgsFit w f args)) := by
  have once : ∀ v ∈ f.values, f.values.count v = 1 :=
    fun v hv => List.count_eq_one_of_mem f.nodup hv
  rcases encodeOwned_cases w f args with ⟨henv, hres, hd⟩ | ⟨henv, hslot, hd, hcase⟩
  · refine iff_of_true ⟨?_, ?_, ?_⟩ (.inr (fun h => absurd h henv))
    · intro h hok
      simp [hres] at hok
    · intro h hok
      simp [hres] at hok
    · intro _ v hv
      rw [hd, once v hv]
  · rcases List.eq_nil_or_concat f.values with hnil | ⟨vs, v, hvs⟩
    · exact iff_of_true ⟨by simp [hnil], by simp [hnil], by simp [hnil]⟩ (.inl hnil)
    · have hv : v ∈ f.values := by simp [hvs]
      have hne : f.values ≠ [] := List.ne_nil_of_mem hv
      simp only [hne, false_or, henv, forall_const]
      by_cases h0 : f.size = 0
      · simp only [h0, ne_eq, not_true_eq_false, if_false, false_iff] at hslot hd ⊢
        rcases hcase with ⟨hargs, h, hok⟩ | ⟨hargs, hres⟩
        · -- dropped here, and once more by the call
          refine iff_of_false (fun hl => ?_) (not_not.mpr hargs)
          have := hl.called h hok v hv
          simp only [hd, callOnceShim, if_pos h0, List.count_append, once v hv] at this
          omega
        · refine iff_of_true ⟨?_, ?_, ?_⟩ hargs
          · intro h hok
            simp [hres] at hok
          · intro h hok
            simp [hres] at hok
          · intro _ x hx
            rw [hd, once x hx]
      · simp only [ne_eq, h0, not_false_eq_true, if_true, true_iff] at hslot hd ⊢
        rcases hcase with ⟨hargs, h, hok⟩ | ⟨hargs, hres⟩
        · refine iff_of_true ⟨?_, ?_, ?_⟩ hargs
          · intro _ _ x hx
            simp only [hd, hslot, callOnceShim, if_neg h0, List.nil_append, once x hx]
          · intro _ _ x hx
            simp only [hd, hslot, dropShim, ne_eq, h0, not_false_eq_true, if_true,
              List.nil_append, once x hx]
          · intro hres
            simp [hok] at hres
        · -- moved into a slot that nobody will read
          refine iff_of_false (fun hl => ?_) hargs
          have := hl.overflowed hres v hv
          simp [hd] at this

def guardCapture : Captured Nat := ⟨.empty, [0], by simp⟩

def boxCapture : Captured Nat := ⟨⟨8, 8, List.replicate 8 0, rfl⟩, [0], by simp⟩

/-- The guard is destroyed by the encoding and again by the call; the box is forgotten when
its arguments do not fit. -/
theorem guard_destroyed_twice :
    ¬ LinearlyOwned ⟨fun _ => 0, slotBytes, 48⟩ guardCapture [] ∧
      ¬ LinearlyOwned ⟨fun _ => 0, slotBytes, 48⟩ boxCapture (List.replicate 1100 0) := by
  constructor
  · intro h
    exact absurd (h.called _ rfl 0 (by decide)) (by decide)
  · intro h
    have henv : EnvFits ⟨fun _ => 0, slotBytes, 48⟩ boxCapture := by
      unfold EnvFits
      decide
    have hargs : ¬ ArgsFit ⟨fun _ => 0, slotBytes, 48⟩ boxCapture (List.replicate 1100 0) := by
      unfold ArgsFit
      rw [List.length_replicate]
      decide
    rcases encodeOwned_cases ⟨fun _ => 0, slotBytes, 48⟩ boxCapture (List.replicate 1100 0) with
      ⟨hn, _⟩ | ⟨_, _, hd, ⟨ha, _⟩ | ⟨_, hres⟩⟩
    · exact hn henv
    · exact hargs ha
    · have := h.overflowed hres 0 (by decide)
      rw [hd] at this
      exact absurd this (by decide)

end TrustTee
