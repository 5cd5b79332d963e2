import TrustTee.Slots
import Mathlib.Data.List.Basic

/-!
The slot writer and the encoding of a closure into a request slot
(`runtime/serialization.rs`), at the level of bytes.
-/

set_option autoImplicit false

namespace TrustTee
open Header

/-- A Rust type as a slot sees it: its size and the bytes of each value. -/
structure Layout (α : Type) where
  size : Nat
  bytes : α → List UInt8
  length_bytes : ∀ a, (bytes a).length = size

/-- Bytes by their offset from the base of a slot, those behind the slot included. -/
abbrev Bytes := Nat → UInt8

def Bytes.write (m : Bytes) (off : Nat) (l : List UInt8) : Bytes :=
  fun i => if off ≤ i ∧ i < off + l.length then l.getD (i - off) 0 else m i

def Bytes.read (m : Bytes) (off size : Nat) : List UInt8 :=
  (List.range size).map (fun i => m (off + i))

theorem Bytes.write_below {m : Bytes} {off i : Nat} {l : List UInt8} (h : i < off) :
    m.write off l i = m i := by
  unfold Bytes.write
  rw [if_neg (by omega)]

theorem Bytes.write_above {m : Bytes} {off i : Nat} {l : List UInt8}
    (h : off + l.length ≤ i) : m.write off l i = m i := by
  unfold Bytes.write
  rw [if_neg (by omega)]

@[simp] theorem Bytes.length_read (m : Bytes) (off size : Nat) :
    (m.read off size).length = size := by
  simp [Bytes.read]

theorem Bytes.read_congr {m m' : Bytes} {off size : Nat}
    (h : ∀ i, off ≤ i → i < off + size → m' i = m i) : m'.read off size = m.read off size := by
  apply List.map_congr_left
  intro i hi
  have := List.mem_range.mp hi
  exact h (off + i) (by omega) (by omega)

theorem Bytes.read_write (m : Bytes) (off : Nat) (l : List UInt8) :
    (m.write off l).read off l.length = l := by
  apply List.ext_getElem
  · simp
  · intro i h₁ h₂
    simp [Bytes.read, Bytes.write, h₂]

theorem Bytes.read_write_apart {m : Bytes} {off off' size : Nat} {l : List UInt8}
    (h : off + size ≤ off' ∨ off' + l.length ≤ off) :
    (m.write off' l).read off size = m.read off size := by
  apply Bytes.read_congr
  intro i hi hi'
  rcases h with h | h
  · exact Bytes.write_below (by omega)
  · exact Bytes.write_above (by omega)

/-- The capture of a closure type `F`: `size_of::<F>()`, `align_of::<F>()` and its bytes. -/
structure Capture where
  size : Usize
  align : Usize
  bytes : List UInt8
  length_bytes : bytes.length = size.toNat

def Capture.empty : Capture := ⟨0, 1, [], rfl⟩

structure SlotWriter where
  mem : Bytes
  len : Usize
  cursor : Usize

/-- `SlotWriter::alloc_aligned`: the cursor has moved when the assertion fails. -/
def SlotWriter.allocAligned (w : SlotWriter) (size align : Usize) :
    SlotWriter × Except String Usize :=
  let pos := nextBoundaryOffset w.cursor size align
  let w := { w with cursor := pos + size }
  (w, if w.cursor ≤ w.len then .ok pos else .error "slot overflow")

structure EncodedHeader where
  env : Usize
  capturedLen : Word
  argsLen : Word
  argsOffset : Word
  deriving DecidableEq, Repr

/-- `encode_closure`: the capture, if it has a size, and the argument bytes after it. -/
def encodeClosure (w : SlotWriter) (f : Capture) (args : List UInt8) :
    SlotWriter × Except String EncodedHeader :=
  match w.allocAligned f.size f.align with
  | (w, .error e) => (w, .error e)
  | (w, .ok env) =>
    let w := if f.size ≠ 0 then { w with mem := w.mem.write env.toNat f.bytes } else w
    match w.allocAligned (BitVec.ofNat 64 args.length) 1 with
    | (w, .error e) => (w, .error e)
    | (w, .ok pos) =>
      ({ w with mem := w.mem.write pos.toNat args },
        .ok ⟨env, f.size.setWidth 32, BitVec.ofNat 32 args.length, pos.setWidth 32⟩)

@[simp] theorem Bytes.write_nil (m : Bytes) (off : Nat) : m.write off [] = m := by
  funext i
  unfold Bytes.write
  rw [if_neg (by simp)]

theorem Capture.bytes_nil {f : Capture} (h : f.size = 0) : f.bytes = [] :=
  List.eq_nil_of_length_eq_zero (by rw [f.length_bytes, h]; rfl)

/-- An encoding in one piece: the environment is written when it fits, and the arguments
behind it when they fit too. -/
theorem encodeClosure_eq (m : Bytes) (len cursor : Usize) (f : Capture) (args : List UInt8) :
    encodeClosure ⟨m, len, cursor⟩ f args =
      let env := nextBoundaryOffset cursor f.size f.align
      let pos := nextBoundaryOffset (env + f.size) (BitVec.ofNat 64 args.length) 1
      let stop := pos + BitVec.ofNat 64 args.length
      if env + f.size ≤ len then
        if stop ≤ len then
          (⟨(m.write env.toNat f.bytes).write pos.toNat args, len, stop⟩,
            .ok ⟨env, f.size.setWidth 32, BitVec.ofNat 32 args.length, pos.setWidth 32⟩)
        else (⟨m.write env.toNat f.bytes, len, stop⟩, .error "slot overflow")
      else (⟨m, len, env + f.size⟩, .error "slot overflow") := by
  by_cases hf : nextBoundaryOffset cursor f.size f.align + f.size ≤ len
  · by_cases h0 : f.size ≠ 0
    · by_cases ha : nextBoundaryOffset (nextBoundaryOffset cursor f.size f.align + f.size)
          (BitVec.ofNat 64 args.length) 1 + BitVec.ofNat 64 args.length ≤ len
      · simp only [encodeClosure, SlotWriter.allocAligned, if_pos hf, if_pos ha, if_pos h0]
      · simp only [encodeClosure, SlotWriter.allocAligned, if_pos hf, if_neg ha, if_pos h0]
    · have hb := Capture.bytes_nil (not_not.mp h0)
      by_cases ha : nextBoundaryOffset (nextBoundaryOffset cursor f.size f.align + f.size)
          (BitVec.ofNat 64 args.length) 1 + BitVec.ofNat 64 args.length ≤ len
      · simp only [encodeClosure, SlotWriter.allocAligned, if_pos hf, if_pos ha, if_neg h0, hb,
          Bytes.write_nil]
      · simp only [encodeClosure, SlotWriter.allocAligned, if_pos hf, if_neg ha, if_neg h0, hb,
          Bytes.write_nil]
  · simp only [encodeClosure, SlotWriter.allocAligned, if_neg hf]

theorem encodeClosure_result (m : Bytes) (len cursor : Usize) (f : Capture)
    (args : List UInt8) :
    (encodeClosure ⟨m, len, cursor⟩ f args).2 =
      let env := nextBoundaryOffset cursor f.size f.align
      let pos := nextBoundaryOffset (env + f.size) (BitVec.ofNat 64 args.length) 1
      if env + f.size ≤ len ∧ pos + BitVec.ofNat 64 args.length ≤ len then
        .ok ⟨env, f.size.setWidth 32, BitVec.ofNat 32 args.length, pos.setWidth 32⟩
      else .error "slot overflow" := by
  rw [encodeClosure_eq]
  dsimp only
  split
  · rename_i henv
    split
    · rename_i hargs
      rw [if_pos ⟨henv, hargs⟩]
    · rename_i hargs
      rw [if_neg (fun h => hargs h.2)]
  · rename_i henv
    rw [if_neg (fun h => henv h.1)]

theorem encodeClosure_mem (m m' : Bytes) (len cursor : Usize) (f : Capture)
    (args : List UInt8) :
    (encodeClosure ⟨m, len, cursor⟩ f args).2 = (encodeClosure ⟨m', len, cursor⟩ f args).2 := by
  rw [encodeClosure_result, encodeClosure_result]

end TrustTee
