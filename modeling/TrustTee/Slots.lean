import Mathlib.Algebra.Group.Nat.Defs
import Mathlib.Logic.Function.Basic

set_option autoImplicit false

namespace TrustTee

abbrev Word := BitVec 32
abbrev Usize := BitVec 64

def primaryBytes : Usize := 128
def trailingBytes : Usize := 1024
def slotBytes : Usize := primaryBytes + trailingBytes
def headerBytes : Usize := 4

/-- `size_of::<RequestRecordHeader>()` and its alignment on a 64-bit target. -/
def recordHeaderSize : Usize := 40
def recordHeaderAlign : Usize := 8

namespace Header

def readyBit : Word := 1
def countShift : Nat := 1
def countMask : Word := 0xFFFFFFFE

def packReadyCount (ready : Bool) (count : Word) : Word :=
  ((count <<< countShift) &&& countMask) ||| (if ready then 1 else 0)

def ready (word : Word) : Bool := (word &&& readyBit) ≠ 0

def count (word : Word) : Word := (word &&& countMask) >>> countShift

/-- The next aligned offset, moved past the primary block when `[start, start + size)`
would straddle its end. Sums wrap, as in the release profile. -/
def nextBoundaryOffset (cursor size align : Usize) : Usize :=
  let mask := (if align < 1 then 1 else align) - 1
  let start := (cursor + mask) &&& ~~~mask
  if start < primaryBytes ∧ start + size > primaryBytes then
    (primaryBytes + mask) &&& ~~~mask
  else start

@[simp] theorem ready_packReadyCount (r : Bool) (c : Word) :
    ready (packReadyCount r c) = r := by
  have h : packReadyCount r c &&& 1#32 = if r then 1#32 else 0#32 := by
    apply BitVec.eq_of_getLsbD_eq
    intro i hi
    cases r <;> cases i <;> simp [packReadyCount, countMask, countShift]
  cases r <;> simp [ready, readyBit, h]

/-- The count field has 31 bits; a count that fits is read back unchanged. -/
theorem count_packReadyCount (r : Bool) (c : Word) (h : c.getLsbD 31 = false) :
    count (packReadyCount r c) = c := by
  have hmask : ∀ i < 31, (4294967294#32).getLsbD (1 + i) = true := by decide
  apply BitVec.eq_of_getLsbD_eq
  intro i hi
  by_cases h31 : i = 31
  · subst h31
    rw [h]
    cases r <;> simp [count, packReadyCount, countMask, countShift]
  · have hi' : i < 31 := by omega
    have hlt : 1 + i < 32 := by omega
    have hm : (4294967294#32)[1 + i] = true := by
      simpa [BitVec.getLsbD_eq_getElem hlt] using hmask i hi'
    rw [BitVec.getLsbD_eq_getElem hi, BitVec.getLsbD_eq_getElem hi]
    cases r <;> simp [count, packReadyCount, countMask, countShift, hm, hlt]

@[simp] theorem count_packReadyCount_one (r : Bool) : count (packReadyCount r 1) = 1 :=
  count_packReadyCount r 1 (by decide)

end Header
end TrustTee
