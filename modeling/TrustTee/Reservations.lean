import TrustTee.RequestRecord
import TrustTee.Machine

set_option autoImplicit false

namespace TrustTee
open Header

def PowerOrZero (align : Usize) : Prop := align = 0 ∨ ∃ k, align.toNat = 2 ^ k

def effectiveAlign (align : Usize) : Nat := max align.toNat 1

def SumsFit (cursor size align : Usize) : Prop :=
  cursor.toNat + (effectiveAlign align - 1) < 2 ^ 64 ∧
    (Alignment.up (effectiveAlign align) cursor.toNat < primaryBytes.toNat →
      Alignment.up (effectiveAlign align) cursor.toNat + size.toNat < 2 ^ 64)

section Offsets

variable {cursor cursor' size align : Usize}

theorem PowerOrZero.cases (h : PowerOrZero align) :
    ∃ align' k, align'.toNat = 2 ^ k ∧ effectiveAlign align = 2 ^ k ∧
      ∀ cursor size, nextBoundaryOffset cursor size align =
        nextBoundaryOffset cursor size align' := by
  rcases h with rfl | ⟨k, hk⟩
  · exact ⟨1, 0, rfl, rfl, fun _ _ => rfl⟩
  · refine ⟨align, k, hk, ?_, fun _ _ => rfl⟩
    have hpos : 0 < 2 ^ k := Nat.two_pow_pos k
    unfold effectiveAlign
    omega

theorem PowerOrZero.pos (align : Usize) : 0 < effectiveAlign align := by
  unfold effectiveAlign
  omega

theorem PowerOrZero.boundary (ha : PowerOrZero align) (hfit : SumsFit cursor size align) :
    (nextBoundaryOffset cursor size align).toNat =
      boundaryOffset cursor.toNat size.toNat (effectiveAlign align) := by
  obtain ⟨align', k, hk, heff, hsame⟩ := ha.cases
  obtain ⟨hround, hend⟩ := hfit
  rw [heff] at *
  rw [hsame, nextBoundaryOffset_exact hk hround hend, hk]

theorem PowerOrZero.least (ha : PowerOrZero align) (hfit : SumsFit cursor size align) :
    IsLeast {p | Alignment.Admissible primaryBytes.toNat (effectiveAlign align) size.toNat
      cursor.toNat p} (nextBoundaryOffset cursor size align).toNat := by
  rw [ha.boundary hfit]
  exact Alignment.isLeast_admissible (PowerOrZero.pos align)

theorem SumsFit.again (ha : PowerOrZero align) (hfit : SumsFit cursor size align) :
    SumsFit (nextBoundaryOffset cursor size align) size align := by
  obtain ⟨⟨_, hdvd, hwhole⟩, _⟩ := ha.least hfit
  obtain ⟨align', k, hk, heff, _⟩ := ha.cases
  have hpos : 0 < effectiveAlign align := PowerOrZero.pos align
  have hlt := (nextBoundaryOffset cursor size align).isLt
  have hk64 : k ≤ 64 := (Alignment.lt_width hk).le
  have hprim : primaryBytes.toNat = 128 := rfl
  refine ⟨?_, fun hstart => ?_⟩
  · -- the next multiple after it is at most `2 ^ 64`
    have hround : effectiveAlign align ∣ 2 ^ 64 := heff ▸ Nat.pow_dvd_pow 2 hk64
    obtain ⟨m, hm⟩ := hdvd
    obtain ⟨n, hn⟩ := hround
    have hmn : m < n := by
      refine @Nat.lt_of_mul_lt_mul_left (effectiveAlign align) _ _ ?_
      rw [← hm, ← hn]
      exact hlt
    have hstep : effectiveAlign align * (m + 1) ≤ effectiveAlign align * n :=
      Nat.mul_le_mul_left _ hmn
    rw [Nat.mul_add, ← hm, ← hn] at hstep
    omega
  · rw [Alignment.up_of_dvd hpos hdvd] at *
    omega

end Offsets

/-- `next_boundary_offset` returns the least offset at or after the cursor that is aligned
and keeps the block on one side of the primary block's end. So it is monotone, and it leaves
its own result where it is. -/
theorem next_boundary_offset_least {cursor size align : Usize} (ha : PowerOrZero align)
    (hfit : SumsFit cursor size align) :
    IsLeast {p | Alignment.Admissible primaryBytes.toNat (effectiveAlign align) size.toNat
      cursor.toNat p} (nextBoundaryOffset cursor size align).toNat ∧
    (∀ cursor', SumsFit cursor' size align → cursor ≤ cursor' →
      nextBoundaryOffset cursor size align ≤ nextBoundaryOffset cursor' size align) ∧
    nextBoundaryOffset (nextBoundaryOffset cursor size align) size align =
      nextBoundaryOffset cursor size align := by
  have hleast := ha.least hfit
  refine ⟨hleast, fun cursor' hfit' hle => ?_, ?_⟩
  · exact BitVec.le_def.mpr (Alignment.least_mono hleast (ha.least hfit') (BitVec.le_def.mp hle))
  · exact BitVec.eq_of_toNat_eq
      ((ha.least (hfit.again ha)).unique (Alignment.least_again hleast))

theorem next_boundary_offset_least_skips :
    IsLeast {p | Alignment.Admissible primaryBytes.toNat (effectiveAlign 256) 40 100 p}
      (nextBoundaryOffset 100 40 256).toNat ∧ (nextBoundaryOffset 100 40 256).toNat = 256 :=
  ⟨(@next_boundary_offset_least 100 40 256 (.inr ⟨8, rfl⟩) ⟨by decide, by decide⟩).1, by decide⟩

section Wrapping

variable {cursor size align : Usize}

instance (align : Usize) : Decidable (PowerOrZero align) :=
  decidable_of_iff (align = 0 ∨ ∃ k < 64, align.toNat = 2 ^ k) (by
    exact or_congr_right ⟨fun ⟨k, _, hk⟩ => ⟨k, hk⟩,
      fun ⟨k, hk⟩ => ⟨k, Alignment.lt_width hk, hk⟩⟩)

/-- Where the rounding of the cursor starts: it falls back to the base of the slot when the
sum passes `2 ^ 64`. -/
def roundingStart (cursor align : Usize) : Nat :=
  if cursor.toNat + (effectiveAlign align - 1) < 2 ^ 64 then cursor.toNat else 0

def nextPlace (cursor size align : Usize) : Nat :=
  boundaryOffset (roundingStart cursor align) size.toNat (effectiveAlign align)

theorem PowerOrZero.offset (ha : PowerOrZero align) :
    (nextBoundaryOffset cursor size align).toNat =
      let start := Alignment.up (effectiveAlign align) (roundingStart cursor align)
      if start < primaryBytes.toNat ∧ primaryBytes.toNat < (start + size.toNat) % 2 ^ 64 then
        Alignment.up (effectiveAlign align) primaryBytes.toNat
      else start := by
  obtain ⟨align', k, hk, heff, hsame⟩ := ha.cases
  have hpos : 0 < 2 ^ k := Nat.two_pow_pos k
  have hzero : Alignment.up (2 ^ k) 0 = 0 := Alignment.up_of_dvd hpos (Nat.dvd_zero _)
  rw [hsame, nextBoundaryOffset_eq hk, roundingStart, heff]
  simp only [apply_ite (Alignment.up (2 ^ k)), hzero]

theorem PowerOrZero.placed (ha : PowerOrZero align)
    (hend : nextPlace cursor size align + size.toNat < 2 ^ 64) :
    (nextBoundaryOffset cursor size align).toNat = nextPlace cursor size align := by
  have hpos : 0 < effectiveAlign align := PowerOrZero.pos align
  have hup : Alignment.up (effectiveAlign align) (roundingStart cursor align) ≤
      nextPlace cursor size align :=
    Alignment.up_le_of_dvd hpos dvd_boundaryOffset (le_boundaryOffset hpos)
  have hfit : Alignment.up (effectiveAlign align) (roundingStart cursor align) + size.toNat <
      2 ^ 64 := by omega
  rw [ha.offset, nextPlace, boundaryOffset]
  simp only [Nat.mod_eq_of_lt hfit]

/-- An end that wraps does so in the computation as well, and the assertion sees it in both
or in neither. -/
theorem PowerOrZero.wraps (ha : PowerOrZero align)
    (hend : 2 ^ 64 ≤ nextPlace cursor size align + size.toNat) :
    2 ^ 64 ≤ (nextBoundaryOffset cursor size align).toNat + size.toNat ∧
      (((nextBoundaryOffset cursor size align).toNat + size.toNat) % 2 ^ 64 ≤ slotBytes.toNat ↔
        (nextPlace cursor size align + size.toNat) % 2 ^ 64 ≤ slotBytes.toNat) := by
  have hs := size.isLt
  have hprim : primaryBytes.toNat = 128 := rfl
  have hslot : slotBytes.toNat = 1152 := rfl
  obtain ⟨_, k, _, heff, _⟩ := ha.cases
  have hdvd : effectiveAlign align ∣
      Alignment.up (effectiveAlign align) (roundingStart cursor align) := Alignment.dvd_up
  rw [ha.offset]
  unfold nextPlace boundaryOffset at *
  dsimp only at *
  generalize Alignment.up (effectiveAlign align) (roundingStart cursor align) = start at *
  by_cases hlt : start < primaryBytes.toNat
  · by_cases hsum : start + size.toNat < 2 ^ 64
    · rw [Nat.mod_eq_of_lt hsum]
      exact ⟨hend, Iff.rfl⟩
    · -- the test for the boundary misses the block, which would start right behind it
      have hle : 2 ^ k ≤ start := heff ▸ Nat.le_of_dvd (by omega) hdvd
      have hk : k < 7 := (Nat.pow_lt_pow_iff_right (by decide)).mp (by omega : 2 ^ k < 2 ^ 7)
      have hskip : Alignment.up (effectiveAlign align) primaryBytes.toNat = primaryBytes.toNat :=
        Alignment.up_of_dvd (PowerOrZero.pos align) (heff ▸ Nat.pow_dvd_pow 2 hk.le)
      rw [hskip] at *
      rw [if_neg (by omega), if_pos (by omega)]
      omega
  · simp only [hlt, false_and, if_false, iff_self, and_true] at *
    exact hend

end Wrapping

def SlotWriter.writeBytes (w : SlotWriter) (bytes : List UInt8) :
    SlotWriter × Except String Usize :=
  match w.allocAligned (BitVec.ofNat 64 bytes.length) 1 with
  | (w, .error e) => (w, .error e)
  | (w, .ok p) => ({ w with mem := w.mem.write p.toNat bytes }, .ok p)

def SlotWriter.new (buf : Bytes) : SlotWriter := ⟨buf, slotBytes, 0⟩

inductive WriterCall where
  | allocAligned (size align : Usize)
  | writeBytes (bytes : List UInt8)
  deriving DecidableEq, Repr

namespace WriterCall

def size : WriterCall → Usize
  | allocAligned size _ => size
  | writeBytes bytes => BitVec.ofNat 64 bytes.length

def align : WriterCall → Usize
  | allocAligned _ align => align
  | writeBytes _ => 1

/-- An alignment is a power of two or zero, and a slice has at most `isize::MAX` bytes. -/
def Allowed : WriterCall → Prop
  | allocAligned _ align => PowerOrZero align
  | writeBytes bytes => bytes.length < 2 ^ 63

instance : DecidablePred Allowed := fun a => by
  cases a <;> unfold Allowed <;> infer_instance

def exec : WriterCall → SlotWriter → SlotWriter × Except String Usize
  | allocAligned size align, w => w.allocAligned size align
  | writeBytes bytes, w => w.writeBytes bytes

theorem Allowed.align {a : WriterCall} (h : a.Allowed) : PowerOrZero a.align := by
  cases a with
  | allocAligned size align => exact h
  | writeBytes bytes => exact .inr ⟨0, rfl⟩

theorem exec_eq (a : WriterCall) (w : SlotWriter) :
    (a.exec w).1.len = w.len ∧
      (a.exec w).1.cursor = nextBoundaryOffset w.cursor a.size a.align + a.size ∧
      (a.exec w).2 = if nextBoundaryOffset w.cursor a.size a.align + a.size ≤ w.len then
        .ok (nextBoundaryOffset w.cursor a.size a.align) else .error "slot overflow" := by
  cases a with
  | allocAligned size align => exact ⟨rfl, rfl, rfl⟩
  | writeBytes bytes =>
    by_cases h : nextBoundaryOffset w.cursor (BitVec.ofNat 64 bytes.length) 1 +
        BitVec.ofNat 64 bytes.length ≤ w.len
    · simp only [exec, SlotWriter.writeBytes, SlotWriter.allocAligned, size, align, if_pos h]
      exact ⟨trivial, trivial, (if_pos h).symm⟩
    · simp only [exec, SlotWriter.writeBytes, SlotWriter.allocAligned, size, align, if_neg h]
      exact ⟨trivial, trivial, (if_neg h).symm⟩

end WriterCall

structure Reserved where
  writer : SlotWriter
  regions : List Region

namespace Reserved

def new (buf : Bytes) : Reserved := ⟨.new buf, []⟩

/-- A call that panics leaves the writer as it is then: the caller may catch the panic and
go on. -/
def step (s : Reserved) (a : WriterCall) : Option Reserved :=
  if a.Allowed then
    some (match a.exec s.writer with
      | (w, .ok pos) => ⟨w, s.regions ++ [⟨pos.toNat, a.size.toNat⟩]⟩
      | (w, .error _) => ⟨w, s.regions⟩)
  else none

/-- The call panics or reserves what it should. -/
def Fine (s : Reserved) (a : WriterCall) : Prop :=
  match a.exec s.writer with
  | (_, .error _) => True
  | (w, .ok pos) => effectiveAlign a.align ∣ pos.toNat ∧
      pos.toNat + a.size.toNat ≤ w.len.toNat ∧
      (∀ r ∈ s.regions, r.start + r.len ≤ pos.toNat) ∧
      w.cursor.toNat = pos.toNat + a.size.toNat

/-- The end of the block does not wrap to a place in the slot, and the rounding only falls
back to the base where nothing has been reserved behind the place it leads to. -/
def Unwrapped (s : Reserved) (a : WriterCall) : Prop :=
  slotBytes.toNat < (nextPlace s.writer.cursor a.size a.align + a.size.toNat) % 2 ^ 64 ∨
    nextPlace s.writer.cursor a.size a.align + a.size.toNat < 2 ^ 64 ∧
      (s.writer.cursor.toNat + (effectiveAlign a.align - 1) < 2 ^ 64 ∨
        ∀ r ∈ s.regions, r.start + r.len ≤ nextPlace s.writer.cursor a.size a.align)

structure Inv (s : Reserved) : Prop where
  len : s.writer.len = slotBytes
  inside : ∀ r ∈ s.regions, r.Inside
  behind : ∀ r ∈ s.regions, r.start + r.len ≤ s.writer.cursor.toNat
  apart : s.regions.Pairwise Region.Apart

variable {s s' : Reserved} {a : WriterCall}

theorem step_cases (h : s.step a = some s') : a.Allowed ∧ s'.writer.len = s.writer.len ∧
    let pos := nextBoundaryOffset s.writer.cursor a.size a.align
    s'.writer.cursor = pos + a.size ∧
      ((pos + a.size ≤ s.writer.len ∧
          s'.regions = s.regions ++ [⟨pos.toNat, a.size.toNat⟩]) ∨
        (¬ pos + a.size ≤ s.writer.len ∧ s'.regions = s.regions)) := by
  unfold step at h
  split at h
  · rename_i hallowed
    obtain ⟨hlen, hcursor, hres⟩ := a.exec_eq s.writer
    obtain rfl := Option.some.inj h
    by_cases hfit : nextBoundaryOffset s.writer.cursor a.size a.align + a.size ≤ s.writer.len
    · rw [if_pos hfit] at hres
      rw [show a.exec s.writer = ((a.exec s.writer).1, (a.exec s.writer).2) from rfl, hres]
      exact ⟨hallowed, hlen, hcursor, .inl ⟨hfit, rfl⟩⟩
    · rw [if_neg hfit] at hres
      rw [show a.exec s.writer = ((a.exec s.writer).1, (a.exec s.writer).2) from rfl, hres]
      exact ⟨hallowed, hlen, hcursor, .inr ⟨hfit, rfl⟩⟩
  · simp at h

theorem fine_iff : s.Fine a ↔
    let pos := nextBoundaryOffset s.writer.cursor a.size a.align
    pos + a.size ≤ s.writer.len →
      effectiveAlign a.align ∣ pos.toNat ∧ pos.toNat + a.size.toNat ≤ s.writer.len.toNat ∧
      (∀ r ∈ s.regions, r.start + r.len ≤ pos.toNat) ∧
      (pos + a.size).toNat = pos.toNat + a.size.toNat := by
  obtain ⟨hlen, hcursor, hres⟩ := a.exec_eq s.writer
  unfold Fine
  rw [show a.exec s.writer = ((a.exec s.writer).1, (a.exec s.writer).2) from rfl]
  by_cases hfit : nextBoundaryOffset s.writer.cursor a.size a.align + a.size ≤ s.writer.len
  · rw [if_pos hfit] at hres
    rw [hres]
    simp only [hlen, hcursor, hfit, true_imp_iff]
  · rw [if_neg hfit] at hres
    rw [hres]
    simp only [hfit, false_imp_iff]

theorem le_nextPlace {cursor size align : Usize}
    (hround : cursor.toNat + (effectiveAlign align - 1) < 2 ^ 64) :
    cursor.toNat ≤ nextPlace cursor size align := by
  rw [nextPlace, roundingStart, if_pos hround]
  exact le_boundaryOffset (PowerOrZero.pos align)

theorem Inv.fine_iff (h : s.Inv) (ha : a.Allowed) : s.Fine a ↔ s.Unwrapped a := by
  have hslot : slotBytes.toNat = 1152 := rfl
  rw [Reserved.fine_iff, h.len]
  unfold Unwrapped
  dsimp only
  rw [BitVec.le_def, BitVec.toNat_add]
  rcases Nat.lt_or_ge (nextPlace s.writer.cursor a.size a.align + a.size.toNat) (2 ^ 64)
    with hend | hend
  · rw [ha.align.placed hend, Nat.mod_eq_of_lt hend]
    constructor
    · intro hfine
      by_cases hfit : nextPlace s.writer.cursor a.size a.align + a.size.toNat ≤ slotBytes.toNat
      · exact .inr ⟨hend, .inr (hfine hfit).2.2.1⟩
      · exact .inl (by omega)
    · rintro (hover | ⟨_, hplace⟩) hfit
      · omega
      · refine ⟨dvd_boundaryOffset, hfit, fun r hr => ?_, rfl⟩
        rcases hplace with hround | hplace
        · exact (h.behind r hr).trans (le_nextPlace hround)
        · exact hplace r hr
  · obtain ⟨hwrap, hsees⟩ := ha.align.wraps hend
    rw [hsees]
    constructor
    · intro hfine
      refine .inl (Nat.lt_of_not_le fun hfit => ?_)
      have hinside := (hfine hfit).2.1
      omega
    · rintro (hover | ⟨hlt, _⟩) hfit
      · omega
      · omega

theorem Inv.new (buf : Bytes) : (new buf).Inv := by
  constructor <;> simp [Reserved.new, SlotWriter.new]

theorem Inv.step (h : s.Inv) (hok : s.Unwrapped a) (hs : s.step a = some s') : s'.Inv := by
  obtain ⟨ha, hlen, hcursor, hcase⟩ := step_cases hs
  have hfine := Reserved.fine_iff.mp ((h.fine_iff ha).mpr hok)
  rw [h.len] at hlen hfine hcase
  rcases hcase with ⟨hfit, hregions⟩ | ⟨hover, hregions⟩
  · obtain ⟨_, hinside, hbehind, hend⟩ := hfine hfit
    refine ⟨hlen, ?_, ?_, ?_⟩
    · rw [hregions]
      intro r hr
      rcases List.mem_append.mp hr with hr | hr
      · exact h.inside r hr
      · obtain rfl := List.mem_singleton.mp hr
        exact hinside
    · rw [hregions, hcursor, hend]
      intro r hr
      rcases List.mem_append.mp hr with hr | hr
      · exact (hbehind r hr).trans (Nat.le_add_right _ _)
      · obtain rfl := List.mem_singleton.mp hr
        exact le_rfl
    · rw [hregions, List.pairwise_append]
      refine ⟨h.apart, List.pairwise_singleton _ _, fun r hr q hq => ?_⟩
      obtain rfl := List.mem_singleton.mp hq
      exact .inl (hbehind r hr)
  · refine ⟨hlen, ?_, ?_, ?_⟩
    · rw [hregions]
      exact h.inside
    · -- the assertion failed at a cursor behind the slot
      rw [hregions, hcursor]
      intro r hr
      have hr := h.inside r hr
      have hover := Nat.lt_of_not_le (BitVec.le_def.not.mp hover)
      unfold Region.Inside at hr
      omega
    · rw [hregions]
      exact h.apart

end Reserved

/-- The reservations of a writer are aligned, in bounds and pairwise disjoint, whatever is
called in whatever order, exactly if no call wraps into the slot: `alloc_aligned` checks the
end it has computed, and no sum on the way there. -/
theorem reservations_disjoint_iff {buf : Bytes} {l : List (Reserved × WriterCall)} {u : Reserved}
    (h : Machine.Trace Reserved.step (.new buf) l u) :
    (∀ x ∈ l, x.1.Fine x.2) ∧ u.regions.Pairwise Region.Apart ∧ (∀ r ∈ u.regions, r.Inside) ↔
      ∀ x ∈ l, x.1.Unwrapped x.2 := by
  have hsteps : (∀ x ∈ l, x.1.Fine x.2) ↔ ∀ x ∈ l, x.1.Unwrapped x.2 :=
    h.exact_steps (Reserved.Inv.new buf) (fun _ _ _ ht hok hs => ht.step hok hs)
      (fun _ _ _ ht hs => ht.fine_iff (Reserved.step_cases hs).1)
  constructor
  · rintro ⟨hfine, _⟩
    exact hsteps.mp hfine
  · intro hok
    have hu : u.Inv := h.invariant (Reserved.Inv.new buf)
      (fun _ _ _ ht hok hs => ht.step hok hs) hok
    exact ⟨hsteps.mpr hok, hu.apart, hu.inside⟩

def captureThenArgs : List WriterCall := [.allocAligned 24 8, .writeBytes [1, 2, 3]]

theorem reservations_disjoint_iff_captureThenArgs : ∃ (l : List (Reserved × WriterCall))
    (u : Reserved), l.map Prod.snd = captureThenArgs ∧ u.regions = [⟨0, 24⟩, ⟨24, 3⟩] ∧
      ((∀ x ∈ l, x.1.Fine x.2) ∧ u.regions.Pairwise Region.Apart ∧
          (∀ r ∈ u.regions, r.Inside) ↔
        ∀ x ∈ l, x.1.Unwrapped x.2) := by
  obtain ⟨u, hrun, hregions⟩ : ∃ u, Machine.run Reserved.step (.new (fun _ => 0))
      captureThenArgs = some u ∧ u.regions = [⟨0, 24⟩, ⟨24, 3⟩] := ⟨_, rfl, rfl⟩
  exact ⟨_, u, rfl, hregions, reservations_disjoint_iff (Machine.run_trail hrun)⟩

/-- The first call asks for all but 8 bytes of the address space and is granted: its end
wraps to 120. The second one then overlaps it. -/
def nearlyAll : List WriterCall :=
  [.allocAligned (BitVec.ofNat 64 (2 ^ 64 - 8)) 8, .allocAligned 16 8]

theorem nearlyAll_reserved : ¬ ∀ (buf : Bytes) (l : List (Reserved × WriterCall)) (u : Reserved),
    Machine.Trace Reserved.step (.new buf) l u →
    (∀ x ∈ l, x.1.Fine x.2) ∧ u.regions.Pairwise Region.Apart ∧ ∀ r ∈ u.regions, r.Inside := by
  intro h
  obtain ⟨u, hrun, hregions⟩ : ∃ u, Machine.run Reserved.step (.new (fun _ => 0))
      nearlyAll = some u ∧ u.regions = [⟨128, 2 ^ 64 - 8⟩, ⟨128, 16⟩] := ⟨_, rfl, rfl⟩
  obtain ⟨_, _, hinside⟩ := h _ _ _ (Machine.run_trail hrun)
  have hfirst := hinside ⟨128, 2 ^ 64 - 8⟩ (by simp [hregions])
  exact absurd hfirst (by unfold Region.Inside; decide)

end TrustTee
