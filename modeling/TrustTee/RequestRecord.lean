import TrustTee.Alignment
import TrustTee.LittleEndian
import TrustTee.Serialization
import TrustTee.Delegation

set_option autoImplicit false

namespace TrustTee
open Header

def boundaryOffset (cursor size align : Nat) : Nat :=
  let start := Alignment.up align cursor
  if start < primaryBytes.toNat ∧ primaryBytes.toNat < start + size then
    Alignment.up align primaryBytes.toNat
  else start

section Offsets

variable {cursor size align : Nat}

theorem le_boundaryOffset (ha : 0 < align) : cursor ≤ boundaryOffset cursor size align := by
  have hstart := @Alignment.le_up align cursor ha
  have hmoved := @Alignment.le_up align primaryBytes.toNat ha
  unfold boundaryOffset
  dsimp only
  split <;> omega

theorem dvd_boundaryOffset : align ∣ boundaryOffset cursor size align := by
  unfold boundaryOffset
  dsimp only
  split <;> exact Alignment.dvd_up

theorem boundaryOffset_whole (ha : 0 < align) :
    ¬ (boundaryOffset cursor size align < primaryBytes.toNat ∧
      primaryBytes.toNat < boundaryOffset cursor size align + size) := by
  have hmoved := @Alignment.le_up align primaryBytes.toNat ha
  unfold boundaryOffset
  dsimp only
  split <;> omega

theorem nextBoundaryOffset_eq {c s a : Usize} {k : Nat} (ha : a.toNat = 2 ^ k) :
    (nextBoundaryOffset c s a).toNat =
      let start := if c.toNat + (2 ^ k - 1) < 2 ^ 64 then Alignment.up (2 ^ k) c.toNat else 0
      if start < primaryBytes.toNat ∧ primaryBytes.toNat < (start + s.toNat) % 2 ^ 64 then
        Alignment.up (2 ^ k) primaryBytes.toNat
      else start := by
  have hprim : primaryBytes.toNat = 128 := rfl
  have hk : 2 ^ k ≤ 2 ^ 63 :=
    Nat.pow_le_pow_right (by decide) (Nat.le_of_lt_succ (Alignment.lt_width ha))
  have hmax : (if a < 1 then 1 else a) = a := by
    rw [if_neg]
    rw [BitVec.lt_def, ha]
    simp
  have hmoved : ((primaryBytes + (a - 1)) &&& ~~~(a - 1)).toNat =
      Alignment.up (2 ^ k) primaryBytes.toNat := Alignment.toNat_mask_up ha (by omega)
  have hstart : ((c + (a - 1)) &&& ~~~(a - 1)).toNat =
      if c.toNat + (2 ^ k - 1) < 2 ^ 64 then Alignment.up (2 ^ k) c.toNat else 0 := by
    split
    · rename_i hround
      exact Alignment.toNat_mask_up ha hround
    · -- what is left of the sum is below the mask
      have hm := Alignment.toNat_sub_one ha
      have hc := c.isLt
      have hsmall : (c.toNat + (2 ^ k - 1)) % 2 ^ 64 < 2 ^ k := by omega
      rw [Alignment.toNat_and_not_mask _ _ hm, BitVec.toNat_add, hm, Nat.div_eq_of_lt hsmall,
        Nat.zero_mul]
  unfold nextBoundaryOffset
  dsimp only
  rw [hmax, apply_ite BitVec.toNat, hmoved]
  simp only [BitVec.lt_def, gt_iff_lt, BitVec.toNat_add _ s, hstart]

/-- The machine computation agrees as long as its sums do not wrap. The end of the block is
only computed for a start in the primary block. -/
theorem nextBoundaryOffset_exact {c s a : Usize} {k : Nat} (ha : a.toNat = 2 ^ k)
    (hround : c.toNat + (2 ^ k - 1) < 2 ^ 64)
    (hend : Alignment.up (2 ^ k) c.toNat < primaryBytes.toNat →
      Alignment.up (2 ^ k) c.toNat + s.toNat < 2 ^ 64) :
    (nextBoundaryOffset c s a).toNat = boundaryOffset c.toNat s.toNat a.toNat := by
  rw [nextBoundaryOffset_eq ha, ha, boundaryOffset]
  simp only [if_pos hround]
  by_cases hlt : Alignment.up (2 ^ k) c.toNat < primaryBytes.toNat
  · rw [Nat.mod_eq_of_lt (hend hlt)]
  · simp only [hlt, false_and, if_false]

theorem reserved_toNat {c s a : Usize} {k : Nat} (ha : a.toNat = 2 ^ k)
    (hc : c.toNat ≤ 2 * slotBytes.toNat) (hs : s.toNat < 2 ^ 63) :
    (nextBoundaryOffset c s a).toNat = boundaryOffset c.toNat s.toNat a.toNat ∧
      (nextBoundaryOffset c s a + s).toNat =
        boundaryOffset c.toNat s.toNat a.toNat + s.toNat := by
  have hslot : slotBytes.toNat = 1152 := rfl
  have hprim : primaryBytes.toNat = 128 := rfl
  have hk : k < 64 := Alignment.lt_width ha
  have hhalf : 2 ^ k ≤ 2 ^ 63 := Nat.pow_le_pow_right (by decide) (Nat.le_of_lt_succ hk)
  have hpos := @nextBoundaryOffset_exact c s a k ha (by omega) (by omega)
  -- an alignment of `2 ^ 63` leaves just room for the size
  have hup : ∀ x, x ≤ 2 * slotBytes.toNat → Alignment.up (2 ^ k) x ≤ 2 ^ 63 := by
    intro x hx
    by_cases h63 : k = 63
    · subst h63
      exact Alignment.up_le_align (by omega)
    · have hpow : 2 ^ k ≤ 2 ^ 62 := Nat.pow_le_pow_right (by decide) (by omega)
      have := @Alignment.up_le (2 ^ k) x
      omega
  have hle : boundaryOffset c.toNat s.toNat a.toNat ≤ 2 ^ 63 := by
    rw [ha]
    unfold boundaryOffset
    dsimp only
    split
    · exact hup _ (by omega)
    · exact hup _ hc
  exact ⟨hpos, by rw [BitVec.toNat_add, hpos, Nat.mod_eq_of_lt (by omega)]⟩

end Offsets

structure RequestRecordHeader where
  data : Usize
  vtable : Usize
  propertyPtr : PropertyPtr
  capturedLen : Word
  argsLen : Word
  argsOffset : Word
  repeatCount : Word
  deriving DecidableEq, Repr

def PropertyPtr.code : PropertyPtr → Usize
  | .callMutRetUnit => 0
  | .callMutOutPtr => 1
  | .callMutArgsOutPtr => 2
  | .intoInner => 3
  | .launch => 4
  | .terminate => BitVec.allOnes 64

def PropertyPtr.ofCode (code : Usize) : Option PropertyPtr :=
  if code = 0 then some .callMutRetUnit
  else if code = 1 then some .callMutOutPtr
  else if code = 2 then some .callMutArgsOutPtr
  else if code = 3 then some .intoInner
  else if code = 4 then some .launch
  else if code = BitVec.allOnes 64 then some .terminate
  else none

@[simp] theorem PropertyPtr.ofCode_code (p : PropertyPtr) : ofCode p.code = some p := by
  cases p <;> rfl

namespace RequestRecordHeader

def bytes (h : RequestRecordHeader) : List UInt8 :=
  LittleEndian.bytes 8 h.data.toNat ++ (LittleEndian.bytes 8 h.vtable.toNat ++
    (LittleEndian.bytes 8 h.propertyPtr.code.toNat ++
      (LittleEndian.bytes 4 h.capturedLen.toNat ++ (LittleEndian.bytes 4 h.argsLen.toNat ++
        (LittleEndian.bytes 4 h.argsOffset.toNat ++
          LittleEndian.bytes 4 h.repeatCount.toNat)))))

/-- `read_unaligned` of a header; there is none when the operation code is no
discriminant. -/
def ofBytes (l : List UInt8) : Option RequestRecordHeader :=
  (PropertyPtr.ofCode (BitVec.ofNat 64 (LittleEndian.field l 16 8))).map (fun p =>
    { data := BitVec.ofNat 64 (LittleEndian.field l 0 8)
      vtable := BitVec.ofNat 64 (LittleEndian.field l 8 8)
      propertyPtr := p
      capturedLen := BitVec.ofNat 32 (LittleEndian.field l 24 4)
      argsLen := BitVec.ofNat 32 (LittleEndian.field l 28 4)
      argsOffset := BitVec.ofNat 32 (LittleEndian.field l 32 4)
      repeatCount := BitVec.ofNat 32 (LittleEndian.field l 36 4) })

@[simp] theorem length_bytes (h : RequestRecordHeader) :
    h.bytes.length = recordHeaderSize.toNat := by
  simp [bytes]
  rfl

theorem ofBytes_bytes (h : RequestRecordHeader) : ofBytes h.bytes = some h := by
  have back64 : ∀ v : Usize, BitVec.ofNat 64 (v.toNat % 2 ^ 64) = v := by
    intro v
    rw [Nat.mod_eq_of_lt v.isLt, BitVec.ofNat_toNat, BitVec.setWidth_eq]
  have back32 : ∀ v : Word, BitVec.ofNat 32 (v.toNat % 2 ^ 32) = v := by
    intro v
    rw [Nat.mod_eq_of_lt v.isLt, BitVec.ofNat_toNat, BitVec.setWidth_eq]
  simp only [Nat.reducePow] at back64 back32
  unfold ofBytes bytes
  simp (disch := simp) only [LittleEndian.field_append_right, LittleEndian.field_append_left,
    LittleEndian.length_bytes, Nat.reduceSub, Nat.sub_self, LittleEndian.field_bytes,
    Nat.reducePow, back64, back32, PropertyPtr.ofCode_code, Option.map_some]

end RequestRecordHeader

/-- `NonNull::<u8>::dangling()`, the environment pointer of a closure without a size. -/
def dangling : Usize := 1

/-- What a `Remote` operation does to its request slot before it publishes: the closure
and its arguments go behind the record header, then the header. `base` is the slot's
address. -/
def encodeRecord (base vtable : Usize) (p : PropertyPtr) (repeatCount : Word) (m : Bytes)
    (f : Capture) (args : List UInt8) : Bytes × Except String RequestRecordHeader :=
  match encodeClosure ⟨m, slotBytes, hdrOffset + recordHeaderSize⟩ f args with
  | (w, .error e) => (w.mem, .error e)
  | (w, .ok enc) =>
    let hdr : RequestRecordHeader :=
      { data := if f.size = 0 then dangling else base + enc.env
        vtable := vtable
        propertyPtr := p
        capturedLen := enc.capturedLen
        argsLen := enc.argsLen
        argsOffset := enc.argsOffset
        repeatCount := repeatCount }
    (w.mem.write hdrOffset.toNat hdr.bytes, .ok hdr)

/-- What the trustee's record walk reads at the first record: the header, the environment
its pointer leads to, of which `call_once_shim` knows the size, and the argument bytes. -/
def readRecord (base : Usize) (m : Bytes) (envSize : Nat) :
    Option (RequestRecordHeader × List UInt8 × List UInt8) :=
  let cursor := nextBoundaryOffset headerBytes recordHeaderSize recordHeaderAlign
  (RequestRecordHeader.ofBytes (m.read cursor.toNat recordHeaderSize.toNat)).map (fun hdr =>
    (hdr, m.read (hdr.data - base).toNat envSize, m.read hdr.argsOffset.toNat hdr.argsLen.toNat))

structure Region where
  start : Nat
  len : Nat

namespace Region

def Apart (r q : Region) : Prop := r.start + r.len ≤ q.start ∨ q.start + q.len ≤ r.start

def Inside (r : Region) : Prop := r.start + r.len ≤ slotBytes.toNat

def Straddles (r : Region) : Prop :=
  r.start < primaryBytes.toNat ∧ primaryBytes.toNat < r.start + r.len

end Region

structure Placed where
  flags : Region
  header : Region
  env : Region
  args : Region

def Placed.all (p : Placed) : List Region := [p.flags, p.header, p.env, p.args]

def envOffset (f : Capture) : Usize :=
  nextBoundaryOffset (hdrOffset + recordHeaderSize) f.size f.align

def argsOffset (f : Capture) (args : List UInt8) : Usize :=
  nextBoundaryOffset (envOffset f + f.size) (BitVec.ofNat 64 args.length) 1

def placed (f : Capture) (args : List UInt8) : Placed where
  flags := ⟨0, headerBytes.toNat⟩
  header := ⟨hdrOffset.toNat, recordHeaderSize.toNat⟩
  env := ⟨(envOffset f).toNat, f.size.toNat⟩
  args := ⟨(argsOffset f args).toNat, args.length⟩

/-- Where the writer's cursor ends up, computed without a bound on offsets. -/
def recordEnd (size align len : Nat) : Nat :=
  let env := boundaryOffset (hdrOffset + recordHeaderSize).toNat size align
  boundaryOffset (env + size) len 1 + len

/-- What a record that fits promises its reader. -/
structure WellPlaced (base : Usize) (f : Capture) (args : List UInt8) (m : Bytes)
    (hdr : RequestRecordHeader) : Prop where
  apart : (placed f args).all.Pairwise Region.Apart
  inside : ∀ r ∈ (placed f args).all, r.Inside
  whole : ∀ r ∈ (placed f args).all.tail, ¬ r.Straddles
  aligned : f.align.toNat ∣ (placed f args).env.start
  capturedLen : hdr.capturedLen.toNat = f.size.toNat
  argsLen : hdr.argsLen.toNat = args.length
  argsOffset : hdr.argsOffset.toNat = (placed f args).args.start
  readBack : readRecord base m f.size.toNat = some (hdr, f.bytes, args)

section Encoding

variable {base vtable : Usize} {p : PropertyPtr} {n : Word} {m : Bytes} {f : Capture}
  {args : List UInt8} {k : Nat}

theorem env_toNat (ha : f.align.toNat = 2 ^ k) (hs : f.size.toNat < 2 ^ 63) :
    (envOffset f).toNat = boundaryOffset 48 f.size.toNat f.align.toNat ∧
      (envOffset f + f.size).toNat =
        boundaryOffset 48 f.size.toNat f.align.toNat + f.size.toNat :=
  @reserved_toNat (hdrOffset + recordHeaderSize) _ _ k ha (by decide) hs

theorem args_toNat (hc : (envOffset f + f.size).toNat ≤ slotBytes.toNat)
    (hl : args.length < 2 ^ 63) :
    (argsOffset f args).toNat = boundaryOffset (envOffset f + f.size).toNat args.length 1 ∧
      (argsOffset f args + BitVec.ofNat 64 args.length).toNat =
        (argsOffset f args).toNat + args.length := by
  have hlen : (BitVec.ofNat 64 args.length).toNat = args.length := by
    rw [BitVec.toNat_ofNat, Nat.mod_eq_of_lt (by omega)]
  have hplace := @reserved_toNat (envOffset f + f.size) (BitVec.ofNat 64 args.length) 1 0 rfl
    (by omega) (by rw [hlen]; exact hl)
  rw [hlen] at hplace
  obtain ⟨hpos, hend⟩ := hplace
  exact ⟨hpos, hend.trans (by rw [← hpos]; rfl)⟩

theorem fits_iff (ha : f.align.toNat = 2 ^ k) (hs : f.size.toNat < 2 ^ 63)
    (hl : args.length < 2 ^ 63) :
    envOffset f + f.size ≤ slotBytes ∧
        argsOffset f args + BitVec.ofNat 64 args.length ≤ slotBytes ↔
      recordEnd f.size.toNat f.align.toNat args.length ≤ slotBytes.toNat := by
  obtain ⟨henv, hend⟩ := env_toNat ha hs
  have hge := @le_boundaryOffset (boundaryOffset 48 f.size.toNat f.align.toNat + f.size.toNat)
    args.length 1 Nat.one_pos
  have hcur : (hdrOffset + recordHeaderSize).toNat = 48 := by decide
  have hrec : recordEnd f.size.toNat f.align.toNat args.length =
      boundaryOffset (boundaryOffset 48 f.size.toNat f.align.toNat + f.size.toNat)
        args.length 1 + args.length := by
    simp only [recordEnd, hcur]
  rw [BitVec.le_def, BitVec.le_def, hrec, hend]
  constructor
  · rintro ⟨hfit, hstop⟩
    obtain ⟨hpos, hstop'⟩ := @args_toNat f args (by rw [hend]; exact hfit) hl
    rwa [hstop', hpos, hend] at hstop
  · intro hstop
    have hfit : boundaryOffset 48 f.size.toNat f.align.toNat + f.size.toNat ≤
        slotBytes.toNat := by omega
    obtain ⟨hpos, hstop'⟩ := @args_toNat f args (by rw [hend]; exact hfit) hl
    refine ⟨hfit, ?_⟩
    rwa [hstop', hpos, hend]

theorem encodeRecord_eq :
    encodeRecord base vtable p n m f args =
      let hdr : RequestRecordHeader :=
        ⟨if f.size = 0 then dangling else base + envOffset f, vtable, p,
          f.size.setWidth 32, BitVec.ofNat 32 args.length, (argsOffset f args).setWidth 32, n⟩
      let env := m.write (envOffset f).toNat f.bytes
      if envOffset f + f.size ≤ slotBytes then
        if argsOffset f args + BitVec.ofNat 64 args.length ≤ slotBytes then
          ((env.write (argsOffset f args).toNat args).write hdrOffset.toNat hdr.bytes, .ok hdr)
        else (env, .error "slot overflow")
      else (m, .error "slot overflow") := by
  by_cases henv : envOffset f + f.size ≤ slotBytes
  · by_cases hargs : argsOffset f args + BitVec.ofNat 64 args.length ≤ slotBytes
    · simp only [if_pos henv, if_pos hargs]
      unfold argsOffset envOffset at *
      simp only [encodeRecord, encodeClosure_eq, if_pos henv, if_pos hargs]
    · simp only [if_pos henv, if_neg hargs]
      unfold argsOffset envOffset at *
      simp only [encodeRecord, encodeClosure_eq, if_pos henv, if_neg hargs]
  · simp only [if_neg henv]
    unfold envOffset at *
    simp only [encodeRecord, encodeClosure_eq, if_neg henv]

/-- Exactly the records that end behind the slot are refused. -/
theorem encodeRecord_error_iff (ha : f.align.toNat = 2 ^ k) (hs : f.size.toNat < 2 ^ 63)
    (hl : args.length < 2 ^ 63) :
    (encodeRecord base vtable p n m f args).2 = .error "slot overflow" ↔
      slotBytes.toNat < recordEnd f.size.toNat f.align.toNat args.length := by
  rw [encodeRecord_eq, ← Nat.not_le, ← fits_iff ha hs hl]
  dsimp only
  split
  · rename_i henv
    split
    · rename_i hargs
      simp only [reduceCtorEq, false_iff, not_not]
      exact ⟨henv, hargs⟩
    · rename_i hargs
      exact iff_of_true rfl (fun h => hargs h.2)
  · rename_i henv
    exact iff_of_true rfl (fun h => henv h.1)

theorem encodeRecord_ok (ha : f.align.toNat = 2 ^ k) (hs : f.size.toNat < 2 ^ 63)
    (hl : args.length < 2 ^ 63)
    (hfit : recordEnd f.size.toNat f.align.toNat args.length ≤ slotBytes.toNat) :
    ∃ hdr, (encodeRecord base vtable p n m f args).2 = .ok hdr := by
  obtain ⟨henv, hargs⟩ := (fits_iff ha hs hl).mpr hfit
  rw [encodeRecord_eq]
  simp only [if_pos henv, if_pos hargs]
  exact ⟨_, rfl⟩

theorem placed_spec (ha : f.align.toNat = 2 ^ k) (hs : f.size.toNat < 2 ^ 63)
    (hl : args.length < 2 ^ 63)
    (hfit : recordEnd f.size.toNat f.align.toNat args.length ≤ slotBytes.toNat) :
    48 ≤ (placed f args).env.start ∧
      (placed f args).env.start + f.size.toNat ≤ (placed f args).args.start ∧
      (placed f args).args.start + args.length ≤ slotBytes.toNat ∧
      f.align.toNat ∣ (placed f args).env.start ∧
      ¬ (placed f args).env.Straddles ∧ ¬ (placed f args).args.Straddles := by
  obtain ⟨hfit₁, hfit₂⟩ := (fits_iff ha hs hl).mpr hfit
  obtain ⟨henv, hend⟩ := env_toNat ha hs
  obtain ⟨hpos, hstop⟩ := @args_toNat f args (BitVec.le_def.mp hfit₁) hl
  have hpow : 0 < f.align.toNat := by rw [ha]; exact Nat.two_pow_pos k
  simp only [placed, Region.Straddles]
  rw [BitVec.le_def, hstop] at hfit₂
  refine ⟨?_, ?_, hfit₂, ?_, ?_, ?_⟩
  · rw [henv]
    exact le_boundaryOffset hpow
  · rw [hpos, hend, henv]
    exact le_boundaryOffset Nat.one_pos
  · rw [henv]
    exact dvd_boundaryOffset
  · rw [henv]
    exact boundaryOffset_whole hpow
  · rw [hpos]
    exact boundaryOffset_whole Nat.one_pos

theorem encodeRecord_wellPlaced (ha : f.align.toNat = 2 ^ k) (hs : f.size.toNat < 2 ^ 63)
    (hl : args.length < 2 ^ 63) {hdr : RequestRecordHeader}
    (he : (encodeRecord base vtable p n m f args).2 = .ok hdr) :
    WellPlaced base f args (encodeRecord base vtable p n m f args).1 hdr := by
  have hslot : slotBytes.toNat = 1152 := rfl
  have hprim : primaryBytes.toNat = 128 := rfl
  have hhdr : hdrOffset.toNat = 8 := by decide
  have hsize : recordHeaderSize.toNat = 40 := rfl
  have hflags : headerBytes.toNat = 4 := rfl
  have hfit : recordEnd f.size.toNat f.align.toNat args.length ≤ slotBytes.toNat := by
    rw [← Nat.not_lt, ← @encodeRecord_error_iff base vtable p n m f args k ha hs hl, he]
    simp
  obtain ⟨hbehind, horder, hend, hdvd, henvWhole, hargsWhole⟩ := placed_spec ha hs hl hfit
  obtain ⟨hfit₁, hfit₂⟩ := (fits_iff ha hs hl).mpr hfit
  rw [encodeRecord_eq] at he ⊢
  simp only [if_pos hfit₁, if_pos hfit₂] at he ⊢
  obtain rfl := Except.ok.inj he
  simp only [placed] at hbehind horder hend hdvd
  have hpos32 : ((argsOffset f args).setWidth 32).toNat = (argsOffset f args).toNat := by
    rw [BitVec.toNat_setWidth, Nat.mod_eq_of_lt (by omega)]
  have hlen32 : (BitVec.ofNat 32 args.length).toNat = args.length := by
    rw [BitVec.toNat_ofNat, Nat.mod_eq_of_lt (by omega)]
  refine ⟨?_, ?_, ?_, hdvd, ?_, hlen32, hpos32, ?_⟩
  · simp only [Placed.all, placed, Region.Apart, List.pairwise_cons, List.mem_cons,
      forall_eq_or_imp, List.not_mem_nil, false_imp_iff, implies_true, and_true,
      List.Pairwise.nil]
    omega
  · simp only [Placed.all, placed, Region.Inside, List.mem_cons, forall_eq_or_imp,
      List.not_mem_nil, false_imp_iff, implies_true, and_true]
    omega
  · simp only [Placed.all, List.tail_cons, List.mem_cons, forall_eq_or_imp, List.not_mem_nil,
      false_imp_iff, implies_true, and_true]
    refine ⟨?_, henvWhole, hargsWhole⟩
    simp only [placed, Region.Straddles]
    omega
  · rw [BitVec.toNat_setWidth, Nat.mod_eq_of_lt (by omega)]
  · have hcursor : nextBoundaryOffset headerBytes recordHeaderSize recordHeaderAlign =
        hdrOffset := rfl
    unfold readRecord
    dsimp only
    generalize hgen : RequestRecordHeader.mk (if f.size = 0 then dangling else
      base + envOffset f) vtable p (f.size.setWidth 32) (BitVec.ofNat 32 args.length)
      ((argsOffset f args).setWidth 32) n = hdr
    have hread : (((m.write (envOffset f).toNat f.bytes).write (argsOffset f args).toNat
        args).write hdrOffset.toNat hdr.bytes).read hdrOffset.toNat recordHeaderSize.toNat =
        hdr.bytes := by
      rw [← hdr.length_bytes]
      exact Bytes.read_write _ _ _
    rw [hcursor, hread, RequestRecordHeader.ofBytes_bytes, Option.map_some]
    have hbehindHdr : hdrOffset.toNat + hdr.bytes.length ≤ 48 := by
      rw [hdr.length_bytes, hhdr, hsize]
    refine congrArg some (Prod.ext rfl (Prod.ext ?_ ?_))
    · dsimp only
      by_cases h0 : f.size = 0
      · rw [Capture.bytes_nil h0, h0]
        rfl
      · have haddr : hdr.data - base = envOffset f := by
          rw [← hgen]
          simp only [if_neg h0]
          rw [BitVec.add_comm, BitVec.add_sub_cancel]
        rw [haddr, Bytes.read_write_apart (.inr (by omega)),
          Bytes.read_write_apart (.inl (by omega)), ← f.length_bytes, Bytes.read_write]
    · have hfields : hdr.argsOffset.toNat = (argsOffset f args).toNat ∧
          hdr.argsLen.toNat = args.length := by
        rw [← hgen]
        exact ⟨hpos32, hlen32⟩
      dsimp only
      rw [hfields.1, hfields.2, Bytes.read_write_apart (.inr (by omega)), Bytes.read_write]

end Encoding

def wideCapture : Capture := ⟨90, 8, List.replicate 90 7, by simp⟩

example : ((placed wideCapture [1, 2, 3]).env.start, (placed wideCapture [1, 2, 3]).args.start) =
    (128, 218) := by decide

theorem dvd_nextBoundaryOffset {c s a : Usize} {k : Nat} (ha : a.toNat = 2 ^ k) :
    2 ^ k ∣ (nextBoundaryOffset c s a).toNat := by
  have hstart : 2 ^ k ∣
      if c.toNat + (2 ^ k - 1) < 2 ^ 64 then Alignment.up (2 ^ k) c.toNat else 0 := by
    split
    · exact Alignment.dvd_up
    · exact Nat.dvd_zero _
  rw [nextBoundaryOffset_eq ha]
  dsimp only
  generalize (if c.toNat + (2 ^ k - 1) < 2 ^ 64 then Alignment.up (2 ^ k) c.toNat else 0) = start
    at hstart
  split
  · exact Alignment.dvd_up
  · exact hstart

/-- The environment's offset is a multiple of its alignment, so its address is one exactly
if the slot's address is: the offset arithmetic takes the base to be 64-aligned, which
`repr(C)` does not make it. -/
theorem env_aligned_iff {base vtable : Usize} {p : PropertyPtr} {n : Word} {m : Bytes}
    {f : Capture} {args : List UInt8} {hdr : RequestRecordHeader} {k : Nat}
    (ha : f.align.toNat = 2 ^ k) (hs : f.size ≠ 0)
    (he : (encodeRecord base vtable p n m f args).2 = .ok hdr) :
    hdr.data = base + envOffset f ∧
      (f.align.toNat ∣ hdr.data.toNat ↔ f.align.toNat ∣ base.toNat) := by
  have hdata : hdr.data = base + envOffset f := by
    rw [encodeRecord_eq] at he
    simp only [if_neg hs] at he
    split at he
    · split at he <;> simp only [Except.ok.injEq, reduceCtorEq] at he
      rw [← he]
    · simp at he
  refine ⟨hdata, ?_⟩
  have hword : 2 ^ k ∣ 2 ^ 64 :=
    Nat.pow_dvd_pow 2 (Alignment.lt_width ha).le
  have hoff : 2 ^ k ∣ (envOffset f).toNat := dvd_nextBoundaryOffset ha
  rw [hdata, ha, BitVec.toNat_add, Nat.dvd_mod_iff hword]
  exact (Nat.dvd_add_iff_left hoff).symm

def u128Capture : Capture := ⟨16, 16, List.replicate 16 0, by simp⟩

theorem env_aligned_iff_u128Capture : ∃ hdr,
    (encodeRecord 4096 80 .callMutOutPtr 1 (fun _ => 0) u128Capture []).2 = .ok hdr ∧
      hdr.data = 4096 + envOffset u128Capture ∧
      (u128Capture.align.toNat ∣ hdr.data.toNat ↔
        u128Capture.align.toNat ∣ (4096 : Usize).toNat) :=
  ⟨_, rfl, @env_aligned_iff 4096 80 .callMutOutPtr 1 (fun _ => 0) u128Capture [] _ 4 rfl
    (by decide) rfl⟩

/-- A channel behind the counters of its `Arc` may start at an odd multiple of 8. -/
theorem u128_misaligned : ¬ ∀ (base : Usize) (f : Capture) (hdr : RequestRecordHeader),
    8 ∣ base.toNat → (∃ k, f.align.toNat = 2 ^ k) → f.size ≠ 0 →
    (encodeRecord base 80 .callMutOutPtr 1 (fun _ => 0) f []).2 = .ok hdr →
    f.align.toNat ∣ hdr.data.toNat := by
  intro h
  have hdvd := h 4104 u128Capture _ (by decide) ⟨4, rfl⟩ (by decide) rfl
  exact absurd hdvd (by decide)

end TrustTee
