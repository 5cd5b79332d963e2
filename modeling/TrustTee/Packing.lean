import TrustTee.RequestRecord

set_option autoImplicit false

namespace TrustTee
open Header

/-- What a client puts into a record. A Rust type has an alignment that is a power of two,
and neither it nor a slice is larger than `isize::MAX`. -/
structure BatchRecord where
  vtable : Usize
  propertyPtr : PropertyPtr
  repeatCount : Word
  capture : Capture
  args : List UInt8
  align_pow : ∃ k, capture.align.toNat = 2 ^ k
  size_lt : capture.size.toNat < 2 ^ 63
  args_lt : args.length < 2 ^ 63

structure PackedRecord where
  mem : Bytes
  cursor : Usize
  offset : Usize
  header : RequestRecordHeader

/-- What every `Remote` operation does for its record, from any cursor: the place of the
header, the closure and its arguments behind it, then the header. -/
def packRecord (base : Usize) (m : Bytes) (cursor : Usize) (r : BatchRecord) :
    Except String PackedRecord :=
  let hdrOffset := nextBoundaryOffset cursor recordHeaderSize recordHeaderAlign
  match encodeClosure ⟨m, slotBytes, hdrOffset + recordHeaderSize⟩ r.capture r.args with
  | (_, .error e) => .error e
  | (w, .ok enc) =>
    let hdr : RequestRecordHeader :=
      { data := if r.capture.size = 0 then dangling else base + enc.env
        vtable := r.vtable
        propertyPtr := r.propertyPtr
        capturedLen := enc.capturedLen
        argsLen := enc.argsLen
        argsOffset := enc.argsOffset
        repeatCount := r.repeatCount }
    .ok ⟨w.mem.write hdrOffset.toNat hdr.bytes, w.cursor, hdrOffset, hdr⟩

def pack (base : Usize) :
    Bytes → Usize → List BatchRecord → Except String (Bytes × List (Usize × RequestRecordHeader))
  | m, _, [] => .ok (m, [])
  | m, cursor, r :: rs => do
    let x ← packRecord base m cursor r
    let (m, l) ← pack base x.mem x.cursor rs
    .ok (m, (x.offset, x.header) :: l)

def PropertyPtr.Returns (p : PropertyPtr) : Prop := p = .intoInner ∨ p = .terminate

instance (p : PropertyPtr) : Decidable p.Returns := inferInstanceAs (Decidable (_ ∨ _))

/-- The trustee's record loop for this count, with the places it reads and the headers it
finds there. A header whose operation code is no discriminant ends it. -/
def walk (m : Bytes) : Nat → Usize → List (Usize × Option RequestRecordHeader)
  | 0, _ => []
  | n + 1, headerCursor =>
    let headerCursor := nextBoundaryOffset headerCursor recordHeaderSize recordHeaderAlign
    match RequestRecordHeader.ofBytes (m.read headerCursor.toNat recordHeaderSize.toNat) with
    | none => [(headerCursor, none)]
    | some hdr => (headerCursor, some hdr) ::
        if hdr.propertyPtr.Returns then [] else walk m n (headerCursor + recordHeaderSize)

/-- The record as number `i` of its batch has nothing behind its header, and the loop goes on
after it. -/
structure BatchRecord.Bare (r : BatchRecord) (i : Nat) : Prop where
  size : r.capture.size = 0
  align : r.capture.align.toNat ∣ 48 + 40 * i
  args : r.args = []
  goesOn : ¬ r.propertyPtr.Returns

section Step

variable {base cursor : Usize} {m : Bytes} {r : BatchRecord} {x : PackedRecord}

theorem packRecord_first (base : Usize) (m : Bytes) (r : BatchRecord) :
    (packRecord base m headerBytes r).map (fun x => (x.mem, x.header)) =
      match encodeRecord base r.vtable r.propertyPtr r.repeatCount m r.capture r.args with
      | (_, .error e) => .error e
      | (m, .ok hdr) => .ok (m, hdr) := by
  have hfirst : nextBoundaryOffset headerBytes recordHeaderSize recordHeaderAlign = hdrOffset :=
    rfl
  unfold packRecord encodeRecord
  rw [hfirst]
  dsimp only
  generalize encodeClosure ⟨m, slotBytes, hdrOffset + recordHeaderSize⟩ r.capture r.args = result
  obtain ⟨w, e | enc⟩ := result <;> rfl

def BatchRecord.env (r : BatchRecord) (h : Nat) : Nat :=
  boundaryOffset (h + 40) r.capture.size.toNat r.capture.align.toNat

def BatchRecord.stop (r : BatchRecord) (h : Nat) : Nat :=
  boundaryOffset (r.env h + r.capture.size.toNat) r.args.length 1 + r.args.length

structure PackedAt (r : BatchRecord) (m : Bytes) (cursor : Usize) (x : PackedRecord) : Prop where
  offset : x.offset.toNat = boundaryOffset cursor.toNat 40 8
  stop : x.cursor.toNat = r.stop x.offset.toNat
  behind : cursor.toNat ≤ x.offset.toNat
  room : x.offset.toNat + 40 ≤ x.cursor.toNat
  inside : x.cursor.toNat ≤ slotBytes.toNat
  property : x.header.propertyPtr = r.propertyPtr
  header : RequestRecordHeader.ofBytes (x.mem.read x.offset.toNat recordHeaderSize.toNat) =
    some x.header
  frame : ∀ i < cursor.toNat, x.mem i = m i

theorem packRecord_spec (hc : cursor.toNat ≤ slotBytes.toNat)
    (h : packRecord base m cursor r = .ok x) : PackedAt r m cursor x := by
  have hslot : slotBytes.toNat = 1152 := rfl
  have hprim : primaryBytes.toNat = 128 := rfl
  obtain ⟨k, hk⟩ := r.align_pow
  have hsize := r.size_lt
  have hargs := r.args_lt
  have hpos : 0 < r.capture.align.toNat := hk ▸ Nat.two_pow_pos k
  have hlen : (BitVec.ofNat 64 r.args.length).toNat = r.args.length := by
    rw [BitVec.toNat_ofNat, Nat.mod_eq_of_lt (by omega)]
  obtain ⟨hhdr, hbehind⟩ := @reserved_toNat cursor recordHeaderSize recordHeaderAlign 3 rfl
    (by omega) (by decide)
  have hge : cursor.toNat ≤ boundaryOffset cursor.toNat 40 8 := le_boundaryOffset (by decide)
  have hle : boundaryOffset cursor.toNat 40 8 ≤ slotBytes.toNat + 7 := by
    have hup := @Alignment.up_le 8 cursor.toNat
    unfold boundaryOffset
    dsimp only
    split
    · decide
    · omega
  change _ = boundaryOffset cursor.toNat 40 8 at hhdr
  change _ = boundaryOffset cursor.toNat 40 8 + 40 at hbehind
  simp only [packRecord, encodeClosure_eq] at h
  generalize nextBoundaryOffset cursor recordHeaderSize recordHeaderAlign = hdrOffset at *
  obtain ⟨henv, hend⟩ := @reserved_toNat (hdrOffset + recordHeaderSize) r.capture.size
    r.capture.align k hk (by omega) hsize
  rw [hbehind, ← hhdr] at henv hend
  change _ = r.env hdrOffset.toNat at henv
  change _ = r.env hdrOffset.toNat + _ at hend
  have henvle : hdrOffset.toNat + 40 ≤ r.env hdrOffset.toNat := le_boundaryOffset hpos
  generalize nextBoundaryOffset (hdrOffset + recordHeaderSize) r.capture.size
    r.capture.align = env at *
  by_cases hfit : env + r.capture.size ≤ slotBytes
  · rw [if_pos hfit] at h
    rw [BitVec.le_def, hend] at hfit
    obtain ⟨hpl, hstop⟩ := @reserved_toNat (env + r.capture.size)
      (BitVec.ofNat 64 r.args.length) 1 0 rfl (by omega) (by omega)
    rw [hlen, hend] at hpl hstop
    change _ = boundaryOffset (r.env hdrOffset.toNat + _) _ 1 at hpl
    change _ = r.stop hdrOffset.toNat at hstop
    have hplle : r.env hdrOffset.toNat + r.capture.size.toNat ≤
        boundaryOffset (r.env hdrOffset.toNat + r.capture.size.toNat) r.args.length 1 :=
      le_boundaryOffset Nat.one_pos
    have hstop_eq : r.stop hdrOffset.toNat = boundaryOffset
      (r.env hdrOffset.toNat + r.capture.size.toNat) r.args.length 1 + r.args.length := rfl
    generalize nextBoundaryOffset (env + r.capture.size) (BitVec.ofNat 64 r.args.length) 1 =
      pos at *
    by_cases hin : pos + BitVec.ofNat 64 r.args.length ≤ slotBytes
    · rw [if_pos hin] at h
      obtain rfl := Except.ok.inj h
      have hin : (pos + BitVec.ofNat 64 r.args.length).toNat ≤ slotBytes.toNat := hin
      have hroom : hdrOffset.toNat + 40 ≤ (pos + BitVec.ofNat 64 r.args.length).toNat := by omega
      refine ⟨hhdr, hstop, hge.trans hhdr.ge, hroom, hin, rfl, ?_, ?_⟩
      · rw [← RequestRecordHeader.length_bytes, Bytes.read_write,
          RequestRecordHeader.ofBytes_bytes]
      · intro i hi
        dsimp only
        rw [Bytes.write_below (by omega), Bytes.write_below (by omega),
          Bytes.write_below (by omega)]
    · rw [if_neg hin] at h
      simp at h
  · rw [if_neg hfit] at h
    simp at h

theorem boundaryOffset_self {x a : Nat} (ha : 0 < a) (h : a ∣ x) :
    boundaryOffset x 0 a = x := by
  unfold boundaryOffset
  dsimp only
  rw [Alignment.up_of_dvd ha h, if_neg (by omega)]

theorem boundaryOffset_header (i : Nat) : boundaryOffset (8 + 40 * i) 40 8 = 8 + 40 * i := by
  have hprim : primaryBytes.toNat = 128 := rfl
  have hdvd : 8 ∣ 8 + 40 * i := ⟨1 + 5 * i, by omega⟩
  unfold boundaryOffset
  dsimp only
  rw [Alignment.up_of_dvd (by decide) hdvd, if_neg (by omega)]

/-- The next record starts right behind the header exactly if there is nothing else. -/
theorem next_header_iff {h i : Nat} (hh : h = 8 + 40 * i) :
    boundaryOffset (r.stop h) 40 8 = h + 40 ↔
      r.capture.size = 0 ∧ r.capture.align.toNat ∣ 48 + 40 * i ∧ r.args = [] := by
  have hpos : 0 < r.capture.align.toNat := by
    obtain ⟨k, hk⟩ := r.align_pow
    exact hk ▸ Nat.two_pow_pos k
  have hnext : h + 40 = 8 + 40 * (i + 1) := by omega
  constructor
  · intro heq
    have henv : h + 40 ≤ r.env h := le_boundaryOffset hpos
    have hargs : r.env h + r.capture.size.toNat ≤
      boundaryOffset (r.env h + r.capture.size.toNat) r.args.length 1 := le_boundaryOffset one_pos
    have hstop : r.stop h = boundaryOffset (r.env h + r.capture.size.toNat) r.args.length 1 +
      r.args.length := rfl
    have hend : r.stop h ≤ boundaryOffset (r.stop h) 40 8 := le_boundaryOffset (by decide)
    have hdvd : r.capture.align.toNat ∣ r.env h := dvd_boundaryOffset
    have hsize : r.capture.size.toNat = 0 := by omega
    have hlen : r.args.length = 0 := by omega
    refine ⟨BitVec.eq_of_toNat_eq hsize, ?_, List.eq_nil_of_length_eq_zero hlen⟩
    rwa [show 48 + 40 * i = r.env h by omega]
  · rintro ⟨hsize, hdvd, hargs⟩
    have henv : r.env h = h + 40 := by
      rw [BatchRecord.env, hsize]
      exact boundaryOffset_self hpos (by rwa [show h + 40 = 48 + 40 * i by omega])
    have hstop : r.stop h = h + 40 := by
      rw [BatchRecord.stop, henv, hsize, hargs]
      exact boundaryOffset_self one_pos (one_dvd _)
    rw [hstop, hnext]
    exact boundaryOffset_header (i + 1)

end Step

section Batch

variable {base cursor : Usize} {m m' : Bytes} {r : BatchRecord} {rs : List BatchRecord}
  {l : List (Usize × RequestRecordHeader)}

theorem pack_cons (h : pack base m cursor (r :: rs) = .ok (m', l)) :
    ∃ x l', packRecord base m cursor r = .ok x ∧ pack base x.mem x.cursor rs = .ok (m', l') ∧
      l = (x.offset, x.header) :: l' := by
  unfold pack at h
  cases hx : packRecord base m cursor r with
  | error e => simp [hx, bind, Except.bind] at h
  | ok x =>
    cases hl : pack base x.mem x.cursor rs with
    | error e => simp [hx, hl, bind, Except.bind] at h
    | ok p =>
      simp only [hx, hl, bind, Except.bind, Except.ok.injEq, Prod.mk.injEq] at h
      obtain ⟨rfl, rfl⟩ := h
      exact ⟨x, p.2, rfl, hl, rfl⟩

theorem pack_spec (hc : cursor.toNat ≤ slotBytes.toNat)
    (h : pack base m cursor rs = .ok (m', l)) :
    cursor.toNat + 40 * rs.length ≤ slotBytes.toNat ∧ ∀ i < cursor.toNat, m' i = m i := by
  induction rs generalizing m cursor l with
  | nil =>
    obtain ⟨rfl, _⟩ := Prod.mk.inj (Except.ok.inj h)
    exact ⟨by simpa using hc, fun _ _ => rfl⟩
  | cons r rs ih =>
    obtain ⟨x, l', hx, hl, _⟩ := pack_cons h
    have hp := packRecord_spec hc hx
    obtain ⟨hroom, hframe⟩ := ih hp.inside hl
    have hbehind := hp.behind
    have hheader := hp.room
    refine ⟨by rw [List.length_cons]; omega, fun i hi => ?_⟩
    rw [hframe i (by omega), hp.frame i hi]

theorem walk_succ (m : Bytes) (n : Nat) (c : Usize) : ∃ o t, walk m (n + 1) c =
    (nextBoundaryOffset c recordHeaderSize recordHeaderAlign, o) :: t := by
  unfold walk
  dsimp only
  split
  · exact ⟨_, _, rfl⟩
  · exact ⟨_, _, rfl⟩

theorem forall_dropLast {P : BatchRecord → Nat → Prop} {r' : BatchRecord} {i : Nat} :
    (∀ j q, (r :: r' :: rs).dropLast[j]? = some q → P q (i + j)) ↔
      P r i ∧ ∀ j q, (r' :: rs).dropLast[j]? = some q → P q (i + 1 + j) := by
  rw [List.dropLast_cons_cons]
  constructor
  · intro h
    refine ⟨h 0 r rfl, fun j q hq => ?_⟩
    rw [Nat.add_assoc, Nat.add_comm 1 j]
    exact h (j + 1) q hq
  · rintro ⟨hr, h⟩ j q hq
    cases j with
    | zero =>
      obtain rfl := Option.some.inj hq
      exact hr
    | succ j =>
      have hb := h j q hq
      rwa [Nat.add_assoc, Nat.add_comm 1 j] at hb

/-- From a record that starts where the loop looks for it, the loop finds the headers of all
records exactly if those before the last have nothing but a header. -/
theorem walk_iff {c : Usize} {i : Nat} (hc : cursor.toNat ≤ slotBytes.toNat)
    (h : pack base m cursor rs = .ok (m', l))
    (hstart : boundaryOffset cursor.toNat 40 8 = 8 + 40 * i)
    (hread : (nextBoundaryOffset c recordHeaderSize recordHeaderAlign).toNat = 8 + 40 * i) :
    walk m' rs.length c = l.map (fun x => (x.1, some x.2)) ↔
      ∀ (j : Nat) (q : BatchRecord), rs.dropLast[j]? = some q → q.Bare (i + j) := by
  induction rs generalizing m cursor l c i with
  | nil =>
    obtain ⟨rfl, rfl⟩ := Prod.mk.inj (Except.ok.inj h)
    simp [walk]
  | cons r rs ih =>
    obtain ⟨x, l', hx, hl, rfl⟩ := pack_cons h
    have hp := packRecord_spec hc hx
    have hoff : x.offset.toNat = 8 + 40 * i := hp.offset.trans hstart
    have hroom := hp.room
    have hinside := hp.inside
    have hslot : slotBytes.toNat = 1152 := rfl
    have hplace : nextBoundaryOffset c recordHeaderSize recordHeaderAlign = x.offset :=
      BitVec.eq_of_toNat_eq (hread.trans hoff.symm)
    -- the records behind it leave its header alone
    have hkept : m'.read x.offset.toNat recordHeaderSize.toNat =
        x.mem.read x.offset.toNat recordHeaderSize.toNat :=
      Bytes.read_congr fun j _ hj => (pack_spec hp.inside hl).2 j (lt_of_lt_of_le hj hroom)
    have hwalk : walk m' (rs.length + 1) c = (x.offset, some x.header) ::
        if x.header.propertyPtr.Returns then []
        else walk m' rs.length (x.offset + recordHeaderSize) := by
      rw [walk]
      simp only [hplace, hkept, hp.header]
    rw [List.length_cons, hwalk, List.map_cons, List.cons_inj_right]
    cases rs with
    | nil =>
      obtain ⟨_, rfl⟩ := Prod.mk.inj (Except.ok.inj hl)
      simp [walk]
    | cons r' rs =>
      obtain ⟨x', l'', hx', hl', rfl⟩ := pack_cons hl
      have hp' := packRecord_spec hp.inside hx'
      have hsum : (x.offset + recordHeaderSize).toNat = 8 + 40 * (i + 1) := by
        rw [BitVec.toNat_add, hoff]
        change (8 + 40 * i + 40) % 2 ^ 64 = _
        omega
      have hnext : (nextBoundaryOffset (x.offset + recordHeaderSize) recordHeaderSize
          recordHeaderAlign).toNat = 8 + 40 * (i + 1) := by
        have hplace' := (@reserved_toNat (x.offset + recordHeaderSize) recordHeaderSize
          recordHeaderAlign 3 rfl (by omega) (by decide)).1
        rw [hsum] at hplace'
        exact hplace'.trans (boundaryOffset_header (i + 1))
      rw [forall_dropLast]
      by_cases hret : x.header.propertyPtr.Returns
      · rw [if_pos hret]
        refine iff_of_false (by simp) (fun hb => hb.1.goesOn ?_)
        rwa [← hp.property]
      · rw [if_neg hret]
        have hbare : boundaryOffset x.cursor.toNat 40 8 = 8 + 40 * (i + 1) ↔ r.Bare i := by
          rw [hp.stop, show 8 + 40 * (i + 1) = x.offset.toNat + 40 by omega, next_header_iff hoff]
          constructor
          · rintro ⟨hsize, halign, hargs⟩
            exact ⟨hsize, halign, hargs, hp.property ▸ hret⟩
          · intro hb
            exact ⟨hb.size, hb.align, hb.args⟩
        by_cases hb : r.Bare i
        · rw [ih hp.inside hl (hbare.mpr hb) hnext]
          exact (and_iff_right hb).symm
        · -- the writer has put the next header somewhere else
          refine iff_of_false (fun heq => ?_) (fun hall => hb hall.1)
          obtain ⟨o, t, htail⟩ := walk_succ m' rs.length (x.offset + recordHeaderSize)
          rw [List.length_cons, htail, List.map_cons] at heq
          have hpos : nextBoundaryOffset (x.offset + recordHeaderSize) recordHeaderSize
              recordHeaderAlign = x'.offset := (Prod.mk.inj (List.cons.inj heq).1).1
          refine hb (hbare.mp ?_)
          rw [← hp'.offset, ← hpos, hnext]

end Batch

def bareRecord : BatchRecord :=
  { vtable := 80, propertyPtr := .callMutRetUnit, repeatCount := 1
    capture := .empty, args := []
    align_pow := ⟨0, rfl⟩, size_lt := by decide, args_lt := by decide }

def counterRecord : BatchRecord :=
  { vtable := 80, propertyPtr := .callMutOutPtr, repeatCount := 1
    capture := ⟨8, 8, [7, 0, 0, 0, 0, 0, 0, 0], rfl⟩, args := []
    align_pow := ⟨3, rfl⟩, size_lt := by decide, args_lt := by decide }

def bareFirst : List BatchRecord := [bareRecord, counterRecord]

end TrustTee
