import TrustTee.Entry
import TrustTee.Serialization
import TrustTee.Ownership

/-!
One operation on an idle channel, down to the bytes it writes into the response slot. The
request side is bounds-checked by the slot writer; the result is written through a raw
pointer.
-/

set_option autoImplicit false

namespace TrustTee
open Header

variable {T V R : Type}

/-- A channel with the property behind it. `response` goes on behind the slot. -/
structure Wire (T : Type) where
  prop : T
  reqWord : Word
  respWord : Word
  request : Bytes
  header : Option (RecordHeader × EncodedHeader)
  response : Bytes

/-- How an operation ends for its caller: it panics before anything is published, it
waits for ever because the worker died, it reads these bytes as its result, or the shortcut
has called the closure, which gives its result or unwinds through the caller. -/
inductive Ending where
  | refused (msg : String) : Ending
  | stuck : Ending
  | read (bytes : List UInt8) : Ending
  | direct (bytes : List UInt8) : Ending
  | unwound : Ending
  deriving DecidableEq, Repr

structure Done (T : Type) where
  wire : Wire T
  ending : Ending

/-- The first half of every operation: encode behind the record header, write the header,
and publish one record against the response's ready bit. -/
def Wire.post (s : Wire T) (hdr : RecordHeader) (f : Capture) (args : List UInt8) :
    Wire T × Option String :=
  let payloadOffset := hdrOffset + recordHeaderSize
  match encodeClosure ⟨s.request, slotBytes, payloadOffset⟩ f args with
  | (w, .error e) => ({ s with request := w.mem }, some e)
  | (w, .ok enc) =>
    ({ s with request := w.mem, header := some (hdr, enc),
              reqWord := packReadyCount (!ready s.respWord) 1 }, none)

def Wire.writeResult {α : Type} (s : Wire T) (L : Layout α) (a : α) : Wire T :=
  { s with response := s.response.write headerBytes.toNat (L.bytes a) }

def Wire.answer (s : Wire T) : Wire T :=
  { s with respWord := packReadyCount (ready s.reqWord) 1 }

def Wire.readResult (s : Wire T) (size : Nat) : Ending :=
  .read (s.response.read headerBytes.toNat size)

/-- A request whose closure the trustee loop calls: the worker dies if it panics. -/
def Wire.serve (L : Layout R) (f : Body T R) (s : Wire T) : Done T :=
  match f s.prop with
  | (t, .returned r) =>
    let s := ({ s with prop := t }.writeResult L r).answer
    ⟨s, s.readResult L.size⟩
  | (t, .panicked) => ⟨{ s with prop := t }, .stuck⟩

/-- A launched request: the completion guard answers in either case. -/
def Wire.serveLaunch (L : Layout R) (f : Body T R) (s : Wire T) : Done T :=
  match f s.prop with
  | (t, .returned r) =>
    let s := ({ s with prop := t }.writeResult L r).answer
    ⟨s, s.readResult L.size⟩
  | (t, .panicked) =>
    let s := { s with prop := t }.answer
    ⟨s, s.readResult L.size⟩

def Wire.serveIntoInner (LT : Layout T) (s : Wire T) : Done T :=
  let s := (s.writeResult LT s.prop).answer
  ⟨s, s.readResult LT.size⟩

def Wire.refuse (s : Wire T) (msg : String) : Done T := ⟨s, .refused msg⟩

def Wire.direct (L : Layout R) (f : Body T R) (s : Wire T) : Done T :=
  match f s.prop with
  | (t, .returned r) => ⟨{ s with prop := t }, .direct (L.bytes r)⟩
  | (t, .panicked) => ⟨{ s with prop := t }, .unwound⟩

def Wire.delegate (s : Wire T) (hdr : RecordHeader) (f : Capture) (args : List UInt8)
    (serve : Wire T → Done T) : Done T :=
  match s.post hdr f args with
  | (s, some msg) => s.refuse msg
  | (s, none) => serve s

/-- `bincode::serialize(&w).expect("bincode serialize")` comes before the encoding. -/
def Wire.delegateArgs (s : Wire T) (bin : Bincode V) (hdr : RecordHeader) (f : Capture) (w : V)
    (serve : List UInt8 → Wire T → Done T) : Done T :=
  match bin.serialize w with
  | none => s.refuse "bincode serialize"
  | some args => s.delegate hdr f args (serve args)

def Wire.enter (s : Wire T) (en : Entry) (direct publish : Wire T → Done T) : Done T :=
  match en with
  | .shortcut => direct s
  | .panic msg => s.refuse msg
  | .publish => publish s

namespace Remote

def apply (L : Layout R) (e : Entering) (env : Capture) (f : Body T R) (s : Wire T) : Done T :=
  s.enter (Entry.apply e) (Wire.direct L f)
    (fun s => s.delegate ⟨.callMutOutPtr, 1⟩ env [] (Wire.serve L f))

/-- The closure deserializes its argument when the trustee calls it. -/
def applyWith (bin : Bincode V) (L : Layout R) (e : Entering) (env : Capture)
    (f : V → Body T R) (w : V) (s : Wire T) : Done T :=
  s.enter (Entry.applyWith e) (Wire.direct L (f w)) (fun s =>
    s.delegateArgs bin ⟨.callMutArgsOutPtr, 1⟩ env w (fun args =>
      Wire.serve L (match bin.deserialize args with
        | some v => f v
        | none => fun t => (t, .panicked))))

def with_ (L : Layout R) (e : Entering) (env : Capture) (f : Body T R) (s : Wire T) : Done T :=
  s.enter (Entry.with_ e) (Wire.direct L f)
    (fun s => s.delegate ⟨.callMutOutPtr, 1⟩ env [] (Wire.serve L f))

def launch (L : Layout R) (e : Entering) (env : Capture) (f : Body T R) (s : Wire T) : Done T :=
  s.enter (Entry.launch e) (Wire.direct L f)
    (fun s => s.delegate ⟨.launch, 1⟩ env [] (Wire.serveLaunch L f))

def intoInner (LT : Layout T) (e : Entering) (s : Wire T) : Done T :=
  s.enter (Entry.intoInner e) (fun s => ⟨s, .unwound⟩)
    (fun s => s.delegate ⟨.intoInner, 1⟩ .empty [] (Wire.serveIntoInner LT))

end Remote

inductive Call (T V R : Type) where
  | apply (env : Capture) (f : Body T R) : Call T V R
  | applyWith (env : Capture) (f : V → Body T R) (w : V) : Call T V R
  | with_ (env : Capture) (f : Body T R) : Call T V R
  | launch (env : Capture) (f : Body T R) : Call T V R
  | intoInner : Call T V R

def overflows (f : Capture) (args : List UInt8) : Bool :=
  match (encodeClosure ⟨fun _ => 0, slotBytes, hdrOffset + recordHeaderSize⟩ f args).2 with
  | .ok _ => false
  | .error _ => true

def Body.returns (f : Body T R) (t : T) : Bool :=
  match (f t).2 with
  | .returned _ => true
  | .panicked => false

namespace Call

variable (bin : Bincode V) (LT : Layout T) (L : Layout R)

def run (e : Entering) : Call T V R → Wire T → Done T
  | .apply env f => Remote.apply L e env f
  | .applyWith env f w => Remote.applyWith bin L e env f w
  | .with_ env f => Remote.with_ L e env f
  | .launch env f => Remote.launch L e env f
  | .intoInner => Remote.intoInner LT e

def resultSize : Call T V R → Nat
  | .intoInner => LT.size
  | _ => L.size

def entry (e : Entering) : Call T V R → Entry
  | .apply _ _ => Entry.apply e
  | .applyWith _ _ _ => Entry.applyWith e
  | .with_ _ _ => Entry.with_ e
  | .launch _ _ => Entry.launch e
  | .intoInner => Entry.intoInner e

def unencodable : Call T V R → Bool
  | .apply env _ | .with_ env _ | .launch env _ => overflows env []
  | .applyWith env _ w => match bin.serialize w with
    | none => true
    | some args => overflows env args
  | .intoInner => false

/-- The operation panics on the client's side whatever its result is. -/
def refuses (e : Entering) (c : Call T V R) : Bool :=
  match c.entry e with
  | .shortcut => false
  | .panic _ => true
  | .publish => c.unencodable bin

def produces (t : T) : Call T V R → Bool
  | .apply _ f | .with_ _ f | .launch _ f => f.returns t
  | .applyWith _ f w => match (bin.serialize w).bind bin.deserialize with
    | some v => (f v).returns t
    | none => false
  | .intoInner => true

def answered (e : Entering) (t : T) (c : Call T V R) : Bool :=
  c.entry e == .publish && !c.unencodable bin && c.produces bin t

end Call

/-- The operation writes offset `i` of the response side: there is a content of that memory
which it changes there. -/
def Stored (op : Wire T → Done T) (s : Wire T) (i : Nat) : Prop :=
  ∃ m : Bytes, (op { s with response := m }).wire.response i ≠ m i

/-- The bytes written by an operation lie in the payload of the response slot. -/
def Inside (op : Wire T → Done T) (s : Wire T) : Prop :=
  ∀ i, Stored op s i → headerBytes.toNat ≤ i ∧ i < slotBytes.toNat

/-- Besides, an operation whose result does not fit there is refused before anything has
changed. -/
def Contained (size : Nat) (op : Wire T → Done T) (s : Wire T) : Prop :=
  Inside op s ∧
  (slotBytes.toNat < headerBytes.toNat + size → (∃ msg, (op s).ending = .refused msg) ∧
    (op s).wire.prop = s.prop ∧ (op s).wire.reqWord = s.reqWord ∧
    (op s).wire.respWord = s.respWord ∧
    ∀ i, slotBytes.toNat ≤ i → (op s).wire.response i = s.response i)

section

variable {s : Wire T} {hdr : RecordHeader} {f : Capture} {args : List UInt8} {size : Nat}

theorem Wire.post_cases (s : Wire T) (hdr : RecordHeader) (f : Capture) (args : List UInt8) :
    (overflows f args = true ∧
      ∃ m msg, s.post hdr f args = ({ s with request := m }, some msg)) ∨
    (overflows f args = false ∧ ∃ m h w,
      s.post hdr f args = ({ s with request := m, header := h, reqWord := w }, none)) := by
  have hmem := encodeClosure_mem (fun _ => 0) s.request slotBytes (hdrOffset + recordHeaderSize)
    f args
  have hov : overflows f args =
      match (encodeClosure ⟨s.request, slotBytes, hdrOffset + recordHeaderSize⟩ f args).2 with
      | .ok _ => false
      | .error _ => true := by
    rw [← hmem]
    rfl
  unfold Wire.post
  dsimp only
  rcases he : encodeClosure ⟨s.request, slotBytes, hdrOffset + recordHeaderSize⟩ f args with
    ⟨w, _ | enc⟩
  · exact .inl ⟨by rw [hov, he], _, _, rfl⟩
  · exact .inr ⟨by rw [hov, he], _, _, _, rfl⟩

def Writes (size : Nat) (out : T → Bool) (op : Wire T → Done T) : Prop :=
  ∀ s : Wire T, (out s.prop = true ∧ ∃ l : List UInt8, l.length = size ∧ ∀ m : Bytes,
      (op { s with response := m }).wire.response = m.write headerBytes.toNat l) ∨
    (out s.prop = false ∧ ∀ m : Bytes, (op { s with response := m }).wire.response = m)

def Accepts (op : Wire T → Done T) : Prop := ∀ s msg, (op s).ending ≠ .refused msg

def Refuses (op : Wire T → Done T) : Prop :=
  ∀ s : Wire T, ∃ m msg, op s = Wire.refuse { s with request := m } msg

def AtRest (refused : Bool) (op : Wire T → Done T) : Prop :=
  match refused with
  | true => Refuses op
  | false => Accepts op

theorem Bytes.write_shows (off : Nat) (l : List UInt8) {i : Nat} (h : off ≤ i)
    (h' : i < off + l.length) : ∃ m : Bytes, m.write off l i ≠ m i := by
  refine ⟨fun _ => l.getD (i - off) 0 + 1, ?_⟩
  unfold Bytes.write
  rw [if_pos ⟨h, h'⟩]
  intro he
  have := congrArg UInt8.toNat he
  simp only [UInt8.toNat_add, UInt8.reduceToNat] at this
  omega

theorem Writes.written_iff {out : T → Bool} {op : Wire T → Done T} (h : Writes size out op)
    (s : Wire T) (i : Nat) : Stored op s i ↔
      out s.prop = true ∧ headerBytes.toNat ≤ i ∧ i < headerBytes.toNat + size := by
  rcases h s with ⟨ho, l, rfl, hl⟩ | ⟨ho, hm⟩
  · constructor
    · rintro ⟨m, hne⟩
      rw [hl] at hne
      refine ⟨ho, ?_, ?_⟩
      · by_contra hlt
        exact hne (Bytes.write_below (Nat.lt_of_not_le hlt))
      · by_contra hge
        exact hne (Bytes.write_above (Nat.le_of_not_lt hge))
    · rintro ⟨_, hle, hlt⟩
      obtain ⟨m, hm⟩ := Bytes.write_shows headerBytes.toNat l hle hlt
      exact ⟨m, by rwa [hl]⟩
  · constructor
    · rintro ⟨m, hne⟩
      exact absurd (congrFun (hm m) i) hne
    · rintro ⟨ho', _⟩
      simp [ho] at ho'

theorem Wire.serve_writes (L : Layout R) (f : Body T R) :
    Writes L.size f.returns (Wire.serve L f) := by
  intro s
  unfold Body.returns Wire.serve
  dsimp only
  rcases f s.prop with ⟨t, r | _⟩
  · exact .inl ⟨rfl, L.bytes r, L.length_bytes r, fun _ => rfl⟩
  · exact .inr ⟨rfl, fun _ => rfl⟩

theorem Wire.serve_accepts (L : Layout R) (f : Body T R) : Accepts (Wire.serve L f) := by
  intro s msg h
  unfold Wire.serve at h
  split at h <;> simp [Wire.readResult] at h

theorem Wire.serveLaunch_writes (L : Layout R) (f : Body T R) :
    Writes L.size f.returns (Wire.serveLaunch L f) := by
  intro s
  unfold Body.returns Wire.serveLaunch
  dsimp only
  rcases f s.prop with ⟨t, r | _⟩
  · exact .inl ⟨rfl, L.bytes r, L.length_bytes r, fun _ => rfl⟩
  · exact .inr ⟨rfl, fun _ => rfl⟩

theorem Wire.serveLaunch_accepts (L : Layout R) (f : Body T R) :
    Accepts (Wire.serveLaunch L f) := by
  intro s msg h
  unfold Wire.serveLaunch at h
  split at h <;> simp [Wire.readResult] at h

theorem Wire.serveIntoInner_writes (LT : Layout T) :
    Writes LT.size (fun _ => true) (Wire.serveIntoInner LT) :=
  fun s => .inl ⟨rfl, LT.bytes s.prop, LT.length_bytes s.prop, fun _ => rfl⟩

theorem Wire.serveIntoInner_accepts (LT : Layout T) : Accepts (Wire.serveIntoInner LT) := by
  intro s msg h
  simp [Wire.serveIntoInner, Wire.readResult] at h

theorem Wire.direct_writes (L : Layout R) (f : Body T R) :
    Writes size (fun _ => false) (Wire.direct L f) := by
  refine fun s => .inr ⟨rfl, fun m => ?_⟩
  unfold Wire.direct
  split <;> rfl

theorem Wire.direct_accepts (L : Layout R) (f : Body T R) : Accepts (Wire.direct L f) := by
  intro s msg h
  unfold Wire.direct at h
  split at h <;> simp at h

theorem Wire.refuse_writes (msg : String) :
    Writes size (fun _ => false) (fun s : Wire T => s.refuse msg) :=
  fun _ => .inr ⟨rfl, fun _ => rfl⟩

theorem Writes.congr {out out' : T → Bool} {op : Wire T → Done T} (h : Writes size out op)
    (ho : ∀ t, out' t = out t) : Writes size out' op := by
  intro s
  rw [ho]
  exact h s

theorem Wire.enter_writes {out : T → Bool} {direct publish : Wire T → Done T} (en : Entry)
    (hd : Writes size (fun _ => false) direct) (hp : Writes size out publish) :
    Writes size (fun t => en == .publish && out t) (fun s => s.enter en direct publish) := by
  cases en with
  | shortcut => exact hd
  | panic msg => exact Wire.refuse_writes msg
  | publish => exact hp

theorem Wire.delegate_writes {out : T → Bool} {serve : Wire T → Done T}
    (h : Writes size out serve) : Writes size (fun t => !overflows f args && out t)
      (fun s => s.delegate hdr f args serve) := by
  intro s
  -- what is posted does not depend on the response side
  rcases s.post_cases hdr f args with ⟨ho, m, msg, hp⟩ | ⟨ho, m, h', w, hp⟩
  · refine .inr ⟨by simp [ho], fun n => ?_⟩
    have hp' : Wire.post { s with response := n } hdr f args =
        ({ s with request := m, response := n }, some msg) := by
      unfold Wire.post at hp ⊢
      dsimp only at hp ⊢
      split at hp <;> simp_all
    simp only [Wire.delegate, hp']
    rfl
  · have hp' : ∀ n, Wire.post { s with response := n } hdr f args =
        ({ s with request := m, header := h', reqWord := w, response := n }, none) := by
      intro n
      unfold Wire.post at hp ⊢
      dsimp only at hp ⊢
      split at hp <;> simp_all
    simp only [Wire.delegate, hp', ho, Bool.not_false, Bool.true_and]
    exact h { s with request := m, header := h', reqWord := w }

theorem Wire.refuse_refuses (msg : String) : Refuses (fun s : Wire T => s.refuse msg) :=
  fun s => ⟨s.request, msg, rfl⟩

theorem Wire.delegate_settled {serve : Wire T → Done T} (h : Accepts serve) :
    AtRest (overflows f args) (fun s => s.delegate hdr f args serve) := by
  cases ho : overflows f args with
  | true =>
    intro s
    rcases s.post_cases hdr f args with ⟨_, m, msg, hp⟩ | ⟨ho', _⟩
    · exact ⟨m, msg, by simp only [Wire.delegate, hp]⟩
    · simp [ho] at ho'
  | false =>
    intro s
    rcases s.post_cases hdr f args with ⟨ho', _⟩ | ⟨_, m, h', w, hp⟩
    · simp [ho] at ho'
    · simp only [Wire.delegate, hp]
      exact h _

theorem Wire.delegateArgs_writes {out : List UInt8 → T → Bool}
    {serve : List UInt8 → Wire T → Done T} (bin : Bincode V) (w : V)
    (h : ∀ args, Writes size (out args) (serve args)) :
    Writes size (fun t => match bin.serialize w with
      | none => false
      | some args => !overflows f args && out args t)
      (fun s => s.delegateArgs bin hdr f w serve) := by
  unfold Wire.delegateArgs
  cases bin.serialize w with
  | none => exact Wire.refuse_writes "bincode serialize"
  | some args => exact Wire.delegate_writes (h args)

theorem Wire.delegateArgs_settled {serve : List UInt8 → Wire T → Done T} (bin : Bincode V)
    (w : V) (h : ∀ args, Accepts (serve args)) :
    AtRest (match bin.serialize w with
      | none => true
      | some args => overflows f args) (fun s => s.delegateArgs bin hdr f w serve) := by
  unfold Wire.delegateArgs
  cases bin.serialize w with
  | none => exact Wire.refuse_refuses "bincode serialize"
  | some args => exact Wire.delegate_settled (h args)

theorem Wire.enter_settled {direct publish : Wire T → Done T} {b : Bool} (en : Entry)
    (hd : Accepts direct) (hp : AtRest b publish) :
    AtRest (match en with
      | .shortcut => false
      | .panic _ => true
      | .publish => b) (fun s => s.enter en direct publish) := by
  cases en with
  | shortcut => exact hd
  | panic msg => exact Wire.refuse_refuses msg
  | publish => exact hp

end

theorem overflows_empty : overflows .empty [] = false := by decide

namespace Call

variable (bin : Bincode V) (LT : Layout T) (L : Layout R) (e : Entering)

/-- What every operation writes: its result, if it has come from the worker. -/
theorem run_writes (c : Call T V R) :
    Writes (c.resultSize LT L) (fun t => c.answered bin e t) (c.run bin LT L e) := by
  cases c with
  | apply env f | with_ env f =>
    refine (Wire.enter_writes _ (Wire.direct_writes L f)
      (Wire.delegate_writes (Wire.serve_writes L f))).congr (fun t => ?_)
    simp only [answered, entry, unencodable, produces, Bool.and_assoc]
  | applyWith env f w =>
    refine (Wire.enter_writes _ (Wire.direct_writes L (f w)) (Wire.delegateArgs_writes bin w
      (fun args => Wire.serve_writes L _))).congr (fun t => ?_)
    simp only [answered, entry, unencodable, produces, Bool.and_assoc]
    cases bin.serialize w with
    | none => simp
    | some args =>
      rw [Option.bind_some]
      dsimp only
      cases bin.deserialize args <;> rfl
  | launch env f =>
    refine (Wire.enter_writes (Entry.launch e) (Wire.direct_writes L f)
      (Wire.delegate_writes (Wire.serveLaunch_writes L f))).congr (fun t => ?_)
    simp only [answered, entry, unencodable, produces, Bool.and_assoc]
  | intoInner =>
    refine (Wire.enter_writes _ (fun _ => .inr ⟨rfl, fun _ => rfl⟩)
      (Wire.delegate_writes (Wire.serveIntoInner_writes LT))).congr (fun t => ?_)
    simp only [answered, entry, unencodable, produces, overflows_empty, Bool.and_assoc]

theorem run_atRest (c : Call T V R) : AtRest (c.refuses bin e) (c.run bin LT L e) := by
  cases c with
  | apply env f | with_ env f =>
    exact Wire.enter_settled _ (Wire.direct_accepts L f)
      (Wire.delegate_settled (Wire.serve_accepts L f))
  | applyWith env f w =>
    exact Wire.enter_settled _ (Wire.direct_accepts L (f w))
      (Wire.delegateArgs_settled bin w (fun args => Wire.serve_accepts L _))
  | launch env f =>
    exact Wire.enter_settled (Entry.launch e) (Wire.direct_accepts L f)
      (Wire.delegate_settled (Wire.serveLaunch_accepts L f))
  | intoInner =>
    have hd := @Wire.delegate_settled _ ⟨.intoInner, 1⟩ .empty [] _ (Wire.serveIntoInner_accepts LT)
    rw [overflows_empty] at hd
    exact Wire.enter_settled _ (fun _ _ h => by cases h) hd

end Call

theorem Writes.inside_iff {size : Nat} {out : T → Bool} {op : Wire T → Done T}
    (h : Writes size out op) (s : Wire T) :
    Inside op s ↔ headerBytes.toNat + size ≤ slotBytes.toNat ∨ out s.prop = false := by
  unfold Inside
  simp only [h.written_iff]
  have hfits : headerBytes.toNat ≤ slotBytes.toNat := by decide
  cases out s.prop with
  | false => simp
  | true =>
    constructor
    · intro hi
      by_contra hn
      have hlt : slotBytes.toNat < headerBytes.toNat + size := by simpa using hn
      have := (hi (headerBytes.toNat + size - 1) ⟨rfl, by omega, by omega⟩).2
      omega
    · rintro (hle | hf) i ⟨_, hlo, hhi⟩
      · exact ⟨hlo, by omega⟩
      · cases hf

section

variable (bin : Bincode V) (LT : Layout T) (L : Layout R)

/-- The response side has no check of its own. An operation obeys the limit of the response
slot exactly if its result fits there, or if it panics for another reason before it is
posted; and it writes inside the slot exactly if its result fits or none is written. -/
theorem response_contained_iff (call : Call T V R) (e : Entering) (s : Wire T) :
    (Contained (call.resultSize LT L) (call.run bin LT L e) s ↔
      headerBytes.toNat + call.resultSize LT L ≤ slotBytes.toNat ∨
        call.refuses bin e = true) ∧
    (Inside (call.run bin LT L e) s ↔
      headerBytes.toNat + call.resultSize LT L ≤ slotBytes.toNat ∨
        call.answered bin e s.prop = false) := by
  have hin := (call.run_writes bin LT L e).inside_iff s
  refine ⟨?_, hin⟩
  have hset := call.run_atRest bin LT L e
  cases hr : call.refuses bin e with
  | false =>
    rw [hr] at hset
    constructor
    · rintro ⟨_, hc⟩
      by_contra hn
      obtain ⟨⟨msg, he⟩, _⟩ := hc (by simpa using hn)
      exact hset s msg he
    · intro hfit
      have hle : headerBytes.toNat + call.resultSize LT L ≤ slotBytes.toNat := by simpa using hfit
      exact ⟨hin.mpr (.inl hle), fun hlt => absurd hle (Nat.not_le_of_lt hlt)⟩
  | true =>
    rw [hr] at hset
    refine ⟨fun _ => .inr rfl, fun _ => ⟨?_, fun _ => ?_⟩⟩
    · rintro i ⟨n, hne⟩
      obtain ⟨m, msg, hm⟩ := hset { s with response := n }
      rw [hm] at hne
      exact absurd rfl hne
    · obtain ⟨m, msg, hm⟩ := hset s
      rw [hm]
      exact ⟨⟨msg, rfl⟩, rfl, rfl, rfl, fun _ _ => rfl⟩

end

/-- `[u8; 1149]`, one byte more than a response can hold. -/
def wideResult : Layout Unit :=
  ⟨1149, fun _ => List.replicate 1149 0, fun _ => List.length_replicate⟩

def noBytes : Layout Nat := ⟨0, fun _ => [], fun _ => rfl⟩

def idleWire : Wire Nat := ⟨0, 0, 0, fun _ => 0, none, fun _ => 0⟩

def wideApply : Call Nat UInt8 Unit := .apply .empty (fun t => (t + 1, .returned ()))

def ordinary : Entering := ⟨2, 1, true, false, true⟩

/-- `apply` with such a result runs and writes past the end of the slot. -/
theorem wideApply_not_contained :
    ¬ Contained (wideApply.resultSize noBytes wideResult)
      (wideApply.run byteBincode noBytes wideResult ordinary) idleWire := by
  rintro ⟨hin, _⟩
  have hw : Stored (wideApply.run byteBincode noBytes wideResult ordinary) idleWire 1152 :=
    ((wideApply.run_writes byteBincode noBytes wideResult ordinary).written_iff idleWire 1152).mpr
      (by decide)
  exact absurd (hin 1152 hw).2 (by decide)

end TrustTee
