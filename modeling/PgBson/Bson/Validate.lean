import PgBson.Bson.Decode
import PgBson.Bson.Element
import PgBson.Lib.Machine

/-! # The validator

`validateBSON` of `bson_validate.cpp`, which `BSONObj::valid` calls: a loop over the states of
`ValidationState` with a stack of frames, one for each open object and each `CodeWScope`. A position
is an unsigned 64-bit number. The signed counts of strings and binary data are added to it as they
are, so a count below zero moves the position back.

What one round reads of an element is proved here, forward where the counts make sense: a value that
is there is passed over (`validateValue_eq`), and what is passed over is a value
(`validateValue_ok`). -/

namespace PgBson.Bson.Validate

open PgBson.Lib.Memory PgBson.Lib.Machine PgBson.Bson.Types PgBson.Bson.Document
open PgBson.Bson.Element (objsize)

/-- Why a run stops early: a status `InvalidBSON` with its reason, or an overflow of an `int`. -/
inductive Stop
  | invalidBSON (reason : String)
  | undefinedBehaviour
  deriving DecidableEq, Repr

/-! ### `Buffer` -/

/-- `Buffer`: the memory from `_buffer` on, and how far it may be read. -/
structure Buffer where
  buffer : Bytes
  position : ℕ
  maxLength : ℕ
  deriving DecidableEq

/-- The memory from the position on. -/
def Buffer.rest (b : Buffer) : Bytes := b.buffer.drop b.position

/-- `readNumber`, for a number of `k` bytes. -/
def Buffer.readNumber (b : Buffer) (k : ℕ) : Option (ℕ × Buffer) :=
  if b.maxLength < (b.position + k) % 2 ^ 64 then none
  else some (word k b.rest, { b with position := (b.position + k) % 2 ^ 64 })

/-- `skip`: whether the new position is inside, and the buffer there. -/
def Buffer.skip (b : Buffer) (sz : ℤ) : Bool × Buffer :=
  let p := ((b.position + sz) % 2 ^ 64).toNat
  (p < b.maxLength, { b with position := p })

/-- `readCString`; the string itself is not used by the callers. -/
def Buffer.readCString (b : Buffer) : Except Stop Buffer :=
  let window := b.rest.take (b.maxLength - b.position)
  if 0 ∈ window then .ok { b with position := b.position + (cstr window).length + 1 }
  else .error (.invalidBSON "no end of c-string")

/-- `readUTF8String`. -/
def Buffer.readUTF8String (b : Buffer) : Except Stop Buffer :=
  match b.readNumber 4 with
  | none => .error (.invalidBSON "invalid bson")
  | some (n, b) =>
    let sz := (BitVec.ofNat 32 n).toInt
    if sz = -2 ^ 31 then .error .undefinedBehaviour
    else
      let (inside, b) := b.skip (sz - 1)
      if !inside then .error (.invalidBSON "invalid bson")
      else
        match b.readNumber 1 with
        | none => .error (.invalidBSON "invalid bson")
        | some (c, b) => if c ≠ 0 then .error (.invalidBSON "not null terminate string") else .ok b

/-- `if (!buffer->skip(sz)) return ...`. -/
def Buffer.skipped (b : Buffer) (sz : ℤ) : Except Stop Buffer :=
  let (inside, b) := b.skip sz
  if inside then .ok b else .error (.invalidBSON "invalid bson")

/-! ### The states -/

/-- `ValidationState::State`. -/
inductive State
  | beginObj | withinObj | endObj | beginCodeWScope | endCodeWScope | done
  deriving DecidableEq, Repr

/-- `ValidationObjectFrame`; the flag shares a word with the position, which keeps 31 bits. -/
structure Frame where
  startPosition : ℕ
  isCodeWithScope : Bool
  expectedSize : ℤ
  deriving DecidableEq

/-- The `switch` of `validateElementInfo`, behind the type and the name of an element. -/
def validateValue (b : Buffer) : BSONType → Except Stop (Buffer × State)
  | .eoo => .ok (b, .endObj)
  | .minKey | .maxKey | .jstNULL | .undefined => .ok (b, .withinObj)
  | .jstOID => do return (← b.skipped 12, .withinObj)
  | .numberInt => do return (← b.skipped 4, .withinObj)
  | .bool => do return (← b.skipped 1, .withinObj)
  | .numberDouble | .numberLong | .timestamp | .date => do return (← b.skipped 8, .withinObj)
  | .dbRef => do
    let b ← b.readUTF8String
    return ((b.skip 12).2, .withinObj)
  | .regEx => do
    let b ← b.readCString
    return (← b.readCString, .withinObj)
  | .code | .symbol | .string => do return (← b.readUTF8String, .withinObj)
  | .binData =>
    match b.readNumber 4 with
    | none => .error (.invalidBSON "invalid bson")
    | some (n, b) => do
      let sz := (BitVec.ofNat 32 n).toInt
      if sz = 2 ^ 31 - 1 then .error .undefinedBehaviour
      else return (← b.skipped (1 + sz), .withinObj)
  | .codeWScope => .ok (b, .beginCodeWScope)
  | .object | .array => .ok (b, .beginObj)

/-- `validateElementInfo`, with the state it leaves in `nextState`. -/
def validateElementInfo (b : Buffer) : Except Stop (Buffer × State) :=
  match b.readNumber 1 with
  | none => .error (.invalidBSON "invalid bson")
  | some (c, b) =>
    if c = 0 then .ok (b, .endObj)
    else do
      let b ← b.readCString
      match BSONType.ofByte (UInt8.ofNat c) with
      | some t => validateValue b t
      | none => .error (.invalidBSON "invalid bson type")

/-- What the loop of `validateBSONIterative` keeps; `curr` is the first of the frames. -/
structure Machine where
  buffer : Buffer
  frames : List Frame
  state : State
  deriving DecidableEq

/-- `actualLength`: the distance to the start of a frame as an `int`. -/
def actualLength (b : Buffer) (f : Frame) : ℤ :=
  (BitVec.ofInt 32 ((b.position : ℤ) - f.startPosition)).toInt

/-- A frame is pushed at the position, and its size is read. -/
def push (b : Buffer) (isCodeWithScope : Bool) : Option (Frame × Buffer) :=
  (b.readNumber 4).map fun (n, c) =>
    (⟨b.position % 2 ^ 31, isCodeWithScope, (BitVec.ofNat 32 n).toInt⟩, c)

/-- The case `WithinObj`. -/
def within (b : Buffer) (frames : List Frame) : Except Stop Machine := do
  let (b, state) ← validateElementInfo b
  return ⟨b, frames, state⟩

/-- One round of `validateBSONIterative` in a state other than `Done`. -/
def iteration (m : Machine) : Except Stop Machine :=
  match m.state, m.frames with
  | .beginObj, fs =>
    match push m.buffer false with
    | none => .error (.invalidBSON "bson size is larger than buffer size")
    | some (f, b) => within b (f :: fs)
  | .withinObj, fs => within m.buffer fs
  | .endObj, f :: fs =>
    if actualLength m.buffer f ≠ f.expectedSize then
      .error (.invalidBSON "bson length doesn't match what we found")
    else
      match fs with
      | [] => .ok ⟨m.buffer, [], .done⟩
      | g :: _ => .ok ⟨m.buffer, fs, if g.isCodeWithScope then .endCodeWScope else .withinObj⟩
  | .beginCodeWScope, fs =>
    match push m.buffer true with
    | none => .error (.invalidBSON "invalid bson CodeWScope size")
    | some (f, b) => do return ⟨← b.readUTF8String, f :: fs, .beginObj⟩
  | .endCodeWScope, f :: fs =>
    if actualLength m.buffer f ≠ f.expectedSize then
      .error (.invalidBSON "bson length for CodeWScope doesn't match what we found")
    else
      match fs with
      | [] => .error (.invalidBSON "unnested CodeWScope")
      | _ :: _ => .ok ⟨m.buffer, fs, .withinObj⟩
  -- `curr` would be a null pointer.
  | .endObj, [] | .endCodeWScope, [] => .error .undefinedBehaviour
  | .done, _ => .ok m

/-- The loop of `validateBSONIterative`. -/
def step (m : Machine) : Except Stop Unit ⊕ Machine :=
  if m.state = .done then .inl (.ok ())
  else
    match iteration m with
    | .error e => .inl (.error e)
    | .ok m => .inr m

/-- The loop starts in front of an object. -/
def start (buf : Bytes) (maxLength : ℕ) : Machine := ⟨⟨buf, 0, maxLength⟩, [], .beginObj⟩

/-- `validateBSON`, with a bound on the rounds of its loop. -/
def validateBSON (fuel : ℕ) (buf : Bytes) (maxLength : ℕ) : Option (Except Stop Unit) :=
  if maxLength < 5 then some (.error (.invalidBSON "bson data has to be at least 5 bytes"))
  else run step fuel (start buf maxLength)

/-- `BSONObj::valid`: the length word tells how far the memory may be read. -/
def valid (fuel : ℕ) (o : Bytes) : Option Bool :=
  (validateBSON fuel o (objsize o % 2 ^ 64).toNat).map (·.isOk)

/-! ### Reading forward -/

section buffer
variable {b c : Buffer} {s t : Bytes} {k n : ℕ}

/-- The buffer `k` bytes on. -/
def Buffer.advance (b : Buffer) (k : ℕ) : Buffer := { b with position := b.position + k }

/-- The memory is there as far as it may be read, and positions fit an `int`. -/
structure Buffer.Small (b : Buffer) : Prop where
  range : b.maxLength < 2 ^ 31
  memory : b.maxLength ≤ b.buffer.length
  near : b.position ≤ b.maxLength + 12

theorem Buffer.advance_advance (j : ℕ) : (b.advance j).advance k = b.advance (j + k) := by
  simp only [Buffer.advance, Nat.add_assoc]

theorem Buffer.Small.advance (h : b.Small) (hk : b.position + k ≤ b.maxLength + 12) :
    (b.advance k).Small := ⟨h.range, h.memory, hk⟩

theorem rest_advance (h : b.rest = s ++ t) : (b.advance s.length).rest = t := by
  have hd := congrArg (List.drop s.length) h
  rwa [Buffer.rest, List.drop_drop, List.drop_left] at hd

theorem readNumber_eq (h : b.Small) (hk : k ≤ 8) : b.readNumber k =
    if b.maxLength < b.position + k then none else some (word k b.rest, b.advance k) := by
  have hr := h.range
  have hn := h.near
  rw [Buffer.readNumber, Nat.mod_eq_of_lt (by omega)]
  rfl

theorem readNumber_le (h : b.Small) (hk : k ≤ 8) (hn : n < 256 ^ k) (hb : b.rest = le k n ++ s)
    (hl : b.position + k ≤ b.maxLength) : b.readNumber k = some (n, b.advance k) := by
  rw [readNumber_eq h hk, if_neg (by omega), hb, word_le_append, Nat.mod_eq_of_lt hn]

theorem readNumber_ok (h : b.Small) (hk : k ≤ 8) (hn : b.readNumber k = some (n, c)) :
    c = b.advance k ∧ n < 256 ^ k ∧ b.rest = le k n ++ c.rest ∧ c.position ≤ b.maxLength := by
  rw [readNumber_eq h hk] at hn
  split_ifs at hn with hlt
  simp only [Option.some.injEq, Prod.mk.injEq] at hn
  obtain ⟨rfl, rfl⟩ := hn
  have hm := h.memory
  have hlen : (b.rest.take k).length = k := by
    rw [List.length_take, Buffer.rest, List.length_drop]
    omega
  have hle : le k (word k b.rest) = b.rest.take k := by
    have := le_leNat (b.rest.take k)
    rwa [hlen] at this
  have hword : word k b.rest < 256 ^ k := by
    have := leNat_lt (b.rest.take k)
    rwa [hlen] at this
  refine ⟨rfl, hword, ?_, by simp only [Buffer.advance]; omega⟩
  rw [hle, Buffer.rest, Buffer.rest, Buffer.advance, ← List.drop_drop, List.take_append_drop]

theorem skip_eq (h : b.Small) (hk : k < 2 ^ 32) :
    b.skip k = (decide (b.position + k < b.maxLength), b.advance k) := by
  have hr := h.range
  have hn := h.near
  have hp : (((b.position : ℤ) + k) % 2 ^ 64).toNat = b.position + k := by omega
  simp only [Buffer.skip, hp, Buffer.advance]

theorem skipped_ok (h : b.Small) (hk : k < 2 ^ 32) (hc : b.skipped k = .ok c) :
    c = b.advance k ∧ b.position + k < b.maxLength := by
  simp only [Buffer.skipped, skip_eq h hk, decide_eq_true_eq] at hc
  split_ifs at hc with hlt
  exact ⟨(Except.ok.inj hc).symm, hlt⟩

theorem skipped_eq (h : b.Small) (hk : k < 2 ^ 32) (hl : b.position + k < b.maxLength) :
    b.skipped k = .ok (b.advance k) := by
  simp only [Buffer.skipped, skip_eq h hk, hl, decide_true, if_true]

theorem readCString_eq (hs : 0 ∉ s) (hb : b.rest = s ++ 0 :: t)
    (hl : b.position + (s.length + 1) ≤ b.maxLength) :
    b.readCString = .ok (b.advance (s.length + 1)) := by
  have hw : b.rest.take (b.maxLength - b.position) =
      s ++ 0 :: t.take (b.maxLength - b.position - (s.length + 1)) := by
    rw [hb, List.take_append, List.take_of_length_le (by omega),
      show b.maxLength - b.position - s.length = b.maxLength - b.position - (s.length + 1) + 1 by
        omega, List.take_succ_cons]
  simp only [Buffer.readCString, hw, cstr_append _ hs]
  rw [if_pos (by simp)]
  rfl

theorem readCString_ok (hc : b.readCString = .ok c) : ∃ s, 0 ∉ s ∧ b.rest = s ++ 0 :: c.rest ∧
    c = b.advance (s.length + 1) ∧ c.position ≤ b.maxLength := by
  simp only [Buffer.readCString] at hc
  split_ifs at hc with h0
  have hw := cstr_append_afterCstr h0
  have hlen := congrArg List.length hw
  rw [List.length_take, List.length_append, List.length_cons] at hlen
  have hb : b.rest = cstr (b.rest.take (b.maxLength - b.position)) ++
      0 :: (afterCstr (b.rest.take (b.maxLength - b.position)) ++
        b.rest.drop (b.maxLength - b.position)) := by
    conv_lhs => rw [← List.take_append_drop (b.maxLength - b.position) b.rest]
    nth_rewrite 1 [hw]
    simp
  have hadv : c = b.advance ((cstr (b.rest.take (b.maxLength - b.position))).length + 1) :=
    (Except.ok.inj hc).symm
  refine ⟨_, zero_notMem_cstr _, ?_, hadv, ?_⟩
  · have hrest := rest_advance (hb.trans (List.append_cons _ _ _))
    rw [List.length_append, List.length_singleton, ← hadv] at hrest
    rw [hrest]
    exact hb
  · rw [hadv, Buffer.advance]
    dsimp only
    omega

/-- The count at the position, if it can be read, is not below `least`. -/
def Counted (least : ℤ) (b : Buffer) : Prop :=
  ∀ n c, b.readNumber 4 = some (n, c) → least ≤ (BitVec.ofNat 32 n).toInt

theorem toInt_count (hn : n < 2 ^ 31) : (BitVec.ofNat 32 n).toInt = n := by
  rw [BitVec.toInt_eq_toNat_of_lt] <;> rw [BitVec.toNat_ofNat] <;> omega

theorem readUTF8String_eq (h : b.Small) (hs : Terminated s)
    (hb : b.rest = le 4 s.length ++ (s ++ t))
    (hl : b.position + (4 + s.length) ≤ b.maxLength) :
    b.readUTF8String = .ok (b.advance (4 + s.length)) := by
  have hr := h.range
  have hpos : 0 < s.length := List.length_pos_of_ne_nil hs.ne_nil
  have h4 : (b.advance 4).rest = s ++ t := by
    have := rest_advance hb
    rwa [length_le] at this
  have hsmall : (b.advance 4).Small := h.advance (by omega)
  have hcast : (s.length : ℤ) - 1 = ((s.length - 1 : ℕ) : ℤ) := by omega
  have hlast : ((b.advance 4).advance (s.length - 1)).rest = le 1 0 ++ t := by
    have hd : (b.advance 4).rest = s.dropLast ++ ([0] ++ t) := by
      rw [h4, ← List.append_assoc, ← hs.eq_append]
    have := rest_advance hd
    rwa [List.length_dropLast] at this
  have hone := readNumber_le (k := 1) (n := 0)
    (hsmall.advance (k := s.length - 1) (by simp only [Buffer.advance]; omega)) (by omega)
    (by omega)
    hlast (by simp only [Buffer.advance]; omega)
  have hadv : ((b.advance 4).advance (s.length - 1)).advance 1 = b.advance (4 + s.length) := by
    rw [Buffer.advance_advance, Buffer.advance_advance]
    congr 1
    omega
  simp only [Buffer.readUTF8String, readNumber_le h (by omega) (by omega) hb (by omega),
    toInt_count (show s.length < 2 ^ 31 by omega)]
  rw [if_neg (by omega), hcast, skip_eq hsmall (by omega), hone, hadv]
  have hin : (b.advance 4).position + (s.length - 1) < (b.advance 4).maxLength := by
    simp only [Buffer.advance]
    omega
  simp [hin]

theorem readUTF8String_ok (h : b.Small) (hpos : Counted 1 b) (hc : b.readUTF8String = .ok c) :
    ∃ s, Terminated s ∧ b.rest = le 4 s.length ++ (s ++ c.rest) ∧
      c = b.advance (4 + s.length) ∧ c.position ≤ b.maxLength := by
  simp only [Buffer.readUTF8String] at hc
  cases hn : b.readNumber 4 with
  | none =>
    rw [hn] at hc
    cases hc
  | some nb =>
    obtain ⟨n, d⟩ := nb
    obtain ⟨rfl, hlt, hb, hd⟩ := readNumber_ok h (by omega) hn
    have hcount := hpos n _ hn
    obtain ⟨k, hk⟩ : ∃ k : ℕ, (BitVec.ofNat 32 n).toInt - 1 = k :=
      ⟨_, (Int.toNat_of_nonneg (by omega)).symm⟩
    have hnk : n = k + 1 := by
      rw [BitVec.toInt_ofNat', Int.bmod_def] at hk
      omega
    have hr := h.range
    have hsmall : (b.advance 4).Small := h.advance (by simp only [Buffer.advance] at hd; omega)
    simp only [hn, hk, skip_eq hsmall (show k < 2 ^ 32 by omega)] at hc
    split_ifs at hc with hmin hin
    · cases hone : ((b.advance 4).advance k).readNumber 1 with
      | none =>
        rw [hone] at hc
        cases hc
      | some ce =>
        obtain ⟨z, e⟩ := ce
        simp only [hone] at hc
        split_ifs at hc with hz
        obtain rfl := Except.ok.inj hc
        simp only [Bool.not_eq_true', decide_eq_false_iff_not, not_not] at hin
        obtain ⟨rfl, -, hlast, hpos'⟩ :=
          readNumber_ok (hsmall.advance (by simp only [Buffer.advance] at hin ⊢; omega))
            (by omega) hone
        obtain rfl : z = 0 := not_not.mp hz
        have hm := h.memory
        simp only [Buffer.advance] at hin hpos'
        have hlen : ((b.advance 4).rest.take k).length = k := by
          rw [List.length_take, Buffer.rest, List.length_drop]
          simp only [Buffer.advance]
          omega
        have hsplit : (b.advance 4).rest = (b.advance 4).rest.take k ++
            ([0] ++ (((b.advance 4).advance k).advance 1).rest) := by
          conv_lhs => rw [← List.take_append_drop k (b.advance 4).rest]
          rw [show [0] ++ (((b.advance 4).advance k).advance 1).rest =
            ((b.advance 4).advance k).rest from hlast.symm]
          congr 1
          simp only [Buffer.rest, Buffer.advance, List.drop_drop]
        refine ⟨(b.advance 4).rest.take k ++ [0], terminated_append _, ?_, ?_, hpos'⟩
        · rw [List.length_append, hlen, List.length_singleton, ← hnk, List.append_assoc, ← hsplit]
          exact hb
        · rw [List.length_append, hlen, List.length_singleton, Buffer.advance_advance,
            Buffer.advance_advance]


/-! ### Values -/

/-- The state behind the type and name of an element, and behind the value if it has no parts. -/
def after : BSONType → State
  | .object | .array => .beginObj
  | .codeWScope => .beginCodeWScope
  | _ => .withinObj

/-- The counts in front of a value make sense, those of strings with their terminator. -/
def CountOk : BSONType → Buffer → Prop
  | .string, b | .code, b | .symbol, b | .dbRef, b => Counted 1 b
  | .binData, b => Counted 0 b
  | _, _ => True

theorem validateValue_nested {t : BSONType} (ht : after t ≠ .withinObj) :
    validateValue b t = .ok (b, after t) := by
  cases t <;> first | rfl | exact absurd rfl ht

/-- The number of bytes of the values that have a fixed one. -/
def fixedSize : BSONType → Option ℕ
  | .jstOID => some 12
  | .numberInt => some 4
  | .bool => some 1
  | .numberDouble | .numberLong | .timestamp | .date => some 8
  | _ => none

theorem validateValue_fixed {t : BSONType} (ht : fixedSize t = some k) :
    validateValue b t = (b.skipped k).map fun c => (c, .withinObj) := by
  cases t <;> cases ht <;> rfl

theorem fixedSize_eq {v : Value} (hv : (fixedSize v.type).isSome) :
    fixedSize v.type = some v.bytes.length := by
  cases v <;> simp_all [Value.bytes, Value.type, fixedSize, OID.size]

theorem exists_fixedSize {t : BSONType} (ht : fixedSize t = some k) (hs : s.length = k) :
    ∃ v : Value, v.type = t ∧ v.Valid ∧ v.bytes = s := by
  have hbits : ∀ {j w : ℕ}, s.length = j → 256 ^ j = 2 ^ w →
      le j (BitVec.ofNat w (leNat s)).toNat = s := by
    rintro _ w rfl hw
    rw [BitVec.toNat_ofNat, Nat.mod_eq_of_lt (hw ▸ leNat_lt s), le_leNat]
  cases t <;> cases ht
  case numberDouble => exact ⟨.numberDouble (.ofNat 64 _), rfl, trivial, hbits hs (by decide)⟩
  case jstOID => exact ⟨.jstOID ⟨s, hs⟩, rfl, trivial, rfl⟩
  case bool =>
    obtain ⟨c, rfl⟩ := List.length_eq_one_iff.mp hs
    exact ⟨.bool c, rfl, trivial, rfl⟩
  case date => exact ⟨.date (.ofNat 64 _), rfl, trivial, hbits hs (by decide)⟩
  case numberInt => exact ⟨.numberInt (.ofNat 32 _), rfl, trivial, hbits hs (by decide)⟩
  case timestamp => exact ⟨.timestamp (.ofNat 64 _), rfl, trivial, hbits hs (by decide)⟩
  case numberLong => exact ⟨.numberLong (.ofNat 64 _), rfl, trivial, hbits hs (by decide)⟩

theorem validateValue_eq {v : Value} (h : b.Small) (hv : v.Valid)
    (hleaf : after v.type = .withinObj)
    (hb : b.rest = v.bytes ++ t) (hl : b.position + v.bytes.length < b.maxLength) :
    validateValue b v.type = .ok (b.advance v.bytes.length, .withinObj) := by
  have hr := h.range
  cases v
  case object | array | codeWScope => cases hleaf
  case minKey | maxKey | undefined | jstNULL => rfl
  case numberDouble | date | timestamp | numberLong | numberInt | bool | jstOID =>
    rw [validateValue_fixed (fixedSize_eq rfl), skipped_eq h (by omega) hl]
    rfl
  case string s | code s | symbol s =>
    simp only [Value.bytes, List.length_append, length_le, List.append_assoc] at hb hl ⊢
    rw [Value.type, validateValue, readUTF8String_eq h hv hb (by omega)]
    rfl
  case dbRef ns id =>
    simp only [Value.bytes, List.length_append, length_le, id.size, List.append_assoc] at hb hl ⊢
    have hsk := skip_eq (k := 12) (h.advance (k := 4 + ns.length) (by omega)) (by omega)
    simp only [Nat.cast_ofNat] at hsk
    rw [Value.type, validateValue, readUTF8String_eq h hv hb (by omega)]
    simp only [bind, Except.bind, pure, Except.pure, hsk, Buffer.advance_advance, Nat.add_assoc]
  case regEx r f =>
    simp only [Value.bytes, List.length_append, List.length_cons, List.length_nil,
      List.append_assoc, List.cons_append, List.nil_append] at hb hl ⊢
    have h1 := rest_advance (hb.trans (List.append_cons r 0 _))
    rw [List.length_append, List.length_singleton] at h1
    have h2 := readCString_eq hv.2 h1 (by simp only [Buffer.advance]; omega)
    rw [Value.type, validateValue, readCString_eq hv.1 hb (by omega)]
    simp only [bind, Except.bind, pure, Except.pure, h2, Buffer.advance_advance]
    congr 3
    omega
  case binData st data =>
    simp only [Value.bytes, List.length_append, length_le, List.length_cons,
      List.append_assoc] at hb hl ⊢
    have hsk := skipped_eq (k := data.length + 1) (h.advance (k := 4) (by omega)) (by omega)
      (by simp only [Buffer.advance]; omega)
    have hcast : 1 + (data.length : ℤ) = ((data.length + 1 : ℕ) : ℤ) := by omega
    simp only [Value.type, validateValue, readNumber_le h (by omega) (by omega) hb (by omega),
      toInt_count (show data.length < 2 ^ 31 by omega), hcast]
    rw [if_neg (by omega), hsk]
    simp only [bind, Except.bind, pure, Except.pure, Buffer.advance_advance]

/-- The bytes up to a position that is inside are there. -/
theorem exists_rest_eq (h : b.Small) (hk : b.position + k ≤ b.maxLength) :
    ∃ s : Bytes, s.length = k ∧ b.rest = s ++ (b.advance k).rest := by
  have hm := h.memory
  refine ⟨b.rest.take k, ?_, ?_⟩
  · rw [List.length_take, Buffer.rest, List.length_drop]
    omega
  · rw [Buffer.rest, Buffer.rest, Buffer.advance, ← List.drop_drop, List.take_append_drop]

theorem exists_ok_of_bind {α β : Type} {x : Except Stop α} {g : α → Except Stop β} {y : β}
    (h : (x >>= g) = .ok y) : ∃ a, x = .ok a ∧ g a = .ok y := by
  cases x with
  | error e => cases h
  | ok a => exact ⟨a, rfl, h⟩

/-- Between two positions lies a value of a type, if the second is not outside. -/
structure Spans (t : BSONType) (b c : Buffer) (j : ℕ) : Prop where
  advance : c = b.advance j
  near : c.position ≤ b.maxLength + 12
  value : c.position ≤ b.maxLength →
    ∃ v : Value, v.type = t ∧ v.Valid ∧ v.bytes.length = j ∧ b.rest = v.bytes ++ c.rest

theorem spans_of_empty {v : Value} (hlt : b.position ≤ b.maxLength) (hv : v.Valid)
    (hbytes : v.bytes = []) : Spans v.type b b 0 :=
  ⟨rfl, by omega, fun _ => ⟨v, rfl, hv, by rw [hbytes]; rfl, by rw [hbytes]; rfl⟩⟩

theorem spans_of_skipped {t : BSONType} (h : b.Small) (ht : fixedSize t = some k)
    (hk : k < 2 ^ 32) (hc : b.skipped k = .ok c) : Spans t b c k := by
  obtain ⟨rfl, hin⟩ := skipped_ok h hk hc
  refine ⟨rfl, by simp only [Buffer.advance]; omega, fun _ => ?_⟩
  obtain ⟨s, hs, hrest⟩ := exists_rest_eq h hin.le
  obtain ⟨v, hv, hvalid, hbytes⟩ := exists_fixedSize ht hs
  exact ⟨v, hv, hvalid, by rw [hbytes, hs], by rw [hbytes]; exact hrest⟩

theorem spans_of_readUTF8String {v : Bytes → Value} {t : BSONType} (ht : ∀ s, (v s).type = t)
    (hv : ∀ s, Terminated s → (v s).Valid) (hbytes : ∀ s, (v s).bytes = le 4 s.length ++ s)
    (h : b.Small) (hpos : Counted 1 b) (hc : b.readUTF8String = .ok c) : ∃ j, Spans t b c j := by
  obtain ⟨s, hs, hrest, hadv, hle⟩ := readUTF8String_ok h hpos hc
  refine ⟨4 + s.length, hadv, by omega, fun _ => ⟨v s, ht s, hv s hs, ?_, ?_⟩⟩
  · rw [hbytes, List.length_append, length_le]
  · rw [hbytes, List.append_assoc]
    exact hrest

/-- The skip over the id is not checked, so it may end outside. -/
theorem spans_of_dbRef {d : Buffer} (h : b.Small) (hpos : Counted 1 b)
    (hd : b.readUTF8String = .ok d) : ∃ j, Spans .dbRef b (d.skip 12).2 j := by
  obtain ⟨s, hs, hrest, hadv, hle⟩ := readUTF8String_ok h hpos hd
  have hsmall : d.Small := by
    rw [hadv] at hle ⊢
    exact h.advance (by simp only [Buffer.advance] at hle; omega)
  have hskip : (d.skip 12).2 = d.advance 12 :=
    congrArg Prod.snd (skip_eq (k := 12) hsmall (by omega))
  have hmax : d.maxLength = b.maxLength := by
    rw [hadv]
    rfl
  refine ⟨4 + s.length + 12, ?_, ?_, fun hin => ?_⟩
  · rw [hskip, hadv, Buffer.advance_advance]
  · rw [hskip, Buffer.advance]
    dsimp only
    omega
  · rw [hskip] at hin ⊢
    obtain ⟨id, hid, hdrest⟩ := exists_rest_eq hsmall (k := 12) (by rw [hmax]; exact hin)
    refine ⟨.dbRef s ⟨id, hid⟩, rfl, hs, ?_, ?_⟩
    · simp only [Value.bytes, List.length_append, length_le, hid]
    · rw [hrest, hdrest]
      simp [Value.bytes]

theorem spans_of_regEx {d : Buffer} (hd : b.readCString = .ok d) (hc : d.readCString = .ok c) :
    ∃ j, Spans .regEx b c j := by
  obtain ⟨r, hr, hrest, hadv, hle⟩ := readCString_ok hd
  obtain ⟨f, hf, hrest', hadv', hle'⟩ := readCString_ok hc
  have hmax : d.maxLength = b.maxLength := by
    rw [hadv]
    rfl
  refine ⟨r.length + 1 + (f.length + 1), ?_, by omega, fun _ => ⟨.regEx r f, rfl, ⟨hr, hf⟩, ?_, ?_⟩⟩
  · rw [hadv', hadv, Buffer.advance_advance]
  · simp [Value.bytes]
    omega
  · rw [hrest, hrest']
    simp [Value.bytes]

theorem spans_of_binData (h : b.Small) (hpos : Counted 0 b) (hn : b.readNumber 4 = some (n, c))
    {d : Buffer} (hd : c.skipped (1 + (BitVec.ofNat 32 n).toInt) = .ok d) :
    ∃ j, Spans .binData b d j := by
  have hcount := hpos n c hn
  obtain ⟨rfl, hlt, hrest, hle⟩ := readNumber_ok h (by omega) hn
  obtain ⟨k, hk⟩ : ∃ k : ℕ, (BitVec.ofNat 32 n).toInt = k := ⟨_, (Int.toNat_of_nonneg hcount).symm⟩
  have hnk : n = k ∧ k < 2 ^ 31 := by
    rw [BitVec.toInt_ofNat', Int.bmod_def] at hk
    omega
  have hsmall : (b.advance 4).Small := h.advance (by simp only [Buffer.advance] at hle; omega)
  rw [hk, show (1 : ℤ) + k = ((1 + k : ℕ) : ℤ) by omega] at hd
  obtain ⟨rfl, hin⟩ := skipped_ok hsmall (by omega) hd
  obtain ⟨s, hs, hdata⟩ := exists_rest_eq hsmall hin.le
  obtain ⟨st, data, rfl⟩ : ∃ st data, s = st :: data := by
    cases s with
    | nil => simp at hs; omega
    | cons st data => exact ⟨st, data, rfl⟩
  have hlen : data.length = n := by
    simp only [List.length_cons] at hs
    omega
  refine ⟨4 + (1 + k), Buffer.advance_advance 4, ?_,
    fun _ => ⟨.binData st data, rfl, trivial, ?_, ?_⟩⟩
  · simp only [Buffer.advance] at hin ⊢
    omega
  · simp only [Value.bytes, List.length_append, length_le, List.length_cons]
    omega
  · rw [hrest, hdata, Value.bytes, hlen, List.append_assoc]

/-- **What is read of a value without parts is such a value**, if it does not end outside. -/
theorem validateValue_ok {t : BSONType} {st : State} (h : b.Small) (hlt : b.position ≤ b.maxLength)
    (hcount : CountOk t b) (hne : t ≠ .eoo) (hleaf : after t = .withinObj)
    (hc : validateValue b t = .ok (c, st)) : st = .withinObj ∧ ∃ j, Spans t b c j := by
  -- The fixed sizes first; what is left differs from type to type.
  cases hk : fixedSize t with
  | some k =>
    have hsize : k < 2 ^ 32 := by
      cases t <;> cases hk <;> omega
    rw [validateValue_fixed hk] at hc
    cases hsk : b.skipped k with
    | error e =>
      rw [hsk] at hc
      cases hc
    | ok d =>
      rw [hsk] at hc
      simp only [Except.map, Except.ok.injEq, Prod.mk.injEq] at hc
      obtain ⟨rfl, rfl⟩ := hc
      exact ⟨rfl, k, spans_of_skipped h hk hsize hsk⟩
  | none =>
    cases t
    case eoo => exact absurd rfl hne
    case object | array | codeWScope => cases hleaf
    case jstOID | numberInt | bool | numberDouble | numberLong | timestamp | date => cases hk
    case minKey | maxKey | jstNULL | undefined =>
      simp only [validateValue, Except.ok.injEq, Prod.mk.injEq] at hc
      obtain ⟨rfl, rfl⟩ := hc
      first
        | exact ⟨rfl, 0, spans_of_empty (v := .minKey) hlt trivial rfl⟩
        | exact ⟨rfl, 0, spans_of_empty (v := .maxKey) hlt trivial rfl⟩
        | exact ⟨rfl, 0, spans_of_empty (v := .jstNULL) hlt trivial rfl⟩
        | exact ⟨rfl, 0, spans_of_empty (v := .undefined) hlt trivial rfl⟩
    case string | code | symbol =>
      obtain ⟨d, hd, heq⟩ := exists_ok_of_bind hc
      simp only [pure, Except.pure, Except.ok.injEq, Prod.mk.injEq] at heq
      obtain ⟨rfl, rfl⟩ := heq
      refine ⟨rfl, ?_⟩
      first
        | exact spans_of_readUTF8String (v := .string) (fun _ => rfl) (fun _ h => h)
            (fun _ => rfl) h
            hcount hd
        | exact spans_of_readUTF8String (v := .code) (fun _ => rfl) (fun _ h => h) (fun _ => rfl) h
            hcount hd
        | exact spans_of_readUTF8String (v := .symbol) (fun _ => rfl) (fun _ h => h)
            (fun _ => rfl) h
            hcount hd
    case dbRef =>
      obtain ⟨d, hd, heq⟩ := exists_ok_of_bind hc
      simp only [pure, Except.pure, Except.ok.injEq, Prod.mk.injEq] at heq
      obtain ⟨rfl, rfl⟩ := heq
      exact ⟨rfl, spans_of_dbRef h hcount hd⟩
    case regEx =>
      obtain ⟨d, hd, hrest⟩ := exists_ok_of_bind hc
      obtain ⟨e, he, heq⟩ := exists_ok_of_bind hrest
      simp only [pure, Except.pure, Except.ok.injEq, Prod.mk.injEq] at heq
      obtain ⟨rfl, rfl⟩ := heq
      exact ⟨rfl, spans_of_regEx hd he⟩
    case binData =>
      simp only [validateValue] at hc
      cases hn : b.readNumber 4 with
      | none =>
        rw [hn] at hc
        cases hc
      | some nb =>
        obtain ⟨n, d⟩ := nb
        simp only [hn] at hc
        split_ifs at hc
        obtain ⟨e, he, heq⟩ := exists_ok_of_bind hc
        simp only [pure, Except.pure, Except.ok.injEq, Prod.mk.injEq] at heq
        obtain ⟨rfl, rfl⟩ := heq
        exact ⟨rfl, spans_of_binData h hcount hn he⟩

/-! ### Elements -/

/-- The type of the element at the position, and the buffer behind its name. -/
def elementAt (b : Buffer) : Option (BSONType × Buffer) :=
  match b.readNumber 1 with
  | none => none
  | some (c, b) =>
    match b.readCString with
    | .error _ => none
    | .ok b => (BSONType.ofByte (UInt8.ofNat c)).map fun t => (t, b)

theorem le_one (n : ℕ) : le 1 n = [UInt8.ofNat n] := rfl

theorem validateElementInfo_eoo (h : b.Small) (hb : b.rest = 0 :: s)
    (hl : b.position + 1 ≤ b.maxLength) : validateElementInfo b = .ok (b.advance 1, .endObj) := by
  rw [validateElementInfo, readNumber_le (k := 1) (n := 0) h (by omega) (by omega) hb hl]
  rfl

theorem validateElementInfo_eq {t : BSONType} {name : Bytes} (h : b.Small) (ht : t ≠ .eoo)
    (hn : 0 ∉ name) (hb : b.rest = t.byte :: (name ++ 0 :: s))
    (hl : b.position + (name.length + 2) ≤ b.maxLength) :
    validateElementInfo b = validateValue (b.advance (name.length + 2)) t := by
  have hbyte : UInt8.ofNat t.byte.toNat = t.byte := UInt8.ofNat_toNat
  have hne : t.byte.toNat ≠ 0 := by cases t <;> first | exact absurd rfl ht | decide
  have hb' : b.rest = le 1 t.byte.toNat ++ (name ++ 0 :: s) := by
    rw [le_one, hbyte]
    exact hb
  have h1 := rest_advance hb'
  rw [length_le] at h1
  have hread := readCString_eq hn h1 (by simp only [Buffer.advance]; omega)
  rw [Buffer.advance_advance, show 1 + (name.length + 1) = name.length + 2 by omega] at hread
  rw [validateElementInfo,
    readNumber_le (k := 1) h (by omega) (by simpa using t.byte.toNat_lt) hb' (by omega)]
  dsimp only
  rw [if_neg hne, hread, hbyte, BSONType.ofByte_byte]
  rfl

/-- The name and type of an element that is accepted. -/
structure Heads (b : Buffer) (t : BSONType) (name : Bytes) (d : Buffer) : Prop where
  element : elementAt b = some (t, d)
  ne_eoo : t ≠ .eoo
  nul : 0 ∉ name
  rest : b.rest = t.byte :: (name ++ 0 :: d.rest)
  advance : d = b.advance (name.length + 2)
  inside : d.position ≤ b.maxLength

theorem validateElementInfo_ok {st : State} (h : b.Small)
    (hc : validateElementInfo b = .ok (c, st)) :
    (b.rest = 0 :: c.rest ∧ c = b.advance 1 ∧ c.position ≤ b.maxLength ∧ st = .endObj) ∨
    ∃ t name d, Heads b t name d ∧ validateValue d t = .ok (c, st) := by
  cases hn : b.readNumber 1 with
  | none =>
    rw [validateElementInfo, hn] at hc
    cases hc
  | some nb =>
    obtain ⟨n, d⟩ := nb
    obtain ⟨rfl, hlt, hrest, hle⟩ := readNumber_ok h (by omega) hn
    rw [le_one] at hrest
    simp only [validateElementInfo, hn] at hc
    split_ifs at hc with h0
    · simp only [Except.ok.injEq, Prod.mk.injEq] at hc
      obtain ⟨rfl, rfl⟩ := hc
      subst h0
      exact Or.inl ⟨hrest, rfl, hle, rfl⟩
    · obtain ⟨e, he, hv⟩ := exists_ok_of_bind hc
      obtain ⟨name, hname, hrest', hadv, hle'⟩ := readCString_ok he
      cases ht : BSONType.ofByte (UInt8.ofNat n) with
      | none =>
        rw [ht] at hv
        cases hv
      | some t =>
        rw [ht] at hv
        have hbyte := BSONType.byte_of_ofByte ht
        refine Or.inr ⟨t, name, e, ⟨?_, ?_, hname, ?_, ?_, hle'⟩, hv⟩
        · simp only [elementAt, hn, he, ht, Option.map_some]
        · rintro rfl
          have hz := congrArg UInt8.toNat hbyte
          rw [UInt8.toNat_ofNat'] at hz
          simp only [BSONType.byte, UInt8.toNat_zero] at hz
          omega
        · rw [hrest, hbyte, hrest']
          rfl
        · rw [hadv, Buffer.advance_advance]
          congr 1
          omega

end buffer

end PgBson.Bson.Validate
