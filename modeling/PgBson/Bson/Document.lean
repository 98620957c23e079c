import PgBson.Bson.Types

/-! # Documents

A document as the sequence of the elements that were appended to its builder. `Doc.bytes` are the
bytes `BSONObjBuilder` leaves in its buffer: a length word, the elements, an EOO byte. Nothing is
assumed of the arguments of an append, so a document may be ill formed: a name with a NUL in it, a
string without its terminator. `Doc.Valid` says that this did not happen, and `Stored` is a valid
document within the size limit, the well-formed BSON value of the extension. -/

namespace PgBson.Bson.Document

open PgBson.Lib.Memory PgBson.Bson.Types

/-- An ObjectId: twelve bytes. -/
structure OID where
  data : Bytes
  size : data.length = 12
  deriving DecidableEq

mutual

/-- The value of an element. The bytes of a string include its terminator. -/
inductive Value
  | minKey
  | numberDouble (v : BitVec 64)
  | string (s : Bytes)
  | object (d : Doc)
  | array (d : Doc)
  | binData (subtype : UInt8) (data : Bytes)
  | undefined
  | jstOID (id : OID)
  | bool (b : UInt8)
  | date (millis : BitVec 64)
  | jstNULL
  | regEx (regex flags : Bytes)
  | dbRef (ns : Bytes) (id : OID)
  | code (s : Bytes)
  | symbol (s : Bytes)
  | codeWScope (code : Bytes) (scope : Doc)
  | numberInt (v : BitVec 32)
  | timestamp (v : BitVec 64)
  | numberLong (v : BitVec 64)
  | maxKey
  deriving DecidableEq

/-- The elements of a document in their order. -/
inductive Doc
  | nil
  | cons (name : Bytes) (v : Value) (rest : Doc)
  deriving DecidableEq

end

/-- The type of a value. -/
def Value.type : Value → BSONType
  | .minKey => .minKey
  | .numberDouble _ => .numberDouble
  | .string _ => .string
  | .object _ => .object
  | .array _ => .array
  | .binData _ _ => .binData
  | .undefined => .undefined
  | .jstOID _ => .jstOID
  | .bool _ => .bool
  | .date _ => .date
  | .jstNULL => .jstNULL
  | .regEx _ _ => .regEx
  | .dbRef _ _ => .dbRef
  | .code _ => .code
  | .symbol _ => .symbol
  | .codeWScope _ _ => .codeWScope
  | .numberInt _ => .numberInt
  | .timestamp _ => .timestamp
  | .numberLong _ => .numberLong
  | .maxKey => .maxKey

theorem Value.type_ne_eoo (v : Value) : v.type ≠ .eoo := by cases v <;> simp [Value.type]

/-! ### Bytes -/

/-- The frame of a document around the bytes of its elements. -/
def frame (body : Bytes) : Bytes := le 4 (body.length + 5) ++ (body ++ [0])

@[simp] theorem length_frame (body : Bytes) : (frame body).length = body.length + 5 := by
  simp [frame]; omega

mutual

/-- The bytes of a value. -/
def Value.bytes : Value → Bytes
  | .numberDouble v | .date v | .timestamp v | .numberLong v => le 8 v.toNat
  | .string s | .code s | .symbol s => le 4 s.length ++ s
  | .object d | .array d => frame d.elems
  | .binData t data => le 4 data.length ++ t :: data
  | .jstOID id => id.data
  | .bool b => [b]
  | .regEx r f => r ++ 0 :: (f ++ [0])
  | .dbRef ns id => le 4 ns.length ++ ns ++ id.data
  | .codeWScope c d =>
    le 4 (4 + 4 + c.length + (frame d.elems).length) ++ (le 4 c.length ++ c ++ frame d.elems)
  | .numberInt v => le 4 v.toNat
  | .minKey | .undefined | .jstNULL | .maxKey => []

/-- The bytes of the elements of a document. -/
def Doc.elems : Doc → Bytes
  | .nil => []
  | .cons n v d => v.type.byte :: (n ++ 0 :: (v.bytes ++ d.elems))

end

/-- The bytes of a document. -/
def Doc.bytes (d : Doc) : Bytes := frame d.elems

@[simp] theorem length_elems_cons (n : Bytes) (v : Value) (d : Doc) :
    (Doc.cons n v d).elems.length = n.length + v.bytes.length + d.elems.length + 2 := by
  simp [Doc.elems]; omega

@[simp] theorem length_bytes (d : Doc) : d.bytes.length = d.elems.length + 5 := length_frame _

/-! ### Well-formedness -/

/-- A counted string ends with a NUL. -/
def Terminated (s : Bytes) : Prop := s.getLast? = some 0

instance (s : Bytes) : Decidable (Terminated s) := inferInstanceAs (Decidable (_ = _))

theorem Terminated.zero_mem {s : Bytes} (h : Terminated s) : 0 ∈ s := List.mem_of_getLast? h

theorem Terminated.ne_nil {s : Bytes} (h : Terminated s) : s ≠ [] := List.ne_nil_of_mem h.zero_mem

theorem terminated_append (s : Bytes) : Terminated (s ++ [0]) := by simp [Terminated]

theorem Terminated.eq_append {s : Bytes} (h : Terminated s) : s = s.dropLast ++ [0] := by
  have hne := h.ne_nil
  unfold Terminated at h
  rw [List.getLast?_eq_getLast_of_ne_nil hne, Option.some.injEq] at h
  rw [← h, List.dropLast_append_getLast]

mutual

/-- Names, patterns and flags, which the format ends at their first NUL, have no NUL inside. -/
def Value.Framed : Value → Prop
  | .object d | .array d | .codeWScope _ d => d.Framed
  | .regEx r f => 0 ∉ r ∧ 0 ∉ f
  | _ => True

/-- The same for every element of a document. -/
def Doc.Framed : Doc → Prop
  | .nil => True
  | .cons n v d => 0 ∉ n ∧ v.Framed ∧ d.Framed

end

mutual

/-- C strings have no NUL inside and counted strings are terminated, at every depth. -/
def Value.Valid : Value → Prop
  | .string s | .code s | .symbol s => Terminated s
  | .object d | .array d => d.Valid
  | .regEx r f => 0 ∉ r ∧ 0 ∉ f
  | .dbRef ns _ => Terminated ns
  | .codeWScope c d => Terminated c ∧ d.Valid
  | _ => True

/-- Every name is a C string and every value is valid. -/
def Doc.Valid : Doc → Prop
  | .nil => True
  | .cons n v d => 0 ∉ n ∧ v.Valid ∧ d.Valid

end

mutual

theorem Value.Valid.framed : ∀ {v : Value}, v.Valid → v.Framed
  | .object _, h | .array _, h => Doc.Valid.framed h
  | .codeWScope _ _, h => Doc.Valid.framed h.2
  | .regEx _ _, h => h
  | .string _, _ | .code _, _ | .symbol _, _ | .dbRef _ _, _ | .minKey, _ | .numberDouble _, _
  | .binData _ _, _ | .undefined, _ | .jstOID _, _ | .bool _, _ | .date _, _ | .jstNULL, _
  | .numberInt _, _ | .timestamp _, _ | .numberLong _, _ | .maxKey, _ => trivial

theorem Doc.Valid.framed : ∀ {d : Doc}, d.Valid → d.Framed
  | .nil, _ => trivial
  | .cons _ _ _, h => ⟨h.1, Value.Valid.framed h.2.1, Doc.Valid.framed h.2.2⟩

end

mutual

/-- Validity of a value is decided along the value. -/
def Value.decValid : (v : Value) → Decidable v.Valid
  | .string s | .code s | .symbol s => inferInstanceAs (Decidable (Terminated s))
  | .object d | .array d => d.decValid
  | .regEx r f => inferInstanceAs (Decidable (0 ∉ r ∧ 0 ∉ f))
  | .dbRef ns _ => inferInstanceAs (Decidable (Terminated ns))
  | .codeWScope c d =>
    have : Decidable d.Valid := d.decValid
    inferInstanceAs (Decidable (Terminated c ∧ d.Valid))
  | .minKey | .numberDouble _ | .binData _ _ | .undefined | .jstOID _ | .bool _ | .date _
  | .jstNULL | .numberInt _ | .timestamp _ | .numberLong _ | .maxKey => isTrue trivial

/-- Validity of a document is decided element by element. -/
def Doc.decValid : (d : Doc) → Decidable d.Valid
  | .nil => isTrue trivial
  | .cons n v d =>
    have : Decidable v.Valid := v.decValid
    have : Decidable d.Valid := d.decValid
    inferInstanceAs (Decidable (0 ∉ n ∧ v.Valid ∧ d.Valid))

end

instance (v : Value) : Decidable v.Valid := v.decValid

instance (d : Doc) : Decidable d.Valid := d.decValid

/-- A well-formed document. -/
structure Stored where
  doc : Doc
  valid : doc.Valid
  size : doc.bytes.length ≤ BSONObjMaxInternalSize

/-- The bytes of a well-formed document. -/
def Stored.bytes (s : Stored) : Bytes := s.doc.bytes

end PgBson.Bson.Document
