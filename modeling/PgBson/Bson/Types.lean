import PgBson.Lib.Memory

/-! # BSON types

The enumeration `BSONType` of `bsontypes.h` with the byte that stands for each type in a document,
the sort classes of `canonicalizeBSONType`, the size limits of `util/builder.h` and the ways a call
of the driver can fail. -/

namespace PgBson.Bson.Types

open PgBson.Lib.Memory

/-- The BSON types. -/
inductive BSONType
  | minKey | eoo | numberDouble | string | object | array | binData | undefined | jstOID | bool
  | date | jstNULL | regEx | dbRef | code | symbol | codeWScope | numberInt | timestamp | numberLong
  | maxKey
  deriving DecidableEq, Repr

/-- The enumerator's value, as the byte it is stored in (`MinKey` is `-1`). -/
def BSONType.byte : BSONType → UInt8
  | .minKey => 0xFF
  | .eoo => 0
  | .numberDouble => 1
  | .string => 2
  | .object => 3
  | .array => 4
  | .binData => 5
  | .undefined => 6
  | .jstOID => 7
  | .bool => 8
  | .date => 9
  | .jstNULL => 10
  | .regEx => 11
  | .dbRef => 12
  | .code => 13
  | .symbol => 14
  | .codeWScope => 15
  | .numberInt => 16
  | .timestamp => 17
  | .numberLong => 18
  | .maxKey => 127

/-- The type a byte stands for, if it is an enumerator. -/
def BSONType.ofByte (b : UInt8) : Option BSONType :=
  match b.toNat with
  | 0xFF => some .minKey
  | 0 => some .eoo
  | 1 => some .numberDouble
  | 2 => some .string
  | 3 => some .object
  | 4 => some .array
  | 5 => some .binData
  | 6 => some .undefined
  | 7 => some .jstOID
  | 8 => some .bool
  | 9 => some .date
  | 10 => some .jstNULL
  | 11 => some .regEx
  | 12 => some .dbRef
  | 13 => some .code
  | 14 => some .symbol
  | 15 => some .codeWScope
  | 16 => some .numberInt
  | 17 => some .timestamp
  | 18 => some .numberLong
  | 127 => some .maxKey
  | _ => none

@[simp] theorem BSONType.ofByte_byte (t : BSONType) : BSONType.ofByte t.byte = some t := by
  cases t <;> rfl

theorem BSONType.byte_of_ofByte {b : UInt8} {t : BSONType} (h : BSONType.ofByte b = some t) :
    b = t.byte := by
  rw [← UInt8.toNat_inj]
  unfold BSONType.ofByte at h
  split at h <;> simp_all <;> subst h <;> rfl

/-- Where a type falls in the sort order. -/
def canonicalizeBSONType : BSONType → ℤ
  | .minKey => -1
  | .maxKey => 127
  | .eoo | .undefined => 0
  | .jstNULL => 5
  | .numberDouble | .numberInt | .numberLong => 10
  | .string | .symbol => 15
  | .object => 20
  | .array => 25
  | .binData => 30
  | .jstOID => 35
  | .bool => 40
  | .date | .timestamp => 45
  | .regEx => 50
  | .dbRef => 55
  | .code => 60
  | .codeWScope => 65

/-- The size limit of a document a user may store. -/
def BSONObjMaxUserSize : ℕ := 16 * 1024 * 1024

/-- The size limit of any document the driver handles. -/
def BSONObjMaxInternalSize : ℕ := BSONObjMaxUserSize + 16 * 1024

/-- The limit of a document is far below the range of its length word. -/
theorem lt_of_le_maxSize {n : ℕ} (h : n ≤ BSONObjMaxInternalSize) : n < 2 ^ 31 := by
  unfold BSONObjMaxInternalSize BSONObjMaxUserSize at h; omega

/-- The size limit of a growing buffer. -/
def BufferMaxSize : ℕ := 64 * 1024 * 1024

/-- What a call can end in instead of a value: a failed `verify`, a `massert`, `uassert` or
`msgasserted` with its code, a `std::length_error`, or a read outside the object or an overflow, on
which C++ promises nothing. -/
inductive Exc
  | verifyFailed
  | msgasserted (code : ℕ)
  | lengthError
  | undefinedBehaviour
  deriving DecidableEq, Repr

/-- The error codes of the reports below. -/
inductive ErrCode
  | invalidTextRepresentation
  | invalidBinaryRepresentation
  deriving DecidableEq, Repr

/-- An error reported to PostgreSQL by `ereport`. -/
structure Report where
  code : ErrCode
  msg : String
  deriving DecidableEq, Repr

end PgBson.Bson.Types
