import PgBson.Bson.Decode
import PgBson.Bson.Element

/-! # Rows to documents

`row_to_bson`: a composite value becomes a document with one field for each attribute that is not
dropped. Attributes come to the code as in-memory values. A value of type `text`, `json` or `xml` is
its payload, which has no terminator, and the code copies one byte more than the payload, whatever
that is; a `"char"` is copied as a string of one byte without a terminator.

The result is well formed exactly when these bytes happen to be zero
(`rowToBson_wellFormed_iff`). -/

namespace PgBson.Record.ToBson

open PgBson.Lib.Memory PgBson.Lib.Binary64
open PgBson.Bson.Types PgBson.Bson.Document PgBson.Bson.Element PgBson.Bson.Decode

/-- A C string without its terminator: the name of an attribute, the output of a type's output
function. -/
abbrev CString := { s : Bytes // 0 ∉ s }

mutual

/-- The value of an attribute in memory, by the type that the code tells apart. -/
inductive Datum
  | null
  | bool (b : Bool)
  | char (c : UInt8)
  | int8 (v : BitVec 64)
  | int2 (v : BitVec 16)
  | int4 (v : BitVec 32)
  /-- `text`, `json` or `xml`: the payload and the byte behind it. -/
  | text (payload : Bytes) (behind : UInt8)
  | float4 (v : BitVec 32)
  | float8 (v : BitVec 64)
  /-- An anonymous record. -/
  | record (r : Row)
  /-- Microseconds since 2000-01-01. -/
  | timestamp (ts : BitVec 64)
  /-- A value of a type named `bson`. -/
  | bson (b : Stored)
  /-- Any other type, by its text output; named composite types are among these. -/
  | other (outstr : CString)

/-- The attributes of a composite value in their order. -/
inductive Row
  | nil
  | cons (attname : CString) (attisdropped : Bool) (val : Datum) (rest : Row)

end

mutual

/-- `datum_to_bson`: the value that is appended for an attribute. -/
def datumToBson : Datum → Except Exc Value
  | .null => .ok .jstNULL
  | .bool b => .ok (.bool (if b then 1 else 0))
  | .char c => .ok (.string [c])
  | .int8 v => .ok (.numberLong v)
  | .int2 v => .ok (.numberInt (v.signExtend 32))
  | .int4 v => .ok (.numberInt v)
  | .text payload behind => .ok (.string (payload ++ [behind]))
  | .float4 v => .ok (.numberDouble (widen v))
  | .float8 v => .ok (.numberDouble v)
  | .record r => do
    let d ← compositeToBson r
    let d ← done d
    return .object d
  | .timestamp ts => .ok (.date ts)
  | .bson b => do
    let _ ← bsonObj b.bytes
    return .object b.doc
  | .other outstr => .ok (.string (outstr.1 ++ [0]))

/-- `composite_to_bson`: the elements that are appended for a row. -/
def compositeToBson : Row → Except Exc Doc
  | .nil => .ok .nil
  | .cons attname attisdropped val rest =>
    if attisdropped then compositeToBson rest
    else do
      let v ← datumToBson val
      let d ← compositeToBson rest
      return .cons attname.1 v d

end

/-- `row_to_bson`: the stored bytes. -/
def rowToBson (record : Row) : Except Exc Bytes := do
  let d ← compositeToBson record
  let d ← obj d
  return returnBson d.bytes

/-! ### The encoding of a row -/

mutual

/-- The value for an attribute, when no size check fails. -/
def encodeDatum : Datum → Value
  | .null => .jstNULL
  | .bool b => .bool (if b then 1 else 0)
  | .char c => .string [c]
  | .int8 v => .numberLong v
  | .int2 v => .numberInt (v.signExtend 32)
  | .int4 v => .numberInt v
  | .text payload behind => .string (payload ++ [behind])
  | .float4 v => .numberDouble (widen v)
  | .float8 v => .numberDouble v
  | .record r => .object (encode r)
  | .timestamp ts => .date ts
  | .bson b => .object b.doc
  | .other outstr => .string (outstr.1 ++ [0])

/-- The document for a row, when no size check fails. -/
def encode : Row → Doc
  | .nil => .nil
  | .cons attname attisdropped val rest =>
    if attisdropped then encode rest else .cons attname.1 (encodeDatum val) (encode rest)

end

mutual

theorem datumToBson_ok : ∀ {v : Datum}, (encodeDatum v).bytes.length ≤ BSONObjMaxInternalSize →
    datumToBson v = .ok (encodeDatum v)
  | .record r, hs => by
    have hs : (encode r).bytes.length ≤ BSONObjMaxInternalSize := hs
    rw [datumToBson, compositeToBson_ok (by rw [length_bytes] at hs; omega)]
    simp only [bind, Except.bind, done_ok hs]
    rfl
  | .bson b, _ => by
    have h := bsonObj_bytes b.size []
    rw [List.append_nil] at h
    simp only [datumToBson, Stored.bytes, h, bind, Except.bind]
    rfl
  | .null, _ | .bool _, _ | .char _, _ | .int8 _, _ | .int2 _, _ | .int4 _, _ | .text _ _, _
  | .float4 _, _ | .float8 _, _ | .timestamp _, _ | .other _, _ => rfl

/-- Within the limit no size check fails. -/
theorem compositeToBson_ok : ∀ {r : Row}, (encode r).elems.length ≤ BSONObjMaxInternalSize →
    compositeToBson r = .ok (encode r)
  | .nil, _ => rfl
  | .cons n true v r, hs => by
    rw [encode, if_pos rfl] at hs ⊢
    rw [compositeToBson, if_pos rfl]
    exact compositeToBson_ok hs
  | .cons n false v r, hs => by
    rw [encode, if_neg (by simp)] at hs ⊢
    rw [length_elems_cons] at hs
    rw [compositeToBson, if_neg (by simp), datumToBson_ok (by omega), compositeToBson_ok (by omega)]
    rfl

end

theorem rowToBson_ok {r : Row} (hs : (encode r).bytes.length ≤ BSONObjMaxInternalSize) :
    rowToBson r = .ok (encode r).bytes := by
  have hl : (encode r).elems.length ≤ BSONObjMaxInternalSize := by
    rw [length_bytes] at hs
    omega
  have hr := returnBson_bytes hs []
  rw [List.append_nil] at hr
  simp only [rowToBson, compositeToBson_ok hl, obj_ok hs, bind, Except.bind, pure, Except.pure, hr]

mutual

theorem eq_encodeDatum : ∀ {v : Datum} {w : Value}, datumToBson v = .ok w → w = encodeDatum v
  | .record r, w, h => by
    simp only [datumToBson, bind, Except.bind] at h
    rcases hc : compositeToBson r with e | d
    · simp [hc] at h
    rcases hd : done d with e | d'
    · simp [hc, hd] at h
    simp only [hc, hd, pure, Except.pure, Except.ok.injEq] at h
    rw [← h, eq_of_done hd, eq_encode hc, encodeDatum]
  | .bson b, w, h => by
    rw [datumToBson_ok (v := .bson b) b.size] at h
    exact (Except.ok.inj h).symm
  | .null, _, h | .bool _, _, h | .char _, _, h | .int8 _, _, h | .int2 _, _, h | .int4 _, _, h
  | .text _ _, _, h | .float4 _, _, h | .float8 _, _, h | .timestamp _, _, h | .other _, _, h =>
    (Except.ok.inj h).symm

theorem eq_encode : ∀ {r : Row} {d : Doc}, compositeToBson r = .ok d → d = encode r
  | .nil, _, h => (Except.ok.inj h).symm
  | .cons n true v r, d, h => by
    rw [compositeToBson, if_pos rfl] at h
    rw [encode, if_pos rfl]
    exact eq_encode h
  | .cons n false v r, d, h => by
    simp only [compositeToBson, Bool.false_eq_true, if_false, bind, Except.bind] at h
    rcases hv : datumToBson v with e | w
    · simp [hv] at h
    rcases hc : compositeToBson r with e | d'
    · simp [hv, hc] at h
    simp only [hv, hc, pure, Except.pure, Except.ok.injEq] at h
    rw [← h, eq_encodeDatum hv, eq_encode hc, encode, if_neg (by simp)]

end

/-- A row that is converted is converted to its encoding, within the size limit. -/
theorem eq_of_rowToBson {r : Row} {bs : Bytes} (h : rowToBson r = .ok bs) :
    bs = (encode r).bytes ∧ (encode r).bytes.length ≤ BSONObjMaxInternalSize := by
  have hok := h
  simp only [rowToBson, bind, Except.bind] at h
  rcases hc : compositeToBson r with e | d
  · simp [hc] at h
  rcases hd : obj d with e | d'
  · simp [hc, hd] at h
  obtain ⟨-, hs⟩ := size_of_obj hd
  rw [eq_encode hc] at hs
  rw [rowToBson_ok hs] at hok
  exact ⟨(Except.ok.inj hok).symm, hs⟩

/-! ### Well-formedness of the result -/

mutual

/-- The bytes that are copied beyond the value, or in place of a terminator, are zero. -/
def Datum.Clean : Datum → Prop
  | .char c => c = 0
  | .text _ behind => behind = 0
  | .record r => r.Clean
  | _ => True

/-- The same for every attribute that is not dropped, at every depth. -/
def Row.Clean : Row → Prop
  | .nil => True
  | .cons _ attisdropped val rest => (attisdropped = false → val.Clean) ∧ rest.Clean

end

mutual

theorem encodeDatum_framed : ∀ v : Datum, (encodeDatum v).Framed
  | .record r => encode_framed r
  | .bson b => b.valid.framed
  | .null | .bool _ | .char _ | .int8 _ | .int2 _ | .int4 _ | .text _ _ | .float4 _ | .float8 _
  | .timestamp _ | .other _ => trivial

/-- Attribute names are C strings, so the elements keep apart. -/
theorem encode_framed : ∀ r : Row, (encode r).Framed
  | .nil => trivial
  | .cons _ true _ r => encode_framed r
  | .cons n false v r => ⟨n.2, encodeDatum_framed v, encode_framed r⟩

end

theorem terminated_append_iff {s : Bytes} {b : UInt8} : Terminated (s ++ [b]) ↔ b = 0 := by
  simp [Terminated]

mutual

theorem encodeDatum_valid_iff : ∀ v : Datum, (encodeDatum v).Valid ↔ v.Clean
  | .char _ => terminated_append_iff (s := [])
  | .text _ _ => terminated_append_iff
  | .record r => encode_valid_iff r
  | .bson b => iff_of_true b.valid trivial
  | .other o => iff_of_true (terminated_append o.1) trivial
  | .null | .bool _ | .int8 _ | .int2 _ | .int4 _ | .float4 _ | .float8 _ | .timestamp _ => Iff.rfl

/-- **The document for a row is valid exactly when the row is clean.** -/
theorem encode_valid_iff : ∀ r : Row, (encode r).Valid ↔ r.Clean
  | .nil => Iff.rfl
  | .cons n true v r => by
    simpa [encode, Row.Clean] using encode_valid_iff r
  | .cons n false v r => by
    have hn := n.2
    simp only [encode, Bool.false_eq_true, if_false, Doc.Valid, Row.Clean, forall_const]
    rw [encodeDatum_valid_iff v, encode_valid_iff r]
    exact ⟨fun h => h.2, fun h => ⟨hn, h⟩⟩

end

/-- **`rowToBson` returns a well-formed document exactly when the row is clean**, if the result is
within the size limit. -/
theorem rowToBson_wellFormed_iff (r : Row)
    (hs : (encode r).bytes.length ≤ BSONObjMaxInternalSize) :
    ∃ bs, rowToBson r = .ok bs ∧ (WellFormed bs ↔ r.Clean) := by
  refine ⟨(encode r).bytes, rowToBson_ok hs, ?_⟩
  rw [wellFormed_bytes_iff (encode_framed r), encode_valid_iff]
  exact ⟨fun h => h.2, fun h => ⟨hs, h⟩⟩

theorem zero_notMem_a : 0 ∉ ascii "a" := by decide

theorem zero_notMem_c : 0 ∉ ascii "c" := by decide

theorem zero_notMem_t : 0 ∉ ascii "t" := by decide

/-- The row `ROW('x'::"char")`, with attribute `c`. -/
def charRow : Row := .cons ⟨ascii "c", zero_notMem_c⟩ false (.char 120) .nil

/-- A row of a text with a zero byte behind it. -/
def textRow : Row := .cons ⟨ascii "t", zero_notMem_t⟩ false (.text (ascii "x") 0) .nil

theorem rowToBson_wellFormed_textRow :
    (encode textRow).bytes.length ≤ BSONObjMaxInternalSize ∧
    ∃ bs, rowToBson textRow = .ok bs ∧ (WellFormed bs ↔ textRow.Clean) := by
  have hs : (encode textRow).bytes.length ≤ BSONObjMaxInternalSize := by decide
  exact ⟨hs, rowToBson_wellFormed_iff textRow hs⟩

theorem rowToBson_charRow_not_wellFormed :
    (encode charRow).bytes.length ≤ BSONObjMaxInternalSize ∧
    ∃ bs, rowToBson charRow = .ok bs ∧ ¬ WellFormed bs :=
  ⟨by decide, _, rfl, by decide⟩

end PgBson.Record.ToBson
