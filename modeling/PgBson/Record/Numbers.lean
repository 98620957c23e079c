import PgBson.Json.Dump
import PgBson.Json.Total
import PgBson.Record.ToBson

/-! # Numbers of a row through dump and restore

What `row_to_bson` makes of a row of numbers, printed by `bson_out` and read by `bson_in`. An `int8`
becomes a `NumberLong`, which is printed as its digits, and these are read as a `NumberInt` when
they fit one. A float is printed with sixteen significant digits; these are read as an integer when
there is no point and no exponent among them, and they do not determine every double. -/

namespace PgBson.Record.Numbers

open PgBson.Lib.Memory PgBson.Lib.Binary64 PgBson.Lib.General PgBson.Lib.Strtod
open PgBson.Bson.Types PgBson.Bson.Document PgBson.Record.ToBson
open PgBson.Json.Parse (quietNaN bsonIn)
open PgBson.Json.Print (bsonOut)
open PgBson.Json.Text PgBson.Json.Leaves PgBson.Json.Restore PgBson.Json.Dump
open PgBson.Json.Total (docWeight length_docText)
open PgBson.Compare.Hash (bsonBinaryEqual)

mutual

/-- A number, a NULL or a record of such values with a first field name that is not reserved. -/
def Datum.Numeric : Datum → Prop
  | .null | .int2 _ | .int4 _ | .int8 _ | .float4 _ | .float8 _ => True
  | .record r => Unreserved (encode r) ∧ Row.Numeric r
  | .bool _ | .char _ | .text _ _ | .timestamp _ | .bson _ | .other _ => False

/-- Every attribute that is not dropped is numeric. -/
def Row.Numeric : Row → Prop
  | .nil => True
  | .cons _ attisdropped val rest =>
    (attisdropped = false → Datum.Numeric val) ∧ Row.Numeric rest

end

/-- A double is read back from its sixteen digits: they have a point or an exponent, they are in
range, and no other double is nearer to them. -/
def DoubleSurvives (rt : Runtime) (b : BitVec 64) : Prop :=
  match Dbl.ofBits b with
  | .nan => b = quietNaN
  | .inf _ => True
  | .fin _ =>
    ¬ RangeError rt (rounded 15 (units b * unit)) ∧ ¬ Whole 15 (rounded 15 (units b * unit)) ∧
      nearestUnits (rounded 15 (units b * unit)) = units b

mutual

/-- The numbers of an attribute that come back as they were. -/
def Datum.Survives (rt : Runtime) : Datum → Prop
  | .int8 v => v.toInt < -2 ^ 31 ∨ 2 ^ 31 ≤ v.toInt
  | .float4 v => DoubleSurvives rt (widen v)
  | .float8 v => DoubleSurvives rt v
  | .record r => Row.Survives rt r
  | _ => True

def Row.Survives (rt : Runtime) : Row → Prop
  | .nil => True
  | .cons _ attisdropped val rest =>
    (attisdropped = false → Datum.Survives rt val) ∧ Row.Survives rt rest

end

mutual

theorem encodeDatum_readable : ∀ {v : Datum}, Datum.Numeric v → Readable (encodeDatum v)
  | .record _, h => ⟨h.1, encode_readable h.2⟩
  | .null, _ | .int2 _, _ | .int4 _, _ | .int8 _, _ | .float4 _, _ | .float8 _, _ => trivial

theorem encode_readable : ∀ {r : Row}, Row.Numeric r → DocReadable (encode r)
  | .nil, _ => trivial
  | .cons _ true _ r, h => encode_readable (r := r) h.2
  | .cons _ false _ _, h => ⟨encodeDatum_readable (h.1 rfl), encode_readable h.2⟩

end

mutual

theorem clean_of_numeric : ∀ {v : Datum}, Datum.Numeric v → v.Clean
  | .record _, h => rowClean_of_numeric h.2
  | .null, _ | .int2 _, _ | .int4 _, _ | .int8 _, _ | .float4 _, _ | .float8 _, _ => trivial

theorem rowClean_of_numeric : ∀ {r : Row}, Row.Numeric r → r.Clean
  | .nil, _ => trivial
  | .cons _ _ _ _, h => ⟨fun hd => clean_of_numeric (h.1 hd), rowClean_of_numeric h.2⟩

end

/-! ### What survives -/

/-- **A double is read back exactly when its sixteen digits say so.** -/
theorem readDouble_eq_iff {rt : Runtime} {b : BitVec 64} :
    readDouble rt b = some (.numberDouble b) ↔ DoubleSurvives rt b := by
  unfold readDouble DoubleSurvives
  cases hb : Dbl.ofBits b with
  | nan => simp [eq_comm]
  | inf neg => simp [toBits_overflowUnits hb]
  | fin n =>
    have hfin : FiniteBits b := by
      intro h
      simp only [Dbl.ofBits, if_pos h] at hb
      split_ifs at hb
    have hinteger : ∀ z, integer z ≠ .numberDouble b := by
      intro z
      unfold integer
      split_ifs <;> simp
    simp only [readDecimal]
    generalize rounded 15 (units b * unit) = q
    by_cases he : RangeError rt q
    · simp [he]
    by_cases hw : Whole 15 q
    · simp [he, hw, hinteger]
    have hlt : nearestUnits q < overflowUnits := not_le.mp fun h => he (.inl h)
    rw [if_neg he, if_neg hw, Option.some.injEq, Value.numberDouble.injEq, and_iff_right he,
      and_iff_right hw]
    constructor
    · intro h
      have hu := units_toBits_nearest b.msb hlt
      rw [← nearestUnits, h] at hu
      exact hu.symm
    · intro h
      rw [h, toBits_units hfin]

theorem integer_eq_numberLong_iff {v : BitVec 64} :
    integer v.toInt = .numberLong v ↔ v.toInt < -2 ^ 31 ∨ 2 ^ 31 ≤ v.toInt := by
  refine ⟨fun h => ?_, integer_of_large⟩
  by_contra hc
  have hi : v.toInt = (BitVec.ofInt 32 v.toInt).toInt := by
    rw [BitVec.toInt_ofInt, Int.bmod_eq_of_le] <;> omega
  rw [integer, if_pos hi] at h
  cases h

mutual

theorem restore_encodeDatum {rt : Runtime} : ∀ {v : Datum}, Datum.Numeric v →
    (restore rt (encodeDatum v) = some (encodeDatum v) ↔ Datum.Survives rt v)
  | .int8 v, _ => by simp [encodeDatum, restore, Datum.Survives, integer_eq_numberLong_iff]
  | .float4 v, _ => readDouble_eq_iff
  | .float8 v, _ => readDouble_eq_iff
  | .record r, h => by
    rw [encodeDatum, restore, Datum.Survives, ← restoreDoc_encode h.2]
    simp
  | .null, _ | .int2 _, _ | .int4 _, _ => iff_of_true rfl trivial

theorem restoreDoc_encode {rt : Runtime} : ∀ {r : Row}, Row.Numeric r →
    (restoreDoc rt (encode r) = some (encode r) ↔ Row.Survives rt r)
  | .nil, _ => iff_of_true rfl trivial
  | .cons n true v r, h => by
    simpa [encode, Row.Survives] using restoreDoc_encode h.2
  | .cons n false v r, h => by
    simp only [encode, Bool.false_eq_true, if_false, Row.Survives, forall_const]
    rw [← restore_encodeDatum (h.1 rfl), ← restoreDoc_encode h.2, restoreDoc]
    simp [Option.bind_eq_some_iff]

end

/-- **A row of numbers survives dump and restore exactly when each of its numbers does** and the
characters for it are within the limit of the string builder. -/
theorem dump_rowToBson_iff (rt : Runtime) (r : Row) (bs : Bytes) (h : rowToBson r = .ok bs)
    (hn : Row.Numeric r) (hu : Unreserved (encode r)) :
    (∃ t bs', bsonOut bs = .ok t ∧ bsonIn rt t = .ok bs' ∧ bsonBinaryEqual bs' bs = .ok true) ↔
      docWeight (encode r) ≤ BufferMaxSize ∧ Row.Survives rt r := by
  obtain ⟨rfl, hs⟩ := eq_of_rowToBson h
  have hd := bsonIn_bsonOut_iff rt ⟨encode r, (encode_valid_iff r).mpr (rowClean_of_numeric hn), hs⟩
    ⟨hu, encode_readable hn⟩ []
  rw [List.append_nil, restoreDoc_encode hn, length_docText] at hd
  exact hd

/-- The row `ROW(7::int4, 4294967296::int8, 0.5::float8)`. -/
def largeRow : Row :=
  .cons ⟨ascii "a", zero_notMem_a⟩ false (.int4 7)
    (.cons ⟨ascii "b", by decide⟩ false (.int8 4294967296)
      (.cons ⟨ascii "c", zero_notMem_c⟩ false (.float8 0x3fe0000000000000) .nil))

theorem dump_largeRow :
    rowToBson largeRow = .ok (encode largeRow).bytes ∧
    ∃ t bs', bsonOut (encode largeRow).bytes = .ok t ∧ bsonIn Runtime.common t = .ok bs' ∧
      bsonBinaryEqual bs' (encode largeRow).bytes = .ok true := by
  have h : rowToBson largeRow = .ok (encode largeRow).bytes := by decide
  have hn : Row.Numeric largeRow :=
    ⟨fun _ => trivial, fun _ => trivial, fun _ => trivial, trivial⟩
  have hu : Unreserved (encode largeRow) := show ascii "a" ∉ reserved by decide
  have hd : DoubleSurvives Runtime.common 0x3fe0000000000000 :=
    readDouble_eq_iff.mp (by decide +kernel)
  refine ⟨h, (dump_rowToBson_iff Runtime.common largeRow _ h hn hu).mpr ⟨by decide +kernel, ?_⟩⟩
  exact ⟨fun _ => trivial, fun _ => Or.inr (by decide), fun _ => hd, trivial⟩

/-- The row `ROW(5::int8)`. -/
def smallRow : Row := .cons ⟨ascii "a", zero_notMem_a⟩ false (.int8 5) .nil

/-- The document that comes back for it. -/
def smallDoc : Doc := .cons (ascii "a") (.numberInt 5) .nil

theorem dump_smallRow_not_binaryEqual :
    rowToBson smallRow = .ok (encode smallRow).bytes ∧
    bsonOut (encode smallRow).bytes = .ok (ascii "\x7b \"a\" : 5 \x7d" ++ [0]) ∧
    bsonIn Runtime.common (ascii "\x7b \"a\" : 5 \x7d" ++ [0]) = .ok smallDoc.bytes ∧
    bsonBinaryEqual smallDoc.bytes (encode smallRow).bytes = .ok false :=
  ⟨by decide, by decide +kernel, by decide +kernel, by decide⟩

end PgBson.Record.Numbers
