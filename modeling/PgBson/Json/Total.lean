import PgBson.Json.Text

/-! # When a document can be printed

The number of characters of the text of a document, counted along the document, and when `bson_out`
returns the text: if and only if it fits the 64 MB of a string builder (`bsonOut_total_iff`). A
document below the limit of its own can miss this one, since a control character takes six
characters (`bsonOut_controlDoc`). -/

namespace PgBson.Json.Total

open PgBson.Lib.Memory PgBson.Lib.Decimal PgBson.Lib.General
open PgBson.Bson.Types PgBson.Bson.Document PgBson.Bson.Element PgBson.Json.Encoding
open PgBson.Json.Print PgBson.Json.Text

/-! ### The number of characters -/

/-- The characters for a byte of a string. -/
def escapeWidth (c : UInt8) : ℕ :=
  if c ∈ [34, 92, 8, 12, 10, 13, 9] then 2 else if c ≤ 0x1f then 6 else 1

/-- The characters for a string. -/
def escapeWeight (s : Bytes) : ℕ := (s.map escapeWidth).sum

/-- The characters for a natural number. -/
def digits (n : ℕ) : ℕ := Nat.log 10 n + 1

/-- The characters for an integer. -/
def integerWeight (z : ℤ) : ℕ := if z < 0 then digits z.natAbs + 1 else digits z.natAbs

mutual

/-- The characters for a value. -/
def valueWeight : Value → ℕ
  | .string s | .symbol s => escapeWeight s.dropLast + 2
  | .numberLong v => integerWeight v.toInt
  | .numberInt v => integerWeight v.toInt
  | .numberDouble b => (doubleText b).length
  | .bool b => if b = 0 then 5 else 4
  | .jstNULL => 4
  | .undefined => 23
  | .object d => docWeight d
  | .array .nil => 2
  | .array (.cons n v d) => 2 + (11 * gap n 0 + valueWeight v + itemsWeight (next n 0) d) + 2
  | .dbRef ns _ => 12 + (cstr ns).length + 12 + 24 + 3
  | .jstOID _ => 12 + 24 + 3
  | .binData _ data => 15 + 4 * ((data.length + 2) / 3) + 14 + 2 + 3
  | .date v => 12 + integerWeight v.toInt + 2
  | .regEx pat opt => 14 + escapeWeight pat + 17 + opt.length + 3
  | .codeWScope c .nil => c.length - 1
  | .codeWScope c (.cons n v d) =>
    12 + (c.length - 1) + 15 +
      (2 + (escapeWeight n + 2 + 3 + valueWeight v + pairsWeight d) + 2) + 2
  | .code s => s.length - 1
  | .timestamp v => 25 + digits (v.toNat / 2 ^ 32) + 8 + digits (v.toNat % 2 ^ 32) + 4
  | .minKey => 17
  | .maxKey => 17

/-- The characters for a document. -/
def docWeight : Doc → ℕ
  | .nil => 2
  | .cons n v d => 2 + (escapeWeight n + 2 + 3 + valueWeight v + pairsWeight d) + 2

/-- The characters for the pairs after the first. -/
def pairsWeight : Doc → ℕ
  | .nil => 0
  | .cons n v d => 2 + (escapeWeight n + 2 + 3 + valueWeight v + pairsWeight d)

/-- The characters for the elements of an array after the first: `count` positions are behind. -/
def itemsWeight (count : ℤ) : Doc → ℕ
  | .nil => 0
  | .cons n v d => 2 + (11 * gap n count + valueWeight v + itemsWeight (next n count) d)

end

/-! ### The length of the text -/

theorem length_escapeChar (c : UInt8) : (escapeChar c).length = escapeWidth c := by
  revert c
  exact forall_byte (by decide +kernel)

theorem length_escapeText (s : Bytes) : (escapeText s).length = escapeWeight s := by
  rw [escapeText, List.length_flatMap, escapeWeight]
  congr 1
  exact List.map_congr_left fun c _ => length_escapeChar c

theorem length_quote (s : Bytes) : (quote s).length = s.length + 2 := by
  simp [quote]

theorem length_decimal (n : ℕ) : (decimal n).length = digits n := length_padded _ _

theorem length_decimalInt (z : ℤ) : (decimalInt z).length = integerWeight z := by
  unfold decimalInt integerWeight
  split_ifs
  · rw [List.length_cons, length_decimal]
  · exact length_decimal _

theorem length_intText (v : BitVec 32) : (intText v.toInt).length = integerWeight v.toInt := by
  have hlt := v.toInt_lt
  have hle := v.le_toInt
  rw [intText, formatReal_int (by omega), length_decimalInt]

theorem length_hexByte (c : UInt8) : (hexByte c).length = 2 := rfl

theorem length_oid (id : OID) : (toHexLower id.data).length = 24 := by
  rw [length_toHexLower, id.size]

mutual

theorem length_valueText : ∀ v : Value, (valueText v).length = valueWeight v
  | .string s | .symbol s => by
    rw [valueText, length_quote, length_escapeText, valueWeight]
  | .numberLong v => length_decimalInt _
  | .numberInt v => length_intText v
  | .numberDouble b => rfl
  | .bool b => by
    rw [valueText, valueWeight, apply_ite List.length]
    rfl
  | .jstNULL | .undefined | .minKey | .maxKey => rfl
  | .object d => length_docText d
  | .array .nil => rfl
  | .array (.cons n v d) => by
    rw [valueText, List.length_append, List.length_append, List.length_append, List.length_append,
      length_fill, length_valueText v, length_itemsText (next n 0) d, valueWeight]
    rfl
  | .dbRef ns id => by
    simp only [valueText, valueWeight, List.length_append, length_oid]
    rfl
  | .jstOID id => by
    simp only [valueText, valueWeight, List.length_append, length_oid]
    rfl
  | .binData t data => by
    simp only [valueText, valueWeight, List.length_append, length_encode, length_hexByte]
    rfl
  | .date v => by
    simp only [valueText, valueWeight, List.length_append, length_decimalInt]
    rfl
  | .regEx pat opt => by
    simp only [valueText, valueWeight, List.length_append, length_escapeText]
    rfl
  | .codeWScope c .nil => by
    rw [valueText, List.length_dropLast, valueWeight]
  | .codeWScope c (.cons n v d) => by
    simp only [valueText, valueWeight, List.length_append, List.length_dropLast, length_quote,
      length_escapeText, length_valueText v, length_pairsText d]
    rfl
  | .code s => by
    rw [valueText, List.length_dropLast, valueWeight]
  | .timestamp v => by
    simp only [valueText, valueWeight, List.length_append, length_decimal]
    rfl

/-- **The number of characters of the text of a document.** -/
theorem length_docText : ∀ d : Doc, (docText d).length = docWeight d
  | .nil => rfl
  | .cons n v d => by
    simp only [docText, docWeight, List.length_append, length_quote, length_escapeText,
      length_valueText v, length_pairsText d]
    rfl

theorem length_pairsText : ∀ d : Doc, (pairsText d).length = pairsWeight d
  | .nil => rfl
  | .cons n v d => by
    simp only [pairsText, pairsWeight, List.length_append, length_quote, length_escapeText,
      length_valueText v, length_pairsText d]
    rfl

theorem length_itemsText : ∀ (count : ℤ) (d : Doc),
    (itemsText count d).length = itemsWeight count d
  | _, .nil => rfl
  | count, .cons n v d => by
    simp only [itemsText, itemsWeight, List.length_append, length_fill, length_valueText v,
      length_itemsText (next n count) d]
    rfl

end

/-! ### Printing -/

/-- **`bson_out` returns a text for exactly the documents whose text fits a string builder.** -/
theorem bsonOut_total_iff (s : Stored) (r : Bytes) :
    (∃ t, bsonOut (s.bytes ++ r) = .ok t) ↔ docWeight s.doc ≤ BufferMaxSize := by
  rw [bsonOut_ok_iff, length_docText]

/-! ### A document that cannot be printed -/

/-- A string of `n` control characters. -/
def controls (n : ℕ) : Bytes := List.replicate n 1 ++ [0]

theorem escapeWeight_replicate (n : ℕ) : escapeWeight (List.replicate n 1) = 6 * n := by
  rw [escapeWeight, List.map_replicate, List.sum_replicate_nat, mul_comm]
  rfl

theorem terminated_controls (n : ℕ) : Terminated (controls n) := by
  simp [Terminated, controls]

/-- A document of 12 MB with one string of control characters. -/
def controlDoc : Stored where
  doc := .cons [97] (.string (controls 12000000)) .nil
  valid := ⟨by decide, terminated_controls _, trivial⟩
  size := by
    rw [length_bytes, length_elems_cons, Value.bytes, List.length_append, length_le, controls,
      List.length_append, List.length_replicate]
    decide

theorem docWeight_controlDoc : docWeight controlDoc.doc = 72000012 := by
  rw [controlDoc, docWeight, valueWeight, controls, List.dropLast_concat, escapeWeight_replicate]
  rfl

theorem bsonOut_controlDoc : bsonOut controlDoc.bytes = .error (.msgasserted 13548) := by
  have hi : DocInRange controlDoc.doc := ⟨trivial, trivial⟩
  have hlt : BufferMaxSize < (docText controlDoc.doc).length := by
    rw [length_docText, docWeight_controlDoc]
    decide
  have hout := bsonOut_bytes controlDoc hi []
  rw [List.append_nil, str, if_pos hlt] at hout
  exact hout

end PgBson.Json.Total
