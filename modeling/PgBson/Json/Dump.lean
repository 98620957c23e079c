import PgBson.Compare.Hash
import PgBson.Json.RoundTrip

/-! # Dump and restore

`bson_in` on what `bson_out` returns. The text has no NUL inside, so the whole of it is parsed, and
the result is what `restoreDoc` says (`bsonIn_docText`). A document without doubles and without
`long`s that fit an `int` comes back unchanged. -/

namespace PgBson.Json.Dump

open PgBson.Lib.Memory PgBson.Lib.Decimal PgBson.Lib.General PgBson.Lib.Strtod
open PgBson.Lib.ReadBack PgBson.Lib.Parsing
open PgBson.Bson.Types PgBson.Bson.Document
open PgBson.Bson.Element (obj obj_ok returnBson returnBson_bytes)
open PgBson.Json.Encoding PgBson.Json.Parse PgBson.Json.Print PgBson.Json.Text PgBson.Json.Leaves
open PgBson.Json.Restore PgBson.Json.RoundTrip
open PgBson.Compare.Hash (bsonBinaryEqual bsonBinaryEqual_iff)

/-! ### No NUL in the text -/

theorem zero_notMem_escapeText (s : Bytes) : 0 ∉ escapeText s := by
  have h : ∀ c, 0 ∉ escapeChar c := forall_byte (by decide +kernel)
  simpa [escapeText] using fun c _ => h c

theorem zero_notMem_quote {s : Bytes} (h : 0 ∉ s) : 0 ∉ quote s := by
  simpa [quote] using h

theorem zero_notMem_of_plain {s : Bytes} (h : ∀ c ∈ s, escapeChar c = [c]) : 0 ∉ s :=
  fun h0 => absurd (h 0 h0) (by decide)

theorem zero_notMem_fill (g : ℕ) : 0 ∉ fill g := by
  have h : 0 ∉ ascii "undefined, " := by decide
  simp only [fill, List.mem_flatten, List.mem_replicate]
  rintro ⟨t, ⟨-, rfl⟩, h0⟩
  exact h h0

theorem zero_notMem_pair {n t : Bytes} (ht : 0 ∉ t) :
    0 ∉ quote (escapeText n) ++ ascii " : " ++ t := by
  have hc : 0 ∉ ascii " : " := by decide
  simp only [List.mem_append, not_or]
  exact ⟨⟨zero_notMem_quote (zero_notMem_escapeText n), hc⟩, ht⟩

theorem zero_notMem_doubleText (b : BitVec 64) : 0 ∉ doubleText b := by
  unfold doubleText
  split
  · decide
  · split_ifs <;> decide
  · exact zero_notMem_formatReal (by unfold unit; positivity)

mutual

theorem zero_notMem_valueText : ∀ {v : Value}, Readable v → 0 ∉ valueText v
  | .string s, _ => zero_notMem_quote (zero_notMem_escapeText _)
  | .numberLong v, _ => zero_notMem_decimalInt _
  | .numberInt v, _ => zero_notMem_formatReal (by positivity)
  | .numberDouble b, _ => zero_notMem_doubleText b
  | .bool b, _ => by
    rw [valueText]
    split_ifs <;> decide
  | .jstNULL, _ | .undefined, _ | .array .nil, _ => by decide
  | .object d, h => zero_notMem_docText h.2
  | .array (.cons n v d), h => by
    have hopen : 0 ∉ ascii "[ " ∧ 0 ∉ ascii " ]" := by decide
    simp only [valueText, List.mem_append, not_or]
    exact ⟨⟨hopen.1, ⟨zero_notMem_fill _, zero_notMem_valueText h.2.1⟩,
      zero_notMem_itemsText _ h.2.2⟩, hopen.2⟩
  | .jstOID id, _ => by
    have hx := zero_notMem_of_plain (plain_of_isHexString (isHexString_toHexLower id.data))
    have hlit : 0 ∉ ascii "\x7b \"$oid\" : \"" ∧ 0 ∉ ascii "\" \x7d" := by decide
    simp only [valueText, List.mem_append, not_or]
    exact ⟨⟨hlit.1, hx⟩, hlit.2⟩
  | .binData t data, _ => by
    have hx : 0 ∉ hexByte t := by
      have := zero_notMem_of_plain (plain_of_isHexString (isHexString_toHexLower [t]))
      simpa [toHexLower] using this
    have hlit : 0 ∉ ascii "\x7b \"$binary\" : \"" ∧ 0 ∉ ascii "\", \"$type\" : \"" ∧
      0 ∉ ascii "\" \x7d" := by decide
    simp only [valueText, List.mem_append, not_or]
    exact ⟨⟨⟨⟨hlit.1, zero_notMem_of_plain (plain_encode data)⟩, hlit.2.1⟩, hx⟩, hlit.2.2⟩
  | .date v, _ => by
    have hlit : 0 ∉ ascii "\x7b \"$date\" : " ∧ 0 ∉ ascii " \x7d" := by decide
    simp only [valueText, List.mem_append, not_or]
    exact ⟨⟨hlit.1, zero_notMem_decimalInt _⟩, hlit.2⟩
  | .timestamp v, _ => by
    have hlit : 0 ∉ ascii "\x7b \"$timestamp\" : \x7b \"t\" : " ∧ 0 ∉ ascii ", \"i\" : " ∧
      0 ∉ ascii " \x7d \x7d" := by decide
    simp only [valueText, List.mem_append, not_or]
    exact ⟨⟨⟨⟨hlit.1, zero_notMem_decimal _⟩, hlit.2.1⟩, zero_notMem_decimal _⟩, hlit.2.2⟩
  | .regEx pat opt, h => by
    have hopt : 0 ∉ opt := fun h0 => absurd (h 0 h0) (by decide)
    have hlit : 0 ∉ ascii "\x7b \"$regex\" : \"" ∧ 0 ∉ ascii "\", \"$options\" : \"" ∧
      0 ∉ ascii "\" \x7d" := by decide
    simp only [valueText, List.mem_append, not_or]
    exact ⟨⟨⟨⟨hlit.1, zero_notMem_escapeText pat⟩, hlit.2.1⟩, hopt⟩, hlit.2.2⟩

theorem zero_notMem_docText : ∀ {d : Doc}, DocReadable d → 0 ∉ docText d
  | .nil, _ => by decide
  | .cons n v d, h => by
    have hlit : 0 ∉ ascii "\x7b " ∧ 0 ∉ ascii " \x7d" := by decide
    rw [docText, List.mem_append, List.mem_append, List.mem_append, not_or, not_or, not_or]
    have hpair := zero_notMem_pair (n := n) (zero_notMem_valueText h.1)
    exact ⟨⟨hlit.1, hpair, zero_notMem_pairsText h.2⟩, hlit.2⟩

theorem zero_notMem_pairsText : ∀ {d : Doc}, DocReadable d → 0 ∉ pairsText d
  | .nil, _ => by simp [pairsText]
  | .cons n v d, h => by
    have hlit : 0 ∉ ascii ", " := by decide
    rw [pairsText, List.mem_append, List.mem_append, not_or, not_or]
    exact ⟨hlit, zero_notMem_pair (zero_notMem_valueText h.1), zero_notMem_pairsText h.2⟩

theorem zero_notMem_itemsText : ∀ {d : Doc} (i : ℤ), DocReadable d → 0 ∉ itemsText i d
  | .nil, _, _ => by simp [itemsText]
  | .cons n v d, i, h => by
    have hlit : 0 ∉ ascii ", " := by decide
    simp only [itemsText, List.mem_append, not_or]
    exact ⟨hlit, ⟨zero_notMem_fill _, zero_notMem_valueText h.1⟩, zero_notMem_itemsText _ h.2⟩

end

/-! ### What comes back -/

/-- **`bson_in` makes of the text of a document what `restoreDoc` says**, and rejects the text when
a number of it is out of range. -/
theorem bsonIn_docText (rt : Runtime) (s : Stored) (h : Readable (.object s.doc)) :
    bsonIn rt (docText s.doc ++ [0]) =
      match restoreDoc rt s.doc with
      | some d => .ok d.bytes
      | none => .error ⟨.invalidTextRepresentation, "invalid input syntax for BSON"⟩ := by
  have hs : s.doc.elems.length + 5 ≤ BSONObjMaxInternalSize := by
    rw [← length_bytes]
    exact s.size
  have hcstr : cstr (docText s.doc ++ [0]) = docText s.doc :=
    cstr_append [] (zero_notMem_docText h.2)
  have hne : docText s.doc ≠ [] := by
    cases s.doc <;> simp [docText, ascii]
  have hy := doc_text rt s.doc false (r := []) s.valid h.1 h.2 (by omega) le_rfl
  rw [List.append_nil] at hy
  cases hd : restoreDoc rt s.doc with
  | none =>
    rw [hd] at hy
    obtain ⟨msg, k, hy⟩ := hy
    simp only [bsonIn, hcstr, fromjson, if_neg hne, hy]
  | some d =>
    have hsize : d.bytes.length ≤ BSONObjMaxInternalSize := by
      have := length_restoreDoc_le hd
      rw [length_bytes]
      omega
    have hret := returnBson_bytes hsize []
    rw [List.append_nil] at hret
    rw [hd] at hy
    have hok : object (value rt (docText s.doc).length) (docText s.doc).length false
      (docText s.doc) = .ok (.object d) [] := hy
    simp only [bsonIn, hcstr, fromjson, if_neg hne, hok, basePairs, obj_ok hsize, Except.mapError,
      hret]

/-- **Dump and restore keeps a document exactly when its text is within the limit of the string
builder and every number of it is read back.** -/
theorem bsonIn_bsonOut_iff (rt : Runtime) (s : Stored) (h : Readable (.object s.doc)) (r : Bytes) :
    (∃ t bs, bsonOut (s.bytes ++ r) = .ok t ∧ bsonIn rt t = .ok bs ∧
      bsonBinaryEqual bs s.bytes = .ok true) ↔
    (docText s.doc).length ≤ BufferMaxSize ∧ restoreDoc rt s.doc = some s.doc := by
  have hs : s.doc.elems.length + 5 ≤ BSONObjMaxInternalSize := by
    rw [← length_bytes]
    exact s.size
  have hout := bsonOut_bytes s (docInRange_of_readable h.2 (by omega)) r
  have hin := bsonIn_docText rt s h
  by_cases hfit : BufferMaxSize < (docText s.doc).length
  · rw [str, if_pos hfit] at hout
    constructor
    · rintro ⟨t, bs, ht, -⟩
      rw [hout] at ht
      cases ht
    · exact fun h => absurd h.1 (by omega)
  rw [str, if_neg hfit] at hout
  constructor
  · rintro ⟨t, bs, ht, hbs, hequal⟩
    refine ⟨by omega, ?_⟩
    rw [hout] at ht
    obtain rfl := Except.ok.inj ht
    rw [hin] at hbs
    cases hd : restoreDoc rt s.doc with
    | none =>
      rw [hd] at hbs
      cases hbs
    | some d =>
      rw [hd] at hbs
      obtain rfl := Except.ok.inj hbs
      have hsize : d.bytes.length ≤ BSONObjMaxInternalSize := by
        have := length_restoreDoc_le hd
        rw [length_bytes]
        omega
      have hb := bsonBinaryEqual_iff ⟨d, valid_restoreDoc s.valid hd, hsize⟩ s [] []
      rw [List.append_nil, List.append_nil] at hb
      exact congrArg some (hb.mp hequal)
  · rintro ⟨-, hd⟩
    rw [hd] at hin
    have hb := (bsonBinaryEqual_iff s s [] []).mpr rfl
    rw [List.append_nil] at hb
    exact ⟨_, _, hout, hin, hb⟩

mutual

/-- There is no double, and every `long` is out of the range of an `int`. -/
def Exact : Value → Prop
  | .numberDouble _ => False
  | .numberLong v => v.toInt < -2 ^ 31 ∨ 2 ^ 31 ≤ v.toInt
  | .object d | .array d | .codeWScope _ d => ExactDoc d
  | _ => True

def ExactDoc : Doc → Prop
  | .nil => True
  | .cons _ v d => Exact v ∧ ExactDoc d

end

theorem integer_of_large {v : BitVec 64} (h : v.toInt < -2 ^ 31 ∨ 2 ^ 31 ≤ v.toInt) :
    integer v.toInt = .numberLong v := by
  have hl : -2 ^ 31 ≤ (BitVec.ofInt 32 v.toInt).toInt := BitVec.le_toInt _
  have hu : (BitVec.ofInt 32 v.toInt).toInt < 2 ^ 31 := BitVec.toInt_lt
  rw [integer, if_neg (by omega), BitVec.ofInt_toInt]

mutual

theorem restore_of_exact {rt : Runtime} : ∀ {v : Value}, Exact v → restore rt v = some v
  | .numberLong v, h => by rw [restore, integer_of_large h]
  | .object d, h | .array d, h => by
    rw [restore, restoreDoc_of_exact h]
    rfl
  | .string _, _ | .bool _, _ | .regEx _ _, _ | .binData _ _, _ | .undefined, _ | .jstOID _, _
  | .date _, _ | .jstNULL, _ | .numberInt _, _ | .timestamp _, _ | .minKey, _ | .dbRef _ _, _
  | .code _, _ | .symbol _, _ | .codeWScope _ _, _ | .maxKey, _ => rfl

theorem restoreDoc_of_exact {rt : Runtime} : ∀ {d : Doc}, ExactDoc d → restoreDoc rt d = some d
  | .nil, _ => rfl
  | .cons n v d, h => by
    rw [restoreDoc, restore_of_exact h.1, restoreDoc_of_exact h.2]
    rfl

end

/-- **Dump and restore loses nothing on documents without doubles** and without `long`s that fit an
`int`, in the grammar of the parser, if the text is within the limit of the string builder. -/
theorem bsonIn_bsonOut_binaryEqual (rt : Runtime) (s : Stored) (h : Readable (.object s.doc))
    (hx : ExactDoc s.doc) (hfit : (docText s.doc).length ≤ BufferMaxSize) (r : Bytes) :
    ∃ t bs, bsonOut (s.bytes ++ r) = .ok t ∧ bsonIn rt t = .ok bs ∧
      bsonBinaryEqual bs s.bytes = .ok true := by
  exact (bsonIn_bsonOut_iff rt s h r).mpr ⟨hfit, restoreDoc_of_exact hx⟩

/-- A document with a string with a NUL inside, an array, binary data, a pattern and a `long`. -/
def mixedDoc : Stored where
  doc := .cons (ascii "s") (.string [10, 0, 34, 0])
    (.cons (ascii "a")
      (.array (.cons (decimal 0) (.bool 1) (.cons (decimal 1) (.object .nil) .nil)))
      (.cons (ascii "b") (.binData 5 [1, 2])
        (.cons (ascii "r") (.regEx (ascii "/x") (ascii "im"))
          (.cons (ascii "l") (.numberLong 4294967296) .nil))))
  valid := by decide
  size := by decide

theorem mixedDoc_bsonIn_bsonOut :
    (Readable (.object mixedDoc.doc) ∧ ExactDoc mixedDoc.doc ∧
      (docText mixedDoc.doc).length ≤ BufferMaxSize) ∧
    ∃ t bs, bsonOut (mixedDoc.bytes ++ []) = .ok t ∧ bsonIn Runtime.common t = .ok bs ∧
      bsonBinaryEqual bs mixedDoc.bytes = .ok true := by
  have h : Readable (.object mixedDoc.doc) := by
    simp only [mixedDoc, Readable, DocReadable, Unreserved, Keyed]
    decide +kernel
  have hx : ExactDoc mixedDoc.doc := by
    simp [mixedDoc, Exact, ExactDoc]
  have hfit : (docText mixedDoc.doc).length ≤ BufferMaxSize := by decide +kernel
  exact ⟨⟨h, hx, hfit⟩, bsonIn_bsonOut_binaryEqual Runtime.common mixedDoc h hx hfit []⟩

end PgBson.Json.Dump
