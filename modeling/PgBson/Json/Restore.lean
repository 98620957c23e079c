import PgBson.Json.Leaves

/-! # What is read back

The document that the parser makes of the text of a document, by recursion on the document, and the
documents for which it does (`Readable`). All comes back as it was but numbers: their type is chosen
from the digits alone, and sixteen digits do not determine every double. What comes back is valid
and not longer. -/

namespace PgBson.Json.Restore

open PgBson.Lib.Memory PgBson.Lib.Binary64 PgBson.Lib.Decimal PgBson.Lib.General
open PgBson.Lib.Strtod
open PgBson.Bson.Types PgBson.Bson.Document
open PgBson.Json.Parse PgBson.Json.Print PgBson.Json.Text PgBson.Json.Leaves

/-! ### Values and documents -/

/-- What is read for a double, unless `strtod` reports a range error. -/
def readDouble (rt : Runtime) (b : BitVec 64) : Option Value :=
  match Dbl.ofBits b with
  | .nan => some (.numberDouble quietNaN)
  | .inf neg => some (.numberDouble (toBits neg overflowUnits))
  | .fin _ => readDecimal rt b.msb (rounded 15 (units b * unit))

mutual

/-- What is read for the text of a value. -/
def restore (rt : Runtime) : Value → Option Value
  | .numberLong v => some (integer v.toInt)
  | .numberDouble b => readDouble rt b
  | .object d => (restoreDoc rt d).map .object
  | .array d => (restoreDoc rt d).map .array
  | v => some v

/-- What is read for the text of a document. -/
def restoreDoc (rt : Runtime) : Doc → Option Doc
  | .nil => some .nil
  | .cons n v d => (restore rt v).bind fun w => (restoreDoc rt d).map (.cons n w)

end

/-- The field names that the parser takes for special objects. -/
def reserved : List Bytes :=
  [ascii "$oid", ascii "$binary", ascii "$date", ascii "$timestamp", ascii "$regex", ascii "$ref",
    ascii "$undefined"]

/-- The first field name is not reserved. -/
def Unreserved : Doc → Prop
  | .nil => True
  | .cons n _ _ => n ∉ reserved

/-- The names are the positions from `i` on. -/
def Keyed (i : ℕ) : Doc → Prop
  | .nil => True
  | .cons n _ d => n = decimal i ∧ Keyed (i + 1) d

mutual

/-- The text of the value is one of the parser's grammar and denotes a value of the same kind. -/
def Readable : Value → Prop
  | .bool b => b = 0 ∨ b = 1
  | .regEx _ f => ∀ c ∈ f, c ∈ JOPTIONS
  | .object d => Unreserved d ∧ DocReadable d
  | .array d => Keyed 0 d ∧ DocReadable d
  | .minKey | .dbRef _ _ | .code _ | .symbol _ | .codeWScope _ _ | .maxKey => False
  | .numberDouble _ | .string _ | .binData _ _ | .undefined | .jstOID _ | .date _ | .jstNULL
  | .numberInt _ | .timestamp _ | .numberLong _ => True

def DocReadable : Doc → Prop
  | .nil => True
  | .cons _ v d => Readable v ∧ DocReadable d

end

theorem special_of_unreserved {value : JParse (Option Value)} {n : Bytes} (h : n ∉ reserved) :
    special value n = none := by
  simp only [reserved, List.mem_cons, List.not_mem_nil, or_false, not_or] at h
  simp [special, h]

/-! ### Positions of array elements -/

theorem index_decimal {i : ℕ} (hi : i < 2 ^ 31) : index (decimal i) = i := by
  have hs := scanInt_decimal i (r := []) (by simp [NoDigit])
  rw [List.append_nil] at hs
  rw [index, strtoll_of_scanInt hs] <;> (simp [signed]; try omega)

theorem gap_decimal {i : ℕ} (hi : i < 2 ^ 31) : gap (decimal i) i = 0 := by
  simp [gap, index_decimal hi]

theorem next_decimal {i : ℕ} (hi : i < 2 ^ 31) : next (decimal i) i = (i + 1 : ℕ) := by
  simp [next, gap_decimal hi]

mutual

theorem inRange_of_readable : ∀ {v : Value}, Readable v →
    v.bytes.length ≤ BSONObjMaxInternalSize → InRange v
  | .object d, h, hs => by
    have hs : d.bytes.length ≤ BSONObjMaxInternalSize := hs
    rw [length_bytes] at hs
    exact docInRange_of_readable h.2 (by omega)
  | .array d, h, hs => by
    have hs : d.bytes.length ≤ BSONObjMaxInternalSize := hs
    have hlt := lt_of_le_maxSize hs
    rw [length_bytes] at hs hlt
    exact itemsInRange_of_readable (i := 0) h.1 h.2 (by omega) (by omega)
  | .bool _, _, _ | .regEx _ _, _, _ | .numberDouble _, _, _ | .string _, _, _
  | .binData _ _, _, _ | .undefined, _, _ | .jstOID _, _, _ | .date _, _, _ | .jstNULL, _, _
  | .numberInt _, _, _ | .timestamp _, _, _ | .numberLong _, _, _ => trivial

theorem docInRange_of_readable : ∀ {d : Doc}, DocReadable d →
    d.elems.length ≤ BSONObjMaxInternalSize → DocInRange d
  | .nil, _, _ => trivial
  | .cons n v d, h, hs => by
    rw [length_elems_cons] at hs
    exact ⟨inRange_of_readable h.1 (by omega), docInRange_of_readable h.2 (by omega)⟩

theorem itemsInRange_of_readable : ∀ {d : Doc} {i : ℕ}, Keyed i d → DocReadable d →
    i + d.elems.length < 2 ^ 31 → d.elems.length ≤ BSONObjMaxInternalSize → ItemsInRange i d
  | .nil, _, _, _, _, _ => trivial
  | .cons n v d, i, hk, h, hi, hs => by
    rw [length_elems_cons] at hs hi
    obtain ⟨rfl, hk⟩ := hk
    have hnext := next_decimal (show i < 2 ^ 31 by omega)
    refine ⟨inRange_of_readable h.1 (by omega), ?_, ?_⟩
    · rw [hnext]
      push_cast
      omega
    · rw [hnext]
      exact itemsInRange_of_readable hk h.2 (by omega) (by omega)

end

/-! ### Integers and doubles -/

theorem integer_of_bitVec (v : BitVec 32) : integer v.toInt = .numberInt v := by
  simp [integer]

theorem length_integer_le (z : ℤ) : (integer z).bytes.length ≤ 8 := by
  unfold integer
  split_ifs <;> simp [Value.bytes]

/-- A double is read as an integer or as a double. -/
theorem readDouble_cases {rt : Runtime} {b : BitVec 64} {w : Value}
    (h : readDouble rt b = some w) : (∃ z, w = integer z) ∨ ∃ c, w = .numberDouble c := by
  unfold readDouble at h
  split at h
  · exact .inr ⟨_, (Option.some.inj h).symm⟩
  · exact .inr ⟨_, (Option.some.inj h).symm⟩
  · by_cases he : RangeError rt (rounded 15 (units b * unit))
    · rw [readDecimal, if_pos he] at h
      cases h
    rw [readDecimal, if_neg he] at h
    split_ifs at h
    · exact .inl ⟨_, (Option.some.inj h).symm⟩
    · exact .inr ⟨_, (Option.some.inj h).symm⟩

mutual

/-- What is read back is not longer. -/
theorem length_restore_le {rt : Runtime} : ∀ {v w : Value}, restore rt v = some w →
    w.bytes.length ≤ v.bytes.length
  | .numberLong v, w, h => by
    rw [restore, Option.some.injEq] at h
    have := length_integer_le v.toInt
    rw [← h]
    simpa [Value.bytes] using this
  | .numberDouble b, w, h => by
    rw [restore] at h
    rcases readDouble_cases h with ⟨z, rfl⟩ | ⟨c, rfl⟩
    · simpa [Value.bytes] using length_integer_le z
    · simp [Value.bytes]
  | .object d, w, h | .array d, w, h => by
    rw [restore, Option.map_eq_some_iff] at h
    obtain ⟨d', hd, rfl⟩ := h
    have := length_restoreDoc_le hd
    simp [Value.bytes, this]
  | .bool _, _, h | .regEx _ _, _, h | .string _, _, h | .binData _ _, _, h | .undefined, _, h
  | .jstOID _, _, h | .date _, _, h | .jstNULL, _, h | .numberInt _, _, h | .timestamp _, _, h
  | .minKey, _, h | .dbRef _ _, _, h | .code _, _, h | .symbol _, _, h | .codeWScope _ _, _, h
  | .maxKey, _, h => by
    rw [restore, Option.some.injEq] at h
    · rw [h]
    all_goals simp

theorem length_restoreDoc_le {rt : Runtime} : ∀ {d d' : Doc}, restoreDoc rt d = some d' →
    d'.elems.length ≤ d.elems.length
  | .nil, d', h => by
    rw [restoreDoc, Option.some.injEq] at h
    rw [← h]
  | .cons n v d, d', h => by
    simp only [restoreDoc, Option.bind_eq_some_iff, Option.map_eq_some_iff] at h
    obtain ⟨w, hw, d'', hd, rfl⟩ := h
    have h1 := length_restore_le hw
    have h2 := length_restoreDoc_le hd
    rw [length_elems_cons, length_elems_cons]
    omega

end

theorem valid_integer (z : ℤ) : (integer z).Valid := by
  unfold integer
  split_ifs <;> trivial

mutual

/-- What is read back is valid. -/
theorem valid_restore {rt : Runtime} : ∀ {v w : Value}, v.Valid → restore rt v = some w → w.Valid
  | .numberLong v, w, _, h => by
    rw [restore, Option.some.injEq] at h
    exact h ▸ valid_integer _
  | .numberDouble b, w, _, h => by
    rw [restore] at h
    rcases readDouble_cases h with ⟨z, rfl⟩ | ⟨c, rfl⟩
    · exact valid_integer z
    · trivial
  | .object d, w, hv, h | .array d, w, hv, h => by
    rw [restore, Option.map_eq_some_iff] at h
    obtain ⟨d', hd, rfl⟩ := h
    exact valid_restoreDoc hv hd
  | .bool _, _, hv, h | .regEx _ _, _, hv, h | .string _, _, hv, h | .binData _ _, _, hv, h
  | .undefined, _, hv, h | .jstOID _, _, hv, h | .date _, _, hv, h | .jstNULL, _, hv, h
  | .numberInt _, _, hv, h | .timestamp _, _, hv, h | .minKey, _, hv, h | .dbRef _ _, _, hv, h
  | .code _, _, hv, h | .symbol _, _, hv, h | .codeWScope _ _, _, hv, h | .maxKey, _, hv, h => by
    rw [restore, Option.some.injEq] at h
    · exact h ▸ hv
    all_goals simp

theorem valid_restoreDoc {rt : Runtime} : ∀ {d d' : Doc}, d.Valid → restoreDoc rt d = some d' →
    d'.Valid
  | .nil, d', _, h => by
    rw [restoreDoc, Option.some.injEq] at h
    exact h ▸ trivial
  | .cons n v d, d', hd, h => by
    simp only [restoreDoc, Option.bind_eq_some_iff, Option.map_eq_some_iff] at h
    obtain ⟨w, hw, d'', hd', rfl⟩ := h
    exact ⟨hd.1, valid_restore hd.2.1 hw, valid_restoreDoc hd.2.2 hd'⟩

end

end PgBson.Json.Restore
