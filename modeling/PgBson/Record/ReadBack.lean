import PgBson.Access.Get
import PgBson.Record.ToBson

/-! # Reading the columns of a row back

`row_to_bson` and the accessors use separate tables of types. Here they are put together: the
document of a row has one field for each attribute that is not dropped, and the accessor for the
type of an attribute returns its value (`rowToBson_readBack`). A field is found by its whole name,
so dots in the names do no harm, and past elements of any type, as their sizes are right even where
a string is not terminated. -/

namespace PgBson.Record.ReadBack

open PgBson.Lib.Memory PgBson.Bson.Types PgBson.Bson.Document PgBson.Bson.Element
open PgBson.Bson.Decode PgBson.Access.Lookup PgBson.Access.Get PgBson.Record.ToBson

/-- The attributes that are not dropped, in their order. -/
def attributes : Row → List (CString × Datum)
  | .nil => []
  | .cons attname attisdropped val rest =>
    if attisdropped then attributes rest else (attname, val) :: attributes rest

/-- The names of the fields of a document. -/
def names : Doc → List Bytes
  | .nil => []
  | .cons n _ d => n :: names d

/-- The accessor for the type of an attribute returns its value from the document. -/
def ReadsBack (lib : Library) (bson name : Bytes) : Datum → Prop
  | .null => ∃ e, fieldAt bson name = .ok e ∧ type e = some .jstNULL
  | .int2 v => bsonGetInt bson name = .ok (some v.toInt)
  | .int4 v => bsonGetInt bson name = .ok (some v.toInt)
  | .int8 v => bsonGetBigint bson name = .ok (some v.toInt)
  | .float8 v => bsonGetDouble bson name = .ok (some v)
  | .text payload _ => bsonGetText lib bson name = .ok (some payload)
  | .bool b => bsonGetText lib bson name = .ok (some (if b then ascii "true" else ascii "false"))
  | .bson b => bsonGetBson bson name = .ok (some b.bytes)
  | .other outstr => bsonGetText lib bson name = .ok (some outstr.1)
  | .char _ | .float4 _ | .record _ | .timestamp _ => True

/-! ### Fields of the encoding -/

theorem names_encode (row : Row) : names (encode row) = (attributes row).map (·.1.1) := by
  fun_induction attributes row with
  | case1 => rfl
  | case2 n v row ih => exact ih
  | case3 n dropped v row hd ih => rw [encode, if_neg hd, names, ih, List.map_cons]

/-- The first field of a name is the one of the first attribute of that name. -/
theorem find_encode_first : ∀ (row : Row) (n : CString), find (encode row) n.1 =
    ((attributes row).find? fun a => a.1 = n).map fun a => encodeDatum a.2
  | .nil, _ => rfl
  | .cons m true w row, n => find_encode_first row n
  | .cons m false w row, n => by
    have ih := find_encode_first row n
    simp only [encode, attributes, Bool.false_eq_true, if_false, find, List.find?_cons]
    by_cases h : m = n
    · simp [h]
    · have hne : m.1 ≠ n.1 := fun he => h (Subtype.ext he)
      simp only [hne, h, if_false, decide_false, ih]

/-- When the names are distinct this is the attribute. -/
theorem find_encode : ∀ {row : Row} {n : CString} {v : Datum},
    ((attributes row).map (·.1)).Nodup → (n, v) ∈ attributes row →
    find (encode row) n.1 = some (encodeDatum v)
  | .cons m true w row, n, v, hd, h => by
    have ih : find (encode row) n.1 = some (encodeDatum v) := find_encode hd h
    exact ih
  | .cons m false w row, n, v, hd, h => by
    simp only [attributes, Bool.false_eq_true, if_false, List.map_cons, List.nodup_cons] at hd
    simp only [attributes, Bool.false_eq_true, if_false, List.mem_cons, Prod.mk.injEq] at h
    simp only [encode, Bool.false_eq_true, if_false, find]
    rcases h with ⟨rfl, rfl⟩ | h
    · rw [if_pos rfl]
    · have hne : m.1 ≠ n.1 := by
        intro he
        have hm : n ∈ (attributes row).map (·.1) := List.mem_map.mpr ⟨(n, v), h, rfl⟩
        exact hd.1 (Subtype.ext he ▸ hm)
      rw [if_neg hne]
      exact find_encode hd.2 h

theorem hasCount_encodeDatum (v : Datum) : HasCount (encodeDatum v) := by
  cases v <;> simp [encodeDatum, HasCount]

/-! ### Reading an attribute back -/

/-- `bson_get_bson` returns the bytes of an object it finds. -/
theorem bsonGetBson_object {arg path m r : Bytes} {d : Doc} (hm : 0 ∉ m)
    (hs : d.bytes.length ≤ BSONObjMaxInternalSize) (ho : bsonObj arg = .ok arg)
    (hf : fieldAt arg path = .ok (elem m (.object d) r)) :
    bsonGetBson arg path = .ok (some d.bytes) := by
  simp only [bsonGetBson, ho, hf, bind, Except.bind, eoo_elem, type_elem, Value.type,
    embeddedObject_object hm hs, returnBson_bytes hs]
  rfl

/-- **An element with the encoding of an attribute reads back as the attribute.** -/
theorem readsBack_elem (lib : Library) {arg path m r : Bytes} {v : Datum} (hm : 0 ∉ m)
    (ho : bsonObj arg = .ok arg) (hf : fieldAt arg path = .ok (elem m (encodeDatum v) r))
    (hs : (encodeDatum v).bytes.length ≤ BSONObjMaxInternalSize) : ReadsBack lib arg path v := by
  have htext : ∀ t, textOf lib (encodeDatum v) = .ok t →
      bsonGetText lib arg path = .ok (some t) := by
    intro t ht
    rw [bsonGetText, bsonGet_elem ho hf, convertText_elem lib hm (hasCount_encodeDatum v)
      (encodeDatum_framed v) (lt_of_le_maxSize hs), ht]
    rfl
  cases v with
  | null => exact ⟨_, hf, type_elem⟩
  | int2 v =>
    rw [ReadsBack, bsonGetInt, bsonGet_elem ho hf, encodeDatum, convertInt_elem hm, intOf,
      BitVec.toInt_signExtend_of_le (by omega)]
    rfl
  | int4 v =>
    rw [ReadsBack, bsonGetInt, bsonGet_elem ho hf, encodeDatum, convertInt_elem hm]
    rfl
  | int8 v =>
    rw [ReadsBack, bsonGetBigint, bsonGet_elem ho hf, encodeDatum, convertBigint_elem hm]
    rfl
  | float8 v =>
    rw [ReadsBack, bsonGetDouble, bsonGet_elem ho hf, encodeDatum, convertDouble_elem hm]
    rfl
  | text payload behind => exact htext _ (by simp [encodeDatum, textOf])
  | bool b => exact htext _ (by cases b <;> rfl)
  | other outstr => exact htext _ (by simp [encodeDatum, textOf])
  | bson b => exact bsonGetBson_object hm b.size ho hf
  | char _ | float4 _ | record _ | timestamp _ => trivial

/-- **Encoding a row and reading its columns back is the identity**: the document has one field for
each attribute that is not dropped, in their order and under their names, and every attribute reads
back as its value. -/
theorem rowToBson_readBack (lib : Library) (row : Row)
    (hnames : ((attributes row).map (·.1)).Nodup)
    (hs : (encode row).bytes.length ≤ BSONObjMaxInternalSize) :
    ∃ bs d, rowToBson row = .ok bs ∧ decode bs = some d ∧
      names d = (attributes row).map (·.1.1) ∧
      ∀ r, ∀ a ∈ attributes row, ReadsBack lib (bs ++ r) a.1.1 a.2 := by
  have hf := encode_framed row
  refine ⟨(encode row).bytes, encode row, rowToBson_ok hs,
    decode_bytes hf ((lt_of_le_maxSize hs).trans (by omega)), names_encode row, ?_⟩
  rintro r ⟨n, v⟩ ha
  have hfind := find_encode hnames ha
  obtain ⟨m, r', hm, hat⟩ := fieldAt_find hf hs n.2 hfind r
  have hsize : (encodeDatum v).bytes.length ≤ BSONObjMaxInternalSize :=
    (Nat.le_add_right _ 7).trans ((find_size hfind).trans hs)
  exact readsBack_elem lib hm (bsonObj_bytes hs r) hat hsize

/-- A row with a text that is empty, a number behind a dropped attribute, and a NULL. -/
def mixedRow : Row :=
  .cons ⟨ascii "a.b", by decide⟩ false (.text [] 7)
    (.cons ⟨ascii "old", by decide⟩ true .null
      (.cons ⟨ascii "n", by decide⟩ false (.int2 0xfffe)
        (.cons ⟨ascii "z", by decide⟩ false .null .nil)))

theorem mixedRow_readBack :
    ((attributes mixedRow).map (·.1)).Nodup ∧
    (encode mixedRow).bytes.length ≤ BSONObjMaxInternalSize ∧
    ∃ bs d, rowToBson mixedRow = .ok bs ∧ decode bs = some d ∧
      names d = (attributes mixedRow).map (·.1.1) ∧
      ∀ r, ∀ a ∈ attributes mixedRow, ReadsBack .timeless (bs ++ r) a.1.1 a.2 := by
  have hn : ((attributes mixedRow).map (·.1)).Nodup := by decide
  have hs : (encode mixedRow).bytes.length ≤ BSONObjMaxInternalSize := by decide
  exact ⟨hn, hs, rowToBson_readBack .timeless mixedRow hn hs⟩

end PgBson.Record.ReadBack
