import PgBson.Record.ToBson

/-! # The document of a row and its representation in memory

`row_to_bson` is declared `IMMUTABLE`: its result may depend only on the SQL value of the row. In
memory a row has bytes that are no part of its value; the code reads such a byte for every `text`,
`json` and `xml` attribute, the one behind the payload, and copies it in place of the terminator.

So the document is determined by the value of the row exactly when there is no such attribute
(`rowToBson_determined_iff`). -/

namespace PgBson.Record.Immutable

open PgBson.Lib.Memory PgBson.Bson.Types PgBson.Bson.Document PgBson.Bson.Decode
open PgBson.Record.ToBson

mutual

/-- The SQL value of an attribute: its representation with zeros for the bytes outside of it. -/
def Datum.sql : Datum → Datum
  | .text payload _ => .text payload 0
  | .record r => .record (Row.sql r)
  | v => v

/-- The SQL value of a row. -/
def Row.sql : Row → Row
  | .nil => .nil
  | .cons attname attisdropped val rest =>
    .cons attname attisdropped (Datum.sql val) (Row.sql rest)

end

mutual

/-- A `text`, `json` or `xml` value, or a record with one. -/
def Datum.HasText : Datum → Prop
  | .text _ _ => True
  | .record r => Row.HasText r
  | _ => False

/-- A `text`, `json` or `xml` attribute that is not dropped, at any depth. -/
def Row.HasText : Row → Prop
  | .nil => False
  | .cons _ attisdropped val rest =>
    (attisdropped = false ∧ Datum.HasText val) ∨ Row.HasText rest

end

mutual

/-- The same value with other bytes behind the payloads. -/
def Datum.poke : Datum → Datum
  | .text payload behind => .text payload (behind + 1)
  | .record r => .record (Row.poke r)
  | v => v

/-- The same row with other bytes behind the payloads. -/
def Row.poke : Row → Row
  | .nil => .nil
  | .cons attname attisdropped val rest =>
    .cons attname attisdropped (Datum.poke val) (Row.poke rest)

end

mutual

theorem sql_poke : ∀ v : Datum, Datum.sql (Datum.poke v) = Datum.sql v
  | .text _ _ => rfl
  | .record r => congrArg Datum.record (rowSql_poke r)
  | .null | .bool _ | .char _ | .int8 _ | .int2 _ | .int4 _ | .float4 _ | .float8 _ | .timestamp _
  | .bson _ | .other _ => rfl

/-- Only bytes outside of the value have changed. -/
theorem rowSql_poke : ∀ row : Row, Row.sql (Row.poke row) = Row.sql row
  | .nil => rfl
  | .cons n dropped v row => by
    rw [Row.poke, Row.sql, sql_poke v, rowSql_poke row, Row.sql]

end

/-! ### What the encoding keeps -/

mutual

theorem length_encodeDatum_sql : ∀ v : Datum,
    (encodeDatum (Datum.sql v)).bytes.length = (encodeDatum v).bytes.length
  | .text _ _ => by simp [Datum.sql, encodeDatum, Value.bytes]
  | .record r => by
    have ih := length_encode_sql r
    simp only [Datum.sql, encodeDatum, Value.bytes, length_frame, ih]
  | .null | .bool _ | .char _ | .int8 _ | .int2 _ | .int4 _ | .float4 _ | .float8 _ | .timestamp _
  | .bson _ | .other _ => rfl

/-- The size of the document depends on the SQL value only. -/
theorem length_encode_sql : ∀ row : Row,
    (encode (Row.sql row)).elems.length = (encode row).elems.length
  | .nil => rfl
  | .cons n true v row => length_encode_sql row
  | .cons n false v row => by
    have hv := length_encodeDatum_sql v
    have hr := length_encode_sql row
    simp only [Row.sql, encode, Bool.false_eq_true, if_false, length_elems_cons, hv, hr]

end

mutual

theorem encodeDatum_sql : ∀ {v : Datum}, ¬ Datum.HasText v →
    encodeDatum (Datum.sql v) = encodeDatum v
  | .text _ _, h => (h trivial).elim
  | .record _, h => congrArg Value.object (encode_sql h)
  | .null, _ | .bool _, _ | .char _, _ | .int8 _, _ | .int2 _, _ | .int4 _, _ | .float4 _, _
  | .float8 _, _ | .timestamp _, _ | .bson _, _ | .other _, _ => rfl

/-- Without such attributes so does the document. -/
theorem encode_sql : ∀ {row : Row}, ¬ Row.HasText row → encode (Row.sql row) = encode row
  | .nil, _ => rfl
  | .cons n true v row, h => by
    have ih : encode (Row.sql row) = encode row := encode_sql fun hr => h (.inr hr)
    exact ih
  | .cons n false v row, h => by
    have hv := encodeDatum_sql fun ht => h (.inl ⟨rfl, ht⟩)
    have hr := encode_sql fun ht => h (.inr ht)
    simp only [Row.sql, encode, Bool.false_eq_true, if_false, hv, hr]

end

mutual

theorem hasText_sql : ∀ v : Datum, Datum.HasText (Datum.sql v) ↔ Datum.HasText v
  | .record r => rowHasText_sql r
  | .text _ _ => Iff.rfl
  | .null | .bool _ | .char _ | .int8 _ | .int2 _ | .int4 _ | .float4 _ | .float8 _ | .timestamp _
  | .bson _ | .other _ => Iff.rfl

theorem rowHasText_sql : ∀ row : Row, Row.HasText (Row.sql row) ↔ Row.HasText row
  | .nil => Iff.rfl
  | .cons n dropped v row => by
    rw [Row.sql, Row.HasText, hasText_sql v, rowHasText_sql row, Row.HasText]

end

mutual

theorem encodeDatum_poke_ne : ∀ {v : Datum}, Datum.HasText v →
    encodeDatum (Datum.poke v) ≠ encodeDatum v
  | .text payload behind, _ => by simp [Datum.poke, encodeDatum]
  | .record r, h => fun he => encode_poke_ne h (Value.object.inj he)

/-- With such an attribute the document shows the bytes behind the payload. -/
theorem encode_poke_ne : ∀ {row : Row}, Row.HasText row → encode (Row.poke row) ≠ encode row
  | .cons n true v row, h => by
    have hr : Row.HasText row := h.resolve_left fun hd => Bool.noConfusion hd.1
    have ih : encode (Row.poke row) ≠ encode row := encode_poke_ne hr
    exact ih
  | .cons n false v row, h => by
    simp only [Row.poke, encode, Bool.false_eq_true, if_false, ne_eq, Doc.cons.injEq, true_and,
      not_and]
    intro hv
    rcases h with h | h
    · exact (encodeDatum_poke_ne h.2 hv).elim
    · exact encode_poke_ne h

end

/-! ### Determined documents -/

theorem eq_of_bytes_encode {row row' : Row}
    (hs : (encode row).bytes.length ≤ BSONObjMaxInternalSize)
    (h : (encode row').bytes = (encode row).bytes) : encode row' = encode row := by
  have hlt : (encode row).bytes.length < 2 ^ 32 := (lt_of_le_maxSize hs).trans (by omega)
  have hdec := decode_bytes (encode_framed row') (h ▸ hlt)
  rw [h, decode_bytes (encode_framed row) hlt] at hdec
  exact (Option.some.inj hdec).symm

/-- **All representations of a row give the same document exactly when the row has no `text`, `json`
or `xml` attribute**, or is too large for any document. -/
theorem rowToBson_determined_iff (row : Row) :
    (∀ row' bs bs', Row.sql row' = Row.sql row → rowToBson row = .ok bs →
      rowToBson row' = .ok bs' → bs' = bs) ↔
    (¬ Row.HasText row ∨ BSONObjMaxInternalSize < (encode row).bytes.length) := by
  constructor
  · intro h
    by_contra hc
    rw [not_or, not_not, not_lt] at hc
    obtain ⟨ht, hs⟩ := hc
    have hlen : (encode (Row.poke row)).bytes.length = (encode row).bytes.length := by
      rw [length_bytes, length_bytes, ← length_encode_sql, rowSql_poke, length_encode_sql]
    have heq := h (Row.poke row) _ _ (rowSql_poke row) (rowToBson_ok hs)
      (rowToBson_ok (hlen ▸ hs))
    exact encode_poke_ne ht (eq_of_bytes_encode hs heq)
  · rintro (ht | hs) row' bs bs' hsql h h'
    · have ht' : ¬ Row.HasText row' := by rwa [← rowHasText_sql, hsql, rowHasText_sql]
      rw [(eq_of_rowToBson h).1, (eq_of_rowToBson h').1, ← encode_sql ht', hsql, encode_sql ht]
    · have := (eq_of_rowToBson h).2
      omega

/-- The row `ROW('x'::text)`, with a byte behind the payload. -/
def paddedRow (behind : UInt8) : Row :=
  .cons ⟨ascii "t", zero_notMem_t⟩ false (.text (ascii "x") behind) .nil

theorem rowToBson_paddedRow_differs :
    Row.sql (paddedRow 0) = Row.sql (paddedRow 1) ∧
    ∃ bs bs', rowToBson (paddedRow 0) = .ok bs ∧ rowToBson (paddedRow 1) = .ok bs' ∧ bs ≠ bs' :=
  ⟨rfl, _, _, rfl, rfl, by decide⟩

end PgBson.Record.Immutable
