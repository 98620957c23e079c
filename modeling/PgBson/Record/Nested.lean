import PgBson.Compare.Hash
import PgBson.Record.ReadBack

/-! # Composite values inside a row

`datum_to_bson` decides by the type OID of an attribute. Only `RECORDOID`, the type of anonymous
records, leads to a nested document. A named composite type has an OID of its own and falls to the
last branch, which stores the text output of the value as a string; a composite type that is named
`bson` is even taken for a document in that branch.

So the composite values of a row become nested documents exactly when all of them, at every depth,
are anonymous records (`toBson_nested_iff`). -/

namespace PgBson.Record.Nested

open PgBson.Lib.Memory PgBson.Bson.Types PgBson.Bson.Document PgBson.Bson.Element
open PgBson.Bson.Decode PgBson.Compare.Hash PgBson.Access.Lookup PgBson.Access.Get
open PgBson.Record.ToBson PgBson.Record.ReadBack

/-! ### Rows with the types of their composite values -/

/-- The value is an anonymous record. -/
def isRecord : Datum → Bool
  | .record _ => true
  | _ => false

mutual

/-- The value of an attribute, by the kind of its type. -/
inductive Attr
  /-- NULL, or a value of a type that is not composite. -/
  | scalar (v : Datum) (h : isRecord v = false)
  /-- An anonymous record, of type `RECORDOID`. -/
  | record (c : Composite)
  /-- A value of a named composite type, with its text output. -/
  | named (typname : CString) (c : Composite) (outstr : CString)

/-- The attributes of a composite value in their order. -/
inductive Composite
  | nil
  | cons (attname : CString) (attisdropped : Bool) (val : Attr) (rest : Composite)

end

mutual

/-- The switch over the type OID: the value as the branch for its type takes it. -/
def Attr.dispatch : Attr → Except Exc Datum
  | .scalar v _ => .ok v
  | .record c => do
    let r ← c.dispatch
    return .record r
  | .named typname _ outstr =>
    -- A tuple that is taken for a document: its type modifier, -1, stands in place of the size.
    if typname.1 = ascii "bson" then .error (.msgasserted 10334)
    else .ok (.other outstr)

/-- The same for every attribute that is not dropped. -/
def Composite.dispatch : Composite → Except Exc Row
  | .nil => .ok .nil
  | .cons attname attisdropped val rest =>
    if attisdropped then rest.dispatch
    else do
      let v ← val.dispatch
      let r ← rest.dispatch
      return .cons attname false v r

end

/-- `row_to_bson` on a composite value. Which of several exceptions comes first is left open. -/
def toBson (c : Composite) : Except Exc Bytes := do
  let r ← c.dispatch
  rowToBson r

/-- The attributes that are not dropped. -/
def Composite.attributes : Composite → List (CString × Attr)
  | .nil => []
  | .cons attname attisdropped val rest =>
    if attisdropped then rest.attributes else (attname, val) :: rest.attributes

/-- The composite value of an attribute of composite type. -/
def Attr.composite : Attr → Option Composite
  | .scalar _ _ => none
  | .record c | .named _ c _ => some c

/-! ### Nesting -/

mutual

/-- A composite value is an embedded object with the bytes of its own conversion. -/
def Attr.NestedIn : Attr → Value → Prop
  | .scalar _ _, _ => True
  | .record c, v | .named _ c _, v =>
    ∃ d, v = .object d ∧ toBson c = .ok d.bytes ∧ c.NestedIn d

/-- The same for the fields of a document and the attributes of a row, at every depth. -/
def Composite.NestedIn : Composite → Doc → Prop
  | .nil, d => d = .nil
  | .cons attname attisdropped val rest, d =>
    if attisdropped then rest.NestedIn d
    else ∃ v e, d = .cons attname.1 v e ∧ val.NestedIn v ∧ rest.NestedIn e

end

mutual

/-- There is no named composite type in the attribute. -/
def Attr.Anonymous : Attr → Prop
  | .scalar _ _ => True
  | .record c => c.Anonymous
  | .named _ _ _ => False

/-- The composite values in the row are anonymous records, at every depth. -/
def Composite.Anonymous : Composite → Prop
  | .nil => True
  | .cons _ attisdropped val rest => (attisdropped = false → val.Anonymous) ∧ rest.Anonymous

end

theorem dispatch_record {c : Composite} {v : Datum} (h : (Attr.record c).dispatch = .ok v) :
    ∃ r, c.dispatch = .ok r ∧ v = .record r := by
  rw [Attr.dispatch] at h
  rcases hc : c.dispatch with e | r
  · simp [hc, bind, Except.bind] at h
  · rw [hc] at h
    exact ⟨r, rfl, (Except.ok.inj h).symm⟩

theorem dispatch_named {typname outstr : CString} {c : Composite} {v : Datum}
    (h : (Attr.named typname c outstr).dispatch = .ok v) : v = .other outstr := by
  rw [Attr.dispatch] at h
  split_ifs at h
  exact (Except.ok.inj h).symm

theorem dispatch_cons {n : CString} {a : Attr} {c : Composite} {row : Row}
    (h : (Composite.cons n false a c).dispatch = .ok row) :
    ∃ v r, a.dispatch = .ok v ∧ c.dispatch = .ok r ∧ row = .cons n false v r := by
  simp only [Composite.dispatch, Bool.false_eq_true, if_false, bind, Except.bind] at h
  rcases ha : a.dispatch with e | v
  · simp [ha] at h
  rcases hc : c.dispatch with e | r
  · simp [ha, hc] at h
  rw [ha, hc] at h
  exact ⟨v, r, rfl, rfl, (Except.ok.inj h).symm⟩

theorem toBson_ok {c : Composite} {r : Row} (h : c.dispatch = .ok r)
    (hs : (encode r).bytes.length ≤ BSONObjMaxInternalSize) :
    toBson c = .ok (encode r).bytes := by
  rw [toBson, h]
  exact rowToBson_ok hs

mutual

theorem nestedIn_encodeDatum : ∀ {a : Attr} {v : Datum}, a.dispatch = .ok v →
    (encodeDatum v).bytes.length ≤ BSONObjMaxInternalSize →
    (a.NestedIn (encodeDatum v) ↔ a.Anonymous)
  | .scalar _ _, _, _, _ => Iff.rfl
  | .record c, v, h, hs => by
    obtain ⟨r, hr, rfl⟩ := dispatch_record h
    have hb : (encode r).bytes.length ≤ BSONObjMaxInternalSize := hs
    have ih := nestedIn_encode hr (by rw [length_bytes] at hb; omega)
    rw [Attr.NestedIn, Attr.Anonymous, ← ih, encodeDatum]
    constructor
    · rintro ⟨d, hd, -, hn⟩
      rwa [Value.object.inj hd]
    · intro hn
      exact ⟨encode r, rfl, toBson_ok hr hb, hn⟩
  | .named _ _ _, v, h, _ => by
    rw [dispatch_named h, Attr.NestedIn, Attr.Anonymous, encodeDatum]
    constructor
    · rintro ⟨d, hd, -⟩
      cases hd
    · exact False.elim

/-- **The encoding nests the composite values exactly when all of them are anonymous.** -/
theorem nestedIn_encode : ∀ {c : Composite} {r : Row}, c.dispatch = .ok r →
    (encode r).elems.length ≤ BSONObjMaxInternalSize →
    (c.NestedIn (encode r) ↔ c.Anonymous)
  | .nil, r, h, _ => by
    obtain rfl := Except.ok.inj h
    exact iff_of_true rfl trivial
  | .cons n true a c, r, h, hs => by
    have ih : c.NestedIn (encode r) ↔ c.Anonymous := nestedIn_encode h hs
    simpa [Composite.NestedIn, Composite.Anonymous] using ih
  | .cons n false a c, row, h, hs => by
    obtain ⟨v, r, ha, hc, rfl⟩ := dispatch_cons h
    simp only [encode, Bool.false_eq_true, if_false] at hs ⊢
    rw [length_elems_cons] at hs
    have iha := nestedIn_encodeDatum ha (by omega)
    have ihc := nestedIn_encode hc (by omega)
    simp only [Composite.NestedIn, Composite.Anonymous, Bool.false_eq_true, if_false,
      forall_const, ← iha, ← ihc, Doc.cons.injEq]
    constructor
    · rintro ⟨w, e, ⟨-, rfl, rfl⟩, hw, he⟩
      exact ⟨hw, he⟩
    · rintro ⟨hw, he⟩
      exact ⟨_, _, ⟨trivial, rfl, rfl⟩, hw, he⟩

end

/-! ### Access to a nested row -/

theorem anonymous_of_mem : ∀ {c : Composite} {n : CString} {a : Attr}, c.Anonymous →
    (n, a) ∈ c.attributes → a.Anonymous
  | .cons m true b c, n, a, hc, h => by
    have h' : (n, a) ∈ c.attributes := h
    exact anonymous_of_mem hc.2 h'
  | .cons m false b c, n, a, hc, h => by
    simp only [Composite.attributes, Bool.false_eq_true, if_false, List.mem_cons,
      Prod.mk.injEq] at h
    rcases h with ⟨-, rfl⟩ | h
    · exact hc.1 rfl
    · exact anonymous_of_mem hc.2 h

/-- The first field of a name is the one of the first attribute of that name. -/
theorem find_dispatch : ∀ {c : Composite} {r : Row} {n m : CString} {a : Attr}, c.dispatch = .ok r →
    c.attributes.find? (fun b => b.1 = n) = some (m, a) →
    ∃ v, a.dispatch = .ok v ∧ find (encode r) n.1 = some (encodeDatum v)
  | .cons k true b c, r, n, m, a, h, hf => by
    have hc : c.dispatch = .ok r := h
    have hf' : c.attributes.find? (fun b => b.1 = n) = some (m, a) := hf
    exact find_dispatch hc hf'
  | .cons k false b c, row, n, m, a, h, hf => by
    obtain ⟨v, r, hb, hc, rfl⟩ := dispatch_cons h
    simp only [Composite.attributes, Bool.false_eq_true, if_false, List.find?_cons] at hf
    simp only [encode, Bool.false_eq_true, if_false, find]
    by_cases hk : k = n
    · simp only [hk, decide_true, Option.some.injEq, Prod.mk.injEq] at hf
      rw [if_pos (congrArg Subtype.val hk)]
      exact ⟨v, hf.2 ▸ hb, rfl⟩
    · rw [if_neg fun he => hk (Subtype.ext he)]
      simp only [hk, decide_false] at hf
      exact find_dispatch hc hf

/-- The accessor finds the conversion of a nested row under the name of its attribute. -/
def Recovers (bs : Bytes) (c : Composite) : Prop :=
  ∀ n m a sub, c.attributes.find? (fun b => b.1 = n) = some (m, a) → a.composite = some sub →
    ∃ bs', toBson sub = .ok bs' ∧ ∀ r, ∃ w, bsonGetBson (bs ++ r) n.1 = .ok (some w) ∧
      ∀ s s', bsonBinaryEqual (w ++ s) (bs' ++ s') = .ok true

theorem recovers_of_anonymous {c : Composite} {row : Row} (h : c.dispatch = .ok row)
    (hs : (encode row).bytes.length ≤ BSONObjMaxInternalSize) (hc : c.Anonymous) :
    Recovers (encode row).bytes c := by
  intro n m a sub hf hsub
  have ha := anonymous_of_mem hc (List.mem_of_find?_eq_some hf)
  cases a with
  | scalar v hv => cases hsub
  | named t c' o => exact ha.elim
  | record c' =>
    obtain rfl := Option.some.inj hsub
    obtain ⟨v, hv, hfind⟩ := find_dispatch h hf
    obtain ⟨r', hr', rfl⟩ := dispatch_record hv
    have hb : (encode r').bytes.length ≤ BSONObjMaxInternalSize :=
      (Nat.le_add_right _ 7).trans ((find_size hfind).trans hs)
    refine ⟨_, toBson_ok hr' hb, fun r => ⟨(encode r').bytes, ?_, fun s s' => ?_⟩⟩
    · obtain ⟨k, t, hk, hat⟩ := fieldAt_find (encode_framed row) hs n.2 hfind r
      exact bsonGetBson_object hk hb (bsonObj_bytes hs r) hat
    · rw [bsonBinaryEqual_docs hb hb, decide_eq_true rfl]

/-- **The composite values of a row become nested documents, at every depth, exactly when all of
them are anonymous records.** -/
theorem toBson_nested_iff (c : Composite) (bs : Bytes) (h : toBson c = .ok bs) :
    (∃ d, decode bs = some d ∧ c.NestedIn d ∧ Recovers bs c) ↔ c.Anonymous := by
  rw [toBson] at h
  rcases hc : c.dispatch with e | row
  · rw [hc] at h
    cases h
  rw [hc] at h
  obtain ⟨rfl, hs⟩ := eq_of_rowToBson h
  have hn := nestedIn_encode hc (by rw [length_bytes] at hs; omega)
  have hd := decode_bytes (encode_framed row) ((lt_of_le_maxSize hs).trans (by omega))
  constructor
  · rintro ⟨d, hdec, hnest, -⟩
    rw [hd] at hdec
    obtain rfl := Option.some.inj hdec
    exact hn.mp hnest
  · intro ha
    exact ⟨encode row, hd, hn.mpr ha, recovers_of_anonymous hc hs ha⟩

/-- The pair `(1, NULL)`. -/
def pair : Composite :=
  .cons ⟨ascii "x", by decide⟩ false (.scalar (.int4 1) rfl)
    (.cons ⟨ascii "y", by decide⟩ false (.scalar .null rfl) .nil)

/-- The row `ROW(ROW(1, NULL))`. -/
def recordRow : Composite := .cons ⟨ascii "a", zero_notMem_a⟩ false (.record pair) .nil

/-- The row `ROW(ROW(1, NULL)::pair)`. -/
def namedRow : Composite :=
  .cons ⟨ascii "a", zero_notMem_a⟩ false
    (.named ⟨ascii "pair", by decide⟩ pair ⟨ascii "(1,)", by decide⟩) .nil

theorem toBson_nested_recordRow :
    ∃ bs, toBson recordRow = .ok bs ∧
      ((∃ d, decode bs = some d ∧ recordRow.NestedIn d ∧ Recovers bs recordRow) ↔
        recordRow.Anonymous) :=
  ⟨_, rfl, toBson_nested_iff recordRow _ rfl⟩

theorem toBson_namedRow_string :
    ∃ bs e sub, toBson namedRow = .ok bs ∧ fieldAt bs (ascii "a") = .ok e ∧
      type e = some .string ∧ toBson pair = .ok sub ∧
      ∃ w, bsonGetBson bs (ascii "a") = .ok (some w) ∧ bsonBinaryEqual w sub = .ok false :=
  ⟨_, _, _, rfl, rfl, rfl, rfl, _, rfl, by decide⟩

end PgBson.Record.Nested
