import PgBson.Access.Lookup
import PgBson.Compare.Same

/-! # Equal documents have equal fields

Documents that compare equal need not have the same bytes, but they cannot be told apart by access
to their fields: a path leads to a value in both or in neither, and the values compare equal
(`bsonGet_congruent`). At each level the lookup depends on names only, and documents that are
`Alike` have the same names in the same order, with values that are `Alike` at every depth. -/

namespace PgBson.Access.Congruence

open PgBson.Lib.Memory PgBson.Bson.Types PgBson.Bson.Document
open PgBson.Compare.WoCompare PgBson.Compare.Cmp PgBson.Compare.Leaf PgBson.Compare.Same
open PgBson.Access.Lookup

/-- Nothing was found in both, or values that cannot be told apart. -/
def AlikeResult : Option Value → Option Value → Prop
  | none, none => True
  | some v, some w => AlikeValue v w
  | _, _ => False

theorem alike_nil_left {e : Doc} : Alike .nil e ↔ e = .nil := by
  simp [Alike, SameDoc, ConfusedDoc]

theorem alike_find : ∀ {d e : Doc}, Alike d e → ∀ name, AlikeResult (find d name) (find e name)
  | .nil, e, h, name => by
    rw [alike_nil_left] at h
    subst h
    trivial
  | .cons n v d, .nil, h, name => by simp [Alike, SameDoc, ConfusedDoc] at h
  | .cons n v d, .cons m w e, h, name => by
    rw [alike_cons] at h
    obtain ⟨rfl, hv, hd⟩ := h
    rw [find, find]
    split_ifs with hn
    · exact hv
    · exact alike_find hd name

/-- Objects are alike when their elements are, arrays too, and a value without elements is only
alike such a value. -/
theorem AlikeValue.cases {v w : Value} (h : AlikeValue v w) :
    (∃ d e, v = .object d ∧ w = .object e ∧ Alike d e) ∨
    (∃ d e, v = .array d ∧ w = .array e ∧ Alike d e) ∨
    (isLeaf v ∧ isLeaf w) := by
  have hm := AlikeValue.matched h
  cases hm
  case object d e => exact Or.inl ⟨d, e, rfl, rfl, h⟩
  case array d e => exact Or.inr (Or.inl ⟨d, e, rfl, rfl, h⟩)
  case numbers hv hw => exact Or.inr (Or.inr ⟨isLeaf_of_isNum hv, isLeaf_of_isNum hw⟩)
  all_goals exact Or.inr (Or.inr ⟨rfl, rfl⟩)

theorem fields_of_isLeaf {v : Value} (h : isLeaf v) : fields v = .nil := by
  cases v <;> simp_all [isLeaf, fields]

theorem alike_fields {v w : Value} (h : AlikeValue v w) : Alike (fields v) (fields w) := by
  rcases AlikeValue.cases h with ⟨d, e, rfl, rfl, hd⟩ | ⟨d, e, rfl, rfl, hd⟩ | ⟨hv, hw⟩
  · exact hd
  · exact hd
  · rw [fields_of_isLeaf hv, fields_of_isLeaf hw, alike_nil_left]

/-- **A path leads to the same place in documents that are alike.** -/
theorem alike_findDotted : ∀ (fuel : ℕ) {d e : Doc} (name : Bytes), Alike d e →
    AlikeResult (findDotted fuel d name) (findDotted fuel e name)
  | 0, _, _, _, _ => trivial
  | fuel + 1, d, e, name, h => by
    rw [findDotted, findDotted]
    have hname := alike_find h name
    have hleft := alike_find h (beforeDot name)
    rcases hd : find d name with _ | v <;> rcases he : find e name with _ | w <;>
      rw [hd, he] at hname
    · rcases hd' : find d (beforeDot name) with _ | v' <;>
        rcases he' : find e (beforeDot name) with _ | w' <;> rw [hd', he'] at hleft
      · simp [AlikeResult]
      · exact hleft.elim
      · exact hleft.elim
      · by_cases hdot : 46 ∈ name
        · simpa [hdot] using alike_findDotted fuel (afterDot name) (alike_fields hleft)
        · simp [hdot, AlikeResult]
    · exact hname.elim
    · exact hname.elim
    · exact hname

theorem asDoc_of_isLeaf {v : Value} (h : isLeaf v) : asDoc v = .cons [] v .nil := by
  cases v <;> first | rfl | simp [isLeaf] at h

theorem alike_asDoc {v w : Value} (h : AlikeValue v w) : Alike (asDoc v) (asDoc w) := by
  have hsingle : Alike (.cons [] v .nil) (.cons [] w .nil) :=
    alike_cons.mpr ⟨rfl, h, alike_nil_left.mpr rfl⟩
  rcases AlikeValue.cases h with ⟨d, e, rfl, rfl, hd⟩ | ⟨d, e, rfl, rfl, -⟩ | ⟨hv, hw⟩
  · exact hd
  · exact hsingle
  · rwa [asDoc_of_isLeaf hv, asDoc_of_isLeaf hw]

theorem alike_count : ∀ {d e : Doc}, Alike d e → count d = count e
  | .nil, e, h => by
    rw [alike_nil_left] at h
    rw [h]
  | .cons n v d, .nil, h => by simp [Alike, SameDoc, ConfusedDoc] at h
  | .cons n v d, .cons m w e, h => by
    rw [alike_cons] at h
    rw [count, count, alike_count h.2.2]

theorem alike_sizeOf {v w : Value} (h : AlikeValue v w) : Lookup.sizeOf v = Lookup.sizeOf w := by
  rcases AlikeValue.cases h with ⟨d, e, rfl, rfl, -⟩ | ⟨d, e, rfl, rfl, hd⟩ | ⟨hv, hw⟩
  · rfl
  · rw [Lookup.sizeOf, Lookup.sizeOf, alike_count hd]
  · have hone : ∀ {u : Value}, isLeaf u → Lookup.sizeOf u = 1 := by
      intro u hu
      cases u <;> simp_all [isLeaf, Lookup.sizeOf]
    rw [hone hv, hone hw]

/-- What is found under a path, as a stored document. -/
def storedAt (a : Stored) {path : Bytes} {v : Value} (h : valueAt a.doc path = some v) :
    Stored where
  doc := asDoc v
  valid := asDoc_valid (findDotted_fits a.valid h).valid
  size := (length_asDoc_le v).trans ((findDotted_fits a.valid h).size.trans a.size)

/-- **Field access gives equal results on documents that compare equal.** -/
theorem bsonGet_congruent (a b : Stored) (r r' path : Bytes)
    (h : bsonCompare (a.bytes ++ r) (b.bytes ++ r') = .ok 0) :
    ((bsonGetBson (a.bytes ++ r) path = .ok none ∧ bsonGetBson (b.bytes ++ r') path = .ok none) ∨
      ∃ u v, bsonGetBson (a.bytes ++ r) path = .ok (some u) ∧
        bsonGetBson (b.bytes ++ r') path = .ok (some v) ∧
        ∀ s s', bsonCompare (u ++ s) (v ++ s') = .ok 0) ∧
    ∃ n, bsonArraySize (a.bytes ++ r) path = .ok n ∧
      bsonArraySize (b.bytes ++ r') path = .ok n := by
  rw [bsonCompare_bytes, cmpDoc_eq_zero a.valid b.valid] at h
  have hres : AlikeResult (valueAt a.doc path) (valueAt b.doc path) :=
    alike_findDotted _ _ h
  simp only [bsonGetBson_bytes, bsonArraySize_bytes]
  rcases ha : valueAt a.doc path with _ | v <;> rcases hb : valueAt b.doc path with _ | w <;>
    rw [ha, hb] at hres
  · exact ⟨Or.inl ⟨rfl, rfl⟩, _, rfl, rfl⟩
  · exact hres.elim
  · exact hres.elim
  · refine ⟨Or.inr ⟨_, _, rfl, rfl, fun s s' => ?_⟩, _, rfl, ?_⟩
    · have hcmp := bsonCompare_bytes (storedAt a ha) (storedAt b hb) s s'
      have hzero := (cmpDoc_eq_zero (storedAt a ha).valid (storedAt b hb).valid).mpr
        (alike_asDoc hres)
      exact hcmp.trans hzero
    · rw [Option.map_some, Option.map_some, alike_sizeOf hres]

/-- `{"a": [1]}`. -/
def intArray : Stored where
  doc := .cons (ascii "a") (.array (.cons (ascii "0") (.numberInt 1) .nil)) .nil
  valid := by decide
  size := by decide

/-- `{"a": [1.0]}`. -/
def doubleArray : Stored where
  doc := .cons (ascii "a") (.array (.cons (ascii "0") (.numberDouble 0x3ff0000000000000) .nil)) .nil
  valid := by decide
  size := by decide

theorem bsonGet_congruent_arrays :
    bsonCompare intArray.bytes doubleArray.bytes = .ok 0 ∧
    ∃ n, bsonArraySize intArray.bytes (ascii "a") = .ok n ∧
      bsonArraySize doubleArray.bytes (ascii "a") = .ok n := by
  have hz : bsonCompare intArray.bytes doubleArray.bytes = .ok 0 := by decide +kernel
  have h := (bsonGet_congruent intArray doubleArray [] [] (ascii "a") (by simpa using hz)).2
  simp only [List.append_nil] at h
  exact ⟨hz, h⟩

end PgBson.Access.Congruence
