import PgBson.Access.Congruence
import PgBson.Access.Get
import PgBson.Compare.Hash

/-! # What field extraction returns

`bson_get_bson` returns an embedded object as it is, and wraps any other value in a document with a
single field without a name. The result is again well formed and no larger than the document it was
taken from (`bsonGetBson_closed`), and the wrapper is transparent: under the empty path every
accessor finds in it what it finds in the document (`wrapper_transparent`). -/

namespace PgBson.Access.Wrapper

open PgBson.Lib.Memory PgBson.Bson.Types PgBson.Bson.Document PgBson.Bson.Element
open PgBson.Bson.Decode PgBson.Access.Lookup PgBson.Access.Get PgBson.Access.Congruence
open PgBson.Compare.Hash

/-! ### Closure -/

theorem wellFormed_stored (a : Stored) : WellFormed a.bytes :=
  (wellFormed_bytes_iff a.valid.framed).mpr ⟨a.size, a.valid⟩

/-- **Field extraction is closed on well-formed documents**: it ends without an exception, and what
it returns is well formed and no larger than the document. -/
theorem bsonGetBson_closed (a : Stored) (r path : Bytes) :
    bsonGetBson (a.bytes ++ r) path = .ok none ∨
    ∃ w, bsonGetBson (a.bytes ++ r) path = .ok (some w) ∧ WellFormed w ∧
      w.length ≤ a.bytes.length := by
  rw [bsonGetBson_bytes]
  rcases h : valueAt a.doc path with _ | v
  · exact Or.inl rfl
  · have hfit : Fits a.doc.bytes.length v := findDotted_fits a.valid h
    refine Or.inr ⟨(storedAt a h).bytes, rfl, wellFormed_stored (storedAt a h), ?_⟩
    exact (length_asDoc_le v).trans hfit.size

/-! ### Transparency -/

/-- Two results of a typed accessor agree: they come from the same conversion of elements of the
same type, so they are the same value or reports of the same failure, each under its own path. -/
def Agree {α : Type} (path path' : Bytes) (x y : Except GetError (Option α)) : Prop :=
  ∃ e c, x = outcome path e c ∧ y = outcome path' e c

theorem asDoc_of_ne_object {v : Value} (h : v.type ≠ .object) : asDoc v = .cons [] v .nil := by
  cases v <;> first | rfl | exact (h rfl).elim

/-- The wrapper has its value under the empty path. -/
theorem valueAt_single (v : Value) : valueAt (.cons [] v .nil) [] = some v := by
  simp [valueAt, findDotted, find, cstr]

theorem agree_single {α : Type} {convert : Bytes → Except ConvertError α}
    {spec : Value → Except ConvertError α} (hc : Converts convert spec) (a w : Stored) {v : Value}
    {path : Bytes} (hv : valueAt a.doc path = some v) (hw : w.doc = .cons [] v .nil)
    (r r' : Bytes) :
    Agree path [] (bsonGet convert (a.bytes ++ r) path) (bsonGet convert (w.bytes ++ r') []) := by
  have hs := valueAt_single v
  rw [bsonGet_bytes hc, bsonGet_bytes hc, hv, hw, hs]
  exact ⟨elem [] v [], spec v, rfl, rfl⟩

/-- **The anonymous wrapper is transparent.** -/
theorem wrapper_transparent (lib : Library) (a : Stored) (r path e : Bytes)
    (he : fieldAt (a.bytes ++ r) path = .ok e) (hex : eoo e = false)
    (hobj : type e ≠ some .object) :
    ∃ w, bsonGetBson (a.bytes ++ r) path = .ok (some w) ∧ ∀ r',
      Agree path [] (bsonGetText lib (a.bytes ++ r) path) (bsonGetText lib (w ++ r') []) ∧
      Agree path [] (bsonGetInt (a.bytes ++ r) path) (bsonGetInt (w ++ r') []) ∧
      Agree path [] (bsonGetDouble (a.bytes ++ r) path) (bsonGetDouble (w ++ r') []) ∧
      Agree path [] (bsonGetBigint (a.bytes ++ r) path) (bsonGetBigint (w ++ r') []) ∧
      bsonArraySize (w ++ r') [] = bsonArraySize (a.bytes ++ r) path ∧
      ∃ w', bsonGetBson (w ++ r') [] = .ok (some w') ∧
        ∀ s s', bsonBinaryEqual (w' ++ s) (w ++ s') = .ok true := by
  obtain ⟨e', he', hp⟩ := fieldAt_bytes a r path
  obtain rfl : e' = e := Except.ok.inj (he'.symm.trans he)
  rcases hv : valueAt a.doc path with _ | v
  · rw [hv] at hp
    have heoo : eoo e' = true := points_eoo hp
    rw [hex] at heoo
    cases heoo
  · rw [hv] at hp
    obtain ⟨n, r₁, -, rfl⟩ := hp
    have hne : v.type ≠ .object := fun h => hobj (by rw [type_elem, h])
    have hw : (storedAt a hv).doc = .cons [] v .nil := asDoc_of_ne_object hne
    have hs := valueAt_single v
    refine ⟨(storedAt a hv).bytes, by rw [bsonGetBson_bytes, hv]; rfl, fun r' => ?_⟩
    refine ⟨agree_single (converts_text lib) a _ hv hw r r',
      agree_single converts_int a _ hv hw r r',
      agree_single converts_double a _ hv hw r r', agree_single converts_bigint a _ hv hw r r',
      ?_, (storedAt a hv).bytes, ?_, fun s s' => ?_⟩
    · rw [bsonArraySize_bytes, bsonArraySize_bytes, hv, hw, hs]
    · rw [bsonGetBson_bytes, hw, hs]
      rfl
    · exact (bsonBinaryEqual_iff _ _ s s').mpr rfl

/-- `{"a": [1]}` has an array under `a`. -/
theorem wrapper_transparent_intArray :
    ∃ e, fieldAt (intArray.bytes ++ []) (ascii "a") = .ok e ∧ eoo e = false ∧
      type e ≠ some .object ∧
      ∃ w, bsonGetBson (intArray.bytes ++ []) (ascii "a") = .ok (some w) ∧
        bsonArraySize (w ++ []) [] = bsonArraySize (intArray.bytes ++ []) (ascii "a") := by
  have he : fieldAt (intArray.bytes ++ []) (ascii "a") =
      .ok (elem (ascii "a") (.array (.cons (ascii "0") (.numberInt 1) .nil)) (body .nil [])) := rfl
  have hex : eoo (elem (ascii "a") (.array (.cons (ascii "0") (.numberInt 1) .nil))
      (body .nil [])) = false := rfl
  have hobj : type (elem (ascii "a") (.array (.cons (ascii "0") (.numberInt 1) .nil))
      (body .nil [])) ≠ some .object := by decide
  obtain ⟨w, hw, h⟩ := wrapper_transparent .timeless intArray [] (ascii "a") _ he hex hobj
  exact ⟨_, he, hex, hobj, w, hw, (h []).2.2.2.2.1⟩

end PgBson.Access.Wrapper
