import Mathlib.Data.List.TakeWhile
import PgBson.Access.Wrapper

/-! # Dotted paths as walks

The lookup of a path tries the whole path as a name, then splits it at its first dot and goes on in
the object or array that is named by the left part. Where no field name has a dot in it this is a
plain walk along the segments of the path (`findDotted_eq_walk`), every accessor answers for the end
of the walk, and walks compose: access to `p.q` is access to `q` in what is found under `p`
(`bsonGetBson_walk`). -/

namespace PgBson.Access.Walk

open PgBson.Lib.Memory PgBson.Bson.Types PgBson.Bson.Document PgBson.Bson.Element
open PgBson.Compare.Hash PgBson.Access.Lookup PgBson.Access.Get PgBson.Access.Congruence
open PgBson.Access.Wrapper

mutual

/-- There is no dot in the field names of an object or array. -/
def DotlessValue : Value → Prop
  | .object d | .array d => Dotless d
  | _ => True

/-- There is no dot in a field name, at any depth. -/
def Dotless : Doc → Prop
  | .nil => True
  | .cons n v d => 46 ∉ n ∧ DotlessValue v ∧ Dotless d

end

/-- The document inside an object or an array. -/
def descend : Value → Option Doc
  | .object d | .array d => some d
  | _ => none

/-- The value at the end of a walk that takes the first field of each name. -/
def walk : Doc → List Bytes → Option Value
  | _, [] => none
  | d, [s] => find d s
  | d, s :: t => (find d s).bind fun v => (descend v).bind fun e => walk e t

/-- The segments of a path. -/
def segments (path : Bytes) : List Bytes := path.splitOn 46

/-! ### The lookup is a walk -/

theorem walk_cons (d : Doc) (s : Bytes) {t : List Bytes} (h : t ≠ []) :
    walk d (s :: t) = (find d s).bind fun v => (descend v).bind fun e => walk e t := by
  cases t with
  | nil => exact (h rfl).elim
  | cons s' t => rfl

theorem find_dotless : ∀ {d : Doc} {name : Bytes} {v : Value}, Dotless d → find d name = some v →
    46 ∉ name ∧ DotlessValue v
  | .cons n w d, name, v, hd, h => by
    rw [find] at h
    split_ifs at h with hn
    · obtain rfl := Option.some.inj h
      exact ⟨hn ▸ hd.1, hd.2.1⟩
    · exact find_dotless hd.2.2 h

theorem descend_dotless {v : Value} {d : Doc} (h : DotlessValue v) (hd : descend v = some d) :
    Dotless d := by
  cases v with
  | object e | array e =>
    obtain rfl := Option.some.inj hd
    exact h
  | _ => cases hd

theorem fields_of_descend {v : Value} : fields v = (descend v).getD .nil := by
  cases v <;> rfl

theorem segments_of_notMem {path : Bytes} (h : 46 ∉ path) : segments path = [path] :=
  List.splitOn_eq_singleton h

theorem segments_append (p q : Bytes) : segments (p ++ 46 :: q) = segments p ++ segments q :=
  List.splitOn_append_cons_self p q

theorem segments_ne_nil (p : Bytes) : segments p ≠ [] := List.splitOn_ne_nil 46 p

/-- A path with a dot is split at the first one. -/
theorem eq_beforeDot_append {name : Bytes} (h : 46 ∈ name) :
    name = beforeDot name ++ 46 :: afterDot name := by
  induction name with
  | nil => cases h
  | cons c name ih =>
    by_cases hc : c = 46
    · subst hc
      simp [beforeDot, afterDot]
    · have hm : 46 ∈ name := (List.mem_cons.mp h).resolve_left fun he => hc he.symm
      have hb : beforeDot (c :: name) = c :: beforeDot name := by
        simp [beforeDot, hc]
      have ha : afterDot (c :: name) = afterDot name := by
        simp [afterDot, hb]
      rw [hb, ha, List.cons_append, ← ih hm]

theorem notMem_beforeDot (name : Bytes) : 46 ∉ beforeDot name := fun h => by
  simpa using List.mem_takeWhile_imp h

theorem segments_of_mem {name : Bytes} (h : 46 ∈ name) :
    segments name = beforeDot name :: segments (afterDot name) := by
  have hs := segments_append (beforeDot name) (afterDot name)
  rw [← eq_beforeDot_append h, segments_of_notMem (notMem_beforeDot name)] at hs
  exact hs

/-- **Without dots in the names the lookup is a walk along the segments.** -/
theorem findDotted_eq_walk : ∀ {fuel : ℕ} {d : Doc} {name : Bytes}, Dotless d →
    name.length < fuel → findDotted fuel d name = walk d (segments name)
  | fuel + 1, d, name, hd, hf => by
    rw [findDotted]
    by_cases hdot : 46 ∈ name
    · have hnone : find d name = none := by
        rcases h : find d name with _ | v
        · rfl
        · exact ((find_dotless hd h).1 hdot).elim
      rw [hnone, segments_of_mem hdot, walk_cons d _ (segments_ne_nil _)]
      simp only [if_pos hdot]
      rcases hv : find d (beforeDot name) with _ | v
      · rfl
      · simp only [Option.bind_some]
        have hlen := length_afterDot_lt hdot
        rw [fields_of_descend]
        rcases he : descend v with _ | e
        · exact findDotted_nil fuel _
        · have hde := descend_dotless (find_dotless hd hv).2 he
          exact findDotted_eq_walk hde (by omega)
    · rw [segments_of_notMem hdot, walk]
      cases find d name <;> simp [hdot]

theorem valueAt_eq_walk {d : Doc} (hd : Dotless d) {path : Bytes} (hp : 0 ∉ path) :
    valueAt d path = walk d (segments path) := by
  rw [valueAt, cstr_append _ hp]
  exact findDotted_eq_walk hd (Nat.lt_succ_self _)

/-! ### Walks compose -/

/-- **A walk goes on where its first part has ended.** -/
theorem walk_append (t : List Bytes) (ht : t ≠ []) (s : List Bytes) : s ≠ [] → ∀ d : Doc,
    walk d (s ++ t) = (walk d s).bind fun v => (descend v).bind fun e => walk e t := by
  induction s with
  | nil => exact fun h => (h rfl).elim
  | cons a s ih =>
    intro _ d
    by_cases hs : s = []
    · subst hs
      exact walk_cons d a ht
    · rw [List.cons_append, walk_cons d a (by simp [hs]), walk_cons d a hs, Option.bind_assoc]
      congr 1
      funext v
      rw [Option.bind_assoc]
      congr 1
      funext e
      exact ih hs e

theorem walk_dotless : ∀ {s : List Bytes} {d : Doc} {v : Value}, Dotless d → walk d s = some v →
    DotlessValue v
  | [a], d, v, hd, h => (find_dotless hd h).2
  | a :: b :: s, d, v, hd, h => by
    rw [walk_cons d a (by simp)] at h
    obtain ⟨w, hw, h⟩ := Option.bind_eq_some_iff.mp h
    obtain ⟨e, he, h⟩ := Option.bind_eq_some_iff.mp h
    exact walk_dotless (descend_dotless (find_dotless hd hw).2 he) h

/-- The value under `p.q` is the value under `q` in the object or array under `p`. -/
theorem valueAt_append {d e : Doc} {v : Value} (hd : Dotless d) {p q : Bytes} (hp : 0 ∉ p)
    (hq : 0 ∉ q) (hv : valueAt d p = some v) (he : descend v = some e) :
    valueAt d (p ++ 46 :: q) = valueAt e q := by
  have hpq : 0 ∉ p ++ 46 :: q := by simp [hp, hq]
  rw [valueAt_eq_walk hd hp] at hv
  have hde : Dotless e := descend_dotless (walk_dotless hd hv) he
  rw [valueAt_eq_walk hd hpq, valueAt_eq_walk hde hq, segments_append,
    walk_append _ (segments_ne_nil q) _ (segments_ne_nil p), hv, Option.bind_some, he,
    Option.bind_some]

/-! ### Access -/

/-- What a typed accessor makes of the value that was found, NULL if there is none. -/
def converted {α : Type} (path : Bytes) (spec : Value → Except ConvertError α) :
    Option Value → Except GetError (Option α)
  | none => .ok none
  | some v => outcome path (elem [] v []) (spec v)

theorem converted_eq_null_iff {α : Type} {path : Bytes} {spec : Value → Except ConvertError α}
    {x : Option Value} : converted path spec x = .ok none ↔ x = none := by
  rcases x with _ | v
  · simp [converted]
  · simp only [converted, outcome, reduceCtorEq, iff_false]
    cases spec v <;> simp [Except.map, Except.mapError]

/-- The accessors answer for this value, and with NULL exactly if there is none. -/
structure Answers (lib : Library) (o path : Bytes) (x : Option Value) : Prop where
  element : ∃ e, fieldAt o path = .ok e ∧ Points e x
  bson : bsonGetBson o path = .ok (x.map fun v => (asDoc v).bytes)
  arraySize : bsonArraySize o path = .ok (x.map sizeOf)
  text : bsonGetText lib o path = converted path (textOf lib) x
  int : bsonGetInt o path = converted path intOf x
  double : bsonGetDouble o path = converted path doubleOf x
  bigint : bsonGetBigint o path = converted path bigintOf x
  bson_null : bsonGetBson o path = .ok none ↔ x = none
  arraySize_null : bsonArraySize o path = .ok none ↔ x = none
  text_null : bsonGetText lib o path = .ok none ↔ x = none
  int_null : bsonGetInt o path = .ok none ↔ x = none
  double_null : bsonGetDouble o path = .ok none ↔ x = none
  bigint_null : bsonGetBigint o path = .ok none ↔ x = none

theorem bsonGet_converted {α : Type} {convert : Bytes → Except ConvertError α}
    {spec : Value → Except ConvertError α} (hc : Converts convert spec) (a : Stored)
    (r path : Bytes) :
    bsonGet convert (a.bytes ++ r) path = converted path spec (valueAt a.doc path) := by
  rw [bsonGet_bytes hc]
  rcases valueAt a.doc path with _ | v <;> rfl

/-- The accessors answer for the value under the path. -/
theorem answers_valueAt (lib : Library) (a : Stored) (r path : Bytes) :
    Answers lib (a.bytes ++ r) path (valueAt a.doc path) where
  element := fieldAt_bytes a r path
  bson := bsonGetBson_bytes a r path
  arraySize := bsonArraySize_bytes a r path
  text := bsonGet_converted (converts_text lib) a r path
  int := bsonGet_converted converts_int a r path
  double := bsonGet_converted converts_double a r path
  bigint := bsonGet_converted converts_bigint a r path
  bson_null := by simp [bsonGetBson_bytes]
  arraySize_null := by simp [bsonArraySize_bytes]
  text_null := by
    rw [bsonGetText, bsonGet_converted (converts_text lib), converted_eq_null_iff]
  int_null := by rw [bsonGetInt, bsonGet_converted converts_int, converted_eq_null_iff]
  double_null := by rw [bsonGetDouble, bsonGet_converted converts_double, converted_eq_null_iff]
  bigint_null := by rw [bsonGetBigint, bsonGet_converted converts_bigint, converted_eq_null_iff]

/-- Both are NULL, or documents that are binary equal. -/
def SameResult (x y : Except Exc (Option Bytes)) : Prop :=
  (x = .ok none ∧ y = .ok none) ∨
  ∃ u w, x = .ok (some u) ∧ y = .ok (some w) ∧
    ∀ s s', bsonBinaryEqual (u ++ s) (w ++ s') = .ok true

/-- **Dotted access is a walk along the segments of the path, and composes.** -/
theorem bsonGetBson_walk (lib : Library) (a : Stored) (ha : Dotless a.doc) (r p : Bytes)
    (hp : 0 ∉ p) :
    Answers lib (a.bytes ++ r) p (walk a.doc (segments p)) ∧
    ∀ e, fieldAt (a.bytes ++ r) p = .ok e → type e = some .object →
      ∃ w, bsonGetBson (a.bytes ++ r) p = .ok (some w) ∧
        ∀ q r', 0 ∉ q →
          SameResult (bsonGetBson (a.bytes ++ r) (p ++ 46 :: q)) (bsonGetBson (w ++ r') q) := by
  obtain ⟨e, he, hpt⟩ := fieldAt_bytes a r p
  refine ⟨valueAt_eq_walk ha hp ▸ answers_valueAt lib a r p, fun e' he' ht => ?_⟩
  obtain rfl := Except.ok.inj (he'.symm.trans he)
  obtain ⟨d, hv⟩ : ∃ d, valueAt a.doc p = some (.object d) := by
    rcases hv : valueAt a.doc p with _ | v <;> rw [hv] at hpt
    · obtain rfl : e' = eooElement := hpt
      simp [eooElement, type, BSONType.ofByte] at ht
    · obtain ⟨n, r₁, -, rfl⟩ := hpt
      rw [type_elem, Option.some.injEq] at ht
      cases v <;> first | exact ⟨_, rfl⟩ | cases ht
  refine ⟨(storedAt a hv).bytes, by rw [bsonGetBson_bytes, hv]; rfl, fun q r' hq => ?_⟩
  have hvq : valueAt a.doc (p ++ 46 :: q) = valueAt (storedAt a hv).doc q :=
    valueAt_append ha hp hq hv rfl
  rcases hw : valueAt (storedAt a hv).doc q with _ | v
  · left
    rw [bsonGetBson_bytes, bsonGetBson_bytes, hvq, hw]
    exact ⟨rfl, rfl⟩
  · refine Or.inr ⟨(storedAt (storedAt a hv) hw).bytes, (storedAt (storedAt a hv) hw).bytes, ?_, ?_,
      fun s s' => (bsonBinaryEqual_iff _ _ s s').mpr rfl⟩
    · rw [bsonGetBson_bytes, hvq, hw]
      rfl
    · rw [bsonGetBson_bytes, hw]
      rfl

/-- `{"a": {"b": 1}}`. -/
def nestedDoc : Stored where
  doc := .cons (ascii "a") (.object (.cons (ascii "b") (.numberInt 1) .nil)) .nil
  valid := by decide
  size := by decide

theorem bsonGetBson_walk_nestedDoc :
    Dotless nestedDoc.doc ∧ 0 ∉ ascii "a" ∧
    Answers .timeless (nestedDoc.bytes ++ []) (ascii "a")
      (some (.object (.cons (ascii "b") (.numberInt 1) .nil))) ∧
    ∃ w, bsonGetBson (nestedDoc.bytes ++ []) (ascii "a") = .ok (some w) ∧
      SameResult (bsonGetBson (nestedDoc.bytes ++ []) (ascii "a" ++ 46 :: ascii "b"))
        (bsonGetBson (w ++ []) (ascii "b")) := by
  have hd : Dotless nestedDoc.doc := ⟨by decide, ⟨by decide, trivial, trivial⟩, trivial⟩
  have hp : 0 ∉ ascii "a" := by decide
  have he : fieldAt (nestedDoc.bytes ++ []) (ascii "a") =
      .ok (elem (ascii "a") (.object (.cons (ascii "b") (.numberInt 1) .nil)) (body .nil [])) := rfl
  obtain ⟨hw, hgo⟩ := bsonGetBson_walk .timeless nestedDoc hd [] (ascii "a") hp
  obtain ⟨w, hbson, h⟩ := hgo _ he rfl
  exact ⟨hd, hp, hw, w, hbson, h (ascii "b") [] (by decide)⟩

end PgBson.Access.Walk
