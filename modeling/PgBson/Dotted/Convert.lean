import PgBson.Bson.Builder
import PgBson.Dotted.Context

/-! # Nested and dotted documents

`nested2dotted` writes a document flat, with the path of every value as its name; `dotted2nested`
sorts the fields of a document by name and nests them with an `EmbeddedBuilder`. On the bytes of a
document the two compute what `dotted` and `sorted` say of its fields. -/

namespace PgBson.Dotted.Convert

open PgBson.Lib.Memory PgBson.Bson.Types PgBson.Bson.Document
open PgBson.Bson.Element hiding obj done
open PgBson.Bson.Builder (objBytes objBytes_elems)
open PgBson.Access.Lookup (appendAs_elem)
open PgBson.Dotted.Embedded PgBson.Dotted.Context

/-! ### The code -/

/-- `nested2dotted` from an element on: the elements that are appended. -/
def nested2dottedLoop : ℕ → Bytes → BSONObjIterator → Except Exc Bytes
  | 0, _, _ => .error .undefinedBehaviour
  | fuel + 1, base, it =>
    if it.more then do
      let (e, it) ← it.next
      let newbase := base ++ cstr (fieldName e)
      if type e = some .object then
        let o ← embeddedObject e
        let x ← nested2dottedLoop fuel (newbase ++ [46]) (begin o)
        let y ← nested2dottedLoop fuel base it
        return x ++ y
      else
        let x ← Access.Lookup.appendAs e newbase
        let y ← nested2dottedLoop fuel base it
        return x ++ y
    else return []

/-- `nested2dotted`. -/
def nested2dotted (obj : Bytes) : Except Exc Bytes := do
  let elems ← nested2dottedLoop (objsize obj).toNat [] (begin obj)
  objBytes elems

/-- `m[name] = e` for a `std::map`, as the list of its pairs. -/
def assign {α : Type} (name : Bytes) (e : α) : List (Bytes × α) → List (Bytes × α)
  | [] => [(name, e)]
  | (n, x) :: m =>
    if nats name < nats n then (name, e) :: (n, x) :: m
    else if name = n then (name, e) :: m
    else (n, x) :: assign name e m

/-- The loop of `bson2map`. -/
def bson2mapLoop : ℕ → BSONObjIterator → List (Bytes × Bytes) → Except Exc (List (Bytes × Bytes))
  | 0, _, _ => .error .undefinedBehaviour
  | fuel + 1, it, m =>
    if it.more then do
      let (e, it) ← it.next
      bson2mapLoop fuel it (assign (cstr (fieldName e)) e m)
    else return m

/-- `bson2map`. -/
def bson2map (obj : Bytes) : Except Exc (List (Bytes × Bytes)) :=
  bson2mapLoop (objsize obj).toNat (begin obj) []

/-- `dotted2nested`. -/
def dotted2nested (obj : Bytes) : Except Failure Bytes := do
  let sorted ← (bson2map obj).mapError .exc
  let elems ← embed bytesTarget sorted
  (objBytes elems).mapError .exc

/-! ### On documents -/

mutual

/-- The fields of a document written flat. -/
def dotted (base : Bytes) : Doc → List (Bytes × Value)
  | .nil => []
  | .cons n v d => dottedValue (base ++ n) v ++ dotted base d

/-- The fields of a value under a name. -/
def dottedValue (name : Bytes) : Value → List (Bytes × Value)
  | .object d => dotted (name ++ [46]) d
  | v => [(name, v)]

end

/-- The fields of a document sorted by name, after those of the map; of two of one name the last is
kept. -/
def sorted : Doc → List (Bytes × Value) → List (Bytes × Value)
  | .nil, m => m
  | .cons n v d, m => sorted d (assign n v m)

theorem dotted_append (base : Bytes) (fs gs : List (Bytes × Value)) :
    dotted base (ofFields (fs ++ gs)) = dotted base (ofFields fs) ++ dotted base (ofFields gs) := by
  induction fs with
  | nil => rfl
  | cons p fs ih => simp [ofFields, dotted, ih]

theorem dottedValue_leaf {v : Value} (h : v.type ≠ .object) (name : Bytes) :
    dottedValue name v = [(name, v)] := by
  cases v <;> first | rfl | exact (h rfl).elim

/-! ### The code computes them -/

theorem nested2dottedLoop_iter : ∀ {fuel : ℕ} {d : Doc} (base : Bytes) (r : Bytes),
    d.Valid → d.elems.length < fuel → d.elems.length ≤ BSONObjMaxInternalSize →
    nested2dottedLoop fuel base (iter d r) = .ok (ofFields (dotted base d)).elems
  | 0, _, _, _, _, hf, _ => by omega
  | fuel + 1, .nil, base, r, _, _, _ => by
    rw [nested2dottedLoop]
    simp [iter, BSONObjIterator.more, Doc.elems, dotted, ofFields, pure, Except.pure]
  | fuel + 1, .cons n v d, base, r, hd, hf, hs => by
    rw [length_elems_cons] at hf hs
    have hv : v.bytes.length < 2 ^ 31 := lt_of_le_maxSize (by omega)
    have hframed := hd.2.1.framed
    have ih := nested2dottedLoop_iter base r hd.2.2 (show _ < fuel by omega) (by omega)
    simp only [nested2dottedLoop, more_cons, next_cons hd.1 hframed hv, type_elem,
      cstr_fieldName_elem hd.1, ih, bind, Except.bind, if_true, dotted, elems_append,
      Option.some.injEq]
    by_cases ht : v.type = .object
    · obtain ⟨e, rfl⟩ : ∃ e, v = .object e := by
        cases v <;> first | exact ⟨_, rfl⟩ | exact absurd ht (by simp [Value.type])
      have hlen : e.elems.length + 5 = (Value.object e).bytes.length := by simp [Value.bytes]
      have hse : e.bytes.length ≤ BSONObjMaxInternalSize := by
        rw [length_bytes]
        omega
      have ih' := nested2dottedLoop_iter (base ++ n ++ [46]) (body d r) (show e.Valid from hd.2.1)
        (show _ < fuel by omega) (by omega)
      rw [if_pos ht, embeddedObject_object hd.1 hse]
      dsimp only
      rw [begin_bytes (lt_of_le_maxSize hse), ih']
      rfl
    · rw [if_neg ht, appendAs_elem hd.1 hframed hv, dottedValue_leaf ht]
      simp [ofFields, Doc.elems, pure, Except.pure]

theorem nested2dotted_bytes (s : Stored) (r : Bytes) :
    nested2dotted (s.bytes ++ r) =
      (Bson.Element.obj (ofFields (dotted [] s.doc))).map Doc.bytes := by
  have hl := lt_of_le_maxSize s.size
  have hs := s.size
  rw [length_bytes] at hs
  rw [nested2dotted, Stored.bytes, objsize_bytes hl, begin_bytes hl, Int.toNat_natCast,
    nested2dottedLoop_iter [] r s.valid (by simp) (by omega)]
  exact objBytes_elems _

section map
open Copies (Elements)

theorem elements_assign (name : Bytes) {v : Value} {e : Bytes} (h : Holds v e)
    {m : List (Bytes × Value)} {m' : List (Bytes × Bytes)} (hm : Elements Holds m m') :
    Elements Holds (assign name v m) (assign name e m') := by
  induction hm with
  | nil => exact .cons ⟨rfl, h⟩ .nil
  | @cons p q m m' hpq hm ih =>
    obtain ⟨n, w⟩ := p
    obtain ⟨n', x⟩ := q
    obtain ⟨rfl, hw⟩ : n = n' ∧ Holds w x := hpq
    rw [assign, assign]
    split_ifs
    · exact .cons ⟨rfl, h⟩ (.cons ⟨rfl, hw⟩ hm)
    · exact .cons ⟨rfl, h⟩ hm
    · exact .cons ⟨rfl, hw⟩ ih

theorem bson2mapLoop_iter (r : Bytes) : ∀ {fuel : ℕ} {d : Doc} {m : List (Bytes × Value)}
    {m' : List (Bytes × Bytes)}, d.Valid → d.elems.length < fuel →
    d.elems.length ≤ BSONObjMaxInternalSize → Elements Holds m m' →
    ∃ es, bson2mapLoop fuel (iter d r) m' = .ok es ∧ Elements Holds (sorted d m) es
  | 0, _, _, _, _, hf, _, _ => by omega
  | fuel + 1, .nil, m, m', _, _, _, hm => by
    refine ⟨m', ?_, hm⟩
    rw [bson2mapLoop]
    simp [iter, BSONObjIterator.more, Doc.elems, pure, Except.pure]
  | fuel + 1, .cons n v d, m, m', hd, hf, hs, hm => by
    rw [length_elems_cons] at hf hs
    have hv : v.bytes.length < 2 ^ 31 := lt_of_le_maxSize (by omega)
    have hholds : Holds v (elem n v (body d r)) := ⟨n, body d r, hd.1, hd.2.1.framed, hv, rfl⟩
    obtain ⟨es, hes, hrel⟩ := bson2mapLoop_iter r hd.2.2 (show _ < fuel by omega) (by omega)
      (elements_assign n hholds hm)
    refine ⟨es, ?_, hrel⟩
    simpa only [bson2mapLoop, more_cons, next_cons hd.1 hd.2.1.framed hv, cstr_fieldName_elem hd.1,
      bind, Except.bind, if_true] using hes

theorem dotted2nested_bytes (s : Stored) (r : Bytes) :
    dotted2nested (s.bytes ++ r) = (embed docTarget (sorted s.doc [])).bind fun c =>
      ((Bson.Element.obj (ofFields c)).map Doc.bytes).mapError .exc := by
  have hl := lt_of_le_maxSize s.size
  have hs := s.size
  rw [length_bytes] at hs
  obtain ⟨es, hes, hrel⟩ := bson2mapLoop_iter r s.valid (show _ < s.doc.bytes.length by simp)
    (by omega) (List.Forall₂.nil : Elements Holds [] [])
  have hmap : bson2map (s.bytes ++ r) = .ok es := by
    rw [bson2map, Stored.bytes, objsize_bytes hl, begin_bytes hl, Int.toNat_natCast, hes]
  rw [dotted2nested, hmap]
  simp only [Except.mapError, bind, Except.bind, embed_bytes hrel]
  cases embed docTarget (sorted s.doc []) with
  | error e => rfl
  | ok c =>
    simp only [Except.map, objBytes_elems]

end map

end PgBson.Dotted.Convert
