import PgBson.Access.Lookup

/-! # Builders for dotted names

`EmbeddedBuilder` takes elements under dotted names and nests them: it keeps a stack of open
builders, one for each part of the current path. For the next name it passes over the builders that
the name goes through, closes the others and opens new ones (`prepareContext`).

The stack is independent of what is built. `Target` is what the builders hold: the bytes that the
code writes, or the fields of a document. The two run in step (`embed_bytes`). -/

namespace PgBson.Dotted.Embedded

open PgBson.Lib.Memory PgBson.Bson.Types PgBson.Bson.Document
open PgBson.Bson.Element hiding obj done
open PgBson.Access.Lookup (beforeDot afterDot appendAs_elem length_afterDot_lt)

/-! ### The code -/

/-- How the builders fail: with an exception of the driver, or with the `std::out_of_range` that
`substr` throws behind the end of a string. -/
inductive Failure
  | exc (e : Exc)
  | outOfRange
  deriving DecidableEq

/-- What the builders hold, and the elements that are appended to them. -/
structure Target (β ε : Type) where
  empty : β
  /-- A builder is done, and its object is a field of the outer one. -/
  nest : Bytes → β → β → Except Failure β
  appendAs : Bytes → ε → β → Except Failure β
  /-- `e.type() == Object && e.valuesize() == 5`. -/
  isEmptyObject : ε → Except Failure Bool

/-- `_builders`, the innermost first; the last is the builder that is given, under an empty name. -/
abbrev Builders (β : Type) : Type := List (Bytes × β)

/-- The names of the builders that were added, the outermost first. -/
def names {β : Type} (bs : Builders β) : List Bytes := (bs.map Prod.fst).reverse.tail

/-- The builders that a name goes through, and what is left of it. -/
def passed : List Bytes → Bytes → Except Failure (ℕ × Bytes)
  | [], name => .ok (0, name)
  | first :: rest, name =>
    let next := (name.drop first.length).headD 0
    if name.take first.length = first ∧ (next = 46 ∨ next = 0) then
      if name.length < first.length + 1 then .error .outOfRange
      else do
        let (i, name) ← passed rest (name.drop (first.length + 1))
        return (i + 1, name)
    else .ok (0, name)

/-- `splitDot`: the part before the first dot, and the rest. -/
def splitDot (str : Bytes) : Bytes × Bytes :=
  if 46 ∈ str then (beforeDot str, afterDot str) else ([], str)

section code
variable {β ε : Type} (t : Target β ε)

/-- `popBuilder`. The given builder is never popped. -/
def popBuilder : Builders β → Except Failure (Builders β)
  | (n, c) :: (m, d) :: rest => do
    let d ← t.nest n c d
    return (m, d) :: rest
  | bs => .ok bs

def popBuilders : ℕ → Builders β → Except Failure (Builders β)
  | 0, bs => .ok bs
  | k + 1, bs => do
    let bs ← popBuilder t bs
    popBuilders k bs

/-- `addBuilder` for the parts of a name, up to the last one or an empty one. -/
def addBuilders : ℕ → Bytes → Builders β → Builders β × Bytes
  | 0, name, bs => (bs, name)
  | fuel + 1, name, bs =>
    let (next, name) := splitDot name
    if next = [] then (bs, name) else addBuilders fuel name ((next, t.empty) :: bs)

/-- `prepareContext`: the builders for a name, and the name inside the innermost. -/
def prepareContext (name : Bytes) (bs : Builders β) : Except Failure (Builders β × Bytes) := do
  let (i, rest) ← passed (names bs) name
  let bs ← popBuilders t ((names bs).length - i) bs
  return addBuilders t (rest.length + 1) rest bs

/-- An element for the innermost builder. -/
def appendBack (name : Bytes) (e : ε) : Builders β → Except Failure (Builders β)
  | (m, c) :: rest => do
    let c ← t.appendAs name e c
    return (m, c) :: rest
  | [] => .ok []

/-- `EmbeddedBuilder::appendAs`. For an empty object its builder is left open. -/
def appendAs (name : Bytes) (e : ε) (bs : Builders β) : Except Failure (Builders β) := do
  let b ← t.isEmptyObject e
  if b then
    let (bs, _) ← prepareContext t (name ++ ascii ".foo") bs
    return bs
  else
    let (bs, name) ← prepareContext t name bs
    appendBack t name e bs

/-- Elements one after the other. -/
def appendAll : List (Bytes × ε) → Builders β → Except Failure (Builders β)
  | [], bs => .ok bs
  | (name, e) :: es, bs => do
    let bs ← appendAs t name e bs
    appendAll es bs

/-- `EmbeddedBuilder::done`. -/
def done (bs : Builders β) : Except Failure (Builders β) := popBuilders t (names bs).length bs

/-- The life of an `EmbeddedBuilder`, and what the given builder holds at its end. -/
def embed (es : List (Bytes × ε)) : Except Failure β := do
  let bs ← appendAll t es [([], t.empty)]
  let bs ← done t bs
  return (bs.head?.map Prod.snd).getD t.empty

end code

/-- The bytes of the elements that were appended. -/
def bytesTarget : Target Bytes Bytes where
  empty := []
  nest n c d := do
    let o ← (bsonObj (frame c)).mapError .exc
    return d ++ BSONType.object.byte :: (n ++ 0 :: o)
  appendAs n e d := do
    let x ← (Access.Lookup.appendAs e n).mapError .exc
    return d ++ x
  isEmptyObject e :=
    if type e = some .object then do
      let n ← (valuesize e).mapError .exc
      return n = 5
    else .ok false

/-- The document with these fields. -/
def ofFields : List (Bytes × Value) → Doc
  | [] => .nil
  | (n, v) :: fs => .cons n v (ofFields fs)

/-- The fields of a document that were appended. -/
def docTarget : Target (List (Bytes × Value)) Value where
  empty := []
  nest n c d := do
    let o ← (Bson.Element.done (ofFields c)).mapError .exc
    return d ++ [(n, .object o)]
  appendAs n v d := .ok (d ++ [(n, v)])
  isEmptyObject v := .ok (v = .object .nil)

/-! ### Two targets in step -/

/-- What is done to one target is done to the other. -/
structure Copies {β ε γ δ : Type} (t : Target β ε) (u : Target γ δ) (f : β → γ)
    (R : ε → δ → Prop) : Prop where
  empty : f t.empty = u.empty
  nest : ∀ n c d, u.nest n (f c) (f d) = (t.nest n c d).map f
  appendAs : ∀ {e e'}, R e e' → ∀ n c, u.appendAs n e' (f c) = (t.appendAs n e c).map f
  isEmptyObject : ∀ {e e'}, R e e' → u.isEmptyObject e' = t.isEmptyObject e

namespace Copies
variable {β ε γ δ : Type} {t : Target β ε} {u : Target γ δ} {f : β → γ} {R : ε → δ → Prop}

/-- The same builders over the other target. -/
def copy (f : β → γ) (bs : Builders β) : Builders γ := bs.map fun p => (p.1, f p.2)

theorem names_copy (f : β → γ) (bs : Builders β) : names (copy f bs) = names bs := by
  simp [names, copy, Function.comp_def]

theorem popBuilder (h : Copies t u f R) (bs : Builders β) :
    Embedded.popBuilder u (copy f bs) = (Embedded.popBuilder t bs).map (copy f) := by
  rcases bs with _ | ⟨⟨n, c⟩, _ | ⟨⟨m, d⟩, rest⟩⟩
  · rfl
  · rfl
  · simp only [copy, List.map_cons, Embedded.popBuilder, h.nest]
    cases t.nest n c d <;> rfl

theorem popBuilders (h : Copies t u f R) : ∀ (k : ℕ) (bs : Builders β),
    Embedded.popBuilders u k (copy f bs) = (Embedded.popBuilders t k bs).map (copy f)
  | 0, bs => rfl
  | k + 1, bs => by
    simp only [Embedded.popBuilders, h.popBuilder]
    cases hb : Embedded.popBuilder t bs with
    | error e => rfl
    | ok bs' => exact h.popBuilders k bs'

theorem addBuilders (h : Copies t u f R) : ∀ (fuel : ℕ) (name : Bytes) (bs : Builders β),
    Embedded.addBuilders u fuel name (copy f bs) =
      ((copy f (Embedded.addBuilders t fuel name bs).1), (Embedded.addBuilders t fuel name bs).2)
  | 0, name, bs => rfl
  | fuel + 1, name, bs => by
    simp only [Embedded.addBuilders]
    split_ifs with hs
    · rfl
    · rw [← h.addBuilders fuel, copy, copy, List.map_cons, h.empty]

theorem prepareContext (h : Copies t u f R) (name : Bytes) (bs : Builders β) :
    Embedded.prepareContext u name (copy f bs) =
      (Embedded.prepareContext t name bs).map fun p => (copy f p.1, p.2) := by
  simp only [Embedded.prepareContext, names_copy, bind, Except.bind]
  rcases passed (names bs) name with _ | ⟨i, rest⟩
  · rfl
  · simp only [h.popBuilders]
    cases Embedded.popBuilders t ((names bs).length - i) bs with
    | error e => rfl
    | ok bs' =>
      simp only [Except.map, pure, Except.pure, h.addBuilders]

theorem appendBack (h : Copies t u f R) {e : ε} {e' : δ} (he : R e e') (name : Bytes)
    (bs : Builders β) : Embedded.appendBack u name e' (copy f bs) =
      (Embedded.appendBack t name e bs).map (copy f) := by
  rcases bs with _ | ⟨⟨m, c⟩, rest⟩
  · rfl
  · simp only [copy, List.map_cons, Embedded.appendBack, h.appendAs he]
    cases t.appendAs name e c <;> rfl

theorem appendAs_eq (h : Copies t u f R) {e : ε} {e' : δ} (he : R e e') (name : Bytes)
    (bs : Builders β) : Embedded.appendAs u name e' (copy f bs) =
      (Embedded.appendAs t name e bs).map (copy f) := by
  simp only [Embedded.appendAs, h.isEmptyObject he, bind, Except.bind]
  rcases t.isEmptyObject e with _ | _ | _
  · rfl
  · simp only [Bool.false_eq_true, if_false, h.prepareContext]
    rcases Embedded.prepareContext t name bs with _ | ⟨bs', rest⟩
    · rfl
    · exact h.appendBack he rest bs'
  · simp only [if_true, h.prepareContext]
    cases Embedded.prepareContext t (name ++ ascii ".foo") bs <;> rfl

/-- The elements of the two runs. -/
def Elements (R : ε → δ → Prop) : List (Bytes × ε) → List (Bytes × δ) → Prop :=
  List.Forall₂ fun p q => p.1 = q.1 ∧ R p.2 q.2

theorem appendAll (h : Copies t u f R) {es : List (Bytes × ε)} {es' : List (Bytes × δ)}
    (hes : Elements R es es') : ∀ bs : Builders β,
    Embedded.appendAll u es' (copy f bs) = (Embedded.appendAll t es bs).map (copy f) := by
  induction hes with
  | nil => intro bs; rfl
  | @cons p q es es' hpq _ ih =>
    intro bs
    obtain ⟨n, e⟩ := p
    obtain ⟨n', e'⟩ := q
    obtain ⟨rfl, he⟩ : n = n' ∧ R e e' := hpq
    simp only [Embedded.appendAll, h.appendAs_eq he]
    cases Embedded.appendAs t n e bs with
    | error x => rfl
    | ok bs' => exact ih bs'

/-- **What is built over one target is what is built over the other.** -/
theorem embed (h : Copies t u f R) {es : List (Bytes × ε)} {es' : List (Bytes × δ)}
    (hes : Elements R es es') : Embedded.embed u es' = (Embedded.embed t es).map f := by
  have hstart : copy f [([], t.empty)] = [([], u.empty)] := by simp [copy, h.empty]
  simp only [Embedded.embed, ← hstart, h.appendAll hes, bind, Except.bind]
  cases Embedded.appendAll t es [([], t.empty)] with
  | error x => rfl
  | ok bs =>
    simp only [Except.map, Embedded.done, names_copy, h.popBuilders]
    cases Embedded.popBuilders t (names bs).length bs with
    | error x => rfl
    | ok bs' =>
      rcases bs' with _ | ⟨⟨m, c⟩, rest⟩
      · simp [copy, h.empty, pure, Except.pure]
      · rfl

end Copies

/-! ### Bytes and fields -/

theorem elems_append (fs gs : List (Bytes × Value)) :
    (ofFields (fs ++ gs)).elems = (ofFields fs).elems ++ (ofFields gs).elems := by
  induction fs with
  | nil => rfl
  | cons p fs ih => simp [ofFields, Doc.elems, ih]

/-- The pointer to an element with this value. -/
def Holds (v : Value) (e : Bytes) : Prop :=
  ∃ n r, 0 ∉ n ∧ v.Framed ∧ v.bytes.length < 2 ^ 31 ∧ e = elem n v r

theorem copies_bytes :
    Copies docTarget bytesTarget (fun c => (ofFields c).elems) Holds where
  empty := rfl
  nest n c d := by
    simp only [docTarget, bytesTarget, Bson.Element.done, Doc.bytes]
    unfold bsonObj
    split_ifs with hv
    · simp only [Except.mapError, Except.map, bind, Except.bind, pure, Except.pure, elems_append,
        ofFields, Doc.elems, Value.type, Value.bytes, List.append_nil]
    · rfl
  appendAs he n c := by
    obtain ⟨m, r, hm, hf, hs, rfl⟩ := he
    simp only [docTarget, bytesTarget, appendAs_elem hm hf hs, Except.mapError, Except.map, bind,
      Except.bind, pure, Except.pure, elems_append, ofFields, Doc.elems, List.append_nil]
  isEmptyObject {v e} he := by
    obtain ⟨m, r, hm, hf, hs, rfl⟩ := he
    simp only [docTarget, bytesTarget, type_elem, valuesize_elem hm hf hs]
    cases v with
    | object d =>
      cases d with
      | nil => rfl
      | cons n v d =>
        have h5 : ¬ (((Value.object (.cons n v d)).bytes.length : ℤ) = 5) := by
          simp [Value.bytes, Doc.elems]
          omega
        simp [Value.type, Except.mapError, bind, Except.bind, pure, Except.pure, h5]
    | _ => simp [Value.type]

/-- **The bytes that are built are those of the document that is built.** -/
theorem embed_bytes {fs : List (Bytes × Value)} {es : List (Bytes × Bytes)}
    (h : Copies.Elements Holds fs es) :
    embed bytesTarget es = (embed docTarget fs).map fun c => (ofFields c).elems :=
  copies_bytes.embed h

end PgBson.Dotted.Embedded
