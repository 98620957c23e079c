import PgBson.Access.ArrayVector
import PgBson.Access.Walk

/-! # Unwinding arrays

`bson_unwind_array` returns a set, one row in each call. The first call looks the path up and keeps
the elements it finds in a context; every call returns the element that the call counter points at.
An element is a pointer with two cached sizes. The elements of the context point into the argument,
or into the copy that was made when the argument was detoasted, and not into the deep copy that the
context keeps for them.

While the argument keeps its contents the rows are those of the vector of the array
(`run_bytes`). -/

namespace PgBson.Access.Unwind

open PgBson.Lib.Memory PgBson.Lib.Decimal PgBson.Bson.Types PgBson.Bson.Document PgBson.Bson.Element
open PgBson.Bson.Decode PgBson.Compare.Hash PgBson.Access.Lookup PgBson.Access.ArrayVector
open PgBson.Access.Wrapper PgBson.Access.Walk PgBson.Access.Congruence

/-! ### The code -/

/-- The memory that an element may point into. -/
inductive Buffer
  /-- The argument as the caller passed it. -/
  | argument
  /-- The copy that is made of an argument that has to be detoasted. -/
  | detoasted
  /-- The deep copy in the context of the function. -/
  | deepCopy
  deriving DecidableEq

/-- A pointer: to the static byte of the default element, or into a buffer. -/
inductive Ref
  | static
  | into (buffer : Buffer) (offset : ℕ)
  deriving DecidableEq

/-- An element: its pointer, and the sizes that it caches. -/
structure BSONElement where
  data : Ref
  fieldNameSize : ℕ
  totalSize : ℤ

/-- The element of the default constructor. -/
def BSONElement.default : BSONElement := ⟨.static, 0, 1⟩

/-- What the function keeps between calls. -/
structure FunctionContext where
  array : List BSONElement
  deepCopy : Bytes

/-- The state of a run; `detoasted` is the copy of the argument, if there is one. -/
structure FuncCallContext where
  callCntr : ℕ
  userFctx : FunctionContext
  detoasted : Bytes

/-- An element of an object in a buffer. -/
def hold (buffer : Buffer) (object : Bytes) : Option Bytes → Except Exc BSONElement
  | none => .ok .default
  | some e => do
    let n ← size e
    return ⟨.into buffer (object.length - e.length), fieldNameSize e, n⟩

/-- The part of the function for the first call. -/
def firstCall (toasted : Bool) (path arg : Bytes) : Except Exc FuncCallContext := do
  let buffer := if toasted then Buffer.detoasted else Buffer.argument
  let object ← bsonObj arg
  let deepCopy ← bsonObj (returnBson object)
  let el ← fieldAt object path
  let els ←
    if eoo el then pure []
    else if type el = some .array then ArrayVector.array el
    else pure [some el]
  let held ← els.mapM (hold buffer object)
  return ⟨0, ⟨held, deepCopy⟩, arg⟩

/-- The memory that a pointer points at, when the argument has the contents `arg`. -/
def FuncCallContext.deref (st : FuncCallContext) (arg : Bytes) : Ref → Bytes
  | .static => eooElement
  | .into .argument offset => arg.drop offset
  | .into .detoasted offset => st.detoasted.drop offset
  | .into .deepCopy offset => st.userFctx.deepCopy.drop offset

/-- The row for an element, with `p` in memory under its pointer. -/
def BSONElement.toReturn (el : BSONElement) (p : Bytes) : Except Exc Bytes :=
  let value := p.drop (el.fieldNameSize + 1)
  if isABSONObj p then do
    let o ← bsonObj value
    return returnBson o
  else if eoo p then .error .verifyFailed
  else do
    let o ← Lookup.obj
      (p.take 1 ++ 0 :: value.take (el.totalSize - el.fieldNameSize - 1).toNat)
    return returnBson o

/-- The part of the function for every call: the next row, or `none` at the end. -/
def perCall (arg : Bytes) (st : FuncCallContext) : Except Exc (Option (Bytes × FuncCallContext)) :=
  if st.callCntr = st.userFctx.array.length then .ok none
  else
    match st.userFctx.array[st.callCntr]? with
    | none => .error .undefinedBehaviour
    | some el => do
      let row ← el.toReturn (st.deref arg el.data)
      return some (row, { st with callCntr := st.callCntr + 1 })

/-- A call of `bson_unwind_array`; there is no state before the first one. -/
def bsonUnwindArray (toasted : Bool) (path arg : Bytes) (st : Option FuncCallContext) :
    Except Exc (Option (Bytes × FuncCallContext)) := do
  let st ← match st with
    | none => firstCall toasted path arg
    | some st => pure st
  perCall arg st

/-- The rows of a run in which the argument has the contents `args i` at call `i`; `none` if the run
has not come to an end within `fuel` calls. -/
def run (toasted : Bool) (path : Bytes) (args : ℕ → Bytes) :
    ℕ → ℕ → Option FuncCallContext → Option (Except Exc (List Bytes))
  | 0, _, _ => none
  | fuel + 1, i, st =>
    match bsonUnwindArray toasted path (args i) st with
    | .error x => some (.error x)
    | .ok none => some (.ok [])
    | .ok (some (row, st)) =>
      (run toasted path args fuel (i + 1) (some st)).map fun res => res.map (row :: ·)

/-! ### The rows of a document -/

/-- The document that is returned for a value: what is inside of an object or array, or the value
under the empty name. -/
def rowDoc (v : Value) : Doc := (descend v).getD (.cons [] v .nil)

/-- The vector of the elements under a path. -/
def slotsAt (d : Doc) (path : Bytes) : Except Exc (List (Option Value)) :=
  match valueAt d path with
  | none => .ok []
  | some (.array e) => slots e
  | some v => .ok [some v]

/-- The rows of a vector; a default element ends them with an exception. -/
def rowsOf : List (Option Value) → Except Exc (List Bytes)
  | [] => .ok []
  | none :: _ => .error .verifyFailed
  | some v :: s => (rowsOf s).map ((rowDoc v).bytes :: ·)

/-- The rows for a path. -/
def rowsAt (d : Doc) (path : Bytes) : Except Exc (List Bytes) := slotsAt d path >>= rowsOf

/-! ### The first call -/

/-- A held element stands for a value in the argument, the default element for none. -/
def Stands (buffer : Buffer) (arg : Bytes) (el : BSONElement) : Option Value → Prop
  | none => el = .default
  | some v => ∃ pre n r, 0 ∉ n ∧ v.Valid ∧ v.bytes.length + 7 ≤ BSONObjMaxInternalSize ∧
      arg = pre ++ elem n v r ∧
      el = ⟨.into buffer pre.length, n.length + 1, n.length + v.bytes.length + 2⟩

/-- The values of a vector are valid and leave room for a frame. -/
def Sound (v : Option Value) : Prop :=
  ∀ w ∈ v, w.Valid ∧ w.bytes.length + 7 ≤ BSONObjMaxInternalSize

theorem hold_stands (buffer : Buffer) {arg : Bytes} {e : Option Bytes} {v : Option Value}
    (h : Holds e v) (hsuf : ∀ x ∈ e, x <:+ arg) (hv : Sound v) :
    ∃ el, hold buffer arg e = .ok el ∧ Stands buffer arg el v := by
  rcases e with _ | e <;> rcases v with _ | v
  · exact ⟨.default, rfl, rfl⟩
  · exact h.elim
  · exact h.elim
  · obtain ⟨n, r, hn, rfl⟩ := h
    obtain ⟨pre, rfl⟩ := hsuf _ rfl
    obtain ⟨hvalid, hsize⟩ := hv v rfl
    have hlt : v.bytes.length < 2 ^ 31 := lt_of_le_maxSize ((Nat.le_add_right _ 7).trans hsize)
    have hoff : (pre ++ elem n v r).length - (elem n v r).length = pre.length := by
      rw [List.length_append, Nat.add_sub_cancel]
    refine ⟨⟨.into buffer pre.length, n.length + 1, n.length + v.bytes.length + 2⟩, ?_,
      pre, n, r, hn, hvalid, hsize, rfl, rfl⟩
    simp only [hold, size_elem hn hvalid.framed hlt, fieldNameSize_elem hn, hoff, bind, Except.bind,
      pure, Except.pure]

theorem mapM_hold (buffer : Buffer) {arg : Bytes} : ∀ {es : List (Option Bytes)}
    {vs : List (Option Value)}, List.Forall₂ Holds es vs → (∀ e ∈ es, ∀ x ∈ e, x <:+ arg) →
    (∀ v ∈ vs, Sound v) →
    ∃ els, es.mapM (hold buffer arg) = .ok els ∧ List.Forall₂ (Stands buffer arg) els vs
  | [], [], _, _, _ => ⟨[], rfl, .nil⟩
  | e :: es, v :: vs, .cons h hs, hsuf, hv => by
    obtain ⟨el, he, hst⟩ := hold_stands buffer h (hsuf e List.mem_cons_self)
      (hv v List.mem_cons_self)
    obtain ⟨els, hes, hsts⟩ := mapM_hold buffer hs
      (fun e he => hsuf e (List.mem_cons_of_mem _ he)) fun v hm => hv v (List.mem_cons_of_mem _ hm)
    refine ⟨el :: els, ?_, .cons hst hsts⟩
    simp only [List.mapM_cons, he, hes, bind, Except.bind, pure, Except.pure]

/-- The elements of a vector point into the memory that is iterated over. -/
theorem arrayLoop_suffix {m : Bytes} : ∀ {fuel : ℕ} {i : BSONObjIterator}
    {es es' : List (Option Bytes)}, arrayLoop fuel i es = .ok es' → i.pos <:+ m →
    (∀ e ∈ es, ∀ x ∈ e, x <:+ m) → ∀ e ∈ es', ∀ x ∈ e, x <:+ m
  | 0, _, _, _, h, _, _ => by cases h
  | fuel + 1, i, es, es', h, hi, hes => by
    rw [arrayLoop] at h
    split_ifs at h with hm
    · rcases hn : i.next with x | ⟨e', i'⟩
      · simp [hn, bind, Except.bind] at h
      obtain ⟨rfl, hsuf⟩ := next_suffix hn
      simp only [hn, bind, Except.bind] at h
      rcases hp : parseNumberFromString (cstr (fieldName i.pos)) with _ | u
      · simp only [hp] at h
        exact arrayLoop_suffix h (hsuf.trans hi) hes
      · simp only [hp] at h
        split_ifs at h with hu
        refine arrayLoop_suffix h (hsuf.trans hi) fun e he x hx => ?_
        obtain ⟨k, hk⟩ := List.mem_iff_getElem?.mp he
        rw [getElem?_put] at hk
        split_ifs at hk with h1 h2
        · obtain rfl := Option.some.inj hk
          obtain rfl := Option.some.inj hx
          exact hi
        · obtain rfl := Option.some.inj hk
          cases hx
        · exact hes e (List.mem_of_getElem? hk) x hx
    · obtain rfl := Except.ok.inj h
      exact hes

theorem array_suffix {e : Bytes} {es : List (Option Bytes)} (h : ArrayVector.array e = .ok es) :
    ∀ x ∈ es, ∀ y ∈ x, y <:+ e := by
  unfold ArrayVector.array at h
  split_ifs at h with ht
  rcases ho : bsonObj (value e) with x | o
  · simp [ho, bind, Except.bind] at h
  simp only [ho, bind, Except.bind] at h
  have hoe : o <:+ e := by
    unfold bsonObj at ho
    split_ifs at ho
    obtain rfl := Except.ok.inj ho
    exact List.drop_suffix _ _
  exact arrayLoop_suffix h ((List.drop_suffix _ _).trans hoe) (by simp)

/-- The value of an entry leaves room for its frame in the document. -/
theorem mem_entries_fits : ∀ {d : Doc} {n : Bytes} {v : Value}, d.Valid → (n, v) ∈ entries d →
    Fits d.bytes.length v
  | .cons m w d, n, v, hd, h => by
    rw [entries, List.mem_cons, Prod.mk.injEq] at h
    rw [length_bytes, length_elems_cons]
    rcases h with ⟨-, rfl⟩ | h
    · exact ⟨hd.2.1, by omega⟩
    · obtain ⟨hv, hs⟩ := mem_entries_fits hd.2.2 h
      rw [length_bytes] at hs
      exact ⟨hv, by omega⟩

theorem slotsAt_sound (a : Stored) {path : Bytes} {vs : List (Option Value)}
    (h : slotsAt a.doc path = .ok vs) : ∀ v ∈ vs, Sound v := by
  intro v hv w hw
  obtain rfl : v = some w := hw
  rw [slotsAt] at h
  rcases hat : valueAt a.doc path with _ | u
  · rw [hat] at h
    obtain rfl := Except.ok.inj h
    cases hv
  have hfit : Fits a.doc.bytes.length u := findDotted_fits a.valid hat
  have hone : vs = [some u] → w.Valid ∧ w.bytes.length + 7 ≤ BSONObjMaxInternalSize := by
    rintro rfl
    obtain rfl := Option.some.inj (List.mem_singleton.mp hv)
    exact ⟨hfit.valid, hfit.size.trans a.size⟩
  rw [hat] at h
  cases u with
  | array e =>
    rcases mem_slotsFrom h hv with hs | ⟨n, hn⟩
    · cases hs
    · obtain ⟨hvalid, hsize⟩ := mem_entries_fits hfit.valid hn
      have he : e.bytes.length + 7 ≤ a.doc.bytes.length := hfit.size
      have ha := a.size
      exact ⟨hvalid, by omega⟩
  | _ => exact hone (Except.ok.inj h).symm

/-- **The first call keeps the vector of the elements under the path**, as pointers into the
argument. -/
theorem firstCall_bytes (toasted : Bool) (a : Stored) (r path : Bytes) :
    (∃ x, firstCall toasted path (a.bytes ++ r) = .error x ∧ slotsAt a.doc path = .error x) ∨
    ∃ els vs, firstCall toasted path (a.bytes ++ r) =
        .ok ⟨0, ⟨els, a.bytes⟩, a.bytes ++ r⟩ ∧ slotsAt a.doc path = .ok vs ∧
      List.Forall₂ (Stands (if toasted then .detoasted else .argument) (a.bytes ++ r)) els vs := by
  obtain ⟨e, he, hp⟩ := fieldAt_bytes a r path
  have ho : bsonObj (a.bytes ++ r) = .ok (a.bytes ++ r) := bsonObj_bytes a.size r
  have hret : returnBson (a.bytes ++ r) = a.bytes := returnBson_bytes a.size r
  have hcopy : bsonObj a.bytes = .ok a.bytes := by
    have h := bsonObj_bytes a.size []
    rwa [List.append_nil] at h
  have hsound : ∀ vs, slotsAt a.doc path = .ok vs → ∀ v ∈ vs, Sound v := fun _ => slotsAt_sound a
  simp only [firstCall, ho, hret, hcopy, he, bind, Except.bind, points_eoo hp]
  generalize (if toasted then Buffer.detoasted else Buffer.argument) = buffer
  rcases hat : valueAt a.doc path with _ | v
  · refine Or.inr ⟨[], [], ?_, by rw [slotsAt, hat], .nil⟩
    simp [pure, Except.pure]
  rw [hat] at hp
  obtain ⟨n, r', hn, rfl⟩ := hp
  have hfit : Fits a.doc.bytes.length v := findDotted_fits a.valid hat
  have hsuf : elem n v r' <:+ a.bytes ++ r := by
    rcases getFieldDotted_suffix he with h | h
    · exact h
    · have heoo : eoo (elem n v r') = true := h ▸ rfl
      rw [eoo_elem] at heoo
      cases heoo
  simp only [Option.isNone_some, Bool.false_eq_true, if_false, type_elem, Option.some.injEq]
  by_cases ht : v.type = .array
  · obtain ⟨d, rfl⟩ : ∃ d, v = .array d := by cases v <;> simp_all [Value.type]
    have hslots : slotsAt a.doc path = slots d := by rw [slotsAt, hat]
    have hsd : d.bytes.length ≤ BSONObjMaxInternalSize := by
      have hs : d.bytes.length + 7 ≤ a.doc.bytes.length := hfit.size
      have ha := a.size
      omega
    rw [hslots] at hsound ⊢
    simp only [if_pos ht]
    rcases array_elem hn hfit.valid.framed hsd r' with ⟨x, hx, hy⟩ | ⟨es, vs, hx, hy, hh⟩
    · exact Or.inl ⟨x, by simp [hx], hy⟩
    · obtain ⟨els, hels, hst⟩ := mapM_hold buffer hh
        (fun e he x hxe => (array_suffix hx e he x hxe).trans hsuf) (hsound vs hy)
      exact Or.inr ⟨els, vs, by simp [hx, hels, pure, Except.pure], hy, hst⟩
  · have hslots : slotsAt a.doc path = .ok [some v] := by
      rw [slotsAt, hat]
      cases v <;> first | rfl | exact (ht rfl).elim
    have hh : List.Forall₂ Holds [some (elem n v r')] [some v] := .cons ⟨n, r', hn, rfl⟩ .nil
    have hin : ∀ e ∈ [some (elem n v r')], ∀ x ∈ e, x <:+ a.bytes ++ r := by
      intro e he x hx
      obtain rfl := List.mem_singleton.mp he
      obtain rfl := Option.some.inj hx
      exact hsuf
    obtain ⟨els, hels, hst⟩ := mapM_hold buffer hh hin (hsound _ hslots)
    refine Or.inr ⟨els, [some v], ?_, hslots, hst⟩
    simp [if_neg ht, hels, pure, Except.pure]

end PgBson.Access.Unwind
