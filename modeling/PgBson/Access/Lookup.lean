import PgBson.Bson.Element

/-! # Field access

The lookup of a dotted path and the two accessors built on it, `bson_get_bson` and
`bson_array_size`, as they walk over the bytes of a document; then the same lookup on documents and
the theorems that the code computes it (`bsonGetBson_bytes`, `bsonArraySize_bytes`).

A path is first tried as a literal name; only if there is no such field is it split at its first
dot, and the lookup goes on in the field named by the left part, if this is an object or an array
and not empty. Duplicate names resolve to the first one. -/

namespace PgBson.Access.Lookup

open PgBson.Lib.Memory PgBson.Bson.Types PgBson.Bson.Document PgBson.Bson.Element

/-! ### The code -/

/-- The element of the default constructor, `EOO`. -/
def eooElement : Bytes := [0]

/-- The loop of `getField`. -/
def getFieldLoop (name : Bytes) : ℕ → BSONObjIterator → Except Exc Bytes
  | 0, _ => .error .undefinedBehaviour
  | fuel + 1, i =>
    if i.more then do
      let (e, i) ← i.next
      if cstr (fieldName e) = name then return e else getFieldLoop name fuel i
    else return eooElement

/-- `BSONObj::getField`: the first element of that name. -/
def getField (o name : Bytes) : Except Exc Bytes := getFieldLoop name (objsize o).toNat (begin o)

/-- The object of the default constructor, five bytes without an element. -/
def emptyObj : Bytes := frame []

/-- `BSONObj::getObjectField`: the embedded object of that name, or an empty one. -/
def getObjectField (o name : Bytes) : Except Exc Bytes := do
  let e ← getField o name
  if type e = some .object ∨ type e = some .array then embeddedObject e else return emptyObj

/-- The part of a path before its first dot. -/
def beforeDot (name : Bytes) : Bytes := name.takeWhile (· ≠ 46)

/-- The part of a path behind its first dot. -/
def afterDot (name : Bytes) : Bytes := name.drop ((beforeDot name).length + 1)

/-- `BSONObj::getFieldDotted`. A path gets shorter with every dot. -/
def getFieldDotted : ℕ → Bytes → Bytes → Except Exc Bytes
  | 0, _, _ => .error .undefinedBehaviour
  | fuel + 1, o, name => do
    let e ← getField o name
    if eoo e ∧ 46 ∈ name then
      let sub ← getObjectField o (beforeDot name)
      if isEmpty sub then return eooElement else getFieldDotted fuel sub (afterDot name)
    else return e

/-- The element under a path, which is handed over as a C string. -/
def fieldAt (o path : Bytes) : Except Exc Bytes :=
  getFieldDotted (path.length + 1) o (cstr (path ++ [0]))

/-- The bytes of an element as `appendAs` writes them under another name. -/
def appendAs (e name : Bytes) : Except Exc Bytes :=
  match type e with
  | none | some .eoo => .error .verifyFailed
  | some t => do
    let n ← valuesize e
    return t.byte :: (name ++ 0 :: (value e).take n.toNat)

/-- `BSONObjBuilder::obj`: the object around the elements that were appended. -/
def obj (elems : Bytes) : Except Exc Bytes := bsonObj (frame elems)

/-- `bson_get_bson`; `none` is SQL NULL. -/
def bsonGetBson (arg path : Bytes) : Except Exc (Option Bytes) := do
  let object ← bsonObj arg
  let el ← fieldAt object path
  if eoo el then return none
  else if type el = some .object then
    let o ← embeddedObject el
    return some (returnBson o)
  else
    let b ← appendAs el []
    let o ← obj b
    return some (returnBson o)

/-- The loop of `nFields`. -/
def nFieldsLoop : ℕ → BSONObjIterator → ℤ → Except Exc ℤ
  | 0, _, _ => .error .undefinedBehaviour
  | fuel + 1, i, n =>
    if i.moreWithEOO then do
      let (e, i) ← i.next
      if eoo e then return n else nFieldsLoop fuel i (n + 1)
    else return n

/-- `BSONObj::nFields`. -/
def nFields (o : Bytes) : Except Exc ℤ := nFieldsLoop (objsize o).toNat (begin o) 0

/-- `bson_array_size`; `none` is SQL NULL. -/
def bsonArraySize (arg path : Bytes) : Except Exc (Option ℤ) := do
  let object ← bsonObj arg
  let el ← fieldAt object path
  if eoo el then return none
  else if type el = some .array then
    let o ← embeddedObject el
    let n ← nFields o
    return some n
  else return some 1

/-! ### Lookup in documents -/

/-- The first value under a name. -/
def find : Doc → Bytes → Option Value
  | .nil, _ => none
  | .cons n v d, name => if n = name then some v else find d name

/-- The elements of an object or an array. -/
def fields : Value → Doc
  | .object d | .array d => d
  | _ => .nil

/-- The value under a dotted path. -/
def findDotted : ℕ → Doc → Bytes → Option Value
  | 0, _, _ => none
  | fuel + 1, d, name =>
    match find d name with
    | some v => some v
    | none =>
      if 46 ∈ name then
        match find d (beforeDot name) with
        | some v => findDotted fuel (fields v) (afterDot name)
        | none => none
      else none

/-- The value under a path. -/
def valueAt (d : Doc) (path : Bytes) : Option Value :=
  findDotted (path.length + 1) d (cstr (path ++ [0]))

/-- A value as a document: an object itself, anything else under an empty name. -/
def asDoc : Value → Doc
  | .object d => d
  | v => .cons [] v .nil

/-- The number of fields. -/
def count : Doc → ℕ
  | .nil => 0
  | .cons _ _ d => count d + 1

/-- The number of elements of an array; anything else counts as one. -/
def sizeOf : Value → ℤ
  | .array d => count d
  | _ => 1

/-! ### The code computes the lookup -/

/-- An element pointer stands for a value that was found, `EOO` for none. -/
def Points (e : Bytes) : Option Value → Prop
  | none => e = eooElement
  | some v => ∃ n r, 0 ∉ n ∧ e = elem n v r

/-- What a lookup finds is valid and leaves room for its frame in the document. -/
structure Fits (k : ℕ) (v : Value) : Prop where
  valid : v.Valid
  size : v.bytes.length + 7 ≤ k

/-- What is found stands in the document with its type byte and its name. -/
theorem find_size : ∀ {d : Doc} {name : Bytes} {v : Value}, find d name = some v →
    v.bytes.length + 7 ≤ d.bytes.length
  | .cons n w d, name, v, h => by
    rw [find] at h
    rw [length_bytes, length_elems_cons]
    split_ifs at h with hn
    · injection h with h
      subst h
      omega
    · have ih := find_size h
      rw [length_bytes] at ih
      omega

theorem find_valid : ∀ {d : Doc} {name : Bytes} {v : Value}, d.Valid → find d name = some v →
    v.Valid
  | .cons n w d, name, v, hd, h => by
    rw [find] at h
    split_ifs at h with hn
    · injection h with h
      exact h ▸ hd.2.1
    · exact find_valid hd.2.2 h

theorem find_fits {d : Doc} {name : Bytes} {v : Value} (hd : d.Valid) (h : find d name = some v) :
    Fits d.bytes.length v :=
  ⟨find_valid hd h, find_size h⟩

theorem fields_valid {v : Value} (h : v.Valid) : (fields v).Valid := by
  cases v <;> first | exact h | trivial

theorem length_fields_le (v : Value) : (fields v).bytes.length ≤ v.bytes.length + 5 := by
  cases v <;> simp [fields, Value.bytes, Doc.elems]

theorem getFieldLoop_iter (name r : Bytes) : ∀ {fuel : ℕ} {d : Doc}, d.Framed →
    d.elems.length < fuel → d.elems.length < 2 ^ 31 →
    ∃ e, getFieldLoop name fuel (iter d r) = .ok e ∧ Points e (find d name)
  | 0, _, _, hf, _ => by omega
  | fuel + 1, .nil, _, _, _ => ⟨eooElement, rfl, rfl⟩
  | fuel + 1, .cons n v d, hd, hf, hs => by
    rw [length_elems_cons] at hf hs
    have hv : v.bytes.length < 2 ^ 31 := by omega
    simp only [getFieldLoop, more_cons, if_true, next_cons hd.1 hd.2.1 hv, bind, Except.bind,
      cstr_fieldName_elem hd.1, find, pure, Except.pure]
    split_ifs with hn
    · exact ⟨_, rfl, n, body d r, hd.1, rfl⟩
    · exact getFieldLoop_iter name r hd.2.2 (by omega) (by omega)

theorem getField_bytes {d : Doc} (hd : d.Framed) (hs : d.bytes.length ≤ BSONObjMaxInternalSize)
    (r name : Bytes) : ∃ e, getField (d.bytes ++ r) name = .ok e ∧ Points e (find d name) := by
  have hl := lt_of_le_maxSize hs
  rw [getField, objsize_bytes hl, begin_bytes hl, Int.toNat_natCast]
  rw [length_bytes] at hl ⊢
  exact getFieldLoop_iter name r hd (by omega) (by omega)

theorem points_eoo {e : Bytes} {o : Option Value} (h : Points e o) : eoo e = o.isNone := by
  cases o with
  | none =>
    rw [show e = eooElement from h]
    rfl
  | some v =>
    obtain ⟨n, r, -, rfl⟩ := h
    simp

theorem getObjectField_bytes {d : Doc} (hd : d.Valid)
    (hs : d.bytes.length ≤ BSONObjMaxInternalSize) (r name : Bytes) :
    ∃ r', getObjectField (d.bytes ++ r) name =
      .ok ((((find d name).map fields).getD .nil).bytes ++ r') := by
  obtain ⟨e, he, hp⟩ := getField_bytes hd.framed hs r name
  simp only [getObjectField, he, bind, Except.bind]
  cases hf : find d name with
  | none =>
    rw [hf] at hp
    rw [show e = eooElement from hp]
    exact ⟨[], rfl⟩
  | some v =>
    rw [hf] at hp
    obtain ⟨n, r', hn, rfl⟩ := hp
    have hv : v.bytes.length ≤ BSONObjMaxInternalSize := by
      have := (find_fits hd hf).size
      omega
    refine ⟨if isABSONObj (elem n v r') then r' else [], ?_⟩
    cases v
    case object d' =>
      rw [if_pos (by simp [Value.type]), embeddedObject_object hn hv]
      simp [isABSONObj, Value.type, fields]
    case array d' =>
      rw [if_pos (by simp [Value.type]), embeddedObject_array hn hv]
      simp [isABSONObj, Value.type, fields]
    all_goals
      rw [if_neg (by simp [Value.type])]
      simp [isABSONObj, Value.type, fields, emptyObj, Doc.bytes, Doc.elems, pure, Except.pure]

theorem findDotted_nil : ∀ (fuel : ℕ) (name : Bytes), findDotted fuel .nil name = none
  | 0, _ => rfl
  | fuel + 1, name => by simp [findDotted, find]

theorem length_afterDot_lt {name : Bytes} (h : 46 ∈ name) :
    (afterDot name).length < name.length := by
  have := List.length_pos_of_mem h
  simp only [afterDot, List.length_drop]
  omega

/-- **Induction along a path**: what holds of a document passes to the values found in it, and from
a value to its fields. -/
theorem findDotted_induct {P : Doc → Prop} {Q : Value → Prop}
    (hfind : ∀ {d : Doc} {name : Bytes} {v : Value}, P d → find d name = some v → Q v)
    (hfields : ∀ {v : Value}, Q v → P (fields v)) : ∀ {fuel : ℕ} {d : Doc} {name : Bytes}
    {v : Value}, P d → findDotted fuel d name = some v → Q v
  | 0, _, _, _, _, h => by simp [findDotted] at h
  | fuel + 1, d, name, v, hd, h => by
    rw [findDotted] at h
    split at h
    · next w hw =>
      injection h with h
      subst h
      exact hfind hd hw
    · split_ifs at h with hdot
      split at h
      · next w hw => exact findDotted_induct hfind hfields (hfields (hfind hd hw)) h
      · cases h

/-- What is found under a path fits in the document. -/
theorem findDotted_fits {fuel : ℕ} {d : Doc} {name : Bytes} {v : Value} (hd : d.Valid)
    (h : findDotted fuel d name = some v) : Fits d.bytes.length v := by
  refine findDotted_induct (P := fun e => e.Valid ∧ e.bytes.length ≤ d.bytes.length) ?_ ?_
    ⟨hd, le_rfl⟩ h
  · rintro e n w ⟨he, hle⟩ hw
    exact ⟨find_valid he hw, (find_size hw).trans hle⟩
  · intro w hw
    have hlen := length_fields_le w
    have hsize := hw.size
    exact ⟨fields_valid hw.valid, by omega⟩

/-- **`getFieldDotted` points at the value that `findDotted` finds.** -/
theorem getFieldDotted_bytes : ∀ {fuel : ℕ} {d : Doc} (r : Bytes) (name : Bytes), d.Valid →
    d.bytes.length ≤ BSONObjMaxInternalSize → name.length < fuel →
    ∃ e, getFieldDotted fuel (d.bytes ++ r) name = .ok e ∧ Points e (findDotted fuel d name)
  | 0, _, _, _, _, _, hf => by omega
  | fuel + 1, d, r, name, hd, hs, hf => by
    obtain ⟨e, he, hp⟩ := getField_bytes hd.framed hs r name
    simp only [getFieldDotted, he, points_eoo hp, findDotted, bind, Except.bind, pure, Except.pure]
    cases hfind : find d name with
    | some v =>
      rw [hfind] at hp
      exact ⟨e, by simp, hp⟩
    | none =>
      rw [hfind] at hp
      by_cases hdot : 46 ∈ name
      · -- The name is split: the lookup goes on in the embedded object, if there is one.
        obtain ⟨r', ho⟩ := getObjectField_bytes hd hs r (beforeDot name)
        simp only [Option.isNone_none, hdot, and_self, if_true, ho]
        cases hsub : find d (beforeDot name) with
        | none =>
          have hem : isEmpty (Doc.nil.bytes ++ r') = true := isEmpty_bytes (by decide) r'
          exact ⟨eooElement, by simp [hem], rfl⟩
        | some w =>
          have hfit := find_fits hd hsub
          have hsw : (fields w).bytes.length ≤ BSONObjMaxInternalSize := by
            have := length_fields_le w
            have := hfit.size
            omega
          have hem := isEmpty_bytes (lt_of_le_maxSize hsw) r'
          have hlen := length_afterDot_lt hdot
          obtain ⟨e', he', hp'⟩ := getFieldDotted_bytes r' (afterDot name)
            (fields_valid hfit.valid) hsw (show _ < fuel by omega)
          simp only [Option.map_some, Option.getD_some, hem, decide_eq_true_eq]
          split_ifs with hnil
          · rw [hnil, findDotted_nil]
            exact ⟨eooElement, rfl, rfl⟩
          · exact ⟨e', he', hp'⟩
      · simp only [Option.isNone_none, hdot, and_false, if_false]
        exact ⟨e, rfl, hp⟩

/-! ### Elements point into the object -/

theorem next_suffix {i i' : BSONObjIterator} {e : Bytes} (h : i.next = .ok (e, i')) :
    e = i.pos ∧ i'.pos <:+ i.pos := by
  unfold BSONObjIterator.next at h
  split_ifs at h with hm
  rcases hs : size i.pos with x | n
  · simp [hs, bind, Except.bind] at h
  · simp only [hs, bind, Except.bind] at h
    split_ifs at h with hn
    simp only [pure, Except.pure, Except.ok.injEq, Prod.mk.injEq] at h
    obtain ⟨rfl, rfl⟩ := h
    exact ⟨rfl, List.drop_suffix _ _⟩

theorem getFieldLoop_suffix {name : Bytes} : ∀ {fuel : ℕ} {i : BSONObjIterator} {e : Bytes},
    getFieldLoop name fuel i = .ok e → e <:+ i.pos ∨ e = eooElement
  | 0, _, _, h => by cases h
  | fuel + 1, i, e, h => by
    rw [getFieldLoop] at h
    split_ifs at h with hm
    · rcases hn : i.next with x | ⟨e', i'⟩
      · simp [hn, bind, Except.bind] at h
      · obtain ⟨rfl, hsuf⟩ := next_suffix hn
        simp only [hn, bind, Except.bind] at h
        split_ifs at h with hname
        · obtain rfl := Except.ok.inj h
          exact Or.inl List.suffix_rfl
        · exact (getFieldLoop_suffix h).imp_left fun hs => hs.trans hsuf
    · exact Or.inr (Except.ok.inj h).symm

theorem getField_suffix {o name e : Bytes} (h : getField o name = .ok e) :
    e <:+ o ∨ e = eooElement :=
  (getFieldLoop_suffix h).imp_left fun hs => hs.trans (List.drop_suffix _ _)

theorem embeddedObject_suffix {e o : Bytes} (h : embeddedObject e = .ok o) : o <:+ e := by
  unfold embeddedObject bsonObj at h
  split_ifs at h
  obtain rfl := Except.ok.inj h
  exact List.drop_suffix _ _

/-- **An element that is found points into the object.** -/
theorem getFieldDotted_suffix : ∀ {fuel : ℕ} {o name e : Bytes},
    getFieldDotted fuel o name = .ok e → e <:+ o ∨ e = eooElement
  | 0, _, _, _, h => by cases h
  | fuel + 1, o, name, e, h => by
    rw [getFieldDotted] at h
    rcases hg : getField o name with x | e'
    · simp [hg, bind, Except.bind] at h
    simp only [hg, bind, Except.bind] at h
    split_ifs at h with hsplit
    · rcases hs : getObjectField o (beforeDot name) with x | sub
      · simp [hs] at h
      simp only [hs] at h
      split_ifs at h with hem
      · exact Or.inr (Except.ok.inj h).symm
      · -- The embedded object lies in the element, and the empty one was caught above.
        refine (getFieldDotted_suffix h).imp_left fun he => he.trans ?_
        unfold getObjectField at hs
        rcases hl : getField o (beforeDot name) with x | l
        · simp [hl, bind, Except.bind] at hs
        simp only [hl, bind, Except.bind] at hs
        split_ifs at hs with ht
        · rcases getField_suffix hl with hlo | rfl
          · exact (embeddedObject_suffix hs).trans hlo
          · cases hs
        · obtain rfl := Except.ok.inj hs
          exact (hem rfl).elim
    · obtain rfl := Except.ok.inj h
      exact getField_suffix hg

theorem length_cstr_lt (path : Bytes) : (cstr (path ++ [0])).length < path.length + 1 := by
  have h := congrArg List.length (cstr_append_afterCstr (p := path ++ [0]) (by simp))
  simp only [List.length_append, List.length_cons, List.length_nil] at h
  omega

theorem fieldAt_bytes (a : Stored) (r path : Bytes) :
    ∃ e, fieldAt (a.bytes ++ r) path = .ok e ∧ Points e (valueAt a.doc path) :=
  getFieldDotted_bytes r _ a.valid a.size (length_cstr_lt path)

theorem appendAs_elem {n : Bytes} {v : Value} (hn : 0 ∉ n) (hf : v.Framed)
    (hs : v.bytes.length < 2 ^ 31) (r name : Bytes) :
    appendAs (elem n v r) name = .ok (v.type.byte :: (name ++ 0 :: v.bytes)) := by
  have ht := v.type_ne_eoo
  rw [appendAs, type_elem, valuesize_elem hn hf hs, value_elem hn]
  cases h : v.type <;> simp_all [bind, Except.bind, pure, Except.pure]

/-- A value fits as a document of its own. -/
theorem asDoc_valid {v : Value} (h : v.Valid) : (asDoc v).Valid := by
  cases v <;> first | exact h | exact ⟨by simp, h, trivial⟩

theorem length_asDoc_le (v : Value) : (asDoc v).bytes.length ≤ v.bytes.length + 7 := by
  cases v <;> simp [asDoc, Value.bytes, Doc.elems]

/-- **`bsonGetBson` returns the value under the path as a document, or NULL.** -/
theorem bsonGetBson_bytes (a : Stored) (r path : Bytes) :
    bsonGetBson (a.bytes ++ r) path =
      .ok ((valueAt a.doc path).map fun v => (asDoc v).bytes) := by
  obtain ⟨e, he, hp⟩ := fieldAt_bytes a r path
  have ho : bsonObj (a.bytes ++ r) = .ok (a.bytes ++ r) := bsonObj_bytes a.size r
  simp only [bsonGetBson, ho, he, points_eoo hp, bind, Except.bind, pure, Except.pure]
  cases hv : valueAt a.doc path with
  | none => rfl
  | some v =>
    rw [hv] at hp
    obtain ⟨n, r', hn, rfl⟩ := hp
    have hfit : Fits a.doc.bytes.length v := findDotted_fits a.valid hv
    have hsa := a.size
    have hsv : v.bytes.length + 7 ≤ BSONObjMaxInternalSize := hfit.size.trans hsa
    simp only [type_elem, Option.isNone_some, Bool.false_eq_true, if_false, Option.some.injEq,
      Option.map_some]
    by_cases ht : v.type = .object
    · obtain ⟨d, rfl⟩ : ∃ d, v = .object d := by cases v <;> simp_all [Value.type]
      have hsd : d.bytes.length ≤ BSONObjMaxInternalSize := (Nat.le_add_right _ 7).trans hsv
      simp only [if_pos ht, embeddedObject_object hn hsd, returnBson_bytes hsd, asDoc]
    · have hd : asDoc v = .cons [] v .nil := by cases v <;> first | rfl | exact (ht rfl).elim
      have hsd : (asDoc v).bytes.length ≤ BSONObjMaxInternalSize :=
        (length_asDoc_le v).trans hsv
      have hb : frame (v.type.byte :: ([] ++ 0 :: v.bytes)) = (asDoc v).bytes ++ [] := by
        simp [hd, Doc.bytes, Doc.elems]
      have happ := appendAs_elem hn hfit.valid.framed (lt_of_le_maxSize (by omega)) r' []
      simp only [if_neg ht, happ, obj, hb, bsonObj_bytes hsd, returnBson_bytes hsd]

theorem nFieldsLoop_iter (r : Bytes) : ∀ {fuel : ℕ} {d : Doc} (n : ℤ), d.Valid →
    d.elems.length < fuel → d.elems.length < 2 ^ 31 →
    nFieldsLoop fuel (iter d r) n = .ok (n + count d)
  | 0, _, _, _, hf, _ => by omega
  | fuel + 1, .nil, n, _, _, _ => by
    simp only [nFieldsLoop, next_nil, bind, Except.bind, count, Nat.cast_zero, add_zero]
    rfl
  | fuel + 1, .cons m v d, n, hd, hf, hs => by
    rw [length_elems_cons] at hf hs
    have hv : v.bytes.length < 2 ^ 31 := by omega
    simp only [nFieldsLoop, moreWithEOO_iter, if_true, next_cons hd.1 hd.2.1.framed hv, bind,
      Except.bind, eoo_elem, Bool.false_eq_true, if_false]
    rw [nFieldsLoop_iter r (n + 1) hd.2.2 (by omega) (by omega), count]
    congr 1
    push_cast
    omega

theorem nFields_bytes {d : Doc} (hd : d.Valid) (hs : d.bytes.length ≤ BSONObjMaxInternalSize)
    (r : Bytes) : nFields (d.bytes ++ r) = .ok (count d) := by
  have hl := lt_of_le_maxSize hs
  rw [nFields, objsize_bytes hl, begin_bytes hl, Int.toNat_natCast]
  rw [length_bytes] at hl ⊢
  rw [nFieldsLoop_iter r 0 hd (by omega) (by omega), zero_add]

/-- **`bsonArraySize` counts the array under the path**, or answers NULL. -/
theorem bsonArraySize_bytes (a : Stored) (r path : Bytes) :
    bsonArraySize (a.bytes ++ r) path = .ok ((valueAt a.doc path).map sizeOf) := by
  obtain ⟨e, he, hp⟩ := fieldAt_bytes a r path
  have ho : bsonObj (a.bytes ++ r) = .ok (a.bytes ++ r) := bsonObj_bytes a.size r
  simp only [bsonArraySize, ho, he, points_eoo hp, bind, Except.bind, pure, Except.pure]
  cases hv : valueAt a.doc path with
  | none => rfl
  | some v =>
    rw [hv] at hp
    obtain ⟨n, r', hn, rfl⟩ := hp
    have hfit : Fits a.doc.bytes.length v := findDotted_fits a.valid hv
    have hsv : v.bytes.length + 7 ≤ BSONObjMaxInternalSize := hfit.size.trans a.size
    simp only [type_elem, Option.isNone_some, Bool.false_eq_true, if_false, Option.some.injEq,
      Option.map_some]
    by_cases ht : v.type = .array
    · obtain ⟨d, rfl⟩ : ∃ d, v = .array d := by cases v <;> simp_all [Value.type]
      have hsd : d.bytes.length ≤ BSONObjMaxInternalSize := (Nat.le_add_right _ 7).trans hsv
      simp only [if_pos ht, embeddedObject_array hn hsd, nFields_bytes hfit.valid hsd, sizeOf]
    · have hd : sizeOf v = 1 := by cases v <;> first | rfl | exact (ht rfl).elim
      simp only [if_neg ht, hd]

end PgBson.Access.Lookup
