import PgBson.Bson.Document
import PgBson.Lib.Binary64

/-! # Objects and elements in memory

The accessors of `BSONObj`, `BSONElement` and `BSONObjIterator`. An object or an element is the
pointer it wraps, that is the memory from it on; the accessors follow the length words and NULs they
find there and check next to nothing. On bytes that are no document they may leave the object, and
the model then stops with `Exc.undefinedBehaviour` where a pointer would move backwards.

The second half says what the accessors find in the bytes of a document, whatever lies in memory
behind it: `next_cons` and `next_nil` for a step of the iterator, `size_elem` for the size of an
element, `value_elem` for its value. -/

namespace PgBson.Bson.Element

open PgBson.Lib.Memory PgBson.Lib.Binary64 PgBson.Bson.Types PgBson.Bson.Document

/-! ### BSONObj -/

/-- The length word of an object. -/
def objsize (o : Bytes) : ℤ := int32 o

/-- The cursory check every `BSONObj` constructor makes. -/
def isValid (o : Bytes) : Bool := 0 < objsize o ∧ objsize o ≤ BSONObjMaxInternalSize

/-- The constructor of a `BSONObj` on a pointer. -/
def bsonObj (o : Bytes) : Except Exc Bytes :=
  if isValid o then .ok o else .error (.msgasserted 10334)

def isEmpty (o : Bytes) : Bool := objsize o ≤ 5

/-- `return_bson`: the bytes of an object. -/
def returnBson (o : Bytes) : Bytes := o.take (objsize o).toNat

/-- `BSONObjBuilder::done`: the object around the appended elements, with the size check of its
constructor. -/
def done (d : Doc) : Except Exc Doc := do
  let _ ← bsonObj d.bytes
  return d

/-- `BSONObjBuilder::obj` on a builder with a buffer of its own. The buffer only grows, so its limit
is checked here and not at each append; four bytes in front of the object are a reference count. -/
def obj (d : Doc) : Except Exc Doc :=
  if BufferMaxSize < 4 + d.bytes.length then .error (.msgasserted 13548) else done d

/-! ### BSONElement -/

/-- The type byte, if it is an enumerator. -/
def type (e : Bytes) : Option BSONType := e.head?.bind BSONType.ofByte

def eoo (e : Bytes) : Bool := type e = some .eoo

/-- The sort class of an element; `verify(0)` on an unknown type. -/
def canonicalType (e : Bytes) : Except Exc ℤ :=
  match type e with
  | some t => .ok (canonicalizeBSONType t)
  | none => .error .verifyFailed

def isNumber (e : Bytes) : Bool :=
  match type e with
  | some .numberLong | some .numberDouble | some .numberInt => true
  | _ => false

/-- The pointer to the name; EOO has the empty one. -/
def fieldName (e : Bytes) : Bytes := if eoo e then [0] else e.drop 1

def fieldNameSize (e : Bytes) : ℕ := if eoo e then 0 else (cstr (fieldName e)).length + 1

/-- The pointer to the value. -/
def value (e : Bytes) : Bytes := e.drop (fieldNameSize e + 1)

def valuestrsize (e : Bytes) : ℤ := int32 (value e)

def valuestr (e : Bytes) : Bytes := (value e).drop 4

/-- The bytes of an element's value as `size` finds them, by the rule of its type. -/
def payloadSize (e : Bytes) : Except Exc ℤ :=
  match type e with
  | some .eoo | some .undefined | some .jstNULL | some .maxKey | some .minKey => .ok 0
  | some .bool => .ok 1
  | some .numberInt => .ok 4
  | some .timestamp | some .date | some .numberDouble | some .numberLong => .ok 8
  | some .jstOID => .ok 12
  | some .symbol | some .code | some .string => .ok (valuestrsize e + 4)
  | some .dbRef => .ok (valuestrsize e + 4 + 12)
  | some .codeWScope | some .object | some .array => .ok (int32 (value e))
  | some .binData => .ok (valuestrsize e + 4 + 1)
  | some .regEx => .ok ((cstr (value e)).length + 1 + (cstr (afterCstr (value e))).length + 1)
  | none => .error (.msgasserted 10320)

/-- The bytes of a whole element. -/
def size (e : Bytes) : Except Exc ℤ := do
  let x ← payloadSize e
  return x + fieldNameSize e + 1

def valuesize (e : Bytes) : Except Exc ℤ := do
  let x ← size e
  return x - fieldNameSize e - 1

/-- The value of a number, as a double; 0 for anything else. -/
def number (e : Bytes) : Dbl :=
  match type e with
  | some .numberDouble => Dbl.ofBits (bits64 (value e))
  | some .numberInt => Dbl.ofInt (int32 (value e))
  | some .numberLong => Dbl.ofInt (bits64 (value e)).toInt
  | _ => .fin 0

/-- The eight bytes of a date or a timestamp. -/
def date (e : Bytes) : BitVec 64 := bits64 (value e)

/-- `Date()`: the same after `chk(mongo::Date)`. -/
def Date (e : Bytes) : Except Exc (BitVec 64) :=
  if type e = some .date then .ok (date e) else .error (.msgasserted 13111)

def isABSONObj (e : Bytes) : Bool :=
  match type e with
  | some .object | some .array => true
  | _ => false

def embeddedObject (e : Bytes) : Except Exc Bytes :=
  if isABSONObj e then bsonObj (value e) else .error .verifyFailed

def regex (e : Bytes) : Except Exc Bytes :=
  if type e = some .regEx then .ok (value e) else .error .verifyFailed

def regexFlags (e : Bytes) : Except Exc Bytes := do
  let p ← regex e
  return afterCstr p

def codeWScopeCode (e : Bytes) : Except Exc Bytes :=
  if type e = some .codeWScope then .ok ((value e).drop 8) else .error (.msgasserted 16177)

/-- What follows the first NUL of the code, scope or not. -/
def codeWScopeScopeDataUnsafe (e : Bytes) : Except Exc Bytes := do
  let p ← codeWScopeCode e
  return afterCstr p

/-! ### BSONObjIterator -/

/-- An iterator: the pointer to the next element and its distance from the last byte. -/
structure BSONObjIterator where
  pos : Bytes
  left : ℤ

def begin (o : Bytes) : BSONObjIterator := ⟨o.drop 4, objsize o - 1 - 4⟩

def BSONObjIterator.more (i : BSONObjIterator) : Bool := 0 < i.left

def BSONObjIterator.moreWithEOO (i : BSONObjIterator) : Bool := 0 ≤ i.left

/-- The element under the iterator, and the iterator behind it. -/
def BSONObjIterator.next (i : BSONObjIterator) : Except Exc (Bytes × BSONObjIterator) :=
  if i.moreWithEOO then do
    let n ← size i.pos
    if n ≤ 0 then .error .undefinedBehaviour
    else return (i.pos, ⟨i.pos.drop n.toNat, i.left - n⟩)
  else .error .verifyFailed

/-! ### The bytes of a document -/

/-- An element in memory, with `r` behind it. -/
def elem (n : Bytes) (v : Value) (r : Bytes) : Bytes := v.type.byte :: (n ++ 0 :: (v.bytes ++ r))

/-- The elements of a document in memory, with its EOO byte and `r` behind them. -/
def body (d : Doc) (r : Bytes) : Bytes := d.elems ++ 0 :: r

@[simp] theorem body_nil (r : Bytes) : body .nil r = 0 :: r := rfl

@[simp] theorem body_cons (n : Bytes) (v : Value) (d : Doc) (r : Bytes) :
    body (.cons n v d) r = elem n v (body d r) := by
  simp [body, elem, Doc.elems]

section elem
variable {n : Bytes} {v : Value} {r : Bytes}

@[simp] theorem type_elem : type (elem n v r) = some v.type := by simp [type, elem]

@[simp] theorem eoo_elem : eoo (elem n v r) = false := by simp [eoo, Value.type_ne_eoo]

theorem fieldName_elem : fieldName (elem n v r) = n ++ 0 :: (v.bytes ++ r) := by
  rw [fieldName, eoo_elem]
  rfl

theorem cstr_fieldName_elem (hn : 0 ∉ n) : cstr (fieldName (elem n v r)) = n := by
  rw [fieldName_elem, cstr_append _ hn]

theorem fieldNameSize_elem (hn : 0 ∉ n) : fieldNameSize (elem n v r) = n.length + 1 := by
  simp [fieldNameSize, cstr_fieldName_elem hn]

theorem value_elem (hn : 0 ∉ n) : value (elem n v r) = v.bytes ++ r := by
  rw [value, fieldNameSize_elem hn, elem, List.drop_succ_cons, ← List.singleton_append,
    ← List.append_assoc]
  exact List.drop_left' (by simp)

/-- The size of the value is found by the rule of its type. -/
theorem payloadSize_elem (hn : 0 ∉ n) (hf : v.Framed) (hs : v.bytes.length < 2 ^ 31) :
    payloadSize (elem n v r) = .ok v.bytes.length := by
  unfold payloadSize valuestrsize
  rw [type_elem, value_elem hn]
  cases v
  case minKey | maxKey | undefined | jstNULL | bool | numberInt | timestamp | date | numberDouble
      | numberLong => simp [Value.type, Value.bytes]
  case jstOID i => simp [Value.type, Value.bytes, i.size]
  case string s | code s | symbol s =>
    have hl : s.length < 2 ^ 31 := by simp [Value.bytes] at hs; omega
    simp [Value.type, Value.bytes, int32_of_lt hl, add_comm]
  case dbRef ns i =>
    have hl : ns.length < 2 ^ 31 := by simp [Value.bytes] at hs; omega
    simp [Value.type, Value.bytes, int32_of_lt hl, i.size]
    omega
  case binData t data =>
    have hl : data.length < 2 ^ 31 := by simp [Value.bytes] at hs; omega
    simp [Value.type, Value.bytes, int32_of_lt hl]
    omega
  case object d | array d =>
    have hl : d.elems.length + 5 < 2 ^ 31 := by simpa [Value.bytes] using hs
    simp [Value.type, Value.bytes, frame, int32_of_lt hl]
    omega
  case codeWScope c d =>
    have hl : 8 + c.length + (d.elems.length + 5) < 2 ^ 31 := by
      simp [Value.bytes] at hs; omega
    simp [Value.type, Value.bytes, int32_of_lt hl]
    omega
  case regEx x f =>
    simp [Value.type, Value.bytes, cstr_append _ hf.1, afterCstr_append _ hf.1, cstr_append _ hf.2]
    omega

theorem size_elem (hn : 0 ∉ n) (hf : v.Framed) (hs : v.bytes.length < 2 ^ 31) :
    size (elem n v r) = .ok (n.length + v.bytes.length + 2) := by
  simp only [size, payloadSize_elem hn hf hs, fieldNameSize_elem hn, bind, Except.bind, pure,
    Except.pure]
  congr 1
  push_cast
  omega

end elem

/-- The iterator over a document in memory. -/
def iter (d : Doc) (r : Bytes) : BSONObjIterator := ⟨body d r, d.elems.length⟩

theorem objsize_bytes {d : Doc} (hs : d.bytes.length < 2 ^ 31) (r : Bytes) :
    objsize (d.bytes ++ r) = d.bytes.length := by
  have hl : d.elems.length + 5 < 2 ^ 31 := by simpa using hs
  rw [length_bytes, objsize, Doc.bytes, frame, List.append_assoc, int32_of_lt hl]

theorem begin_bytes {d : Doc} (hs : d.bytes.length < 2 ^ 31) (r : Bytes) :
    begin (d.bytes ++ r) = iter d r := by
  have hp : (d.bytes ++ r).drop 4 = body d r := by
    rw [Doc.bytes, frame, List.append_assoc, List.drop_left' (length_le _ _), body]
    simp
  rw [begin, iter, objsize_bytes hs, hp, length_bytes]
  congr 1
  push_cast
  omega

theorem next_nil (r : Bytes) : (iter .nil r).next = .ok (0 :: r, ⟨r, -1⟩) := by
  simp [iter, BSONObjIterator.next, BSONObjIterator.moreWithEOO, Doc.elems, size, payloadSize,
    type, fieldNameSize, eoo, BSONType.ofByte, bind, Except.bind, pure, Except.pure]

theorem more_cons (n : Bytes) (v : Value) (d : Doc) (r : Bytes) :
    (iter (.cons n v d) r).more = true := by
  simp only [iter, BSONObjIterator.more, length_elems_cons, decide_eq_true_eq]
  push_cast
  omega

theorem moreWithEOO_iter (d : Doc) (r : Bytes) : (iter d r).moreWithEOO = true := by
  simp only [iter, BSONObjIterator.moreWithEOO, decide_eq_true_eq, Int.natCast_nonneg]

/-- **One step of the iterator over a document**: the first element, then the rest. -/
theorem next_cons {n : Bytes} {v : Value} {d : Doc} (hn : 0 ∉ n) (hf : v.Framed)
    (hs : v.bytes.length < 2 ^ 31) (r : Bytes) :
    (iter (.cons n v d) r).next = .ok (elem n v (body d r), iter d r) := by
  have hp : (elem n v (body d r)).drop (n.length + v.bytes.length + 2) = body d r := by
    have he : elem n v (body d r) = (v.type.byte :: (n ++ 0 :: v.bytes)) ++ body d r := by
      simp [elem]
    rw [he, List.drop_left' (by simp; omega)]
  have hz : (((n.length : ℤ) + v.bytes.length + 2)).toNat = n.length + v.bytes.length + 2 := by
    omega
  rw [BSONObjIterator.next, if_pos (moreWithEOO_iter _ r)]
  simp only [iter, body_cons, size_elem hn hf hs, bind, Except.bind, pure, Except.pure, hz, hp]
  rw [if_neg (by omega), length_elems_cons]
  congr 3
  push_cast
  omega

theorem isEmpty_bytes {d : Doc} (hs : d.bytes.length < 2 ^ 31) (r : Bytes) :
    isEmpty (d.bytes ++ r) = decide (d = .nil) := by
  unfold isEmpty
  rw [objsize_bytes hs, length_bytes]
  cases d with
  | nil => rfl
  | cons n v d =>
    simp only [length_elems_cons, reduceCtorEq, decide_false, decide_eq_false_iff_not, not_le]
    push_cast
    omega

theorem bsonObj_bytes {d : Doc} (hs : d.bytes.length ≤ BSONObjMaxInternalSize) (r : Bytes) :
    bsonObj (d.bytes ++ r) = .ok (d.bytes ++ r) := by
  have ho := objsize_bytes (lt_of_le_maxSize hs) r
  have hv : isValid (d.bytes ++ r) = true := by
    simp only [isValid, ho, decide_eq_true_eq, Nat.cast_pos, Nat.cast_le]
    exact ⟨by simp, hs⟩
  rw [bsonObj, if_pos hv]

theorem returnBson_bytes {d : Doc} (hs : d.bytes.length ≤ BSONObjMaxInternalSize) (r : Bytes) :
    returnBson (d.bytes ++ r) = d.bytes := by
  rw [returnBson, objsize_bytes (lt_of_le_maxSize hs), Int.toNat_natCast, List.take_left']
  rfl

theorem done_ok {d : Doc} (hs : d.bytes.length ≤ BSONObjMaxInternalSize) : done d = .ok d := by
  have h := bsonObj_bytes hs []
  rw [List.append_nil] at h
  rw [done, h]
  rfl

theorem eq_of_done {d d' : Doc} (h : done d = .ok d') : d' = d := by
  unfold done at h
  rcases hb : bsonObj d.bytes with e | o
  · rw [hb] at h
    cases h
  · rw [hb] at h
    simpa [bind, Except.bind, pure, Except.pure, eq_comm] using h

theorem obj_ok {d : Doc} (hs : d.bytes.length ≤ BSONObjMaxInternalSize) : obj d = .ok d := by
  have hbuf : ¬ BufferMaxSize < 4 + d.bytes.length := by
    unfold BSONObjMaxInternalSize BSONObjMaxUserSize at hs
    unfold BufferMaxSize
    omega
  rw [obj, if_neg hbuf, done_ok hs]

/-- What `obj` returns is within the size limit. -/
theorem size_of_obj {d d' : Doc} (h : obj d = .ok d') :
    d' = d ∧ d.bytes.length ≤ BSONObjMaxInternalSize := by
  unfold obj at h
  split_ifs at h with hbuf
  have hlt : d.bytes.length < 2 ^ 31 := by
    unfold BufferMaxSize at hbuf
    omega
  have hsize := objsize_bytes hlt []
  rw [List.append_nil] at hsize
  refine ⟨eq_of_done h, ?_⟩
  unfold done bsonObj at h
  split_ifs at h with hv
  · simp only [isValid, hsize, decide_eq_true_eq] at hv
    exact_mod_cast hv.2
  · cases h

theorem valuesize_elem {n : Bytes} {v : Value} (hn : 0 ∉ n) (hf : v.Framed)
    (hs : v.bytes.length < 2 ^ 31) (r : Bytes) :
    valuesize (elem n v r) = .ok v.bytes.length := by
  simp only [valuesize, size_elem hn hf hs, fieldNameSize_elem hn, bind, Except.bind, pure,
    Except.pure]
  congr 1
  push_cast
  omega

theorem embeddedObject_object {n : Bytes} (hn : 0 ∉ n) {d : Doc}
    (hs : d.bytes.length ≤ BSONObjMaxInternalSize) (r : Bytes) :
    embeddedObject (elem n (.object d) r) = .ok (d.bytes ++ r) := by
  rw [embeddedObject, value_elem hn, ← bsonObj_bytes hs r]
  simp [isABSONObj, Value.type, Value.bytes, Doc.bytes]

theorem embeddedObject_array {n : Bytes} (hn : 0 ∉ n) {d : Doc}
    (hs : d.bytes.length ≤ BSONObjMaxInternalSize) (r : Bytes) :
    embeddedObject (elem n (.array d) r) = .ok (d.bytes ++ r) := by
  rw [embeddedObject, value_elem hn, ← bsonObj_bytes hs r]
  simp [isABSONObj, Value.type, Value.bytes, Doc.bytes]

end PgBson.Bson.Element
