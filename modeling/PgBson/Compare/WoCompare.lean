import PgBson.Bson.Element

/-! # Comparison of documents

`bson_compare`, the support function of the B-tree operator class, and the driver's comparison under
it, as they walk over the bytes of the two documents. `BSONObj::woCompare` is always called here
with its defaults, no index key and field names considered. Comparing two objects recurses into
embedded objects; the recursion is bounded by the number of bytes, which it uses up, and the loop
over the elements of one object by the length word. -/

namespace PgBson.Compare.WoCompare

open PgBson.Lib.Sign PgBson.Lib.Memory PgBson.Lib.Binary64
open PgBson.Bson.Types PgBson.Bson.Element

/-- The branch `dodouble`: numbers of different types meet as doubles, NaN below all others. -/
def dodouble (l r : Bytes) : ℤ :=
  let left := number l
  let right := number r
  if left.lt right then -1
  else if left.eq right then 0
  else if left.isNaN then if right.isNaN then 0 else -1
  else 1

/-- The values of two elements of one sort class, by the type of the left one. -/
def compareElementValues (woCompare : Bytes → Bytes → Except Exc ℤ) (l r : Bytes) :
    Except Exc ℤ :=
  match type l with
  | some .eoo | some .undefined | some .jstNULL | some .maxKey | some .minKey => do
    let f := (← canonicalType l) - (← canonicalType r)
    return if f < 0 then -1 else if f = 0 then 0 else 1
  | some .bool => .ok (schar ((value l).headD 0) - schar ((value r).headD 0))
  | some .timestamp => .ok (order (date l).toNat (date r).toNat)
  | some .date => do
    let a ← Date l
    let b ← Date r
    return order a.toInt b.toInt
  | some .numberLong =>
    if type r = some .numberLong then
      .ok (order (bits64 (value l)).toInt (bits64 (value r)).toInt)
    else .ok (dodouble l r)
  | some .numberInt =>
    if type r = some .numberInt then .ok (order (int32 (value l)) (int32 (value r)))
    else .ok (dodouble l r)
  | some .numberDouble => .ok (dodouble l r)
  | some .jstOID => .ok (memcmp 12 (value l) (value r))
  | some .code | some .symbol | some .string =>
    let lsz := valuestrsize l
    let rsz := valuestrsize r
    .ok (first (memcmp (min lsz rsz).toNat (valuestr l) (valuestr r)) (lsz - rsz))
  | some .object | some .array => do
    let a ← embeddedObject l
    let b ← embeddedObject r
    woCompare a b
  | some .dbRef => do
    let lsz ← valuesize l
    let rsz ← valuesize r
    return first (lsz - rsz) (memcmp lsz.toNat (value l) (value r))
  | some .binData =>
    let lsz := int32 (value l)
    let rsz := int32 (value r)
    .ok (first (lsz - rsz) (memcmp (lsz + 1).toNat ((value l).drop 4) ((value r).drop 4)))
  | some .regEx => do
    let c := strcmp (← regex l) (← regex r)
    if c ≠ 0 then return c
    else return strcmp (← regexFlags l) (← regexFlags r)
  | some .codeWScope => do
    let f := (← canonicalType l) - (← canonicalType r)
    if f ≠ 0 then return f
    else
      let f := strcmp (← codeWScopeCode l) (← codeWScopeCode r)
      if f ≠ 0 then return f
      else return strcmp (← codeWScopeScopeDataUnsafe l) (← codeWScopeScopeDataUnsafe r)
  | none => .error .verifyFailed

/-- `BSONElement::woCompare`: sort class, field name, value. -/
def elementWoCompare (woCompare : Bytes → Bytes → Except Exc ℤ) (l r : Bytes) : Except Exc ℤ := do
  let x := (← canonicalType l) - (← canonicalType r)
  if x ≠ 0 ∧ (!isNumber l ∨ !isNumber r) then return x
  else
    let x := strcmp (fieldName l) (fieldName r)
    if x ≠ 0 then return x
    else compareElementValues woCompare l r

/-- The loop of `BSONObj::woCompare`. -/
def compareLoop (woCompare : Bytes → Bytes → Except Exc ℤ) :
    ℕ → BSONObjIterator → BSONObjIterator → Except Exc ℤ
  | 0, _, _ => .error .undefinedBehaviour
  | fuel + 1, i, j => do
    let (l, i) ← i.next
    let (r, j) ← j.next
    if eoo l then return if eoo r then 0 else -1
    else if eoo r then return 1
    else
      let x ← elementWoCompare woCompare l r
      if x ≠ 0 then return x else compareLoop woCompare fuel i j

/-- `BSONObj::woCompare`. -/
def woCompare : ℕ → Bytes → Bytes → Except Exc ℤ
  | 0, _, _ => .error .undefinedBehaviour
  | fuel + 1, l, r =>
    if isEmpty l then .ok (if isEmpty r then 0 else -1)
    else if isEmpty r then .ok 1
    else compareLoop (woCompare fuel) (objsize l).toNat (begin l) (begin r)

/-- The comparison of two `bson` values, given by the pointers to their data. -/
def bsonCompare (arg0 arg1 : Bytes) : Except Exc ℤ := do
  let object0 ← bsonObj arg0
  let object1 ← bsonObj arg1
  woCompare object0.length object0 object1

end PgBson.Compare.WoCompare
