import PgBson.Bson.Element
import PgBson.Json.Encoding
import PgBson.Lib.General

/-! # The text of a document

`bson_out` and the driver's `jsonString` under it, always in the strict format and not pretty, as
they walk over the bytes of a document. The text of an object grows in a `StringBuilder`, whose
buffer has a limit; the text of an element goes through a stream without one. -/

namespace PgBson.Json.Print

open PgBson.Lib.Memory PgBson.Lib.Binary64 PgBson.Lib.Decimal PgBson.Lib.General PgBson.Lib.Strtod
open PgBson.Bson.Types PgBson.Bson.Element PgBson.Json.Encoding

/-! ### Strings -/

/-- `StringBuilder::str`. The buffer only grows, so its limit is checked here and not at each
append. -/
def str (s : Bytes) : Except Exc Bytes :=
  if BufferMaxSize < s.length then .error (.msgasserted 13548) else .ok s

/-- The text of one character in `escape`. -/
def escapeChar (c : UInt8) : Bytes :=
  if c = 34 then [92, 34]
  else if c = 92 then [92, 92]
  else if c = 47 then [47]
  else if c = 8 then [92, 98]
  else if c = 12 then [92, 102]
  else if c = 10 then [92, 110]
  else if c = 13 then [92, 114]
  else if c = 9 then [92, 116]
  else if c ≤ 0x1f then ascii "\\u00" ++ hexByte c
  else [c]

def escape (s : Bytes) : Except Exc Bytes := str (s.flatMap escapeChar)

/-- A text in double quotes. -/
def quote (s : Bytes) : Bytes := 34 :: (s ++ [34])

/-- `string(valuestr(), valuestrsize() - 1)`. -/
def counted (e : Bytes) : Except Exc Bytes :=
  if valuestrsize e < 1 then .error .lengthError
  else .ok ((valuestr e).take (valuestrsize e - 1).toNat)

/-! ### Numbers -/

/-- `s << number()` with precision 16, for a double. -/
def doubleText (b : BitVec 64) : Bytes :=
  match Dbl.ofBits b with
  | .nan => ascii "NaN"
  | .inf neg => if neg then ascii "-Infinity" else ascii "Infinity"
  | .fin _ => formatReal 15 b.msb (units b * unit)

/-- The same for an `int`, which becomes a double without rounding. -/
def intText (z : ℤ) : Bytes := formatReal 15 (decide (z < 0)) z.natAbs

/-! ### Elements and objects -/

/-- `_asCode` on a `CodeWScope`. -/
def scopedCode (e : Bytes) : Except Exc Bytes :=
  if int32 (valuestr e) < 1 then .error .lengthError
  else .ok (((value e).drop 8).take (int32 (valuestr e) - 1).toNat)

def codeWScopeObject (e : Bytes) : Except Exc Bytes :=
  bsonObj ((value e).drop (8 + (int32 ((value e).drop 4)).toNat))

section containers
variable (valueJson : Bytes → Except Exc Bytes)

/-- `jsonString` of an element with its field name. -/
def elementJson (e : Bytes) : Except Exc Bytes := do
  let name ← escape (cstr (fieldName e))
  let v ← valueJson e
  return quote name ++ ascii " : " ++ v

/-- The loop of `BSONObj::jsonString` from an element on. -/
def objectLoop : ℕ → Bytes → BSONObjIterator → Except Exc Bytes
  | 0, _, _ => .error .undefinedBehaviour
  | fuel + 1, e, i => do
    let t ← elementJson valueJson e
    let (e, i) ← i.next
    if eoo e then return t
    else
      let u ← objectLoop fuel e i
      return t ++ ascii ", " ++ u

/-- `BSONObj::jsonString`. -/
def objectJson (o : Bytes) : Except Exc Bytes :=
  if isEmpty o then .ok (ascii "\x7b\x7d")
  else do
    let (e, i) ← (begin o).next
    if eoo e then str (ascii "\x7b  \x7d")
    else
      let t ← objectLoop valueJson (objsize o).toNat e i
      str (ascii "\x7b " ++ t ++ ascii " \x7d")

/-- The position that the name of an array element stands for: `strtol(e.fieldName(), 0, 10)`. -/
def index (name : Bytes) : ℤ := (strtoll name).value

/-- The text for positions of an array that are left out. -/
def fill (gap : ℕ) : Bytes := (List.replicate gap (ascii "undefined, ")).flatten

/-- The loop over an array from an element on. An `int` counts the positions. -/
def arrayLoop : ℕ → Bytes → BSONObjIterator → ℤ → Except Exc Bytes
  | 0, _, _, _ => .error .undefinedBehaviour
  | fuel + 1, e, i, count => do
    let gap := (index (cstr (fieldName e)) - count).toNat
    let t ← valueJson e
    let (e, i) ← i.next
    if 2 ^ 31 ≤ count + gap + 1 then .error .undefinedBehaviour
    else if eoo e then return fill gap ++ t
    else
      let u ← arrayLoop fuel e i (count + gap + 1)
      return fill gap ++ t ++ ascii ", " ++ u

/-- The text of an array. -/
def arrayJson (o : Bytes) : Except Exc Bytes :=
  if isEmpty o then .ok (ascii "[]")
  else do
    let (e, i) ← (begin o).next
    if eoo e then return ascii "[  ]"
    else
      let t ← arrayLoop valueJson (objsize o).toNat e i 0
      return ascii "[ " ++ t ++ ascii " ]"

end containers

/-- `jsonString` of an element without its field name. -/
def valueJson : ℕ → Bytes → Except Exc Bytes
  | 0, _ => .error .undefinedBehaviour
  | fuel + 1, e =>
    match type e with
    | some .string | some .symbol => do
      let s ← counted e
      return quote (← escape s)
    | some .numberLong => .ok (decimalInt (bits64 (value e)).toInt)
    | some .numberInt => .ok (intText (int32 (value e)))
    | some .numberDouble => .ok (doubleText (bits64 (value e)))
    | some .bool => .ok (if (value e).headD 0 = 0 then ascii "false" else ascii "true")
    | some .jstNULL => .ok (ascii "null")
    | some .undefined => .ok (ascii "\x7b \"$undefined\" : true \x7d")
    | some .object => do
      let o ← embeddedObject e
      objectJson (valueJson fuel) o
    | some .array => do
      let o ← embeddedObject e
      arrayJson (valueJson fuel) o
    | some .dbRef =>
      .ok (ascii "\x7b \"$ref\" : \"" ++ cstr (valuestr e) ++ ascii "\", \"$id\" : \"" ++
        toHexLower (((valuestr e).drop (valuestrsize e).toNat).take 12) ++ ascii "\" \x7d")
    | some .jstOID =>
      .ok (ascii "\x7b \"$oid\" : \"" ++ toHexLower ((value e).take 12) ++ ascii "\" \x7d")
    | some .binData =>
      .ok (ascii "\x7b \"$binary\" : \"" ++
        encode (((value e).drop 5).take (int32 (value e)).toNat) ++
        ascii "\", \"$type\" : \"" ++ hexByte (((value e).drop 4).headD 0) ++ ascii "\" \x7d")
    | some .date =>
      .ok (ascii "\x7b \"$date\" : " ++ decimalInt (date e).toInt ++ ascii " \x7d")
    | some .regEx => do
      let pat ← escape (cstr (← regex e))
      return ascii "\x7b \"$regex\" : \"" ++ pat ++ ascii "\", \"$options\" : \"" ++
        cstr (← regexFlags e) ++ ascii "\" \x7d"
    | some .codeWScope => do
      let scope ← codeWScopeObject e
      let code ← scopedCode e
      if isEmpty scope then return code
      else
        let t ← objectJson (valueJson fuel) scope
        return ascii "\x7b \"$code\" : " ++ code ++ ascii " ,  \"$scope\" : " ++ t ++ ascii " \x7d"
    | some .code => counted e
    | some .timestamp =>
      .ok (ascii "\x7b \"$timestamp\" : \x7b \"t\" : " ++ decimal (word 4 ((value e).drop 4)) ++
        ascii ", \"i\" : " ++ decimal (word 4 (value e)) ++ ascii " \x7d \x7d")
    | some .minKey => .ok (ascii "\x7b \"$minKey\" : 1 \x7d")
    | some .maxKey => .ok (ascii "\x7b \"$maxKey\" : 1 \x7d")
    | some .eoo | none => .error (.msgasserted 10312)

/-- `bson_out`: the text with its terminator. -/
def bsonOut (arg : Bytes) : Except Exc Bytes := do
  let object ← bsonObj arg
  let json ← objectJson (valueJson object.length) object
  return json ++ [0]

end PgBson.Json.Print
