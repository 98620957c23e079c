import PgBson.Bson.Element
import PgBson.Json.Encoding
import PgBson.Lib.Parsing

/-! # The text parser

`JParse`, the recursive-descent parser of `mongo/db/json.cpp`, method by method. The pointer
`_input` is the text that remains; an error status carries its message and the pointer at that
moment, from which `fromjson` makes the offset. A method appends at most one element to the builder
it is given, under the field name it is given, so it is modelled by the value it appends;
`constructor` ignores the status of `date` and may append nothing.

The recursion of `value` and the two loops run on fuel. `Accepts.lean` shows that the length of the
text is enough. -/

namespace PgBson.Json.Parse

open PgBson.Lib.Memory PgBson.Lib.Decimal PgBson.Lib.Strtod PgBson.Lib.Parsing
open PgBson.Bson.Types PgBson.Bson.Document PgBson.Bson.Element PgBson.Json.Encoding

/-- A method of the parser. -/
abbrev JParse := Parse Exc

/-! ### Characters and tokens -/

def ALPHA : Bytes := ascii "ABCDEFGHIJKLMNOPQRSTUVWXYZabcdefghijklmnopqrstuvwxyz"

def DIGIT : Bytes := ascii "0123456789"

def JOPTIONS : Bytes := ascii "gims"

def LBRACE : Bytes := [123]

def RBRACE : Bytes := [125]

def LBRACKET : Bytes := [91]

def RBRACKET : Bytes := [93]

def LPAREN : Bytes := [40]

def RPAREN : Bytes := [41]

def COLON : Bytes := [58]

def COMMA : Bytes := [44]

def FORWARDSLASH : Bytes := [47]

def SINGLEQUOTE : Bytes := [39]

def DOUBLEQUOTE : Bytes := [34]

/-- `accept(token)`: skip white space and the token, if it is there. -/
def accept (token : Bytes) : JParse Bool := fun i =>
  match token.isPrefixOf? (i.dropWhile isspace) with
  | some j => .ok true j
  | none => .ok false i

/-- `accept(token, false)`: only look. -/
def peek (token : Bytes) : JParse Bool := fun i =>
  .ok (token.isPrefixOf? (i.dropWhile isspace)).isSome i

/-- `if (!accept(token)) return parseError(msg)`. -/
def expect (token : Bytes) (msg : String) : JParse Unit := do
  if ← accept token then return ()
  else fail (ascii msg)

/-- `match`: `strchr`, which also finds the NUL at the end of the set. -/
def matchSet (c : UInt8) (set : Bytes) : Bool := set ≠ [] && (c = 0 || set.contains c)

/-! ### Strings -/

/-- The character of a one-letter escape. -/
def escaped (c : UInt8) : Except Bytes UInt8 :=
  if c = 98 then .ok 8
  else if c = 102 then .ok 12
  else if c = 110 then .ok 10
  else if c = 114 then .ok 13
  else if c = 116 then .ok 9
  else if c = 118 then .ok 11
  else if c = 120 then .error (ascii "Hex escape not supported")
  else if 48 ≤ c ∧ c ≤ 55 then .error (ascii "Octal escape not supported")
  else .ok c

/-- The loop of `chars`: the characters up to the end of the string, and what remains. -/
def charsLoop (terminalSet : Bytes) (allowedSet : Option Bytes) :
    Bytes → Except Bytes (Bytes × Bytes)
  | [] => .error (ascii "Unexpected end of input")
  | c :: q =>
    if matchSet c terminalSet then .ok ([], c :: q)
    else if allowedSet.any fun set => !matchSet c set then .ok ([], c :: q)
    else if c ≤ 0x1F then .error (ascii "Invalid control character")
    else if c = 92 ∧ q ≠ [] then
      match q with
      | [] => .error []
      | 117 :: h0 :: h1 :: h2 :: h3 :: q =>
        -- There must be a character behind the four digits.
        if q ≠ [] ∧ isHexString [h0, h1, h2, h3] then do
          let (s, r) ← charsLoop terminalSet allowedSet q
          return (encodeUTF8 (fromHex h0 h1) (fromHex h2 h3) ++ s, r)
        else .error (ascii "Expecting 4 hex digits")
      | c :: q =>
        if c = 117 then .error (ascii "Expecting 4 hex digits")
        else do
          let d ← escaped c
          let (s, r) ← charsLoop terminalSet allowedSet q
          return (d :: s, r)
    else do
      let (s, r) ← charsLoop terminalSet allowedSet q
      return (c :: s, r)

/-- `chars`: on an error the pointer stays at the start of the string. -/
def chars (terminalSet : Bytes) (allowedSet : Option Bytes) : JParse Bytes := fun i =>
  match charsLoop terminalSet allowedSet i with
  | .ok (s, j) => .ok s j
  | .error msg => .fail msg i

def quotedString : JParse Bytes := do
  if ← accept DOUBLEQUOTE then
    let s ← chars DOUBLEQUOTE none
    expect DOUBLEQUOTE "Expecting '\"'"
    return s
  else if ← accept SINGLEQUOTE then
    let s ← chars SINGLEQUOTE none
    expect SINGLEQUOTE "Expecting '''"
    return s
  else fail (ascii "Expecting quoted string")

/-- The unquoted key of `field`. -/
def unquoted : JParse Bytes := fun i =>
  match i.dropWhile isspace with
  | [] => .fail (ascii "Field name expected") []
  | c :: j =>
    if matchSet c (ALPHA ++ ascii "_$") then
      chars [] (some (ALPHA ++ DIGIT ++ ascii "_$")) (c :: j)
    else .fail (ascii "First character in field must be [A-Za-z$_]") (c :: j)

def field : JParse Bytes := do
  if ← peek DOUBLEQUOTE then quotedString
  else if ← peek SINGLEQUOTE then quotedString
  else unquoted

/-- `acceptField`: a failure of `field` only means no. -/
def acceptField (expectedField : Bytes) : JParse Bool := do
  return (← attempt field) = some expectedField

/-- `if (!acceptField(name)) return parseError(msg)`. -/
def expectField (name : String) (msg : String) : JParse Unit := do
  if ← acceptField (ascii name) then return ()
  else fail (ascii msg)

/-! ### Numbers -/

/-- `number`: a double unless `strtoll` reads as far as `strtod` and stays in range. -/
def number (rt : Runtime) : JParse Value := fun i =>
  let d := strtod rt i
  if d.endptr = i then .fail (ascii "Bad characters in value") i
  else if d.erange then .fail (ascii "Value cannot fit in double") i
  else
    let ll := strtoll i
    let v : Value :=
      if d.endptr.length < ll.endptr.length ∨ ll.erange then .numberDouble d.value
      else if ll.value = (BitVec.ofInt 32 ll.value).toInt then .numberInt (.ofInt 32 ll.value)
      else .numberLong (.ofInt 64 ll.value)
    if d.endptr = [] then .fail (ascii "Trailing number at end of input") []
    else .ok v d.endptr

/-- The milliseconds of a date: `strtoll`, and `strtoull` when that is out of range. -/
def millis : JParse (BitVec 64) := fun i =>
  let s := strtoll i
  if s.endptr = i then .fail (ascii "Date expecting integer milliseconds") i
  else if s.erange then
    let u := strtoull i
    if u.erange then .fail (ascii "Date milliseconds overflow") i
    else .ok u.value u.endptr
  else .ok (.ofInt 64 s.value) s.endptr

/-- One half of a timestamp: `strtoul`, cut to 32 bits. -/
def half (negative overflow expecting : String) : JParse (BitVec 32) := do
  if ← accept (ascii "-") then fail (ascii negative)
  else fun i =>
    let s := strtoull i
    if s.erange then .fail (ascii overflow) i
    else if s.endptr = i then .fail (ascii expecting) i
    else .ok (s.value.setWidth 32) s.endptr

/-- `appendTimestamp`: the increment in the low half, the seconds in the high one. -/
def appendTimestamp (secs inc : BitVec 32) : Value := .timestamp (secs ++ inc)

/-! ### Special objects and constructors -/

/-- The checks of an id, and the id. -/
def oid (id : Bytes) : JParse Value :=
  if h : id.length = 24 then
    if isHexString id then return .jstOID ⟨hexBytes id, by rw [length_hexBytes, h]⟩
    else fail (ascii "Expecting hex digits: " ++ id)
  else fail (ascii "Expecting 24 hex digits: " ++ id)

def objectIdObject : JParse Value := do
  expect COLON "Expected ':'"
  let id ← quotedString
  oid id

def isBase64String (s : Bytes) : Bool := s.all fun c => matchSet c base64Chars

def badBinDataType : Bytes :=
  ascii "Argument of $type in $bindata object must be a hex string representation" ++
    ascii " of a single byte"

def binaryObject : JParse Value := do
  expect COLON "Expected ':'"
  let binDataString ← quotedString
  if binDataString.length % 4 ≠ 0 then fail (ascii "Invalid length base64 encoded string")
  else if !isBase64String binDataString then
    fail (ascii "Invalid character in base64 encoded string")
  else
    expect COMMA "Expected ','"
    expectField "$type" "Expected second field name: \"$type\", in \"$binary\" object"
    expect COLON "Expected ':'"
    let binDataType ← quotedString
    match binDataType with
    | [c0, c1] =>
      if isHexString [c0, c1] then return .binData (fromHex c0 c1) (decode binDataString)
      else fail badBinDataType
    | _ => fail badBinDataType

def dateObject : JParse Value := do
  expect COLON "Expected ':'"
  return .date (← millis)

def timestampObject : JParse Value := do
  expect COLON "Expecting ':'"
  expect LBRACE "Expecting '\x7b' to start \"$timestamp\" object"
  expectField "t" "Expected field name \"t\" in \"$timestamp\" sub object"
  expect COLON "Expecting ':'"
  let seconds ← half "Negative seconds in \"$timestamp\"" "Timestamp seconds overflow"
    "Expecting unsigned integer seconds in \"$timestamp\""
  expect COMMA "Expecting ','"
  expectField "i" "Expected field name \"i\" in \"$timestamp\" sub object"
  expect COLON "Expecting ':'"
  let count ← half "Negative increment in \"$timestamp\"" "Timestamp increment overflow"
    "Expecting unsigned integer increment in \"$timestamp\""
  expect RBRACE "Expecting '\x7d'"
  return appendTimestamp seconds count

/-- `regexOptCheck`: the first bad option is reported. -/
def regexOptCheck (opt : Bytes) : JParse Unit :=
  match opt.find? fun c => !matchSet c JOPTIONS with
  | none => return ()
  | some c => fail (ascii "Bad regex option: " ++ [c])

def regexObject : JParse Value := do
  expect COLON "Expecting ':'"
  let pat ← quotedString
  if ← accept COMMA then
    expectField "$options" "Expected field name: \"$options\" in \"$regex\" object"
    expect COLON "Expecting ':'"
    let opt ← quotedString
    regexOptCheck opt
    return .regEx pat opt
  else return .regEx pat []

def undefinedObject : JParse Value := do
  expect COLON "Expecting ':'"
  expect (ascii "true") "Reserved field \"$undefined\" requires value of true"
  return .undefined

def date : JParse Value := do
  expect LPAREN "Expecting '('"
  let date ← millis
  expect RPAREN "Expecting ')'"
  return .date date

/-- `constructor`: the status of `date` is dropped, so nothing may have been appended. -/
def constructor : JParse (Option Value) := do
  if ← accept (ascii "Date") then attempt date
  else fail (ascii "\"new\" keyword not followed by Date constructor")

def timestamp : JParse Value := do
  expect LPAREN "Expecting '('"
  let seconds ← half "Negative seconds in \"$timestamp\"" "Timestamp seconds overflow"
    "Expecting unsigned integer seconds in \"$timestamp\""
  expect COMMA "Expecting ','"
  let count ← half "Negative seconds in \"$timestamp\"" "Timestamp increment overflow"
    "Expecting unsigned integer increment in \"$timestamp\""
  expect RPAREN "Expecting ')'"
  return appendTimestamp seconds count

def objectId : JParse Value := do
  expect LPAREN "Expecting '('"
  let id ← quotedString
  expect RPAREN "Expecting ')'"
  oid id

def regex : JParse Value := do
  expect FORWARDSLASH "Expecting '/'"
  let pat ← chars FORWARDSLASH none
  expect FORWARDSLASH "Expecting '/'"
  let opt ← chars [] (some JOPTIONS)
  regexOptCheck opt
  return .regEx pat opt

/-! ### Objects, arrays and values -/

/-- One more element, if there is one. -/
def append (name : Bytes) (v : Option Value) (d : Doc) : Doc :=
  match v with
  | some v => .cons name v d
  | none => d

section containers
variable (value : JParse (Option Value))

/-- The sub-object that both forms of a reference append. -/
def refObject (ns : Bytes) (id : Option Value) : JParse Value := do
  let d ← lift (done (.cons (ascii "$ref") (.string (ns ++ [0])) (append (ascii "$id") id .nil)))
  return .object d

def dbRefObject : JParse Value := do
  expect COLON "Expecting ':'"
  let ns ← quotedString
  expect COMMA "Expecting ','"
  expectField "$id" "Expected field name: \"$id\" in \"$ref\" object"
  expect COLON "Expecting ':'"
  let id ← value
  refObject ns id

def dbRef : JParse Value := do
  expect LPAREN "Expecting '('"
  let ns ← quotedString
  expect COMMA "Expecting ','"
  let id ← value
  expect RPAREN "Expecting ')'"
  refObject ns id

/-- The pairs of an object after the first: `while (accept(COMMA))`. -/
def pairs : ℕ → JParse Doc
  | 0 => stuck
  | fuel + 1 => do
    if ← accept COMMA then
      let fieldName ← field
      expect COLON "Expecting ':'"
      let v ← value
      let d ← pairs fuel
      return append fieldName v d
    else return .nil

/-- What stands for the value of an object whose first field name is reserved. -/
def special (firstField : Bytes) : Option (JParse Value) :=
  if firstField = ascii "$oid" then some objectIdObject
  else if firstField = ascii "$binary" then some binaryObject
  else if firstField = ascii "$date" then some dateObject
  else if firstField = ascii "$timestamp" then some timestampObject
  else if firstField = ascii "$regex" then some regexObject
  else if firstField = ascii "$ref" then some (dbRefObject value)
  else if firstField = ascii "$undefined" then some undefinedObject
  else none

/-- `object`: in the base object the pairs go to the builder itself, and no special object may
stand for it. -/
def object (fuel : ℕ) (subObject : Bool) : JParse Value := do
  expect LBRACE "Expecting '\x7b'"
  if ← accept RBRACE then return .object .nil
  else
    let firstField ← field
    match special value firstField with
    | some p =>
      if subObject then
        let v ← p
        expect RBRACE "Expecting '\x7d' or ','"
        return v
      else fail (ascii "Reserved field name in base object: " ++ firstField)
    | none =>
      expect COLON "Expecting ':'"
      let v ← value
      let d ← pairs value fuel
      expect RBRACE "Expecting '\x7d' or ','"
      return .object (append firstField v d)

/-- The elements of an array from an index on: `do … while (accept(COMMA))`. -/
def elements : ℕ → ℕ → JParse Doc
  | 0, _ => stuck
  | fuel + 1, index => do
    let v ← value
    if ← accept COMMA then
      let d ← elements fuel (index + 1)
      return append (decimal index) v d
    else return append (decimal index) v .nil

def array (fuel : ℕ) : JParse Value := do
  expect LBRACKET "Expecting '['"
  if ← peek RBRACKET then
    let d ← lift (done .nil)
    expect RBRACKET "Expecting ']' or ','"
    return .array d
  else
    let d ← elements value fuel 0
    let d ← lift (done d)
    expect RBRACKET "Expecting ']' or ','"
    return .array d

end containers

/-- The bits of `std::numeric_limits<double>::quiet_NaN()`. -/
def quietNaN : BitVec 64 := 0x7ff8000000000000

/-- `value`: the value that is appended, if any. -/
def value (rt : Runtime) : ℕ → JParse (Option Value)
  | 0 => stuck
  | fuel + 1 => do
    if ← peek LBRACE then return some (← object (value rt fuel) fuel true)
    else if ← peek LBRACKET then return some (← array (value rt fuel) fuel)
    else if ← accept (ascii "new") then constructor
    else if ← accept (ascii "Date") then return some (← date)
    else if ← accept (ascii "Timestamp") then return some (← timestamp)
    else if ← accept (ascii "ObjectId") then return some (← objectId)
    else if ← accept (ascii "Dbref") then return some (← dbRef (value rt fuel))
    else if ← accept (ascii "DBRef") then return some (← dbRef (value rt fuel))
    else if ← peek FORWARDSLASH then return some (← regex)
    else if ← peek DOUBLEQUOTE then return some (.string ((← quotedString) ++ [0]))
    else if ← peek SINGLEQUOTE then return some (.string ((← quotedString) ++ [0]))
    else if ← accept (ascii "true") then return some (.bool 1)
    else if ← accept (ascii "false") then return some (.bool 0)
    else if ← accept (ascii "null") then return some .jstNULL
    else if ← accept (ascii "undefined") then return some .undefined
    else if ← accept (ascii "NaN") then return some (.numberDouble quietNaN)
    else if ← accept (ascii "Infinity") then
      return some (.numberDouble (toBits false overflowUnits))
    else if ← accept (ascii "-Infinity") then
      return some (.numberDouble (toBits true overflowUnits))
    else return some (← number rt)

/-! ### The document of a text -/

/-- The pairs of the base object. -/
def basePairs : Value → Doc
  | .object d => d
  | _ => .nil

/-- The message of the exception that `fromjson` throws for an error status. A code is put on a
stream as its `errorString`, so it is written twice. -/
def statusMessage (jsonString msg input : Bytes) : Bytes :=
  ascii "code FailedToParse: FailedToParse: " ++ msg ++ ascii ": offset:" ++
    decimal (jsonString.length - input.length)

/-- `fromjson`: the document, or the exception with its message if it has one. Text behind the
object is not looked at. -/
def fromjson (rt : Runtime) (jsonString : Bytes) : Except (Exc × Bytes) Doc :=
  if jsonString = [] then .ok .nil
  else
    match object (value rt jsonString.length) jsonString.length false jsonString with
    | .ok v _ => (obj (basePairs v)).mapError fun e => (e, [])
    | .fail msg input => .error (.msgasserted 16619, statusMessage jsonString msg input)
    | .throws e => .error (e, [])
    | .stuck => .error (.undefinedBehaviour, [])

/-- `bson_in`: the stored bytes; every exception becomes one report. -/
def bsonIn (rt : Runtime) (arg : Bytes) : Except Report Bytes :=
  match fromjson rt (cstr arg) with
  | .ok d => .ok (returnBson d.bytes)
  | .error _ => .error ⟨.invalidTextRepresentation, "invalid input syntax for BSON"⟩

end PgBson.Json.Parse
