import PgBson.Access.Lookup
import PgBson.Json.Text

/-! # Typed access

`bson_get_text`, `bson_get_int`, `bson_get_bigint` and `bson_get_double`: the element under a path,
converted by the rule of its type. Each is `bson_get` with a `convert_element` of its own. A type
without a conversion and an exception inside the conversion are reported with the path and the name
of the type; other exceptions leave the function.

On the bytes of a document the accessors return what the conversion makes of the value that is found
there (`bsonGet_bytes`). -/

namespace PgBson.Access.Get

open PgBson.Lib.Memory PgBson.Lib.Binary64 PgBson.Lib.Decimal PgBson.Lib.General PgBson.Lib.Strtod
open PgBson.Bson.Types PgBson.Bson.Document PgBson.Bson.Element
open PgBson.Json.Encoding PgBson.Json.Print PgBson.Json.Text
open PgBson.Access.Lookup

/-! ### The code -/

/-- What the conversions take from other libraries. -/
structure Library where
  /-- `to_iso_extended_string` of the time that many milliseconds after the start of 1970, or
  `what()` of the exception it ends in. -/
  isoExtended : BitVec 64 → Except Bytes Bytes
  /-- Its texts are digits, letters and punctuation. -/
  isoExtended_ascii : ∀ {millis s}, isoExtended millis = .ok s → ∀ c ∈ s, 0 < c ∧ c < 128
  /-- `what()` of an exception. -/
  what : Exc → Bytes

/-- A library in which every time is out of range. -/
def Library.timeless : Library where
  isoExtended _ := .error (ascii "Year is out of valid range: 1400..10000")
  isoExtended_ascii h := by cases h
  what _ := ascii "std::exception"

/-- How a conversion fails: a `convertion_error`, or a `std::exception` with its text. -/
inductive ConvertError
  | convertionError (targetType : Bytes)
  | exception (what : Bytes)
  deriving DecidableEq

/-- A double on a stream with its default precision. -/
def streamDouble (b : BitVec 64) : Bytes :=
  match Dbl.ofBits b with
  | .nan => signText b.msb ++ ascii "nan"
  | .inf neg => signText neg ++ ascii "inf"
  | .fin _ => formatReal 5 b.msb (units b * unit)

/-- `boolean`. -/
def boolean (e : Bytes) : Bool := (value e).headD 0 ≠ 0

/-- `convert_element<std::string>`. -/
def convertText (lib : Library) (e : Bytes) : Except ConvertError Bytes :=
  match type e with
  | some .string | some .dbRef | some .symbol =>
    (counted e).mapError fun x => .exception (lib.what x)
  | some .numberDouble => .ok (streamDouble (bits64 (value e)))
  | some .jstOID => .ok (toHexLower ((value e).take 12))
  | some .bool => .ok (if boolean e then ascii "true" else ascii "false")
  | some .date => (lib.isoExtended (date e)).mapError .exception
  | some .regEx => ((regex e).map cstr).mapError fun x => .exception (lib.what x)
  | some .numberInt => .ok (decimalInt (int32 (value e)))
  | some .numberLong => .ok (decimalInt (bits64 (value e)).toInt)
  | _ => .error (.convertionError (ascii "text"))

/-- `convert_element<int>`. -/
def convertInt (e : Bytes) : Except ConvertError ℤ :=
  match type e with
  | some .numberInt => .ok (int32 (value e))
  | _ => .error (.convertionError (ascii "int4"))

/-- `static_cast<double>` of an `int`, which is exact. -/
def doubleOfInt (z : ℤ) : BitVec 64 := toBits (decide (z < 0)) (z.natAbs * 2 ^ unitExp)

/-- `convert_element<double>`: the bits of the result. -/
def convertDouble (e : Bytes) : Except ConvertError (BitVec 64) :=
  match type e with
  | some .numberDouble => .ok (bits64 (value e))
  | some .numberInt => .ok (doubleOfInt (int32 (value e)))
  | _ => .error (.convertionError (ascii "float8"))

/-- `convert_element<int64>`. -/
def convertBigint (e : Bytes) : Except ConvertError ℤ :=
  match type e with
  | some .numberLong => .ok (bits64 (value e)).toInt
  | some .numberInt => .ok (int32 (value e))
  | _ => .error (.convertionError (ascii "int8"))

/-- The name of a type in a report. -/
def typeName : BSONType → Bytes
  | .minKey => ascii "MinKey"
  | .eoo => ascii "EOO"
  | .numberDouble => ascii "NumberDouble"
  | .string => ascii "String"
  | .object => ascii "Object"
  | .array => ascii "Array"
  | .binData => ascii "BinaryData"
  | .undefined => ascii "Undefined"
  | .jstOID => ascii "OID"
  | .bool => ascii "Bool"
  | .date => ascii "Date"
  | .jstNULL => ascii "NULL"
  | .regEx => ascii "RegEx"
  | .dbRef => ascii "DBRef"
  | .code => ascii "Code"
  | .symbol => ascii "Symbol"
  | .codeWScope => ascii "CodeWScope"
  | .numberInt => ascii "NumberInt32"
  | .timestamp => ascii "Timestamp"
  | .numberLong => ascii "NumberLong64"
  | .maxKey => ascii "MaxKey"

def bsonTypeName (e : Bytes) : Bytes := ((type e).map typeName).getD (ascii "Invalid")

/-- How an accessor fails: an exception that nothing catches, or a report of an internal error. -/
inductive GetError
  | exc (e : Exc)
  | report (msg : Bytes)
  deriving DecidableEq

/-- The report of a failed conversion of the element under a path. -/
def convertReport (fieldName e : Bytes) : ConvertError → Bytes
  | .convertionError targetType =>
    ascii "Field " ++ fieldName ++ ascii " is of type " ++ bsonTypeName e ++
      ascii " and can not be converted to " ++ targetType
  | .exception what =>
    ascii "Error converting filed " ++ fieldName ++ ascii " of type " ++ bsonTypeName e ++
      ascii ": " ++ what

/-- `bson_get` with a conversion; `none` is SQL NULL. -/
def bsonGet {α : Type} (convertElement : Bytes → Except ConvertError α) (arg path : Bytes) :
    Except GetError (Option α) := do
  let object ← (bsonObj arg).mapError .exc
  let e ← (fieldAt object path).mapError .exc
  if eoo e then return none
  else
    let a ← (convertElement e).mapError fun x => .report (convertReport (cstr (path ++ [0])) e x)
    return some a

def bsonGetText (lib : Library) : Bytes → Bytes → Except GetError (Option Bytes) :=
  bsonGet (convertText lib)

def bsonGetInt : Bytes → Bytes → Except GetError (Option ℤ) := bsonGet convertInt

def bsonGetDouble : Bytes → Bytes → Except GetError (Option (BitVec 64)) := bsonGet convertDouble

def bsonGetBigint : Bytes → Bytes → Except GetError (Option ℤ) := bsonGet convertBigint

/-! ### Conversions of values -/

/-- The text of a value. -/
def textOf (lib : Library) : Value → Except ConvertError Bytes
  | .string s | .symbol s | .dbRef s _ => .ok s.dropLast
  | .numberDouble b => .ok (streamDouble b)
  | .jstOID id => .ok (toHexLower id.data)
  | .bool b => .ok (if b = 0 then ascii "false" else ascii "true")
  | .date v => (lib.isoExtended v).mapError .exception
  | .regEx pat _ => .ok pat
  | .numberInt v => .ok (decimalInt v.toInt)
  | .numberLong v => .ok (decimalInt v.toInt)
  | _ => .error (.convertionError (ascii "text"))

def intOf : Value → Except ConvertError ℤ
  | .numberInt v => .ok v.toInt
  | _ => .error (.convertionError (ascii "int4"))

def doubleOf : Value → Except ConvertError (BitVec 64)
  | .numberDouble b => .ok b
  | .numberInt v => .ok (doubleOfInt v.toInt)
  | _ => .error (.convertionError (ascii "float8"))

def bigintOf : Value → Except ConvertError ℤ
  | .numberLong v => .ok v.toInt
  | .numberInt v => .ok v.toInt
  | _ => .error (.convertionError (ascii "int8"))

/-- The count of a string that the text is made from is not zero. -/
def HasCount : Value → Prop
  | .string s | .symbol s | .dbRef s _ => s ≠ []
  | _ => True

theorem hasCount_of_valid {v : Value} (h : v.Valid) : HasCount v := by
  cases v <;> first | exact h.ne_nil | trivial

section elem
variable {n : Bytes} {r : Bytes}

/-- **The conversion to text reads the value of an element.** -/
theorem convertText_elem (lib : Library) {v : Value} (hn : 0 ∉ n) (hc : HasCount v)
    (hf : v.Framed) (hs : v.bytes.length < 2 ^ 31) :
    convertText lib (elem n v r) = textOf lib v := by
  unfold convertText
  rw [type_elem]
  cases v with
  | string s | symbol s =>
    simp only [Value.type, textOf]
    rw [counted_elem hn rfl (by simp [Value.bytes] at hs; omega) hc]
    rfl
  | dbRef s id =>
    have hcount : counted (elem n (.dbRef s id) r) = .ok s.dropLast := by
      obtain ⟨h1, h2⟩ := take_counted (by simp [Value.bytes] at hs; omega) hc (id.data ++ r)
      rw [counted, valuestrsize, valuestr, value_elem hn, Value.bytes, List.append_assoc _ _ r,
        if_neg h1, h2]
    simp only [Value.type, textOf, hcount]
    rfl
  | numberDouble v | numberLong v | date v =>
    simp only [Value.type, textOf, date, value_elem hn, Value.bytes, bits64_toNat]
  | numberInt v => simp only [Value.type, textOf, value_elem hn, Value.bytes, int32_toNat]
  | jstOID id =>
    simp only [Value.type, textOf, value_elem hn, Value.bytes, List.take_left' id.size]
  | bool b =>
    simp only [Value.type, textOf, boolean, value_elem hn, Value.bytes, List.cons_append,
      List.headD_cons, decide_eq_true_eq, ne_eq, ite_not]
  | regEx pat opt =>
    have hp : cstr (value (elem n (.regEx pat opt) r)) = pat := by
      rw [value_elem hn, Value.bytes, List.append_assoc, List.cons_append, cstr_append _ hf.1]
    simp only [Value.type, textOf, regex, type_elem, if_true, Except.map, hp]
    rfl
  | _ => rfl

theorem convertInt_elem (hn : 0 ∉ n) (v : Value) : convertInt (elem n v r) = intOf v := by
  unfold convertInt
  rw [type_elem]
  cases v with
  | numberInt v => simp only [Value.type, intOf, value_elem hn, Value.bytes, int32_toNat]
  | _ => rfl

theorem convertDouble_elem (hn : 0 ∉ n) (v : Value) :
    convertDouble (elem n v r) = doubleOf v := by
  unfold convertDouble
  rw [type_elem]
  cases v with
  | numberInt v => simp only [Value.type, doubleOf, value_elem hn, Value.bytes, int32_toNat]
  | numberDouble v => simp only [Value.type, doubleOf, value_elem hn, Value.bytes, bits64_toNat]
  | _ => rfl

theorem convertBigint_elem (hn : 0 ∉ n) (v : Value) :
    convertBigint (elem n v r) = bigintOf v := by
  unfold convertBigint
  rw [type_elem]
  cases v with
  | numberInt v => simp only [Value.type, bigintOf, value_elem hn, Value.bytes, int32_toNat]
  | numberLong v => simp only [Value.type, bigintOf, value_elem hn, Value.bytes, bits64_toNat]
  | _ => rfl

end elem

/-! ### Accessors on documents -/

/-- What an accessor makes of a conversion of the element `e` under a path. -/
def outcome {α : Type} (path e : Bytes) (x : Except ConvertError α) : Except GetError (Option α) :=
  (x.mapError fun x => .report (convertReport (cstr (path ++ [0])) e x)).map some

/-- An accessor converts the element it finds. -/
theorem bsonGet_elem {α : Type} {convert : Bytes → Except ConvertError α} {arg path m r : Bytes}
    {v : Value} (ho : bsonObj arg = .ok arg) (hf : fieldAt arg path = .ok (elem m v r)) :
    bsonGet convert arg path = outcome path (elem m v r) (convert (elem m v r)) := by
  simp only [bsonGet, outcome, ho, hf, Except.mapError, bind, Except.bind, eoo_elem]
  cases convert (elem m v r) <;> rfl

/-- Only the type of the element is reported. -/
theorem outcome_elem {α : Type} (path m m' r r' : Bytes) (v : Value) (x : Except ConvertError α) :
    outcome path (elem m v r) x = outcome path (elem m' v r') x := by
  simp only [outcome, convertReport, bsonTypeName, type_elem]

/-- A conversion that depends on the value of the element only. -/
def Converts {α : Type} (convert : Bytes → Except ConvertError α)
    (spec : Value → Except ConvertError α) : Prop :=
  ∀ (n : Bytes) (v : Value) (r : Bytes), 0 ∉ n → v.Valid → v.bytes.length < 2 ^ 31 →
    convert (elem n v r) = spec v

theorem converts_text (lib : Library) : Converts (convertText lib) (textOf lib) :=
  fun _ _ _ hn hv hs => convertText_elem lib hn (hasCount_of_valid hv) hv.framed hs

theorem converts_int : Converts convertInt intOf := fun _ v _ hn _ _ => convertInt_elem hn v

theorem converts_double : Converts convertDouble doubleOf := fun _ v _ hn _ _ =>
  convertDouble_elem hn v

theorem converts_bigint : Converts convertBigint bigintOf := fun _ v _ hn _ _ =>
  convertBigint_elem hn v

/-- **An accessor converts the value under the path**, or answers NULL. -/
theorem bsonGet_bytes {α : Type} {convert : Bytes → Except ConvertError α}
    {spec : Value → Except ConvertError α} (hc : Converts convert spec) (a : Stored)
    (r path : Bytes) :
    bsonGet convert (a.bytes ++ r) path =
      match valueAt a.doc path with
      | none => .ok none
      | some v => outcome path (elem [] v []) (spec v) := by
  obtain ⟨e, he, hp⟩ := fieldAt_bytes a r path
  have ho : bsonObj (a.bytes ++ r) = .ok (a.bytes ++ r) := bsonObj_bytes a.size r
  rcases hv : valueAt a.doc path with _ | v
  · rw [hv] at hp
    have heoo : eoo e = true := points_eoo hp
    simp only [bsonGet, ho, he, heoo, Except.mapError, bind, Except.bind, if_true]
    rfl
  · rw [hv] at hp
    obtain ⟨n, r', hn, rfl⟩ := hp
    have hfit : Fits a.doc.bytes.length v := findDotted_fits a.valid hv
    have hs : v.bytes.length < 2 ^ 31 :=
      lt_of_le_maxSize ((Nat.le_add_right _ 7).trans (hfit.size.trans a.size))
    rw [bsonGet_elem ho he, hc n v r' hn hfit.valid hs]
    exact outcome_elem path n [] r' [] v (spec v)

theorem outcome_eq_some {α : Type} {path e : Bytes} {x : Except ConvertError α} {t : α} :
    outcome path e x = .ok (some t) ↔ x = .ok t := by
  cases x <;> simp [outcome, Except.mapError, Except.map]

/-- A result that is not NULL is the conversion of the value under the path. -/
theorem bsonGet_eq_some {α : Type} {convert : Bytes → Except ConvertError α}
    {spec : Value → Except ConvertError α} (hc : Converts convert spec) (a : Stored)
    {r path : Bytes} {t : α} :
    bsonGet convert (a.bytes ++ r) path = .ok (some t) ↔
      ∃ v, valueAt a.doc path = some v ∧ spec v = .ok t := by
  rw [bsonGet_bytes hc]
  rcases valueAt a.doc path with _ | v
  · simp
  · simp [outcome_eq_some]

/-- The first field of a name is found although the name has dots in it. -/
theorem fieldAt_find {d : Doc} (hd : d.Framed) (hs : d.bytes.length ≤ BSONObjMaxInternalSize)
    {n : Bytes} (hn : 0 ∉ n) {v : Value} (hf : find d n = some v) (r : Bytes) :
    ∃ m r', 0 ∉ m ∧ fieldAt (d.bytes ++ r) n = .ok (elem m v r') := by
  obtain ⟨e, he, hp⟩ := getField_bytes hd hs r n
  rw [hf] at hp
  obtain ⟨m, r', hm, rfl⟩ := hp
  refine ⟨m, r', hm, ?_⟩
  rw [fieldAt, cstr_append _ hn, getFieldDotted]
  simp [he, bind, Except.bind, pure, Except.pure]

end PgBson.Access.Get
