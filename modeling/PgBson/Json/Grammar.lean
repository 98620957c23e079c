import PgBson.Json.Restore
import PgBson.Json.Runs

/-! # The grammar

The grammar in the comments of `JParse`. The beginning of a text is read as a tree of its
productions, in which strings are kept as they are written (`Reads`), and a tree denotes a value
(`ParseTree.value`). White space may stand before a token, a character is a byte, and a number is
what the functions of the C library read; `NaN`, `Infinity` and `-Infinity` are words and no
numbers. The repetitions `FIELDCHARS`, `REGEXCHARS` and `REGEXOPTIONS` are read as possibly empty.
`REFOBJECT` has no production of its own, since it is a case of `{ MEMBERS }` and denotes the same
two fields.

The parser reads more than is documented, and there are trees for all that it reads; those of the
documented grammar are told apart by `Documented`. The grammar is ambiguous, because `{ MEMBERS }`
derives objects that start with a reserved field name; the parser takes these for special objects,
and `Resolved` says so of a tree. -/

namespace PgBson.Json.Grammar

open PgBson.Lib.Memory PgBson.Lib.Binary64 PgBson.Lib.Decimal PgBson.Lib.Strtod PgBson.Lib.Parsing
open PgBson.Bson.Types PgBson.Bson.Document
open PgBson.Json.Encoding PgBson.Json.Parse PgBson.Json.Restore PgBson.Json.Runs

/-! ### Strings -/

/-- The token stands next in the text, but for white space. -/
def Token (t i j : Bytes) : Prop := i.dropWhile isspace = t ++ j

/-- `CHAR` or `REGEXCHAR`. -/
inductive StringChar
  | plain (c : UInt8)
  | escape (c : UInt8)
  | unicode (h0 h1 h2 h3 : UInt8)
  deriving DecidableEq

/-- A string as it is written between its quotes. -/
abbrev Spelling := List StringChar

/-- The bytes in the text. -/
def StringChar.text : StringChar → Bytes
  | .plain c => [c]
  | .escape c => [92, c]
  | .unicode h0 h1 h2 h3 => [92, 117, h0, h1, h2, h3]

/-- The character of an escape of one letter. -/
def unescaped (c : UInt8) : UInt8 :=
  if c = 98 then 8
  else if c = 102 then 12
  else if c = 110 then 10
  else if c = 114 then 13
  else if c = 116 then 9
  else if c = 118 then 11
  else c

/-- The bytes of the string. -/
def StringChar.denoted : StringChar → Bytes
  | .plain c => [c]
  | .escape c => [unescaped c]
  | .unicode h0 h1 h2 h3 => encodeUTF8 (fromHex h0 h1) (fromHex h2 h3)

/-- It may stand between two characters `q`. -/
def StringChar.Allowed (q : UInt8) : StringChar → Prop
  | .plain c => c ≠ q ∧ c ≠ 92 ∧ 0x1f < c
  | .escape c => c ≠ 117 ∧ c ≠ 120 ∧ ¬ (48 ≤ c ∧ c ≤ 55)
  | .unicode h0 h1 h2 h3 => isHexString [h0, h1, h2, h3] = true

def written (s : Spelling) : Bytes := s.flatMap StringChar.text

def denoted (s : Spelling) : Bytes := s.flatMap StringChar.denoted

/-- `STRING`. -/
def QuotedString (i : Bytes) (s : Spelling) (j : Bytes) : Prop :=
  ∃ q, (q = 34 ∨ q = 39) ∧ Token [q] i (written s ++ q :: j) ∧ ∀ c ∈ s, c.Allowed q

/-- `FIELD`. -/
def Field (i : Bytes) (s : Spelling) (j : Bytes) : Prop :=
  QuotedString i s j ∨ ∃ c t, s = (c :: t).map .plain ∧ Token (c :: t) i j ∧
    c ∈ ALPHA ++ ascii "_$" ∧ ∀ x ∈ t, x ∈ ALPHA ++ DIGIT ++ ascii "_$"

/-- `FIELD` with the name that is expected. -/
def Named (name i j : Bytes) : Prop := ∃ s, Field i s j ∧ denoted s = name

/-- The string is the 24 hexadecimal digits of an id. -/
def HexId (s : Bytes) (id : OID) : Prop :=
  s.length = 24 ∧ isHexString s = true ∧ id.data = hexBytes s

/-! ### Integers -/

/-- The integer of a date. The parser takes any whose magnitude has 64 bits. -/
def Millis (i : Bytes) (n : ℤ) (j : Bytes) : Prop :=
  ∃ neg m, scanInt i = some (neg, m, j) ∧ m < 2 ^ 64 ∧ n = signed neg m

/-- What `DATE` has in parentheses. -/
def DateArgs (i : Bytes) (n : ℤ) (j : Bytes) : Prop :=
  ∃ k l, Token LPAREN i k ∧ Millis k n l ∧ Token RPAREN l j

/-- A malformed argument of a date: how far it can be read. -/
inductive Unfinished : Bytes → Bytes → Prop
  | lparen {i : Bytes} (h : ∀ j, ¬ Token LPAREN i j) : Unfinished i i
  | millis {i j : Bytes} (hl : Token LPAREN i j) (h : ∀ n k, ¬ Millis j n k) : Unfinished i j
  | rparen {i j k : Bytes} {n : ℤ} (hl : Token LPAREN i j) (hn : Millis j n k)
      (h : ∀ l, ¬ Token RPAREN k l) : Unfinished i k

/-- A half of a timestamp, without a minus. The parser takes any integer of 64 bits. -/
def Half (i : Bytes) (n : ℕ) (j : Bytes) : Prop := scanInt i = some (false, n, j) ∧ n < 2 ^ 64

/-! ### Trees -/

mutual

/-- What `VALUE` derives. -/
inductive ParseTree
  | string (s : Spelling)
  /-- A number or a word. -/
  | scalar (v : Value)
  | date (millis : ℤ)
  /-- A malformed date behind `new`. -/
  | lost
  | timestamp (seconds count : ℕ)
  | objectId (s : Spelling) (id : OID)
  | regex (pat opt : Spelling)
  | regexObject (pat opt : Spelling)
  | binary (data type : Spelling) (subtype : UInt8)
  /-- A reference by `Dbref`, or by `DBRef`. -/
  | dbRef (documented : Bool) (ns : Spelling) (id : ParseTree)
  | array (es : Members)
  | object (ms : Members)

/-- `MEMBERS`; also `ELEMENTS`, under the names of the positions. -/
inductive Members
  | nil
  | cons (name : Spelling) (t : ParseTree) (rest : Members)

end

/-- The document of a reference. -/
def refDoc (ns : Bytes) (id : Option Value) : Doc :=
  .cons (ascii "$ref") (.string (ns ++ [0])) (append (ascii "$id") id .nil)

mutual

/-- The value that a tree denotes, if any. -/
def ParseTree.value : ParseTree → Option Value
  | .string s => some (.string (denoted s ++ [0]))
  | .scalar v => some v
  | .date n => some (.date (.ofInt 64 n))
  | .lost => none
  | .timestamp seconds count => some (appendTimestamp (.ofNat 32 seconds) (.ofNat 32 count))
  | .objectId _ id => some (.jstOID id)
  | .regex pat opt | .regexObject pat opt => some (.regEx (denoted pat) (denoted opt))
  | .binary data _ subtype => some (.binData subtype (decode (denoted data)))
  | .dbRef _ ns id => some (.object (refDoc (denoted ns) id.value))
  | .array es => some (.array es.doc)
  | .object ms => some (.object ms.doc)

/-- The fields: one for each pair with a value. -/
def Members.doc : Members → Doc
  | .nil => .nil
  | .cons name t rest => append (denoted name) t.value rest.doc

end

/-! ### The documented grammar -/

/-- In a `STRING` the digits 8 and 9 have no escape. -/
def Strict (s : Spelling) : Prop := .escape 56 ∉ s ∧ .escape 57 ∉ s

/-- The id of `REFOBJECT`. -/
def ParseTree.RefId : ParseTree → Prop
  | .string s => ∃ id, HexId (denoted s) id
  | .objectId _ _ => True
  | _ => False

/-- If it is a reference, then one of `REFOBJECT`. -/
def Members.RefObject : Members → Prop
  | .cons name (.string _) (.cons name' id .nil) =>
    denoted name = ascii "$ref" → denoted name' = ascii "$id" → id.RefId
  | _ => True

mutual

/-- The tree is one of the documented grammar. With `refs` a reference has to be one of `REFOBJECT`;
to the letter, `{ MEMBERS }` derives those with another id as well. -/
def ParseTree.Documented (refs : Bool) : ParseTree → Prop
  | .string s => Strict s
  | .scalar _ => True
  | .date n => -2 ^ 63 ≤ n ∧ n < 2 ^ 63
  | .lost => False
  | .timestamp seconds count => seconds < 2 ^ 32 ∧ count < 2 ^ 32
  | .objectId s _ => Strict s
  | .regex _ _ => True
  | .regexObject pat opt => Strict pat ∧ Strict opt ∧ 0 ∉ denoted opt
  | .binary data type _ => Strict data ∧ Strict type ∧ ∃ bytes, denoted data = encode bytes
  | .dbRef documented ns id => documented = true ∧ Strict ns ∧
      ∃ s hexId, id = .string s ∧ Strict s ∧ HexId (denoted s) hexId
  | .array es => es.Documented refs
  | .object ms => (refs = true → ms.RefObject) ∧ ms.Documented refs

def Members.Documented (refs : Bool) : Members → Prop
  | .nil => True
  | .cons name t rest => Strict name ∧ t.Documented refs ∧ rest.Documented refs

end

/-! ### Reserved names -/

/-- The first field name is not reserved. -/
def Members.Unreserved : Members → Prop
  | .nil => True
  | .cons name _ _ => denoted name ∉ reserved

/-- The two pairs of a reference. -/
def Members.Reference : Members → Prop
  | .cons name (.string _) (.cons name' _ .nil) =>
    denoted name = ascii "$ref" ∧ denoted name' = ascii "$id"
  | _ => False

mutual

/-- No object that was read pair by pair starts with a reserved field name, unless it is a
reference. -/
def ParseTree.Resolved : ParseTree → Prop
  | .dbRef _ _ id => id.Resolved
  | .array es => es.Resolved
  | .object ms => (ms.Unreserved ∨ ms.Reference) ∧ ms.Resolved
  | _ => True

def Members.Resolved : Members → Prop
  | .nil => True
  | .cons _ t rest => t.Resolved ∧ rest.Resolved

end

/-! ### Strings without a count -/

/-- The escape of a NUL. -/
def nul : StringChar := .unicode 48 48 48 48

mutual

/-- The names, patterns and options that are stored, without a count, have no escape of a NUL. -/
def ParseTree.Framed : ParseTree → Prop
  | .regex pat opt | .regexObject pat opt => nul ∉ pat ∧ nul ∉ opt
  | .dbRef _ _ id => id.Framed
  | .array es => es.Framed
  | .object ms => ms.Framed
  | _ => True

def Members.Framed : Members → Prop
  | .nil => True
  | .cons name t rest => (t = .lost ∨ nul ∉ name) ∧ t.Framed ∧ rest.Framed

end

/-! ### Values without parts -/

/-- The values that are one word. -/
def words : List (Bytes × Value) :=
  [(ascii "true", .bool 1), (ascii "false", .bool 0), (ascii "null", .jstNULL),
    (ascii "undefined", .undefined), (ascii "NaN", .numberDouble quietNaN),
    (ascii "Infinity", .numberDouble (toBits false overflowUnits)),
    (ascii "-Infinity", .numberDouble (toBits true overflowUnits))]

/-- `VALUE` without parts. -/
inductive Leaf (rt : Runtime) : Bytes → ParseTree → Bytes → Prop
  | string {i j : Bytes} {s : Spelling} (h : QuotedString i s j) : Leaf rt i (.string s) j
  | number {i j : Bytes} {v : Value} (h : number rt i = .ok v j)
      (hw : ∀ w ∈ words, ∀ k, ¬ Token w.1 i k) : Leaf rt i (.scalar v) j
  | word {i j w : Bytes} {v : Value} (hw : (w, v) ∈ words) (h : Token w i j) :
      Leaf rt i (.scalar v) j
  | date {i j k : Bytes} {n : ℤ} (h : Token (ascii "Date") i j) (ha : DateArgs j n k) :
      Leaf rt i (.date n) k
  | constructor {i j k l : Bytes} {n : ℤ} (h : Token (ascii "new") i j)
      (hd : Token (ascii "Date") j k) (ha : DateArgs k n l) : Leaf rt i (.date n) l
  | lost {i j k l : Bytes} (h : Token (ascii "new") i j) (hd : Token (ascii "Date") j k)
      (ha : Unfinished k l) : Leaf rt i .lost l
  | timestamp {i j k l m n o : Bytes} {seconds count : ℕ} (h : Token (ascii "Timestamp") i j)
      (hl : Token LPAREN j k) (hs : Half k seconds l) (hc : Token COMMA l m) (hn : Half m count n)
      (hr : Token RPAREN n o) : Leaf rt i (.timestamp seconds count) o
  | objectId {i j k l m : Bytes} {s : Spelling} {id : OID} (h : Token (ascii "ObjectId") i j)
      (hl : Token LPAREN j k) (hs : QuotedString k s l) (hr : Token RPAREN l m)
      (hid : HexId (denoted s) id) : Leaf rt i (.objectId s id) m
  | regex {i opt j : Bytes} {pat : Spelling}
      (h : Token FORWARDSLASH i (written pat ++ 47 :: (opt ++ j))) (hp : ∀ c ∈ pat, c.Allowed 47)
      (ho : ∀ c ∈ opt, c ∈ JOPTIONS) : Leaf rt i (.regex pat (opt.map .plain)) j

/-- The reserved names of special objects, but for `REFOBJECT`. -/
inductive SpecialName
  | oid | binary | date | timestamp | regex | undefined
  deriving DecidableEq

def SpecialName.name : SpecialName → Bytes
  | .oid => ascii "$oid"
  | .binary => ascii "$binary"
  | .date => ascii "$date"
  | .timestamp => ascii "$timestamp"
  | .regex => ascii "$regex"
  | .undefined => ascii "$undefined"

/-- `SPECIALOBJECT` behind its first name and the colon, up to the last brace. -/
inductive Body : SpecialName → Bytes → ParseTree → Bytes → Prop
  | oid {i j : Bytes} {s : Spelling} {id : OID} (hs : QuotedString i s j)
      (hid : HexId (denoted s) id) : Body .oid i (.objectId s id) j
  | binary {i j k l m n : Bytes} {data type : Spelling} {c0 c1 : UInt8} (hs : QuotedString i data j)
      (hb : (denoted data).length % 4 = 0 ∧ isBase64String (denoted data) = true)
      (hcomma : Token COMMA j k) (hf : Named (ascii "$type") k l) (hc : Token COLON l m)
      (ht : QuotedString m type n) (hd : denoted type = [c0, c1])
      (hx : isHexString [c0, c1] = true) : Body .binary i (.binary data type (fromHex c0 c1)) n
  | date {i j : Bytes} {n : ℤ} (h : Millis i n j) : Body .date i (.date n) j
  | timestamp {i j k l m n o p q r : Bytes} {seconds count : ℕ} (hl : Token LBRACE i j)
      (hft : Named (ascii "t") j k) (hct : Token COLON k l) (hs : Half l seconds m)
      (hcomma : Token COMMA m n) (hfi : Named (ascii "i") n o) (hci : Token COLON o p)
      (hn : Half p count q) (hr : Token RBRACE q r) : Body .timestamp i (.timestamp seconds count) r
  | regex {i j : Bytes} {pat : Spelling} (hs : QuotedString i pat j) :
      Body .regex i (.regexObject pat []) j
  | regexOptions {i j k l m n : Bytes} {pat opt : Spelling} (hs : QuotedString i pat j)
      (hcomma : Token COMMA j k) (hf : Named (ascii "$options") k l) (hc : Token COLON l m)
      (ho : QuotedString m opt n) (hopt : ∀ c ∈ denoted opt, c ∈ JOPTIONS ∨ c = 0) :
      Body .regex i (.regexObject pat opt) n
  | undefined {i j : Bytes} (h : Token (ascii "true") i j) :
      Body .undefined i (.scalar .undefined) j

/-! ### Texts -/

/-- What a part of a text is: `VALUE`, `OBJECT`, `MEMBERS` or, from an index on, `ELEMENTS`. -/
inductive Node
  | value (t : ParseTree)
  | object (t : ParseTree)
  | members (ms : Members)
  | elements (index : ℕ) (es : Members)

/-- The text begins with that part, and the second text is left. -/
inductive Reads (rt : Runtime) : Bytes → Node → Bytes → Prop
  | leaf {i j : Bytes} {t : ParseTree} (h : Leaf rt i t j) : Reads rt i (.value t) j
  | dbRef {i j k l m n o : Bytes} {documented : Bool} {ns : Spelling} {id : ParseTree}
      (ht : Token (if documented then ascii "Dbref" else ascii "DBRef") i j) (hl : Token LPAREN j k)
      (hn : QuotedString k ns l) (hc : Token COMMA l m) (hv : Reads rt m (.value id) n)
      (hr : Token RPAREN n o) : Reads rt i (.value (.dbRef documented ns id)) o
  | object {i j : Bytes} {t : ParseTree} (h : Reads rt i (.object t) j) : Reads rt i (.value t) j
  | emptyArray {i j k : Bytes} (hl : Token LBRACKET i j) (hr : Token RBRACKET j k) :
      Reads rt i (.value (.array .nil)) k
  | array {i j k l : Bytes} {es : Members} (hl : Token LBRACKET i j)
      (h : Reads rt j (.elements 0 es) k) (hr : Token RBRACKET k l) :
      Reads rt i (.value (.array es)) l
  | emptyObject {i j k : Bytes} (hl : Token LBRACE i j) (hr : Token RBRACE j k) :
      Reads rt i (.object (.object .nil)) k
  | braces {i j k l : Bytes} {ms : Members} (hl : Token LBRACE i j)
      (h : Reads rt j (.members ms) k) (hr : Token RBRACE k l) :
      Reads rt i (.object (.object ms)) l
  | special {i j k l m n : Bytes} {name : SpecialName} {t : ParseTree} (hl : Token LBRACE i j)
      (hf : Named name.name j k) (hc : Token COLON k l) (h : Body name l t m)
      (hr : Token RBRACE m n) : Reads rt i (.object t) n
  | pair {i j k l : Bytes} {name : Spelling} {t : ParseTree} (hf : Field i name j)
      (hc : Token COLON j k) (hv : Reads rt k (.value t) l) :
      Reads rt i (.members (.cons name t .nil)) l
  | pairs {i j k l m n : Bytes} {name : Spelling} {t : ParseTree} {ms : Members}
      (hf : Field i name j)
      (hc : Token COLON j k) (hv : Reads rt k (.value t) l) (hcomma : Token COMMA l m)
      (hd : Reads rt m (.members ms) n) : Reads rt i (.members (.cons name t ms)) n
  | element {i j : Bytes} {index : ℕ} {t : ParseTree} (hv : Reads rt i (.value t) j) :
      Reads rt i (.elements index (.cons ((decimal index).map .plain) t .nil)) j
  | elements {i j k l : Bytes} {index : ℕ} {t : ParseTree} {es : Members}
      (hv : Reads rt i (.value t) j) (hcomma : Token COMMA j k)
      (hd : Reads rt k (.elements (index + 1) es) l) :
      Reads rt i (.elements index (.cons ((decimal index).map .plain) t es)) l

/-- **The base object of a text**: its pairs and what is left behind it, read as the parser does. -/
structure Base (rt : Runtime) (s : Bytes) (ms : Members) (r : Bytes) : Prop where
  reads : Reads rt s (.object (.object ms)) r
  unreserved : ms.Unreserved
  resolved : ms.Resolved

/-- The document of a text; that of the empty text is empty. -/
def Denotes (rt : Runtime) (s : Bytes) (d : Doc) : Prop :=
  s = [] ∧ d = .nil ∨ ∃ ms r, Base rt s ms r ∧ ms.doc = d

/-! ### Trees -/

theorem Members.Reference.eq {ms : Members} (h : ms.Reference) : ∃ name ns name' id,
    ms = .cons name (.string ns) (.cons name' id .nil) ∧ denoted name = ascii "$ref" ∧
      denoted name' = ascii "$id" := by
  unfold Members.Reference at h
  split at h
  · exact ⟨_, _, _, _, rfl, h⟩
  · exact h.elim

theorem Leaf.resolved {rt : Runtime} {i j : Bytes} {t : ParseTree} (h : Leaf rt i t j) :
    t.Resolved := by
  cases h <;> trivial

theorem Body.resolved {name : SpecialName} {i j : Bytes} {t : ParseTree} (h : Body name i t j) :
    t.Resolved := by
  cases h <;> trivial

/-! ### Spellings -/

@[simp] theorem written_nil : written [] = [] := rfl

@[simp] theorem written_cons (c : StringChar) (s : Spelling) :
    written (c :: s) = c.text ++ written s := List.flatMap_cons

@[simp] theorem denoted_nil : denoted [] = [] := rfl

@[simp] theorem denoted_cons (c : StringChar) (s : Spelling) :
    denoted (c :: s) = c.denoted ++ denoted s := List.flatMap_cons

/-- Without escapes a string is written as it is. -/
@[simp] theorem denoted_plain (t : Bytes) : denoted (t.map .plain) = t := by
  induction t with
  | nil => rfl
  | cons c t ih =>
    rw [List.map_cons, denoted_cons, ih]
    rfl

@[simp] theorem written_plain (t : Bytes) : written (t.map .plain) = t := by
  induction t with
  | nil => rfl
  | cons c t ih =>
    rw [List.map_cons, written_cons, ih]
    rfl

/-! ### What is left of a text -/

section suffix
variable {i j : Bytes} {s : Spelling}

theorem Token.append_suffix {t : Bytes} (h : Token t i j) : t ++ j <:+ i := by
  have hd : i.dropWhile isspace <:+ i := List.dropWhile_suffix _
  rwa [h] at hd

theorem Token.suffix {t : Bytes} (h : Token t i j) : j <:+ i :=
  (List.suffix_append t j).trans h.append_suffix

theorem QuotedString.suffix (h : QuotedString i s j) : j <:+ i := by
  obtain ⟨q, -, ht, -⟩ := h
  exact ((List.suffix_cons q j).trans (List.suffix_append (written s) _)).trans ht.suffix

theorem Field.suffix (h : Field i s j) : j <:+ i := by
  rcases h with h | ⟨c, t, -, h, -⟩
  · exact h.suffix
  · exact h.suffix

theorem Named.suffix {name : Bytes} (h : Named name i j) : j <:+ i := by
  obtain ⟨s, h, -⟩ := h
  exact h.suffix

theorem Millis.suffix {n : ℤ} (h : Millis i n j) : j <:+ i := by
  obtain ⟨neg, m, h, -⟩ := h
  exact scanInt_suffix h

theorem DateArgs.suffix {n : ℤ} (h : DateArgs i n j) : j <:+ i := by
  obtain ⟨k, l, hk, hl, hj⟩ := h
  exact hj.suffix.trans (hl.suffix.trans hk.suffix)

theorem Unfinished.suffix (h : Unfinished i j) : j <:+ i := by
  cases h with
  | lparen => exact List.suffix_refl i
  | millis hl => exact hl.suffix
  | rparen hl hn => exact hn.suffix.trans hl.suffix

theorem Half.suffix {n : ℕ} (h : Half i n j) : j <:+ i := scanInt_suffix h.1

theorem Leaf.suffix {rt : Runtime} {t : ParseTree} (h : Leaf rt i t j) : j <:+ i := by
  cases h with
  | string h => exact h.suffix
  | number h => exact ((meets_number rt i).of_ok h).1
  | word _ h => exact h.suffix
  | date h ha => exact ha.suffix.trans h.suffix
  | constructor h hd ha => exact ha.suffix.trans (hd.suffix.trans h.suffix)
  | lost h hd ha => exact ha.suffix.trans (hd.suffix.trans h.suffix)
  | timestamp h hl hs hc hn hr =>
    have hl' := hs.suffix.trans (hl.suffix.trans h.suffix)
    exact hr.suffix.trans (hn.suffix.trans (hc.suffix.trans hl'))
  | objectId h hl hs hr => exact hr.suffix.trans (hs.suffix.trans (hl.suffix.trans h.suffix))
  | @regex opt _ pat h =>
    have hj : j <:+ written pat ++ 47 :: (opt ++ j) := ⟨written pat ++ 47 :: opt, by simp⟩
    exact hj.trans h.suffix

theorem Body.suffix {name : SpecialName} {t : ParseTree} (h : Body name i t j) : j <:+ i := by
  cases h with
  | oid hs => exact hs.suffix
  | binary hs _ hcomma hf hc ht =>
    exact ht.suffix.trans (hc.suffix.trans (hf.suffix.trans (hcomma.suffix.trans hs.suffix)))
  | date h => exact h.suffix
  | timestamp hl hft hct hs hcomma hfi hci hn hr =>
    have hm := hs.suffix.trans (hct.suffix.trans (hft.suffix.trans hl.suffix))
    have hp := hci.suffix.trans (hfi.suffix.trans (hcomma.suffix.trans hm))
    exact hr.suffix.trans (hn.suffix.trans hp)
  | regex hs => exact hs.suffix
  | regexOptions hs hcomma hf hc ho =>
    exact ho.suffix.trans (hc.suffix.trans (hf.suffix.trans (hcomma.suffix.trans hs.suffix)))
  | undefined h => exact h.suffix

theorem Reads.suffix {rt : Runtime} {n : Node} (h : Reads rt i n j) : j <:+ i := by
  induction h with
  | leaf h => exact h.suffix
  | dbRef ht hl hn hc _ hr hv =>
    have hm := hc.suffix.trans (hn.suffix.trans (hl.suffix.trans ht.suffix))
    exact hr.suffix.trans (hv.trans hm)
  | object _ h => exact h
  | emptyArray hl hr | emptyObject hl hr => exact hr.suffix.trans hl.suffix
  | array hl _ hr h | braces hl _ hr h => exact hr.suffix.trans (h.trans hl.suffix)
  | special hl hf hc h hr =>
    exact hr.suffix.trans (h.suffix.trans (hc.suffix.trans (hf.suffix.trans hl.suffix)))
  | pair hf hc _ hv => exact hv.trans (hc.suffix.trans hf.suffix)
  | pairs hf hc _ hcomma _ hv hd =>
    exact hd.trans (hcomma.suffix.trans (hv.trans (hc.suffix.trans hf.suffix)))
  | element _ hv => exact hv
  | elements _ hcomma _ hv hd => exact hd.trans (hcomma.suffix.trans hv)

end suffix

end PgBson.Json.Grammar
