import PgBson.Json.Ambiguity

/-! # Texts and stored documents

What `bson_in` stores of a text that it accepts. The bytes are a well-formed document, and the one
that is written, when no field name, pattern or options of the text have the escape of a NUL
(`bsonIn_wellFormed`); `{"a\u0000b":null}` is stored as bytes that are no document
(`bsonIn_nulName_not_wellFormed`). The text as a whole is one object of the documented grammar,
with the pairs of the stored document, when in addition only white space follows the object and
the reading keeps to the grammar (`bsonIn_whole`); the parser does not look at what follows the
object (`bsonIn_trailing_not_whole`). Both conditions are about the reading of the text, which is
unique. -/

namespace PgBson.Json.Whole

open PgBson.Lib.Memory PgBson.Lib.Decimal PgBson.Lib.Strtod PgBson.Lib.Parsing
open PgBson.Bson.Types PgBson.Bson.Document
open PgBson.Json.Encoding PgBson.Json.Parse PgBson.Json.Restore PgBson.Json.Runs
open PgBson.Json.Grammar PgBson.Json.Reading PgBson.Json.Recognize PgBson.Json.Completeness
open PgBson.Json.Ambiguity PgBson.Json.Accepts
open PgBson.Bson.Decode (WellFormed wellFormed_bytes_iff decode_bytes decode_sound)

/-! ### The strings of a text -/

/-- The string stands in the text, between two characters below 128. -/
def Stands (s : Bytes) (t : Spelling) : Prop :=
  ∃ a q j, a < 128 ∧ q < 128 ∧ (∀ c ∈ t, c.Allowed q) ∧ a :: (written t ++ q :: j) <:+ s

/-- The string is written without escapes, in characters of field names. -/
def Bare (t : Spelling) : Prop := ∃ u : Bytes, t = u.map .plain ∧ ∀ c ∈ u, 0 < c ∧ c < 128

/-- A number or a word. -/
def Scalar : Value → Prop
  | .numberDouble _ | .numberInt _ | .numberLong _ | .bool _ | .jstNULL | .undefined => True
  | _ => False

mutual

/-- Every string of a tree has the property, and what has no string is a number or a word. -/
def Strings (P : Spelling → Prop) : ParseTree → Prop
  | .string s => P s
  | .scalar v => Scalar v
  | .regex pat opt | .regexObject pat opt => P pat ∧ P opt
  | .dbRef _ ns id => P ns ∧ Strings P id
  | .array es => MemberStrings P es
  | .object ms => MemberStrings P ms
  | .date _ | .lost | .timestamp _ _ | .objectId _ _ | .binary _ _ _ => True

/-- The same for names. -/
def MemberStrings (P : Spelling → Prop) : Members → Prop
  | .nil => True
  | .cons name t rest => P name ∧ Strings P t ∧ MemberStrings P rest

end

def NodeStrings (P : Spelling → Prop) : Node → Prop
  | .value t | .object t => Strings P t
  | .members ms | .elements _ ms => MemberStrings P ms

section strings
variable {P : Spelling → Prop} {s i j : Bytes} {rt : Runtime}

theorem stands_of_quotedString {t : Spelling} (h : QuotedString i t j) (hi : i <:+ s) :
    Stands s t := by
  obtain ⟨q, hq, ht, hc⟩ := h
  have hlt : q < 128 := by rcases hq with rfl | rfl <;> decide
  exact ⟨q, q, j, hlt, hlt, hc, ht.append_suffix.trans hi⟩

theorem bare_of_mem {set u : Bytes} (hset : ∀ c ∈ set, 0 < c ∧ c < 128) (hu : ∀ c ∈ u, c ∈ set) :
    Bare (u.map .plain) :=
  ⟨u, rfl, fun c hc => hset c (hu c hc)⟩

theorem scalar_of_number {v : Value} (h : number rt i = .ok v j) : Scalar v := by
  unfold number at h
  dsimp only at h
  split_ifs at h <;> obtain ⟨rfl, -⟩ := Outcome.ok.inj h <;> trivial

theorem scalar_of_word {w : Bytes} {v : Value} (h : (w, v) ∈ words) : Scalar v := by
  simp only [words, List.mem_cons, Prod.mk.injEq, List.not_mem_nil, or_false] at h
  rcases h with ⟨-, rfl⟩ | ⟨-, rfl⟩ | ⟨-, rfl⟩ | ⟨-, rfl⟩ | ⟨-, rfl⟩ | ⟨-, rfl⟩ | ⟨-, rfl⟩ <;>
    trivial

theorem bare_decimal (n : ℕ) : Bare ((decimal n).map .plain) := by
  have hdigit : ∀ c, isdigit c = true → 0 < c ∧ c < 128 := forall_byte (by decide +kernel)
  exact ⟨decimal n, rfl, fun c hc => hdigit c (isdigit_of_mem_decimal hc)⟩

variable (hstands : ∀ {t}, Stands s t → P t) (hbare : ∀ {t}, Bare t → P t)
include hstands hbare

theorem field_strings {t : Spelling} (h : Field i t j) (hi : i <:+ s) : P t := by
  have hset : ∀ c ∈ ALPHA ++ DIGIT ++ ascii "_$", 0 < c ∧ c < 128 := by decide +kernel
  rcases h with h | ⟨c, u, rfl, -, hc, hu⟩
  · exact hstands (stands_of_quotedString h hi)
  · exact hbare (bare_of_mem hset (List.forall_mem_cons.mpr ⟨fieldChars_subset hc, hu⟩))

theorem leaf_strings {t : ParseTree} (h : Leaf rt i t j) (hi : i <:+ s) : Strings P t := by
  cases h with
  | string h => exact hstands (stands_of_quotedString h hi)
  | number h => exact scalar_of_number h
  | word hw => exact scalar_of_word hw
  | regex h hp ho =>
    have hset : ∀ c ∈ JOPTIONS, 0 < c ∧ c < 128 := by decide +kernel
    exact ⟨hstands ⟨47, 47, _, by decide, by decide, hp, h.append_suffix.trans hi⟩,
      hbare (bare_of_mem hset ho)⟩
  | date | constructor | lost | timestamp | objectId => trivial

theorem body_strings {name : SpecialName} {t : ParseTree} (h : Body name i t j) (hi : i <:+ s) :
    Strings P t := by
  cases h with
  | regex hs => exact ⟨hstands (stands_of_quotedString hs hi), hbare ⟨[], rfl, by simp⟩⟩
  | regexOptions hs hcomma hf hc ho =>
    have hm := hc.suffix.trans (hf.suffix.trans (hcomma.suffix.trans (hs.suffix.trans hi)))
    exact ⟨hstands (stands_of_quotedString hs hi), hstands (stands_of_quotedString ho hm)⟩
  | undefined => trivial
  | oid | binary | date | timestamp => trivial

/-- **Every string of the reading stands in the text.** -/
theorem strings_of_reads {n : Node} (h : Reads rt i n j) (hi : i <:+ s) : NodeStrings P n := by
  induction h with
  | leaf h => exact leaf_strings hstands hbare h hi
  | dbRef ht hl hn hc hv _ ih =>
    have hk := hl.suffix.trans (ht.suffix.trans hi)
    have hm := hc.suffix.trans (hn.suffix.trans hk)
    exact ⟨hstands (stands_of_quotedString hn hk), ih hm⟩
  | object _ ih => exact ih hi
  | emptyArray | emptyObject => trivial
  | array hl _ _ ih | braces hl _ _ ih => exact ih (hl.suffix.trans hi)
  | special hl hf hc h =>
    exact body_strings hstands hbare h (hc.suffix.trans (hf.suffix.trans (hl.suffix.trans hi)))
  | pair hf hc _ ih =>
    exact ⟨field_strings hstands hbare hf hi, ih (hc.suffix.trans (hf.suffix.trans hi)), trivial⟩
  | pairs hf hc hv hcomma _ ih ih' =>
    have hk := hc.suffix.trans (hf.suffix.trans hi)
    exact ⟨field_strings hstands hbare hf hi, ih hk, ih' (hcomma.suffix.trans (hv.suffix.trans hk))⟩
  | element _ ih => exact ⟨hbare (bare_decimal _), ih hi, trivial⟩
  | elements hv hcomma _ ih ih' =>
    exact ⟨hbare (bare_decimal _), ih hi, ih' (hcomma.suffix.trans (hv.suffix.trans hi))⟩

end strings

/-! ### NULs -/

/-- A NUL has no other spelling than its escape. -/
theorem zero_mem_denoted_char {q : UInt8} {c : StringChar} (h : c.Allowed q) (h0 : 0 ∉ c.text) :
    0 ∈ c.denoted ↔ c = nul := by
  cases c with
  | plain c => simpa [StringChar.denoted, StringChar.text, nul] using h0
  | escape c =>
    have hc : ∀ c : UInt8, 0 ≠ c → 0 ≠ unescaped c := forall_byte (by decide +kernel)
    simp only [StringChar.text, List.mem_cons, List.not_mem_nil, or_false, not_or] at h0
    simpa [StringChar.denoted, nul] using hc c h0.2
  | unicode h0 h1 h2 h3 =>
    simp only [StringChar.Allowed, isHexString, List.all_cons, List.all_nil, Bool.and_true,
      Bool.and_eq_true] at h
    obtain ⟨x0, x1, x2, x3⟩ := h
    constructor
    · intro hmem
      by_contra hne
      refine zero_notMem_encodeUTF8 (fun hz hz' => hne ?_) hmem
      obtain ⟨rfl, rfl⟩ := fromHex_eq_zero x0 x1 hz
      obtain ⟨rfl, rfl⟩ := fromHex_eq_zero x2 x3 hz'
      rfl
    · intro he
      rw [he]
      decide

/-- The string has a NUL exactly when its escape is written. -/
def NulEscaped (t : Spelling) : Prop := 0 ∈ denoted t ↔ nul ∈ t

theorem nulEscaped_of_chars {t : Spelling} (h : ∀ c ∈ t, 0 ∈ c.denoted ↔ c = nul) :
    NulEscaped t := by
  rw [NulEscaped, denoted, List.mem_flatMap]
  constructor
  · rintro ⟨c, hc, h0⟩
    exact (h c hc).mp h0 ▸ hc
  · intro hn
    exact ⟨nul, hn, (h nul hn).mpr rfl⟩

theorem Stands.nulEscaped {s : Bytes} {t : Spelling} (h : Stands s t) (h0 : 0 ∉ s) :
    NulEscaped t := by
  obtain ⟨a, q, j, -, -, hq, hs⟩ := h
  refine nulEscaped_of_chars fun c hc => zero_mem_denoted_char (hq c hc) fun hz => h0 (hs.subset ?_)
  have hw : 0 ∈ written t := List.mem_flatMap.mpr ⟨c, hc, hz⟩
  exact List.mem_cons_of_mem a (List.mem_append_left _ hw)

theorem Bare.nulEscaped {t : Spelling} (h : Bare t) : NulEscaped t := by
  obtain ⟨u, rfl, hu⟩ := h
  have hnul : nul ∉ u.map .plain := by simp [nul]
  rw [NulEscaped, denoted_plain, iff_false_right hnul]
  exact fun h0 => absurd (hu 0 h0).1 (by decide)

mutual

/-- Of a reading whose strings have a NUL only by its escape, the value is framed exactly when the
reading is. -/
theorem framed_value_iff : ∀ {t : ParseTree}, Strings NulEscaped t →
    ((∀ v, t.value = some v → v.Framed) ↔ t.Framed)
  | .string _, _ | .date _, _ | .timestamp _ _, _ | .objectId _ _, _ | .binary _ _ _, _ => by
    simp [ParseTree.value, ParseTree.Framed, Value.Framed, appendTimestamp]
  | .lost, _ => by simp [ParseTree.value, ParseTree.Framed]
  | .scalar v, h => by
    cases v <;> first | exact h.elim | simp [ParseTree.value, ParseTree.Framed, Value.Framed]
  | .regex pat opt, h | .regexObject pat opt, h => by
    simpa [ParseTree.value, ParseTree.Framed, Value.Framed] using
      and_congr (not_congr h.1) (not_congr h.2)
  | .dbRef _ ns id, h => by
    have href : 0 ∉ ascii "$ref" ∧ 0 ∉ ascii "$id" := by decide
    rw [ParseTree.Framed, ← framed_value_iff h.2]
    cases hv : id.value <;>
      simp [ParseTree.value, refDoc, hv, append, Value.Framed, Doc.Framed, href]
  | .array es, h => by
    simpa [ParseTree.value, ParseTree.Framed, Value.Framed] using framed_doc_iff h
  | .object ms, h => by
    simpa [ParseTree.value, ParseTree.Framed, Value.Framed] using framed_doc_iff h

theorem framed_doc_iff : ∀ {ms : Members}, MemberStrings NulEscaped ms →
    (ms.doc.Framed ↔ ms.Framed)
  | .nil, _ => Iff.rfl
  | .cons name t rest, h => by
    have hname : 0 ∈ denoted name ↔ nul ∈ name := h.1
    rw [Members.doc, Members.Framed, ← framed_value_iff h.2.1, ← framed_doc_iff h.2.2, ← hname]
    cases t with
    | lost => simp [ParseTree.value, append]
    | _ => simp [ParseTree.value, append, Doc.Framed]

end

/-! ### Well-formed documents -/

/-- No name, pattern or options that are stored of the text have the escape of a NUL. -/
def FramedText (rt : Runtime) (s : Bytes) : Prop := ∀ ms r, Base rt s ms r → ms.Framed

section texts
variable {rt : Runtime} {s r : Bytes} {ms : Members}

theorem Base.framed_iff (h : Base rt s ms r) (h0 : 0 ∉ s) : ms.doc.Framed ↔ ms.Framed :=
  framed_doc_iff (strings_of_reads (P := NulEscaped) (fun ht => ht.nulEscaped h0)
    (fun ht => ht.nulEscaped) h.reads (List.suffix_refl s))

theorem framedText_of_base (h : Base rt s ms r) (hf : ms.Framed) : FramedText rt s :=
  fun _ _ h' => (Base.unique h h').1 ▸ hf

theorem framedText_iff {d : Doc} (h : Denotes rt s d) (h0 : 0 ∉ s) :
    FramedText rt s ↔ d.Framed := by
  rcases h with ⟨rfl, rfl⟩ | ⟨ms, r, hb, rfl⟩
  · exact ⟨fun _ => trivial, fun _ ms r hb => absurd rfl (ne_nil_of_reads hb.reads)⟩
  · rw [Base.framed_iff hb h0]
    exact ⟨fun hf => hf ms r hb, framedText_of_base hb⟩

end texts

/-- **What `bson_in` stores is well formed when no field name, pattern or options of the text have
the escape of a NUL.** That is also exactly when the bytes are those of the document that is
written. -/
theorem bsonIn_wellFormed (rt : Runtime) (s bs : Bytes) (h : bsonIn rt s = .ok bs) :
    (FramedText rt (cstr s) → WellFormed bs) ∧
      (FramedText rt (cstr s) ↔
        ∃ d, Denotes rt (cstr s) d ∧ Bson.Decode.decode bs = some d) := by
  obtain ⟨d, hd, rfl, hgood, hs⟩ := bsonIn_ok h
  have hden := denotes_of_fromjson hd
  have h0 := zero_notMem_cstr s
  refine ⟨fun hf => ?_, fun hf => ?_, ?_⟩
  · have hdf := (framedText_iff hden h0).mp hf
    exact (wellFormed_bytes_iff hdf).mpr ⟨hs, hgood.valid hdf⟩
  · have hdf := (framedText_iff hden h0).mp hf
    exact ⟨d, hden, decode_bytes hdf ((lt_of_le_maxSize hs).trans (by omega))⟩
  · rintro ⟨d', hden', hdec⟩
    exact (framedText_iff hden' h0).mpr (decode_sound hdec).2

/-- The base object of a text with one field, a string. -/
theorem base_of_string (rt : Runtime) (t : Spelling) (h : ∀ c ∈ t, c.Allowed 34) :
    Base rt (ascii "\x7b\"a\":\"" ++ (written t ++ ascii "\"\x7d"))
      (.cons [.plain 97] (.string t) .nil) [] where
  reads := by
    have hname : ∀ j, Field (ascii "\"a\"" ++ j) ([97].map .plain) j :=
      fun j => .inl (quotedString_of_plain (.inl rfl) (by decide +kernel) rfl)
    have hvalue : QuotedString (34 :: (written t ++ ascii "\"\x7d")) t (ascii "\x7d") :=
      ⟨34, .inl rfl, rfl, h⟩
    exact .braces rfl (.pair (hname (58 :: 34 :: (written t ++ ascii "\"\x7d"))) rfl
      (.leaf (.string hvalue))) rfl
  unreserved := show denoted ([97].map .plain) ∉ reserved by decide
  resolved := ⟨trivial, trivial⟩

/-- A NUL in a string value. -/
def nulValue : Bytes := ascii "\x7b\"a\":\"x\\u0000y\"\x7d"

theorem base_nulValue (rt : Runtime) :
    Base rt (cstr nulValue) (.cons [.plain 97] (.string [.plain 120, nul, .plain 121]) .nil) [] :=
  base_of_string rt [.plain 120, nul, .plain 121]
    (by simp [nul, StringChar.Allowed]; decide +kernel)

/-- It does no harm there. -/
theorem bsonIn_wellFormed_nulValue :
    bsonIn .common nulValue = .ok [16, 0, 0, 0, 2, 97, 0, 4, 0, 0, 0, 120, 0, 121, 0, 0] ∧
      WellFormed [16, 0, 0, 0, 2, 97, 0, 4, 0, 0, 0, 120, 0, 121, 0, 0] := by
  have h : bsonIn .common nulValue =
      .ok [16, 0, 0, 0, 2, 97, 0, 4, 0, 0, 0, 120, 0, 121, 0, 0] := by decide +kernel
  have hf : FramedText .common (cstr nulValue) :=
    framedText_of_base (base_nulValue .common) ⟨.inr (by decide), trivial, trivial⟩
  exact ⟨h, (bsonIn_wellFormed .common nulValue _ h).1 hf⟩

/-- A NUL in a field name. -/
def nulName : Bytes := ascii "\x7b\"a\\u0000b\":null\x7d"

theorem bsonIn_nulName_not_wellFormed :
    bsonIn .common nulName = .ok [10, 0, 0, 0, 10, 97, 0, 98, 0, 0] ∧
      ¬ WellFormed [10, 0, 0, 0, 10, 97, 0, 98, 0, 0] := by
  decide +kernel

/-- By accident the bytes may be well formed, as those of another document. -/
example : bsonIn .common (ascii "\x7b\"a\\u0000\\nb\":null\x7d") =
      .ok [11, 0, 0, 0, 10, 97, 0, 10, 98, 0, 0] ∧
    WellFormed [11, 0, 0, 0, 10, 97, 0, 10, 98, 0, 0] := by
  decide +kernel

/-! ### The text as a whole -/

/-- White space only. -/
def Blank (r : Bytes) : Prop := ∀ c ∈ r, isspace c = true

instance (r : Bytes) : Decidable (Blank r) := inferInstanceAs (Decidable (∀ c ∈ r, _))

/-- The text is an object of the documented grammar, with the pairs of the document. -/
def WholeText (refs : Bool) (rt : Runtime) (s : Bytes) (d : Doc) : Prop :=
  ∃ ms r, Reads rt s (.object (.object ms)) r ∧ ms.Documented refs ∧ Blank r ∧ ms.doc = d

/-- **A text that `bson_in` accepts is as a whole one object of the documented grammar, and the
stored bytes are the document with its pairs**, exactly when it is not empty, only white space
follows the base object, the base object keeps to the documented grammar and no name, pattern or
options that are stored have the escape of a NUL. -/
theorem bsonIn_whole (refs : Bool) (rt : Runtime) (s bs : Bytes) (h : bsonIn rt s = .ok bs) :
    (∃ d, WholeText refs rt (cstr s) d ∧ Bson.Decode.decode bs = some d) ↔
      cstr s ≠ [] ∧ ∀ ms r, Base rt (cstr s) ms r →
        Blank r ∧ ms.Documented refs ∧ ms.Framed := by
  obtain ⟨d, hd, rfl, -, hs⟩ := bsonIn_ok h
  have h0 := zero_notMem_cstr s
  constructor
  · rintro ⟨_, ⟨ms', r', hreads, hdoc, hblank, rfl⟩, hdec⟩
    have hne := ne_nil_of_reads hreads
    refine ⟨hne, fun ms r hb => ?_⟩
    obtain ⟨hbytes, hf⟩ := decode_sound hdec
    -- another reading than the parser's is that of other bytes
    rcases Base.cases hb hreads with ⟨rfl, rfl⟩ | ⟨-, hclash⟩
    · exact ⟨hblank, hdoc, (Base.framed_iff hb h0).mp hf⟩
    · obtain ⟨ms'', r'', hb'', rfl⟩ := fromjson_reads hne hd
      obtain ⟨rfl, -⟩ := Base.unique hb hb''
      exact absurd hbytes.symm hclash.bytes_ne
  · rintro ⟨hne, hall⟩
    obtain ⟨ms, r, hb, rfl⟩ := fromjson_reads hne hd
    obtain ⟨hblank, hdoc, hf⟩ := hall ms r hb
    exact ⟨ms.doc, ⟨ms, r, hb.reads, hdoc, hblank, rfl⟩,
      decode_bytes ((Base.framed_iff hb h0).mpr hf) ((lt_of_le_maxSize hs).trans (by omega))⟩

theorem strict_plain (t : Bytes) : Strict (t.map .plain) := by simp [Strict]

theorem documented_pairsMembers (refs : Bool) : pairsMembers.Documented refs := by
  have h := strict_plain
  have harray : pairsArray.Documented refs := ⟨h _, h _, h _, trivial, trivial⟩
  have href : pairsRef.Documented refs := ⟨h _, h _, h _, h _, trivial⟩
  have hobject : pairsRef.RefObject := by
    intro _ _
    rw [ParseTree.RefId, denoted_plain]
    exact ⟨⟨hexBytes (ascii "0123456789abcdef01234567"), rfl⟩, rfl, by decide, rfl⟩
  exact ⟨h _, harray, h _, ⟨fun _ => hobject, href⟩, trivial⟩

theorem framed_pairsMembers : pairsMembers.Framed := by
  simp [pairsMembers, pairsArray, pairsRef, Members.Framed, ParseTree.Framed, nul]

theorem bsonIn_whole_pairsText :
    ∃ bs, bsonIn .common pairsText = .ok bs ∧
      ∃ d, WholeText true .common (cstr pairsText) d ∧ Bson.Decode.decode bs = some d := by
  have h : bsonIn .common pairsText = .ok pairsMembers.doc.bytes := by decide +kernel
  have hcstr : cstr pairsText = pairsText := by decide +kernel
  refine ⟨_, h, (bsonIn_whole true .common pairsText _ h).mpr ⟨by decide, fun ms r hb => ?_⟩⟩
  rw [hcstr] at hb
  obtain ⟨rfl, rfl⟩ := Base.unique (base_pairsText .common) hb
  exact ⟨by decide +kernel, documented_pairsMembers true, framed_pairsMembers⟩

/-- An empty object and more text. -/
def trailing : Bytes := ascii "\x7b\x7d x"

theorem bsonIn_trailing_not_whole :
    bsonIn .common trailing = .ok [5, 0, 0, 0, 0] ∧
      ∀ refs d, ¬ WholeText refs .common (cstr trailing) d := by
  refine ⟨by decide +kernel, ?_⟩
  rintro refs _ ⟨ms, r, hr, -, hblank, rfl⟩
  have hb : Base .common (cstr trailing) .nil (ascii " x") :=
    ⟨.emptyObject rfl rfl, trivial, trivial⟩
  rcases Base.cases hb hr with ⟨-, rfl⟩ | ⟨-, hclash⟩
  · revert hblank
    decide +kernel
  · cases hclash

end PgBson.Json.Whole
