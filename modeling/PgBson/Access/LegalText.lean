import PgBson.Access.Get
import PgBson.Json.Whole
import PgBson.Lib.Unicode

/-! # Texts that SQL can hold

`bson_get_text` on a document read by `bson_in`, from a text in UTF-8 whose names, patterns and
options have no escape of a NUL. What it returns is in UTF-8 and has no NUL exactly when the string
that the path meets is written without the escape of a NUL or of a surrogate (`bsonGetText_legal`).
The parser decodes such an escape like any other, and no later stage looks at the bytes
(`bsonGetText_nulText`). -/

namespace PgBson.Access.LegalText

open PgBson.Lib.Memory PgBson.Lib.Binary64 PgBson.Lib.Decimal PgBson.Lib.General PgBson.Lib.Strtod
open PgBson.Lib.Unicode PgBson.Lib.Parsing
open PgBson.Bson.Types PgBson.Bson.Document
open PgBson.Json.Encoding PgBson.Json.Parse PgBson.Json.Restore PgBson.Json.Grammar
open PgBson.Json.Reading PgBson.Json.Accepts PgBson.Json.Ambiguity PgBson.Json.Whole
open PgBson.Json.Completeness (denotes_of_fromjson)
open PgBson.Access.Lookup PgBson.Access.Get

/-! ### Legal texts -/

/-- A text in UTF-8 without a NUL. -/
def Legal (t : Bytes) : Prop := Utf8 t ∧ 0 ∉ t

theorem legal_of_ascii {t : Bytes} (h : ∀ c ∈ t, 0 < c ∧ c < 128) : Legal t :=
  ⟨utf8_of_ascii fun c hc => (h c hc).2, fun h0 => absurd (h 0 h0).1 (by decide)⟩

/-- The escape of a surrogate. -/
def Surrogate : StringChar → Prop
  | .unicode h0 h1 _ _ => 0xd8 ≤ fromHex h0 h1 ∧ fromHex h0 h1 ≤ 0xdf
  | _ => False

instance : DecidablePred Surrogate
  | .unicode h0 h1 _ _ => inferInstanceAs (Decidable (0xd8 ≤ fromHex h0 h1 ∧ fromHex h0 h1 ≤ 0xdf))
  | .plain _ | .escape _ => inferInstanceAs (Decidable False)

/-- The escape of a NUL or of a surrogate. -/
def Spoils (c : StringChar) : Prop := c = nul ∨ Surrogate c

instance : DecidablePred Spoils := fun c => inferInstanceAs (Decidable (c = nul ∨ Surrogate c))

/-! ### The bytes of an escape -/

theorem low_byte (b : UInt8) :
    (0x80 : UInt8) ||| (~~~0xc0 &&& b) = UInt8.ofNat (b.toNat % 64 + 128) := by
  revert b
  exact forall_byte (by decide +kernel)

theorem high_byte (b : UInt8) : (0xe0 : UInt8) ||| b >>> 4 = UInt8.ofNat (b.toNat / 16 + 224) := by
  revert b
  exact forall_byte (by decide +kernel)

theorem middle_byte (b : UInt8) :
    b.toNat < 32 → (0xc0 : UInt8) ||| b = UInt8.ofNat (b.toNat + 192) := by
  revert b
  exact forall_byte (by decide +kernel)

theorem toNat_lead (first second : UInt8) :
    (first <<< 2 ||| second >>> 6).toNat = first.toNat * 4 % 256 + second.toNat / 64 := by
  have hf : first.toNat <<< 2 % 256 = (first.toNat % 64) <<< 2 := by
    rw [Nat.shiftLeft_eq, Nat.shiftLeft_eq]
    omega
  have hs : second.toNat >>> 6 < 2 ^ 2 := by
    rw [Nat.shiftRight_eq_div_pow]
    have := second.toNat_lt
    omega
  have hor := Nat.shiftLeft_add_eq_or_of_lt hs (first.toNat % 64)
  rw [UInt8.toNat_or, UInt8.toNat_shiftLeft, UInt8.toNat_shiftRight]
  change first.toNat <<< 2 % 256 ||| second.toNat >>> 6 = _
  rw [hf, ← hor, Nat.shiftLeft_eq, Nat.shiftRight_eq_div_pow]
  omega

/-- The escape of a code point that is not a surrogate denotes its UTF-8 bytes. -/
theorem utf8_encodeUTF8 {first : UInt8} (second : UInt8) (h : ¬ (0xd8 ≤ first ∧ first ≤ 0xdf)) :
    Utf8 (encodeUTF8 first second) := by
  have hf := first.toNat_lt
  have hs := second.toNat_lt
  have hlead := toNat_lead first second
  have hvalid : (first.toNat * 256 + second.toNat).isValidChar := by
    rw [UInt8.le_iff_toNat_le, UInt8.le_iff_toNat_le, not_and_or, not_le, not_le] at h
    rcases h with h | h
    · exact Or.inl (by change first.toNat < 216 at h; omega)
    · exact Or.inr ⟨by change 223 < first.toNat at h; omega, by omega⟩
  have hchar := utf8_char (Char.ofNat (first.toNat * 256 + second.toNat))
  rw [utf8EncodeChar_ofNat hvalid] at hchar
  unfold encodeUTF8
  dsimp only
  by_cases h1 : first = 0 ∧ second < 0x80
  · have h2 : second.toNat < 128 := UInt8.lt_iff_toNat_lt.mp h1.2
    rw [h1.1, UInt8.toNat_zero, Nat.zero_mul, Nat.zero_add, if_pos (by omega),
      UInt8.ofNat_toNat] at hchar
    rwa [if_pos h1]
  · have hn : 127 < first.toNat * 256 + second.toNat := by
      by_contra hle
      refine h1 ⟨UInt8.toNat_inj.mp ?_, UInt8.lt_iff_toNat_lt.mpr ?_⟩
      · rw [UInt8.toNat_zero]
        omega
      · change second.toNat < 128
        omega
    rw [if_neg (by omega)] at hchar
    by_cases h2 : first < 0x08
    · have h3 : first.toNat < 8 := UInt8.lt_iff_toNat_lt.mp h2
      have e1 : (first.toNat * 256 + second.toNat) / 64 % 32 =
          (first <<< 2 ||| second >>> 6).toNat := by omega
      have e2 : (first.toNat * 256 + second.toNat) % 64 = second.toNat % 64 := by omega
      rw [if_pos (by omega), e1, e2] at hchar
      rwa [if_neg h1, if_pos h2, middle_byte _ (by omega), low_byte]
    · have h3 : ¬ first.toNat < 8 := fun h => h2 (UInt8.lt_iff_toNat_lt.mpr h)
      have e1 : (first.toNat * 256 + second.toNat) / 4096 % 16 = first.toNat / 16 := by omega
      have e2 : (first.toNat * 256 + second.toNat) / 64 % 64 =
          (first <<< 2 ||| second >>> 6).toNat % 64 := by omega
      have e3 : (first.toNat * 256 + second.toNat) % 64 = second.toNat % 64 := by omega
      rw [if_neg (by omega), if_pos (by omega), e1, e2, e3] at hchar
      rwa [if_neg h1, if_neg h2, high_byte, low_byte, low_byte]

/-- The escape of a surrogate denotes bytes that occur in no text in UTF-8. -/
theorem encodeUTF8_surrogate {first : UInt8} (second : UInt8) (h : 0xd8 ≤ first ∧ first ≤ 0xdf) :
    ∃ x y, encodeUTF8 first second = [0xed, x, y] ∧ 0xa0 ≤ x := by
  have hs := second.toNat_lt
  have hlead := toNat_lead first second
  rw [UInt8.le_iff_toNat_le, UInt8.le_iff_toNat_le] at h
  change 216 ≤ first.toNat ∧ first.toNat ≤ 223 at h
  have h1 : ¬ (first = 0 ∧ second < 0x80) := by
    rintro ⟨rfl, -⟩
    exact absurd h.1 (by decide)
  have h2 : ¬ first < 0x08 := by
    rw [UInt8.lt_iff_toNat_lt]
    change ¬ first.toNat < 8
    omega
  have h3 : first.toNat / 16 + 224 = 237 := by omega
  unfold encodeUTF8
  dsimp only
  rw [if_neg h1, if_neg h2, high_byte, low_byte, low_byte, h3]
  refine ⟨_, _, rfl, ?_⟩
  rw [UInt8.le_iff_toNat_le, UInt8.toNat_ofNat']
  change 160 ≤ _
  omega

/-! ### Strings -/

theorem unescaped_lt (c : UInt8) : c < 128 → unescaped c < 128 := by
  revert c
  exact forall_byte (by decide +kernel)

/-- An escaped byte from 128 on stands for itself. -/
theorem unescaped_high (c : UInt8) : 128 ≤ c → unescaped c = c := by
  revert c
  exact forall_byte (by decide +kernel)

theorem isxdigit_ascii (c : UInt8) : isxdigit c = true → 0 < c ∧ c < 128 := by
  revert c
  exact forall_byte (by decide +kernel)

/-- The string of a text in UTF-8 is in UTF-8. The induction starts inside a character, whose bytes
`p` so far have passed unchanged. -/
theorem utf8_denoted {q : UInt8} : ∀ {t : Spelling}, (∀ c ∈ t, c.Allowed q) →
    (∀ c ∈ t, ¬ Surrogate c) → ∀ p : Bytes, Utf8 (p ++ written t) → Utf8 (p ++ denoted t)
  | [], _, _, _, h => h
  | c :: t, hq, hs, p, h => by
    obtain ⟨hc, hqt⟩ := List.forall_mem_cons.mp hq
    obtain ⟨hsc, hst⟩ := List.forall_mem_cons.mp hs
    have ih := utf8_denoted hqt hst
    rw [written_cons] at h
    rw [denoted_cons]
    cases c with
    | plain c =>
      by_cases hlt : c < 128
      · obtain ⟨h1, h2⟩ := Utf8.cut hlt h
        exact h1.append ((utf8_singleton hlt).append (ih [] h2))
      · simpa [StringChar.denoted] using ih (p ++ [c]) (by simpa [StringChar.text] using h)
    | escape c =>
      obtain ⟨h1, h2⟩ := Utf8.cut (by decide) h
      refine h1.append ?_
      by_cases hlt : c < 128
      · exact (utf8_singleton (unescaped_lt c hlt)).append (ih [] (h2.of_cons hlt))
      · -- The byte starts a character, which the loop goes on to read.
        rw [StringChar.denoted, unescaped_high c (UInt8.not_lt.mp hlt)]
        exact ih [c] h2
    | unicode h0 h1 h2 h3 =>
      have hpoint := utf8_encodeUTF8 (fromHex h2 h3) hsc
      simp only [StringChar.Allowed, isHexString, List.all_cons, List.all_nil, Bool.and_true,
        Bool.and_eq_true] at hc
      obtain ⟨x0, x1, x2, x3⟩ := hc
      obtain ⟨hp, ht⟩ := Utf8.cut (by decide) h
      have hrest := ((((ht.of_cons (by decide)).of_cons (isxdigit_ascii _ x0).2).of_cons
        (isxdigit_ascii _ x1).2).of_cons (isxdigit_ascii _ x2).2).of_cons (isxdigit_ascii _ x3).2
      exact hp.append (hpoint.append (ih [] hrest))

theorem not_utf8_of_surrogate {t : Spelling} {c : StringChar} (hc : c ∈ t) (h : Surrogate c) :
    ¬ Utf8 (denoted t) := by
  obtain ⟨a, b, rfl⟩ := List.append_of_mem hc
  cases c with
  | plain | escape => exact h.elim
  | unicode h0 h1 h2 h3 =>
    obtain ⟨x, y, he, hx⟩ := encodeUTF8_surrogate (fromHex h2 h3) h
    intro hu
    have hd : denoted (a ++ .unicode h0 h1 h2 h3 :: b) =
        denoted a ++ 0xed :: x :: (y :: denoted b) := by
      simp [denoted, StringChar.denoted, he]
    rw [hd] at hu
    exact absurd hx (UInt8.not_le.mpr hu.lt_behind_ed)

/-- The string is legal exactly when no escape in it spoils it. -/
def Judged (t : Spelling) : Prop := Legal (denoted t) ↔ ∀ c ∈ t, ¬ Spoils c

theorem judged_of_stands {s : Bytes} {t : Spelling} (hu : Utf8 s) (h0 : 0 ∉ s) (h : Stands s t) :
    Judged t := by
  have hnul : NulEscaped t := h.nulEscaped h0
  obtain ⟨a, q, j, ha, hq, hc, hs⟩ := h
  have hw : Utf8 (written t) := ((hu.behind ha hs).cut hq).1
  constructor
  · rintro ⟨hd, hz⟩ c hmem (rfl | hsur)
    · exact hz (hnul.mpr hmem)
    · exact not_utf8_of_surrogate hmem hsur hd
  · intro hclean
    exact ⟨utf8_denoted hc (fun c hmem hsur => hclean c hmem (.inr hsur)) [] hw,
      fun hz => hclean nul (hnul.mp hz) (.inl rfl)⟩

theorem judged_of_bare {t : Spelling} (h : Bare t) : Judged t := by
  obtain ⟨u, rfl, hu⟩ := h
  refine ⟨fun _ c hc => ?_, fun _ => ?_⟩
  · obtain ⟨x, -, rfl⟩ := List.mem_map.mp hc
    rintro (hx | hx)
    · cases hx
    · exact hx
  · rw [denoted_plain]
    exact legal_of_ascii hu

/-! ### What a path meets in a reading -/

/-- The first tree with a value under a name. -/
def treeUnder : Members → Bytes → Option ParseTree
  | .nil, _ => none
  | .cons _ .lost rest, name => treeUnder rest name
  | .cons n t rest, name => if denoted n = name then some t else treeUnder rest name

/-- The pairs of an object, an array or a reference. -/
def parts : ParseTree → Members
  | .object ms => ms
  | .array es => es
  | .dbRef _ ns id =>
    .cons ((ascii "$ref").map .plain) (.string ns) (.cons ((ascii "$id").map .plain) id .nil)
  | _ => .nil

/-- The tree under a dotted path, which is split as in `findDotted`. -/
def treeDotted : ℕ → Members → Bytes → Option ParseTree
  | 0, _, _ => none
  | fuel + 1, ms, name =>
    match treeUnder ms name with
    | some t => some t
    | none =>
      if 46 ∈ name then
        match treeUnder ms (beforeDot name) with
        | some t => treeDotted fuel (parts t) (afterDot name)
        | none => none
      else none

/-- The string or the pattern of a tree. -/
def spelling : ParseTree → Spelling
  | .string s => s
  | .regex pat _ | .regexObject pat _ => pat
  | _ => []

/-- The string or the pattern under a path, as it is written. -/
def spellingAt (ms : Members) (path : Bytes) : Spelling :=
  ((treeDotted (path.length + 1) ms (cstr (path ++ [0]))).map spelling).getD []

/-- The tree is that of the value, and its strings are judged by their spelling. -/
def Means (t : Option ParseTree) (v : Option Value) : Prop :=
  t = none ∧ v = none ∨ ∃ t' v', t = some t' ∧ v = some v' ∧ Strings Judged t' ∧ t'.value = some v'

theorem treeUnder_cons {n : Spelling} {t : ParseTree} {v : Value} (rest : Members) (name : Bytes)
    (h : t.value = some v) :
    treeUnder (.cons n t rest) name =
      if denoted n = name then some t else treeUnder rest name := by
  cases t <;> first | rfl | cases h

theorem eq_lost_of_value {t : ParseTree} (h : t.value = none) : t = .lost := by
  cases t <;> first | rfl | cases h

theorem means_treeUnder : ∀ {ms : Members} (name : Bytes), MemberStrings Judged ms →
    Means (treeUnder ms name) (find ms.doc name)
  | .nil, _, _ => .inl ⟨rfl, rfl⟩
  | .cons n t rest, name, h => by
    have ih := means_treeUnder name h.2.2
    rw [Members.doc]
    cases hv : t.value with
    | none =>
      rw [eq_lost_of_value hv]
      exact ih
    | some v =>
      rw [treeUnder_cons rest name hv, append, find]
      split_ifs
      · exact .inr ⟨t, v, rfl, rfl, h.2.1, hv⟩
      · exact ih

/-- The pairs of a tree are the fields of its value. -/
theorem doc_parts {t : ParseTree} {v : Value} (h : Strings Judged t) (hv : t.value = some v) :
    (parts t).doc = fields v ∧ MemberStrings Judged (parts t) := by
  have hname : ∀ u : Bytes, (∀ c ∈ u, 0 < c ∧ c < 128) → Judged (u.map .plain) :=
    fun u hu => judged_of_bare ⟨u, rfl, hu⟩
  cases t with
  | lost => cases hv
  | scalar w =>
    cases hv
    cases v <;> first | exact h.elim | exact ⟨rfl, trivial⟩
  | dbRef documented ns id =>
    cases hv
    refine ⟨?_, hname _ (by decide +kernel), h.1, hname _ (by decide +kernel), h.2, trivial⟩
    simp only [parts, Members.doc, denoted_plain]
    rfl
  | array es | object ms =>
    cases hv
    exact ⟨rfl, h⟩
  | string | date | timestamp | objectId | regex | regexObject | binary =>
    cases hv
    exact ⟨rfl, trivial⟩

/-- **A path meets in the reading the tree of the value that it meets in the document.** -/
theorem means_treeDotted : ∀ (fuel : ℕ) {ms : Members} (name : Bytes), MemberStrings Judged ms →
    Means (treeDotted fuel ms name) (findDotted fuel ms.doc name)
  | 0, _, _, _ => .inl ⟨rfl, rfl⟩
  | fuel + 1, ms, name, h => by
    rcases means_treeUnder name h with ⟨ht, hv⟩ | ⟨t, v, ht, hv, hm⟩
    · rw [treeDotted, findDotted, ht, hv]
      dsimp only
      split_ifs
      · rcases means_treeUnder (beforeDot name) h with ⟨ht', hv'⟩ | ⟨t, v, ht', hv', hs, hval⟩
        · rw [ht', hv']
          exact .inl ⟨rfl, rfl⟩
        · obtain ⟨hdoc, hparts⟩ := doc_parts hs hval
          rw [ht', hv']
          dsimp only
          rw [← hdoc]
          exact means_treeDotted fuel (afterDot name) hparts
      · exact .inl ⟨rfl, rfl⟩
    · rw [treeDotted, findDotted, ht, hv]
      exact .inr ⟨t, v, rfl, rfl, hm⟩

/-! ### What is returned -/

theorem ascii_streamDouble {b : BitVec 64} {c : UInt8} (h : c ∈ streamDouble b) :
    0 < c ∧ c < 128 := by
  have hword : ∀ neg : Bool, (∀ c ∈ signText neg ++ ascii "nan", 0 < c ∧ c < 128) ∧
      ∀ c ∈ signText neg ++ ascii "inf", 0 < c ∧ c < 128 := by decide +kernel
  unfold streamDouble at h
  split at h
  · exact (hword _).1 c h
  · exact (hword _).2 c h
  · exact ascii_formatReal (by unfold unit; positivity) h

theorem legal_of_scalar {lib : Library} {v : Value} {u : Bytes} (h : Scalar v)
    (hu : textOf lib v = .ok u) : Legal u := by
  cases v with
  | numberDouble b => exact legal_of_ascii fun c hc => ascii_streamDouble (Except.ok.inj hu ▸ hc)
  | numberInt n | numberLong n =>
    exact legal_of_ascii fun c hc => ascii_decimalInt (Except.ok.inj hu ▸ hc)
  | bool b =>
    have hword : ∀ c ∈ ascii "false" ++ ascii "true", 0 < c ∧ c < 128 := by decide +kernel
    refine legal_of_ascii fun c hc => hword c (List.mem_append.mpr ?_)
    rw [← Except.ok.inj hu] at hc
    split_ifs at hc
    · exact Or.inl hc
    · exact Or.inr hc
  | jstNULL | undefined => cases hu
  | _ => exact h.elim

theorem legal_of_date {lib : Library} {v : BitVec 64} {u : Bytes}
    (hu : textOf lib (.date v) = .ok u) : Legal u := by
  rw [textOf] at hu
  cases hiso : lib.isoExtended v with
  | ok t =>
    rw [hiso] at hu
    exact legal_of_ascii fun c hc => lib.isoExtended_ascii hiso c (Except.ok.inj hu ▸ hc)
  | error e =>
    rw [hiso] at hu
    cases hu

/-- The text of a value is judged by the spelling of its tree. -/
theorem legal_textOf_iff {lib : Library} {t : ParseTree} {v : Value} {u : Bytes}
    (h : Strings Judged t) (hv : t.value = some v) (hu : textOf lib v = .ok u) :
    Legal u ↔ ∀ c ∈ spelling t, ¬ Spoils c := by
  have hnone : Legal u → (Legal u ↔ ∀ c ∈ ([] : Spelling), ¬ Spoils c) :=
    fun hl => iff_of_true hl (by simp)
  cases t with
  | string s =>
    cases hv
    rw [← Except.ok.inj hu, List.dropLast_concat]
    exact h
  | regex pat opt | regexObject pat opt =>
    cases hv
    rw [← Except.ok.inj hu]
    exact h.1
  | scalar w =>
    cases hv
    exact hnone (legal_of_scalar h hu)
  | date n =>
    cases hv
    exact hnone (legal_of_date hu)
  | objectId s id =>
    cases hv
    have hhex := List.all_eq_true.mp (isHexString_toHexLower id.data)
    exact hnone (legal_of_ascii fun c hc => isxdigit_ascii c (hhex c (Except.ok.inj hu ▸ hc)))
  | lost => cases hv
  | timestamp | binary | dbRef | array | object =>
    cases hv
    cases hu

theorem legal_spellingAt_iff {lib : Library} {rt : Runtime} {s rest path u : Bytes} {ms : Members}
    {v : Value} (hs : Utf8 s) (h0 : 0 ∉ s) (h : Base rt s ms rest)
    (hv : valueAt ms.doc path = some v) (hu : textOf lib v = .ok u) :
    Legal u ↔ ∀ c ∈ spellingAt ms path, ¬ Spoils c := by
  have hstrings : MemberStrings Judged ms := strings_of_reads (P := Judged)
    (judged_of_stands hs h0) judged_of_bare h.reads (List.suffix_refl s)
  rcases means_treeDotted (path.length + 1) (cstr (path ++ [0])) hstrings with
    ⟨-, hnone⟩ | ⟨t, w, ht, hw, hm, hval⟩
  · rw [valueAt, hnone] at hv
    cases hv
  · rw [valueAt, hw] at hv
    rw [spellingAt, ht]
    cases hv
    exact legal_textOf_iff hm hval hu

/-- **`bson_get_text` returns a legal text** from a document that was read from a text in UTF-8,
exactly when the string under the path is written without the escape of a NUL or of a surrogate. -/
theorem bsonGetText_legal (lib : Library) (rt : Runtime) (s bs r path t : Bytes)
    (hu : Utf8 (cstr s)) (hf : FramedText rt (cstr s)) (h : bsonIn rt s = .ok bs)
    (ht : bsonGetText lib (bs ++ r) path = .ok (some t)) :
    Legal t ↔ ∀ ms rest, Base rt (cstr s) ms rest → ∀ c ∈ spellingAt ms path, ¬ Spoils c := by
  obtain ⟨d, hd, rfl, hgood, hsize⟩ := bsonIn_ok h
  have h0 := zero_notMem_cstr s
  have hden := denotes_of_fromjson hd
  have hvalid := hgood.valid ((framedText_iff hden h0).mp hf)
  obtain ⟨v, hv, htext⟩ : ∃ v, valueAt d path = some v ∧ textOf lib v = .ok t :=
    (bsonGet_eq_some (converts_text lib) ⟨d, hvalid, hsize⟩).mp ht
  rcases hden with ⟨-, rfl⟩ | ⟨ms, rest, hb, rfl⟩
  · simp [valueAt, findDotted, find] at hv
  · have hiff := legal_spellingAt_iff hu h0 hb hv htext
    constructor
    · intro hl ms' rest' hb'
      exact (Base.unique hb hb').1 ▸ hiff.mp hl
    · intro hall
      exact hiff.mpr (hall ms rest hb)

/-! ### Two texts -/

/-- The text `{"a":"é\u00e9\\ud800"}`: a character of two bytes raw and escaped, and an escaped
backslash. -/
def accented : Bytes := ascii "\x7b\"a\":\"" ++ [0xc3, 0xa9] ++ ascii "\\u00e9\\\\ud800\"\x7d"

def accentedString : Spelling :=
  [.plain 0xc3, .plain 0xa9, .unicode 48 48 101 57, .escape 92] ++ (ascii "ud800").map .plain

theorem base_accented (rt : Runtime) :
    Base rt (cstr accented) (.cons [.plain 97] (.string accentedString) .nil) [] :=
  base_of_string rt accentedString (by simp [accentedString, StringChar.Allowed]; decide +kernel)

theorem bsonGetText_legal_accented :
    ∃ bs t, bsonIn .common accented = .ok bs ∧
      bsonGetText .timeless bs (ascii "a") = .ok (some t) ∧ Legal t := by
  have h : bsonIn .common accented =
      .ok [23, 0, 0, 0, 2, 97, 0, 11, 0, 0, 0, 0xc3, 0xa9, 0xc3, 0xa9, 92, 117, 100, 56, 48, 48, 0,
        0] := by decide +kernel
  have ht : bsonGetText .timeless
      ([23, 0, 0, 0, 2, 97, 0, 11, 0, 0, 0, 0xc3, 0xa9, 0xc3, 0xa9, 92, 117, 100, 56, 48, 48, 0,
        0] ++ []) (ascii "a") = .ok (some [0xc3, 0xa9, 0xc3, 0xa9, 92, 117, 100, 56, 48, 48]) := by
    decide +kernel
  have hu : Utf8 (cstr accented) :=
    ⟨"\x7b\"a\":\"é\\u00e9\\\\ud800\"\x7d".toList, by decide +kernel⟩
  have hf : FramedText .common (cstr accented) :=
    framedText_of_base (base_accented .common) ⟨.inr (by decide), trivial, trivial⟩
  refine ⟨_, _, h, ht, (bsonGetText_legal .timeless .common accented _ [] _ _ hu hf h ht).mpr ?_⟩
  intro ms rest hb
  obtain ⟨rfl, -⟩ := Base.unique (base_accented .common) hb
  decide +kernel

/-- The text `{"a":"\u0000"}`. -/
def nulText : Bytes := ascii "\x7b\"a\":\"\\u0000\"\x7d"

theorem bsonGetText_nulText :
    ∃ bs t, Utf8 (cstr nulText) ∧ bsonIn .common nulText = .ok bs ∧
      bsonGetText .timeless bs (ascii "a") = .ok (some t) ∧ ¬ Legal t := by
  have hascii : ∀ c ∈ cstr nulText, c < 128 := by decide +kernel
  exact ⟨[14, 0, 0, 0, 2, 97, 0, 2, 0, 0, 0, 0, 0, 0], [0], utf8_of_ascii hascii,
    by decide +kernel, by decide +kernel, fun h => h.2 (by decide)⟩

end PgBson.Access.LegalText
