import PgBson.Json.Reading

/-! # Texts that are read without recursion

A text of the grammar determines how the parser runs on it: strings and field names, special
objects, numbers and words, and which way `value` goes by the first token (`value_of_keyword`,
`value_of_opener`). A field name and the options of a pattern are as long as they can be, so what
follows them counts; a number is tried last, behind the words. -/

namespace PgBson.Json.Recognize

open PgBson.Lib.Memory PgBson.Lib.Binary64 PgBson.Lib.Decimal PgBson.Lib.Strtod PgBson.Lib.Parsing
open PgBson.Bson.Types PgBson.Bson.Document
open PgBson.Json.Encoding PgBson.Json.Parse PgBson.Json.Leaves PgBson.Json.Restore
open PgBson.Json.Grammar PgBson.Json.Reading

/-! ### Tokens -/

section tokens
variable {t u i j k : Bytes}

theorem peek_of_token (h : Token t i j) : peek t i = .ok true i := by
  have hp : t.isPrefixOf? (i.dropWhile isspace) = some j :=
    List.isPrefixOf?_eq_some_iff_append_eq.mpr h.symm
  rw [peek, hp]
  rfl

/-- What stands next is another token. -/
theorem not_accept_of_token (h : Token u i j) (hn : t.isPrefixOf? (u ++ j) = none) :
    accept t i = .ok false i := by
  rw [accept, h, hn]

theorem not_peek_of_token (h : Token u i j) (hn : t.isPrefixOf? (u ++ j) = none) :
    peek t i = .ok false i := by
  rw [peek, h, hn]
  rfl

theorem not_peek_of_not_token (h : ∀ j, ¬ Token t i j) : peek t i = .ok false i := by
  cases hp : t.isPrefixOf? (i.dropWhile isspace) with
  | none => rw [peek, hp, Option.isSome_none]
  | some j => exact absurd (List.isPrefixOf?_eq_some_iff_append_eq.mp hp).symm (h j)

/-- The first character behind white space decides which token it is. -/
theorem head_of_token {c : UInt8} (h : Token (c :: t) i j) :
    ∃ d s, i = d :: s ∧ (isspace d = true ∨ d = c) := by
  cases i with
  | nil => cases h
  | cons d s =>
    refine ⟨d, s, rfl, ?_⟩
    by_cases hd : isspace d = true
    · exact .inl hd
    · rw [Token, List.dropWhile_cons_of_neg hd] at h
      exact .inr (List.cons.inj h).1

theorem Token.length_lt {c : UInt8} (h : Token (c :: t) i j) : j.length < i.length := by
  have := h.append_suffix.length_le
  simp at this
  omega

end tokens

/-! ### Strings and field names -/

section strings
variable {i j k : Bytes} {s : Spelling}

theorem charsLoop_of_chars {q : UInt8} (hq : q ≠ 92) (hs : ∀ c ∈ s, c.Allowed q) (j : Bytes) :
    charsLoop [q] none (written s ++ q :: j) = .ok (denoted s, q :: j) := by
  have hb : matchSet 92 [q] = false := by simp [matchSet, hq.symm]
  induction s with
  | nil =>
    rw [written_nil, List.nil_append, charsLoop.eq_def]
    simp [matchSet]
  | cons c s ih =>
    obtain ⟨hc, hs⟩ := List.forall_mem_cons.mp hs
    have ih := ih hs
    rw [written_cons, denoted_cons, List.append_assoc]
    cases c with
    | plain c =>
      obtain ⟨hcq, hcb, hlt⟩ := hc
      have h0 : c ≠ 0 := by
        rintro rfl
        exact absurd hlt (by decide)
      have hm : matchSet c [q] = false := by simp [matchSet, h0, hcq]
      rw [StringChar.text, List.singleton_append, charsLoop.eq_def]
      simp [hm, hcb, UInt8.not_le.mpr hlt, ih, StringChar.denoted]
    | escape c =>
      obtain ⟨hu, hc⟩ := hc
      have hd : escaped c = .ok (unescaped c) := escaped_eq_ok.mpr ⟨hc.1, hc.2, rfl⟩
      rw [StringChar.text, List.cons_append, List.singleton_append, charsLoop.eq_def]
      simp [hb, hu, hd, ih, StringChar.denoted]
      rfl
    | unicode h0 h1 h2 h3 =>
      have hx : isHexString [h0, h1, h2, h3] = true := hc
      simp only [StringChar.text, List.cons_append, List.nil_append]
      rw [charsLoop.eq_def]
      simp [hb, hx, ih, StringChar.denoted]

theorem QuotedString.quotes (h : QuotedString i s j) :
    (Token DOUBLEQUOTE i (written s ++ 34 :: j) ∧ ∀ c ∈ s, c.Allowed 34) ∨
      Token SINGLEQUOTE i (written s ++ 39 :: j) ∧ ∀ c ∈ s, c.Allowed 39 := by
  obtain ⟨q, rfl | rfl, ht, hs⟩ := h
  · exact .inl ⟨ht, hs⟩
  · exact .inr ⟨ht, hs⟩

theorem quotedString_of_text (h : QuotedString i s j) : quotedString i = .ok (denoted s) j := by
  rcases QuotedString.quotes h with ⟨ht, hs⟩ | ⟨ht, hs⟩
  · have hc : chars DOUBLEQUOTE none (written s ++ 34 :: j) = .ok (denoted s) (34 :: j) := by
      rw [chars, DOUBLEQUOTE, charsLoop_of_chars (by decide) hs]
    rw [quotedString, accept_bind (accept_of_token ht), ok_bind hc,
      ok_bind (expect_ok (j := j) rfl), pure_apply]
  · have hc : chars SINGLEQUOTE none (written s ++ 39 :: j) = .ok (denoted s) (39 :: j) := by
      rw [chars, SINGLEQUOTE, charsLoop_of_chars (by decide) hs]
    rw [quotedString, not_accept_bind (not_accept_of_token ht rfl),
      accept_bind (accept_of_token ht), ok_bind hc, ok_bind (expect_ok (j := j) rfl), pure_apply]

/-- Characters of a set, up to one that is not in it. -/
theorem charsLoop_of_allowed {set t : Bytes} (hset : ∀ c ∈ set, 0x1f < c ∧ c ≠ 92) {d : UInt8}
    (hd : matchSet d set = false) (ht : ∀ c ∈ t, c ∈ set) :
    charsLoop [] (some set) (t ++ d :: j) = .ok (t, d :: j) := by
  induction t with
  | nil =>
    rw [List.nil_append, charsLoop.eq_def]
    simp [show matchSet d [] = false from rfl, hd]
  | cons c t ih =>
    have hc := ht c List.mem_cons_self
    obtain ⟨hlt, hb⟩ := hset c hc
    have hm : matchSet c set = true := by
      simp [matchSet, hc, List.ne_nil_of_mem hc]
    rw [List.cons_append, charsLoop.eq_def]
    simp [show matchSet c [] = false from rfl, hm, hb, UInt8.not_le.mpr hlt,
      ih fun x hx => ht x (List.mem_cons_of_mem c hx)]

theorem fieldChars_plain :
    ∀ c ∈ ALPHA ++ DIGIT ++ ascii "_$", 0x1f < c ∧ c ≠ 92 := by
  decide +kernel

/-- The character behind a field name is none of a field name. -/
theorem fieldStop (hc : Token COLON j k) :
    ∃ d u, j = d :: u ∧ matchSet d (ALPHA ++ DIGIT ++ ascii "_$") = false := by
  obtain ⟨d, u, rfl, hd⟩ := head_of_token hc
  have hall : ∀ d : UInt8, isspace d = true ∨ d = 58 →
      matchSet d (ALPHA ++ DIGIT ++ ascii "_$") = false := forall_byte (by decide +kernel)
  exact ⟨d, u, rfl, hall d hd⟩

/-- A field name ends where the colon stands. -/
theorem field_of_text (h : Field i s j) (hc : Token COLON j k) : field i = .ok (denoted s) j := by
  rcases h with h | ⟨c, t, rfl, ht, hfirst, hrest⟩
  · rcases QuotedString.quotes h with ⟨ht, -⟩ | ⟨ht, -⟩
    · rw [field, peek_bind (peek_of_token ht), quotedString_of_text h]
    · rw [field, not_peek_bind (not_peek_of_token ht rfl), peek_bind (peek_of_token ht),
        quotedString_of_text h]
  · have hquote : ∀ q : UInt8, q ∉ ALPHA ++ ascii "_$" → peek [q] i = .ok false i := by
      intro q hq
      have hne : q ≠ c := fun h => hq (h ▸ hfirst)
      exact not_peek_of_token ht (by simp [List.isPrefixOf?, hne])
    have hdouble : peek DOUBLEQUOTE i = .ok false i := hquote 34 (by decide)
    have hsingle : peek SINGLEQUOTE i = .ok false i := hquote 39 (by decide)
    obtain ⟨d, u, rfl, hstop⟩ := fieldStop hc
    have hm : matchSet c (ALPHA ++ ascii "_$") = true := by
      simp [matchSet, hfirst, List.ne_nil_of_mem hfirst]
    have hchars := charsLoop_of_allowed fieldChars_plain hstop (j := u) (t := c :: t) <| by
      rintro x (_ | ⟨_, hx⟩)
      · exact fieldChars_subset hfirst
      · exact hrest x hx
    rw [denoted_plain, field, not_peek_bind hdouble, not_peek_bind hsingle, unquoted, ht,
      List.cons_append]
    simp only [hm, if_true]
    rw [chars, ← List.cons_append, hchars]

/-- A field name is not a closing brace. -/
theorem not_rbrace_of_field (h : Field i s j) : ¬ Token RBRACE i k := by
  intro hk
  rcases h with h | ⟨c, t, -, ht, hfirst, -⟩
  · rcases QuotedString.quotes h with ⟨ht, -⟩ | ⟨ht, -⟩
    · exact absurd (hk.symm.trans ht) (by simp [RBRACE, DOUBLEQUOTE])
    · exact absurd (hk.symm.trans ht) (by simp [RBRACE, SINGLEQUOTE])
  · obtain rfl : 125 = c := (List.cons.inj (hk.symm.trans ht)).1
    exact absurd hfirst (by decide)

theorem not_accept_rbrace (h : Field i s j) : accept RBRACE i = .ok false i := by
  rcases accept_cases RBRACE i with ⟨k, hk, -⟩ | ⟨-, hno⟩
  · exact absurd hk (not_rbrace_of_field h)
  · exact hno

theorem expectField_of_named {name : String} {msg : String} (h : Named (ascii name) i j)
    (hc : Token COLON j k) : expectField name msg i = .ok () j := by
  obtain ⟨s, hf, hs⟩ := h
  have ha : acceptField (ascii name) i = .ok true j := by
    rw [acceptField, ok_bind (attempt_ok (field_of_text hf hc)), hs]
    simp
  rw [expectField, ok_bind ha]
  rfl

end strings

/-! ### Special objects -/

section special
variable {i j k : Bytes}

theorem millis_of_text {n : ℤ} (h : Millis i n j) : millis i = .ok (.ofInt 64 n) j := by
  obtain ⟨neg, m, hs, hm, rfl⟩ := h
  rcases millis_cases i with ⟨n', j', ⟨neg', m', hs', -, rfl⟩, hok⟩ | ⟨hno, -⟩
  · rw [hs, Option.some.injEq, Prod.mk.injEq, Prod.mk.injEq] at hs'
    obtain ⟨rfl, rfl, rfl⟩ := hs'
    exact hok
  · exact absurd ⟨neg, m, hs, hm, rfl⟩ (hno _ _)

theorem half_of_text {n : ℕ} (negative overflow expecting : String) (h : Half i n j) :
    half negative overflow expecting i = .ok (.ofNat 32 n) j := by
  obtain ⟨hs, hm⟩ := h
  have hno : accept (ascii "-") i = .ok false i := by
    rcases accept_cases (ascii "-") i with ⟨l, hl, -⟩ | ⟨-, h⟩
    · have hi : i.dropWhile isspace = 45 :: l := hl
      simp only [scanInt, hi, scanSign] at hs
      split_ifs at hs
      simp at hs
    · exact h
  have hne : j ≠ i := by
    rintro rfl
    exact (scanInt_length_lt hs).false
  refine (not_accept_bind hno).trans ?_
  simp only [strtoull_of_scanInt hs hm, hne, if_false, Bool.false_eq_true, setWidth_ofInt]

theorem oid_of_hexId {s : Bytes} {id : OID} (h : HexId s id) : oid s i = .ok (.jstOID id) i := by
  obtain ⟨hlen, hhex, hdata⟩ := h
  obtain ⟨data, hl⟩ := id
  obtain rfl : data = hexBytes s := hdata
  rw [oid, dif_pos hlen, if_pos hhex, pure_apply]

theorem regexOptCheck_of_mem {opt : Bytes} (h : ∀ c ∈ opt, c ∈ JOPTIONS ∨ c = 0) :
    regexOptCheck opt i = .ok () i := by
  have hnone : opt.find? (fun c => !matchSet c JOPTIONS) = none := by
    rw [List.find?_eq_none]
    intro c hc
    have hset : JOPTIONS ≠ [] := by decide
    rcases h c hc with h | rfl
    · simp [matchSet, h, hset]
    · simp [matchSet, hset]
  simp only [regexOptCheck, hnone, pure_apply]

/-- The text of a special object is read by the method for its first field name. -/
theorem special_of_body {name : SpecialName} {t : ParseTree} (hc : Token COLON i j)
    (h : Body name j t k) {l : Bytes} (hr : Token RBRACE k l) (value : JParse (Option Value)) :
    ∃ p v, special value name.name = some p ∧ t.value = some v ∧ p i = .ok v k := by
  cases h with
  | oid hs hid =>
    refine ⟨_, _, rfl, rfl, ?_⟩
    rw [objectIdObject, ok_bind (expect_of_token _ hc), ok_bind (quotedString_of_text hs),
      oid_of_hexId hid]
  | binary hs hb hcomma hf hc' ht hd hx =>
    refine ⟨_, _, rfl, rfl, ?_⟩
    rw [binaryObject, ok_bind (expect_of_token _ hc), ok_bind (quotedString_of_text hs),
      if_neg (not_not.mpr hb.1), if_neg (by simp [hb.2]), ok_bind (expect_of_token _ hcomma),
      ok_bind (expectField_of_named hf hc'), ok_bind (expect_of_token _ hc'),
      ok_bind (quotedString_of_text ht), hd]
    simp only [hx, if_true]
    rw [pure_apply]
  | date hm =>
    refine ⟨_, _, rfl, rfl, ?_⟩
    rw [dateObject, ok_bind (expect_of_token _ hc), ok_bind (millis_of_text hm), pure_apply]
  | timestamp hl hft hct hs hcomma hfi hci hn hr' =>
    refine ⟨_, _, rfl, rfl, ?_⟩
    rw [timestampObject, ok_bind (expect_of_token _ hc), ok_bind (expect_of_token _ hl),
      ok_bind (expectField_of_named hft hct), ok_bind (expect_of_token _ hct),
      ok_bind (half_of_text _ _ _ hs), ok_bind (expect_of_token _ hcomma),
      ok_bind (expectField_of_named hfi hci), ok_bind (expect_of_token _ hci),
      ok_bind (half_of_text _ _ _ hn), ok_bind (expect_of_token _ hr'), pure_apply]
  | regex hs =>
    refine ⟨_, _, rfl, rfl, ?_⟩
    rw [regexObject, ok_bind (expect_of_token _ hc), ok_bind (quotedString_of_text hs),
      not_accept_bind (not_accept_of_token hr rfl), pure_apply]
    rfl
  | regexOptions hs hcomma hf hc' ho hopt =>
    refine ⟨_, _, rfl, rfl, ?_⟩
    rw [regexObject, ok_bind (expect_of_token _ hc), ok_bind (quotedString_of_text hs),
      accept_bind (accept_of_token hcomma), ok_bind (expectField_of_named hf hc'),
      ok_bind (expect_of_token _ hc'), ok_bind (quotedString_of_text ho),
      ok_bind (regexOptCheck_of_mem hopt), pure_apply]
  | undefined ht =>
    refine ⟨_, _, rfl, rfl, ?_⟩
    rw [undefinedObject, ok_bind (expect_of_token _ hc), ok_bind (expect_of_token _ ht), pure_apply]

end special

/-! ### Numbers and words -/

section numbers
variable {rt : Runtime} {i j k : Bytes} {v : Value}

/-- The text begins as a number for `strtod` does. -/
def numeric : Bytes → Bool
  | [] => false
  | c :: s => c = 43 || c = 45 || c = 46 || isdigit c || c = 73 || c = 105 ||
      (c = 78 || c = 110) && (s.head? = some 65 || s.head? = some 97)

/-- The first letter of a word is another one. -/
theorem caseless_eq_none {w c : UInt8} {ws s : Bytes} (h : c ≠ w) (h' : c ≠ w - 32) :
    caseless (w :: ws) (c :: s) = none := by
  have h32 : c + 32 ≠ w := by
    rintro rfl
    simp at h'
  simp [caseless, h, h32]

theorem caseless_nan_eq_none {c : UInt8} {s : Bytes}
    (h : ((c = 78 || c = 110) && (s.head? = some 65 || s.head? = some 97)) = false) :
    caseless (ascii "nan") (c :: s) = none := by
  have hw : ascii "nan" = [110, 97, 110] := by decide
  rw [hw]
  by_cases hc : c = 78 ∨ c = 110
  · have hs : caseless [97, 110] s = none := by
      cases s with
      | nil => rfl
      | cons d t =>
        have hd : d ≠ 65 ∧ d ≠ 97 := by
          rcases hc with rfl | rfl <;> simpa using h
        exact caseless_eq_none hd.2 hd.1
    rw [caseless, hs, ite_self]
  · push Not at hc
    exact caseless_eq_none hc.2 hc.1

theorem endptr_strtod_of_not_numeric (rt : Runtime) (h : numeric (i.dropWhile isspace) = false) :
    (strtod rt i).endptr = i := by
  unfold strtod
  generalize i.dropWhile isspace = r at h
  cases r with
  | nil => rfl
  | cons c s =>
    simp only [numeric, Bool.or_eq_false_iff, decide_eq_false_iff_not] at h
    obtain ⟨⟨⟨⟨⟨⟨hplus, hminus⟩, hpoint⟩, hdigit⟩, hI⟩, hi⟩, hn⟩ := h
    have hsign : scanSign (c :: s) = (false, c :: s) := by simp [scanSign, hplus, hminus]
    have hinf : caseless (ascii "infinity") (c :: s) = none := caseless_eq_none hi hI
    have hinf' : caseless (ascii "inf") (c :: s) = none := caseless_eq_none hi hI
    have hhex : scanHex (c :: s) = none := by
      have h0 : ¬ (c = 48 ∨ c + 32 = 48 ∧ 65 ≤ c ∧ c ≤ 90) := by
        rintro (rfl | ⟨h, hlo, -⟩)
        · exact absurd hdigit (by decide)
        · have h16 : c = 16 := (UInt8.add_left_inj 32).mp h
          exact absurd hlo (by rw [h16]; decide)
      simp [scanHex, caseless, h0]
    have hdec : scanDecimal (c :: s) = none := by
      simp [scanDecimal, scanFraction, hdigit, hpoint]
    simp only [hsign, hinf, hinf', caseless_nan_eq_none hn, hhex, hdec]
    rfl

theorem numeric_of_number (h : number rt i = .ok v j) :
    numeric (i.dropWhile isspace) = true := by
  by_contra hn
  have he := endptr_strtod_of_not_numeric rt (Bool.eq_false_iff.mpr hn)
  simp [number, he] at h

theorem not_accept_of_numeric {t : Bytes} (h : numeric (i.dropWhile isspace) = true)
    (ht : ∀ k, numeric (t ++ k) = false) : accept t i = .ok false i := by
  rcases accept_cases t i with ⟨k, hk, -⟩ | ⟨-, hno⟩
  · rw [hk, ht k] at h
    cases h
  · exact hno

theorem not_peek_of_numeric {t : Bytes} (h : numeric (i.dropWhile isspace) = true)
    (ht : ∀ k, numeric (t ++ k) = false) : peek t i = .ok false i := by
  refine not_peek_of_not_token fun k hk => ?_
  rw [hk, ht k] at h
  cases h

/-- The words are tried before a number. -/
theorem value_of_number {fuel : ℕ} (h : number rt i = .ok v j)
    (hw : ∀ w ∈ words, ∀ k, ¬ Token w.1 i k) : value rt (fuel + 1) i = .ok (some v) j := by
  have hnum := numeric_of_number h
  have hword : ∀ w ∈ words, accept w.1 i = .ok false i := by
    intro w hmem
    rcases accept_cases w.1 i with ⟨k, hk, -⟩ | ⟨-, ha⟩
    · exact absurd hk (hw w hmem k)
    · exact ha
  simp only [words, List.forall_mem_cons] at hword
  obtain ⟨h1, h2, h3, h4, h5, h6, h7, -⟩ := hword
  rw [value]
  repeat first
    | rw [not_peek_bind (not_peek_of_numeric hnum fun _ => by rfl)]
    | rw [not_accept_bind (not_accept_of_numeric hnum fun _ => by rfl)]
  rw [not_accept_bind h5, not_accept_bind h6, not_accept_bind h7, ok_bind h, pure_apply]

end numbers

/-! ### Values by their first token -/

section dispatch
variable {rt : Runtime} {fuel : ℕ} {w i j : Bytes} {p : JParse (Option Value)}

theorem mem_of_lookup {α : Type} {l : List (Bytes × α)} {a : α} (h : l.lookup w = some a) :
    (w, a) ∈ l := by
  obtain ⟨l₁, l₂, rfl, -⟩ := List.lookup_eq_some_iff.mp h
  simp

/-- The words that `value` accepts and how it goes on behind them. -/
def keywords (rt : Runtime) (fuel : ℕ) : List (Bytes × JParse (Option Value)) :=
  [(ascii "new", constructor), (ascii "Date", do return some (← date)),
    (ascii "Timestamp", do return some (← timestamp)),
    (ascii "ObjectId", do return some (← objectId)),
    (ascii "Dbref", do return some (← dbRef (value rt fuel))),
    (ascii "DBRef", do return some (← dbRef (value rt fuel)))] ++
  words.map fun w => (w.1, pure (some w.2))

theorem value_of_keyword (hw : (w, p) ∈ keywords rt fuel) (h : Token w i j) :
    value rt (fuel + 1) i = p j := by
  simp only [keywords, words, List.map_cons, List.map_nil, List.cons_append, List.nil_append,
    List.mem_cons, Prod.mk.injEq, List.not_mem_nil, or_false] at hw
  rw [value]
  rcases hw with ⟨rfl, rfl⟩ | ⟨rfl, rfl⟩ | ⟨rfl, rfl⟩ | ⟨rfl, rfl⟩ | ⟨rfl, rfl⟩ | ⟨rfl, rfl⟩ |
    ⟨rfl, rfl⟩ | ⟨rfl, rfl⟩ | ⟨rfl, rfl⟩ | ⟨rfl, rfl⟩ | ⟨rfl, rfl⟩ | ⟨rfl, rfl⟩ | ⟨rfl, rfl⟩
  -- No token in front of the one that stands in the text is accepted.
  all_goals
    repeat first
      | rw [not_peek_bind (not_peek_of_token h (by rfl))]
      | rw [not_accept_bind (not_accept_of_token h (by rfl))]
    rw [accept_bind (accept_of_token h)]

/-- The characters that `value` looks for and how it goes on at them. -/
def openers (rt : Runtime) (fuel : ℕ) : List (Bytes × JParse (Option Value)) :=
  [(LBRACE, do return some (← object (value rt fuel) fuel true)),
    (LBRACKET, do return some (← array (value rt fuel) fuel)),
    (FORWARDSLASH, do return some (← regex)),
    (DOUBLEQUOTE, do return some (.string ((← quotedString) ++ [0]))),
    (SINGLEQUOTE, do return some (.string ((← quotedString) ++ [0])))]

theorem value_of_opener (hw : (w, p) ∈ openers rt fuel) (h : Token w i j) :
    value rt (fuel + 1) i = p i := by
  simp only [openers, List.mem_cons, Prod.mk.injEq, List.not_mem_nil, or_false] at hw
  rw [value]
  rcases hw with ⟨rfl, rfl⟩ | ⟨rfl, rfl⟩ | ⟨rfl, rfl⟩ | ⟨rfl, rfl⟩ | ⟨rfl, rfl⟩
  all_goals
    repeat first
      | rw [not_peek_bind (not_peek_of_token h (by rfl))]
      | rw [not_accept_bind (not_accept_of_token h (by rfl))]
    rw [peek_bind (peek_of_token h)]

end dispatch

/-! ### Values without parts -/

section leaves
variable {rt : Runtime} {fuel : ℕ} {i j : Bytes}

/-- What may follow a value. -/
def Closes (j : Bytes) : Prop := ∃ c ∈ ([44, 125, 93, 41] : Bytes), ∃ k, Token [c] j k

/-- The character behind a value is no option of a pattern. -/
theorem Closes.stop (h : Closes j) : ∃ d u, j = d :: u ∧ matchSet d JOPTIONS = false := by
  obtain ⟨c, hc, k, hk⟩ := h
  obtain ⟨d, u, rfl, hd⟩ := head_of_token hk
  have hall : ∀ d : UInt8, isspace d = true ∨ d ∈ ([44, 125, 93, 41] : Bytes) →
      matchSet d JOPTIONS = false := forall_byte (by decide +kernel)
  refine ⟨d, u, rfl, hall d (hd.imp_right ?_)⟩
  rintro rfl
  exact hc

theorem value_of_word {w : Bytes} {v : Value} (hw : (w, v) ∈ words) (h : Token w i j) :
    value rt (fuel + 1) i = .ok (some v) j := by
  have hmem : (w, (pure (some v) : JParse (Option Value))) ∈ keywords rt fuel :=
    List.mem_append_right _ (List.mem_map.mpr ⟨_, hw, rfl⟩)
  rw [value_of_keyword hmem h, pure_apply]

theorem value_of_string {s : Spelling} (h : QuotedString i s j) :
    value rt (fuel + 1) i = .ok (some (.string (denoted s ++ [0]))) j := by
  rcases QuotedString.quotes h with ⟨ht, -⟩ | ⟨ht, -⟩
  · rw [value_of_opener (mem_of_lookup (by rfl)) ht, ok_bind (quotedString_of_text h), pure_apply]
  · rw [value_of_opener (mem_of_lookup (by rfl)) ht, ok_bind (quotedString_of_text h), pure_apply]

/-- The options of a pattern end where the value does. -/
theorem regex_of_text {pat : Spelling} {opt : Bytes}
    (h : Token FORWARDSLASH i (written pat ++ 47 :: (opt ++ j))) (hp : ∀ c ∈ pat, c.Allowed 47)
    (ho : ∀ c ∈ opt, c ∈ JOPTIONS) (hj : Closes j) :
    regex i = .ok (.regEx (denoted pat) opt) j := by
  obtain ⟨d, u, rfl, hstop⟩ := hj.stop
  have hpat : chars FORWARDSLASH none (written pat ++ 47 :: (opt ++ d :: u)) =
      .ok (denoted pat) (47 :: (opt ++ d :: u)) := by
    rw [chars, FORWARDSLASH, charsLoop_of_chars (by decide) hp]
  have hopt : chars [] (some JOPTIONS) (opt ++ d :: u) = .ok opt (d :: u) := by
    rw [chars, charsLoop_of_allowed (by decide +kernel) hstop ho]
  rw [regex, ok_bind (expect_of_token _ h), ok_bind hpat,
    ok_bind (expect_ok (j := opt ++ d :: u) rfl), ok_bind hopt,
    ok_bind (regexOptCheck_of_mem fun c hc => .inl (ho c hc)), pure_apply]

theorem date_of_args {n : ℤ} (h : DateArgs i n j) : date i = .ok (.date (.ofInt 64 n)) j := by
  obtain ⟨k, l, hk, hl, hj⟩ := h
  rw [date, ok_bind (expect_of_token _ hk), ok_bind (millis_of_text hl),
    ok_bind (expect_of_token _ hj), pure_apply]

theorem date_of_unfinished (h : Unfinished i j) : ∃ msg, date i = .fail msg j := by
  cases h with
  | lparen h => exact ⟨_, fail_bind (expect_fail _ h)⟩
  | millis hl h =>
    rcases millis_cases j with ⟨n, k, hn, -⟩ | ⟨-, msg, hf⟩
    · exact absurd hn (h n k)
    · refine ⟨msg, ?_⟩
      rw [date, ok_bind (expect_of_token _ hl), fail_bind hf]
  | rparen hl hn h =>
    refine ⟨ascii "Expecting ')'", ?_⟩
    rw [date, ok_bind (expect_of_token _ hl), ok_bind (millis_of_text hn)]
    exact fail_bind (expect_fail _ h)

theorem value_of_leaf {t : ParseTree} (h : Leaf rt i t j) (hj : Closes j) :
    value rt (fuel + 1) i = .ok t.value j := by
  cases h with
  | string h => exact value_of_string h
  | number h hw => exact value_of_number h hw
  | word hw h => exact value_of_word hw h
  | regex h hp ho =>
    rw [value_of_opener (mem_of_lookup (by rfl)) h, ok_bind (regex_of_text h hp ho hj), pure_apply,
      ParseTree.value, denoted_plain]
  | date h ha =>
    rw [value_of_keyword (mem_of_lookup (by rfl)) h, ok_bind (date_of_args ha), pure_apply]
    rfl
  | constructor h hd ha =>
    rw [value_of_keyword (mem_of_lookup (by rfl)) h, Parse.constructor,
      accept_bind (accept_of_token hd), attempt_ok (date_of_args ha)]
    rfl
  | lost h hd ha =>
    obtain ⟨msg, hf⟩ := date_of_unfinished ha
    rw [value_of_keyword (mem_of_lookup (by rfl)) h, Parse.constructor,
      accept_bind (accept_of_token hd), attempt, hf]
    rfl
  | @timestamp k _ _ _ _ _ seconds count h hl hs hc hn hr =>
    have ht : timestamp k = .ok (appendTimestamp (.ofNat 32 seconds) (.ofNat 32 count)) j := by
      rw [timestamp, ok_bind (expect_of_token _ hl), ok_bind (half_of_text _ _ _ hs),
        ok_bind (expect_of_token _ hc), ok_bind (half_of_text _ _ _ hn),
        ok_bind (expect_of_token _ hr), pure_apply]
    rw [value_of_keyword (mem_of_lookup (by rfl)) h, ok_bind ht, pure_apply]
    rfl
  | @objectId k _ _ _ s id h hl hs hr hid =>
    have ho : objectId k = .ok (.jstOID id) j := by
      rw [objectId, ok_bind (expect_of_token _ hl), ok_bind (quotedString_of_text hs),
        ok_bind (expect_of_token _ hr), oid_of_hexId hid]
    rw [value_of_keyword (mem_of_lookup (by rfl)) h, ok_bind ho, pure_apply]
    rfl

end leaves

end PgBson.Json.Recognize
