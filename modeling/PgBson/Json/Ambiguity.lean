import PgBson.Json.Completeness

/-! # How many readings a text has

A text has one reading in which the reserved names are resolved (`Base.unique`). Any other reading
takes a special object for a list of pairs. What it denotes then has another type at that place, so
the bytes of the two documents differ from there on (`Clash`), whatever stands behind. Hence the
parser builds the document of a reading exactly when the reserved names in it are resolved and the
document is not too large (`fromjson_eq_doc_iff`). -/

namespace PgBson.Json.Ambiguity

open PgBson.Lib.Memory PgBson.Lib.Binary64 PgBson.Lib.Decimal PgBson.Lib.Strtod PgBson.Lib.Parsing
open PgBson.Bson.Types PgBson.Bson.Document
open PgBson.Json.Encoding PgBson.Json.Parse PgBson.Json.Restore
open PgBson.Json.Grammar PgBson.Json.Reading PgBson.Json.Recognize PgBson.Json.Completeness
open PgBson.Json.Accepts (fromjson_ok)

/-! ### Tokens and strings -/

section strings
variable {i j j' k k' : Bytes} {s s' : Spelling}

theorem Token.unique {t : Bytes} (h : Token t i j) (h' : Token t i j') : j = j' :=
  List.append_cancel_left (h.symm.trans h')

theorem Token.head_eq {c c' : UInt8} {t t' : Bytes} (h : Token (c :: t) i j)
    (h' : Token (c' :: t') i j') : c = c' :=
  (List.cons.inj (h.symm.trans h')).1

theorem text_unique {q : UInt8} {c c' : StringChar} (hc : c.Allowed q) (hc' : c'.Allowed q)
    {x x' : Bytes} (h : c.text ++ x = c'.text ++ x') : c = c' ∧ x = x' := by
  cases c <;> cases c' <;> simp_all [StringChar.text, StringChar.Allowed]

theorem text_ne {q : UInt8} (hq : q ≠ 92) {c : StringChar} (hc : c.Allowed q) {x x' : Bytes} :
    c.text ++ x ≠ q :: x' := by
  intro h
  cases c with
  | plain c => exact hc.1 (List.cons.inj h).1
  | escape c => exact hq (List.cons.inj h).1.symm
  | unicode h0 h1 h2 h3 => exact hq (List.cons.inj h).1.symm

/-- A string ends at the first quote that is not escaped. -/
theorem written_unique {q : UInt8} (hq : q ≠ 92) : ∀ {s s' : Spelling}, (∀ c ∈ s, c.Allowed q) →
    (∀ c ∈ s', c.Allowed q) → written s ++ q :: j = written s' ++ q :: j' → s = s' ∧ j = j'
  | [], [], _, _, h => ⟨rfl, (List.cons.inj h).2⟩
  | [], c' :: s', _, hs', h => by
    rw [written_cons, List.append_assoc] at h
    exact absurd h.symm (text_ne hq (hs' c' List.mem_cons_self))
  | c :: s, [], hs, _, h => by
    rw [written_cons, List.append_assoc] at h
    exact absurd h (text_ne hq (hs c List.mem_cons_self))
  | c :: s, c' :: s', hs, hs', h => by
    obtain ⟨hc, hs⟩ := List.forall_mem_cons.mp hs
    obtain ⟨hc', ht'⟩ := List.forall_mem_cons.mp hs'
    rw [written_cons, written_cons, List.append_assoc, List.append_assoc] at h
    obtain ⟨rfl, hrest⟩ := text_unique hc hc' h
    obtain ⟨rfl, hj⟩ := written_unique hq hs ht' hrest
    exact ⟨rfl, hj⟩

theorem QuotedString.unique (h : QuotedString i s j) (h' : QuotedString i s' j') :
    s = s' ∧ j = j' := by
  obtain ⟨q, hq, ht, hs⟩ := h
  obtain ⟨q', -, ht', hs'⟩ := h'
  obtain rfl := Token.head_eq ht ht'
  have hq92 : q ≠ 92 := by rcases hq with rfl | rfl <;> decide
  exact written_unique hq92 hs hs' (Token.unique ht ht')

/-- Characters of a set are read as far as they go. -/
theorem allowed_unique {set t t' : Bytes} (hset : ∀ c ∈ set, 0x1f < c ∧ c ≠ 92)
    (ht : ∀ c ∈ t, c ∈ set) (ht' : ∀ c ∈ t', c ∈ set)
    (hj : ∃ d u, j = d :: u ∧ matchSet d set = false)
    (hj' : ∃ d u, j' = d :: u ∧ matchSet d set = false) (h : t ++ j = t' ++ j') :
    t = t' ∧ j = j' := by
  obtain ⟨d, u, rfl, hd⟩ := hj
  obtain ⟨d', u', rfl, hd'⟩ := hj'
  have hread := charsLoop_of_allowed hset hd (j := u) ht
  rw [h, charsLoop_of_allowed hset hd' (j := u') ht', Except.ok.injEq, Prod.mk.injEq] at hread
  exact ⟨hread.1.symm, hread.2.symm⟩

/-- A field name and the colon behind it. -/
theorem Field.unique (h : Field i s j) (hc : Token COLON j k) (h' : Field i s' j')
    (hc' : Token COLON j' k') : s = s' ∧ k = k' := by
  have hquoted : ∀ {s : Spelling} {c : UInt8} {t j j' : Bytes}, QuotedString i s j →
      Token (c :: t) i j' → c ∉ ALPHA ++ ascii "_$" := by
    rintro s c t j j' ⟨q, hq, ht, -⟩ h'
    obtain rfl := Token.head_eq ht h'
    rcases hq with rfl | rfl <;> decide
  rcases h with h | ⟨c, t, rfl, h, hfirst, hrest⟩ <;>
    rcases h' with h' | ⟨c', t', rfl, h', hfirst', hrest'⟩
  · obtain ⟨rfl, rfl⟩ := QuotedString.unique h h'
    exact ⟨rfl, Token.unique hc hc'⟩
  · exact absurd hfirst' (hquoted h h')
  · exact absurd hfirst (hquoted h' h)
  · have hall : ∀ {c : UInt8} {t : Bytes}, c ∈ ALPHA ++ ascii "_$" →
        (∀ x ∈ t, x ∈ ALPHA ++ DIGIT ++ ascii "_$") →
        ∀ x ∈ c :: t, x ∈ ALPHA ++ DIGIT ++ ascii "_$" := fun hc ht =>
      List.forall_mem_cons.mpr ⟨fieldChars_subset hc, ht⟩
    obtain ⟨ht, rfl⟩ := allowed_unique fieldChars_plain (hall hfirst hrest) (hall hfirst' hrest')
      (fieldStop hc) (fieldStop hc') (h.symm.trans h')
    rw [ht]
    exact ⟨rfl, Token.unique hc hc'⟩

theorem Named.unique {name name' : Bytes} (h : Named name i j) (hc : Token COLON j k)
    (h' : Named name' i j') (hc' : Token COLON j' k') : name = name' ∧ k = k' := by
  obtain ⟨s, hf, rfl⟩ := h
  obtain ⟨s', hf', rfl⟩ := h'
  obtain ⟨rfl, rfl⟩ := Field.unique hf hc hf' hc'
  exact ⟨rfl, rfl⟩

end strings

/-! ### Values without parts -/

section leaves
variable {i j j' k k' : Bytes} {t t' : ParseTree}

theorem HexId.unique {s : Bytes} {id id' : OID} (h : HexId s id) (h' : HexId s id') : id = id' := by
  obtain ⟨data, hl⟩ := id
  obtain ⟨data', hl'⟩ := id'
  have hd : data = data' := h.2.2.trans h'.2.2.symm
  subst hd
  rfl

theorem Millis.unique {n n' : ℤ} (h : Millis i n j) (h' : Millis i n' j') : n = n' ∧ j = j' := by
  obtain ⟨neg, m, hs, -, rfl⟩ := h
  obtain ⟨neg', m', hs', -, rfl⟩ := h'
  rw [hs, Option.some.injEq, Prod.mk.injEq, Prod.mk.injEq] at hs'
  obtain ⟨rfl, rfl, rfl⟩ := hs'
  exact ⟨rfl, rfl⟩

theorem Half.unique {n n' : ℕ} (h : Half i n j) (h' : Half i n' j') : n = n' ∧ j = j' := by
  have hs := h.1
  rw [h'.1, Option.some.injEq, Prod.mk.injEq, Prod.mk.injEq] at hs
  exact ⟨hs.2.1.symm, hs.2.2.symm⟩

theorem DateArgs.unique {n n' : ℤ} (h : DateArgs i n j) (h' : DateArgs i n' j') :
    n = n' ∧ j = j' := by
  obtain ⟨k, l, hk, hl, hj⟩ := h
  obtain ⟨k', l', hk', hl', hj'⟩ := h'
  obtain rfl := Token.unique hk hk'
  obtain ⟨rfl, rfl⟩ := Millis.unique hl hl'
  exact ⟨rfl, Token.unique hj hj'⟩

theorem not_dateArgs_of_unfinished {n : ℤ} (h : Unfinished i j) : ¬ DateArgs i n j' := by
  rintro ⟨k, l, hk, hl, hj⟩
  cases h with
  | lparen h => exact h k hk
  | millis hl' h =>
    obtain rfl := Token.unique hk hl'
    exact h n l hl
  | rparen hl' hn h =>
    obtain rfl := Token.unique hk hl'
    obtain ⟨rfl, rfl⟩ := Millis.unique hl hn
    exact h j' hj

theorem Unfinished.unique (h : Unfinished i j) (h' : Unfinished i j') : j = j' := by
  cases h with
  | lparen h =>
    cases h' with
    | lparen => rfl
    | millis hl' | rparen hl' => exact absurd hl' (h _)
  | millis hl h =>
    cases h' with
    | lparen h' => exact absurd hl (h' _)
    | millis hl' => exact Token.unique hl hl'
    | rparen hl' hn' =>
      obtain rfl := Token.unique hl hl'
      exact absurd hn' (h _ _)
  | rparen hl hn =>
    cases h' with
    | lparen h' => exact absurd hl (h' _)
    | millis hl' h' =>
      obtain rfl := Token.unique hl hl'
      exact absurd hn (h' _ _)
    | rparen hl' hn' =>
      obtain rfl := Token.unique hl hl'
      exact (Millis.unique hn hn').2

/-- The body of a special object, up to its brace. -/
theorem Body.unique {name : SpecialName} (h : Body name i t j) (hr : Token RBRACE j k)
    (h' : Body name i t' j') (hr' : Token RBRACE j' k') : t = t' ∧ j = j' := by
  cases h with
  | oid hs hid =>
    cases h' with
    | oid hs' hid' =>
      obtain ⟨rfl, rfl⟩ := QuotedString.unique hs hs'
      obtain rfl := HexId.unique hid hid'
      exact ⟨rfl, rfl⟩
  | binary hs _ hcomma hf hc ht hd =>
    cases h' with
    | binary hs' _ hcomma' hf' hc' ht' hd' =>
      obtain ⟨rfl, rfl⟩ := QuotedString.unique hs hs'
      obtain rfl := Token.unique hcomma hcomma'
      obtain ⟨-, rfl⟩ := Named.unique hf hc hf' hc'
      obtain ⟨rfl, rfl⟩ := QuotedString.unique ht ht'
      have hcs := hd.symm.trans hd'
      simp only [List.cons.injEq, and_true] at hcs
      rw [hcs.1, hcs.2]
      exact ⟨rfl, rfl⟩
  | date hn =>
    cases h' with
    | date hn' =>
      obtain ⟨rfl, rfl⟩ := Millis.unique hn hn'
      exact ⟨rfl, rfl⟩
  | timestamp hl hft hct hs hcomma hfi hci hn hr =>
    cases h' with
    | timestamp hl' hft' hct' hs' hcomma' hfi' hci' hn' hr' =>
      obtain rfl := Token.unique hl hl'
      obtain ⟨-, rfl⟩ := Named.unique hft hct hft' hct'
      obtain ⟨rfl, rfl⟩ := Half.unique hs hs'
      obtain rfl := Token.unique hcomma hcomma'
      obtain ⟨-, rfl⟩ := Named.unique hfi hci hfi' hci'
      obtain ⟨rfl, rfl⟩ := Half.unique hn hn'
      exact ⟨rfl, Token.unique hr hr'⟩
  | regex hs =>
    cases h' with
    | regex hs' =>
      obtain ⟨rfl, rfl⟩ := QuotedString.unique hs hs'
      exact ⟨rfl, rfl⟩
    | regexOptions hs' hcomma' =>
      obtain ⟨rfl, rfl⟩ := QuotedString.unique hs hs'
      exact absurd (Token.head_eq hr hcomma') (by decide)
  | regexOptions hs hcomma hf hc ho =>
    cases h' with
    | regex hs' =>
      obtain ⟨rfl, rfl⟩ := QuotedString.unique hs hs'
      exact absurd (Token.head_eq hcomma hr') (by decide)
    | regexOptions hs' hcomma' hf' hc' ho' =>
      obtain ⟨rfl, rfl⟩ := QuotedString.unique hs hs'
      obtain rfl := Token.unique hcomma hcomma'
      obtain ⟨-, rfl⟩ := Named.unique hf hc hf' hc'
      obtain ⟨rfl, rfl⟩ := QuotedString.unique ho ho'
      exact ⟨rfl, rfl⟩
  | undefined ht =>
    cases h' with
    | undefined ht' => exact ⟨rfl, Token.unique ht ht'⟩

end leaves

/-! ### Values by their first token -/

/-- How a value starts. -/
inductive Start
  | brace | bracket | quote | slash | new | date | timestamp | objectId
  | dbRef (documented : Bool)
  | word (v : Value)
  | number
  deriving DecidableEq

/-- The tokens that a value starts with, but for numbers. -/
def starts : List (Bytes × Start) :=
  [(LBRACE, .brace), (LBRACKET, .bracket), (DOUBLEQUOTE, .quote), (SINGLEQUOTE, .quote),
    (FORWARDSLASH, .slash), (ascii "new", .new), (ascii "Date", .date),
    (ascii "Timestamp", .timestamp), (ascii "ObjectId", .objectId), (ascii "Dbref", .dbRef true),
    (ascii "DBRef", .dbRef false)] ++ words.map fun w => (w.1, .word w.2)

/-- The start of the value at the beginning of a text. -/
def start (i : Bytes) : Start :=
  ((starts.find? fun w => w.1.isPrefixOf (i.dropWhile isspace)).map Prod.snd).getD .number

section start
variable {rt : Runtime} {i j j' : Bytes} {t t' : ParseTree}

/-- No token is the beginning of another one. -/
theorem starts_prefixFree : ∀ a ∈ starts, ∀ b ∈ starts, a.1 <+: b.1 → a = b := by
  decide +kernel

theorem starts_unique {a b : Bytes × Start} (ha : a ∈ starts) (hb : b ∈ starts)
    (h : a.1 <+: i.dropWhile isspace) (h' : b.1 <+: i.dropWhile isspace) : a = b := by
  rcases List.prefix_or_prefix_of_prefix h h' with hp | hp
  · exact starts_prefixFree a ha b hb hp
  · exact (starts_prefixFree b hb a ha hp).symm

theorem Token.prefix_drop {w : Bytes} (h : Token w i j) : w <+: i.dropWhile isspace :=
  h ▸ List.prefix_append w j

theorem start_of_token {w : Bytes} {o : Start} (hw : (w, o) ∈ starts) (h : Token w i j) :
    start i = o := by
  have hp := Token.prefix_drop h
  unfold start
  cases hf : starts.find? fun a => a.1.isPrefixOf (i.dropWhile isspace) with
  | none =>
    have hno := List.find?_eq_none.mp hf (w, o) hw
    exact absurd (List.isPrefixOf_iff_prefix.mpr hp) hno
  | some a =>
    have ha : a.1 <+: i.dropWhile isspace :=
      List.isPrefixOf_iff_prefix.mp (by simpa using List.find?_some hf)
    rw [starts_unique (List.mem_of_find?_eq_some hf) hw ha hp]
    rfl

theorem start_of_no_token (h : ∀ w ∈ starts, ∀ k, ¬ Token w.1 i k) : start i = .number := by
  have hf : starts.find? (fun a => a.1.isPrefixOf (i.dropWhile isspace)) = none := by
    rw [List.find?_eq_none]
    intro a ha hp
    obtain ⟨k, hk⟩ := List.isPrefixOf_iff_prefix.mp hp
    exact h a ha k hk.symm
  rw [start, hf]
  rfl

theorem start_of_number {v : Value} (h : number rt i = .ok v j)
    (hw : ∀ w ∈ words, ∀ k, ¬ Token w.1 i k) : start i = .number := by
  have hnum := numeric_of_number h
  refine start_of_no_token fun a ha k hk => ?_
  rcases List.mem_append.mp ha with ha | ha
  · have hno : ∀ k, numeric (a.1 ++ k) = false := by
      simp only [List.mem_cons, List.not_mem_nil, or_false] at ha
      rcases ha with rfl | rfl | rfl | rfl | rfl | rfl | rfl | rfl | rfl | rfl | rfl <;>
        exact fun k => rfl
    rw [hk, hno k] at hnum
    cases hnum
  · obtain ⟨w, hmem, rfl⟩ := List.mem_map.mp ha
    exact hw w hmem k hk

theorem start_of_quotedString {s : Spelling} (h : QuotedString i s j) : start i = .quote := by
  rcases QuotedString.quotes h with ⟨ht, -⟩ | ⟨ht, -⟩
  · exact start_of_token (by decide) ht
  · exact start_of_token (by decide) ht

theorem mem_starts_of_word {w : Bytes} {v : Value} (h : (w, v) ∈ words) :
    (w, .word v) ∈ starts :=
  List.mem_append_right _ (List.mem_map.mpr ⟨_, h, rfl⟩)

theorem mem_starts_of_dbRef (documented : Bool) :
    (if documented then ascii "Dbref" else ascii "DBRef", .dbRef documented) ∈ starts := by
  cases documented <;> decide

/-- What stands behind the start of a value. -/
def StartsWith (rt : Runtime) (i : Bytes) (t : ParseTree) (j : Bytes) : Start → Prop
  | .brace => Reads rt i (.object t) j
  | .bracket => ∃ k, Token LBRACKET i k ∧ (t = .array .nil ∧ Token RBRACKET k j ∨
      ∃ es l, t = .array es ∧ Reads rt k (.elements 0 es) l ∧ Token RBRACKET l j)
  | .quote => ∃ s, t = .string s ∧ QuotedString i s j
  | .slash => ∃ pat opt, t = .regex pat (opt.map .plain) ∧
      Token FORWARDSLASH i (written pat ++ 47 :: (opt ++ j)) ∧ (∀ c ∈ pat, c.Allowed 47) ∧
      ∀ c ∈ opt, c ∈ JOPTIONS
  | .new => ∃ k l, Token (ascii "new") i k ∧ Token (ascii "Date") k l ∧
      ((∃ n, t = .date n ∧ DateArgs l n j) ∨ t = .lost ∧ Unfinished l j)
  | .date => ∃ n k, t = .date n ∧ Token (ascii "Date") i k ∧ DateArgs k n j
  | .timestamp => ∃ seconds count k l m n o, t = .timestamp seconds count ∧
      Token (ascii "Timestamp") i k ∧ Token LPAREN k l ∧ Half l seconds m ∧ Token COMMA m n ∧
      Half n count o ∧ Token RPAREN o j
  | .objectId => ∃ s id k l m, t = .objectId s id ∧ Token (ascii "ObjectId") i k ∧
      Token LPAREN k l ∧ QuotedString l s m ∧ Token RPAREN m j ∧ HexId (denoted s) id
  | .dbRef documented => ∃ ns id k l m n o, t = .dbRef documented ns id ∧
      Token (if documented then ascii "Dbref" else ascii "DBRef") i k ∧ Token LPAREN k l ∧
      QuotedString l ns m ∧ Token COMMA m n ∧ Reads rt n (.value id) o ∧ Token RPAREN o j
  | .word v => ∃ w, t = .scalar v ∧ (w, v) ∈ words ∧ Token w i j
  | .number => ∃ v, t = .scalar v ∧ number rt i = .ok v j

/-- **The first token of a value tells its production.** -/
theorem startsWith_of_reads (h : Reads rt i (.value t) j) : StartsWith rt i t j (start i) := by
  have htoken : ∀ {w k : Bytes} (o : Start), (w, o) ∈ starts → Token w i k →
      StartsWith rt i t j o → StartsWith rt i t j (start i) := by
    intro w k o hw hk hv
    rwa [start_of_token hw hk]
  cases h with
  | leaf h =>
    cases h with
    | string h =>
      rw [start_of_quotedString h]
      exact ⟨_, rfl, h⟩
    | number h hw =>
      rw [start_of_number h hw]
      exact ⟨_, rfl, h⟩
    | word hw h => exact htoken (.word _) (mem_starts_of_word hw) h ⟨_, rfl, hw, h⟩
    | date h ha => exact htoken .date (by decide) h ⟨_, _, rfl, h, ha⟩
    | constructor h hd ha => exact htoken .new (by decide) h ⟨_, _, h, hd, .inl ⟨_, rfl, ha⟩⟩
    | lost h hd ha => exact htoken .new (by decide) h ⟨_, _, h, hd, .inr ⟨rfl, ha⟩⟩
    | timestamp h hl hs hc hn hr =>
      exact htoken .timestamp (by decide) h ⟨_, _, _, _, _, _, _, rfl, h, hl, hs, hc, hn, hr⟩
    | objectId h hl hs hr hid =>
      exact htoken .objectId (by decide) h ⟨_, _, _, _, _, rfl, h, hl, hs, hr, hid⟩
    | regex h hp ho => exact htoken .slash (by decide) h ⟨_, _, rfl, h, hp, ho⟩
  | dbRef ht hl hn hc hv hr =>
    exact htoken _ (mem_starts_of_dbRef _) ht ⟨_, _, _, _, _, _, _, rfl, ht, hl, hn, hc, hv, hr⟩
  | object h =>
    obtain ⟨k, hk⟩ := lbrace_of_reads h
    exact htoken .brace (by decide) hk h
  | emptyArray hl hr => exact htoken .bracket (by decide) hl ⟨_, hl, .inl ⟨rfl, hr⟩⟩
  | array hl h hr => exact htoken .bracket (by decide) hl ⟨_, hl, .inr ⟨_, _, rfl, h, hr⟩⟩

/-- The same when the token is known. -/
theorem startsWith_of_token {w k : Bytes} (o : Start) (hw : (w, o) ∈ starts) (hk : Token w i k)
    (h : Reads rt i (.value t) j) : StartsWith rt i t j o :=
  start_of_token hw hk ▸ startsWith_of_reads h

/-- A value does not start with a closing bracket. -/
theorem not_rbracket_of_value {k : Bytes} (h : Reads rt i (.value t) j) : ¬ Token RBRACKET i k := by
  intro hk
  have hstart : start i = .number := by
    rw [start, hk]
    rfl
  have hv := startsWith_of_reads h
  rw [hstart] at hv
  obtain ⟨v, -, hn⟩ := hv
  have hnum := numeric_of_number hn
  rw [hk] at hnum
  cases hnum

/-- **A value without parts has one reading.** -/
theorem leaf_unique (h : Leaf rt i t j) (hj : Closes j) (h' : Reads rt i (.value t') j')
    (hj' : Closes j') : t = t' ∧ j = j' := by
  cases h with
  | string h =>
    have hs := startsWith_of_reads h'
    rw [start_of_quotedString h] at hs
    obtain ⟨s', rfl, hs'⟩ := hs
    obtain ⟨rfl, rfl⟩ := QuotedString.unique h hs'
    exact ⟨rfl, rfl⟩
  | number h hw =>
    have hs := startsWith_of_reads h'
    rw [start_of_number h hw] at hs
    obtain ⟨v', rfl, hn'⟩ := hs
    rw [h] at hn'
    obtain ⟨rfl, rfl⟩ := Outcome.ok.inj hn'
    exact ⟨rfl, rfl⟩
  | word hw h =>
    have hmem := mem_starts_of_word hw
    obtain ⟨w', rfl, hw', h'⟩ := startsWith_of_token _ hmem h h'
    have heq := starts_unique hmem (mem_starts_of_word hw') (Token.prefix_drop h)
      (Token.prefix_drop h')
    obtain rfl := (Prod.mk.inj heq).1
    exact ⟨rfl, Token.unique h h'⟩
  | date h ha =>
    obtain ⟨n', k', rfl, h', ha'⟩ := startsWith_of_token .date (by decide) h h'
    obtain rfl := Token.unique h h'
    obtain ⟨rfl, rfl⟩ := DateArgs.unique ha ha'
    exact ⟨rfl, rfl⟩
  | constructor h hd ha =>
    obtain ⟨k', l', h', hd', hs⟩ := startsWith_of_token .new (by decide) h h'
    obtain rfl := Token.unique h h'
    obtain rfl := Token.unique hd hd'
    rcases hs with ⟨n', rfl, ha'⟩ | ⟨-, ha'⟩
    · obtain ⟨rfl, rfl⟩ := DateArgs.unique ha ha'
      exact ⟨rfl, rfl⟩
    · exact absurd ha (not_dateArgs_of_unfinished ha')
  | lost h hd ha =>
    obtain ⟨k', l', h', hd', hs⟩ := startsWith_of_token .new (by decide) h h'
    obtain rfl := Token.unique h h'
    obtain rfl := Token.unique hd hd'
    rcases hs with ⟨n', -, ha'⟩ | ⟨rfl, ha'⟩
    · exact absurd ha' (not_dateArgs_of_unfinished ha)
    · exact ⟨rfl, Unfinished.unique ha ha'⟩
  | timestamp h hl hs hc hn hr =>
    obtain ⟨seconds', count', k', l', m', n', o', rfl, h', hl', hs', hc', hn', hr'⟩ :=
      startsWith_of_token .timestamp (by decide) h h'
    obtain rfl := Token.unique h h'
    obtain rfl := Token.unique hl hl'
    obtain ⟨rfl, rfl⟩ := Half.unique hs hs'
    obtain rfl := Token.unique hc hc'
    obtain ⟨rfl, rfl⟩ := Half.unique hn hn'
    exact ⟨rfl, Token.unique hr hr'⟩
  | objectId h hl hs hr hid =>
    obtain ⟨s', id', k', l', m', rfl, h', hl', hs', hr', hid'⟩ :=
      startsWith_of_token .objectId (by decide) h h'
    obtain rfl := Token.unique h h'
    obtain rfl := Token.unique hl hl'
    obtain ⟨rfl, rfl⟩ := QuotedString.unique hs hs'
    obtain rfl := HexId.unique hid hid'
    exact ⟨rfl, Token.unique hr hr'⟩
  | regex h hp ho =>
    obtain ⟨pat', opt', rfl, h', hp', ho'⟩ := startsWith_of_token .slash (by decide) h h'
    obtain ⟨rfl, hopt⟩ := written_unique (by decide) hp hp' (Token.unique h h')
    obtain ⟨rfl, rfl⟩ := allowed_unique (by decide +kernel) ho ho' hj.stop hj'.stop hopt
    exact ⟨rfl, rfl⟩

end start

/-! ### Documents that differ in a type -/

/-- The documents are the same up to a place where the types of two values differ. -/
inductive Clash : Doc → Doc → Prop
  | type {n : Bytes} {v v' : Value} {d d' : Doc} (h : v.type ≠ v'.type) :
      Clash (.cons n v d) (.cons n v' d')
  | object {n : Bytes} {e e' d d' : Doc} (h : Clash e e') :
      Clash (.cons n (.object e) d) (.cons n (.object e') d')
  | array {n : Bytes} {e e' d d' : Doc} (h : Clash e e') :
      Clash (.cons n (.array e) d) (.cons n (.array e') d')
  | rest {n : Bytes} {v : Value} {d d' : Doc} (h : Clash d d') : Clash (.cons n v d) (.cons n v d')

theorem type_byte_inj {t t' : BSONType} (h : t.byte = t'.byte) : t = t' := by
  have ho := congrArg BSONType.ofByte h
  rwa [BSONType.ofByte_byte, BSONType.ofByte_byte, Option.some.injEq] at ho

/-- Behind their length words the bytes of two frames are compared from the first one on. -/
theorem body_eq_of_frame_eq {b b' x x' : Bytes} (h : frame b ++ x = frame b' ++ x') :
    b ++ ([0] ++ x) = b' ++ ([0] ++ x') := by
  simp only [frame, List.append_assoc] at h
  exact (List.append_inj h (by simp)).2

/-- **The bytes differ at that place**, whatever stands behind. -/
theorem Clash.elems_ne {d d' : Doc} (h : Clash d d') :
    ∀ x x' : Bytes, d.elems ++ x ≠ d'.elems ++ x' := by
  induction h with
  | type h =>
    intro x x' he
    simp only [Doc.elems, List.cons_append, List.cons.injEq] at he
    exact h (type_byte_inj he.1)
  | object h ih | array h ih =>
    intro x x' he
    simp only [Doc.elems, List.cons_append, List.append_assoc, List.cons.injEq,
      List.append_cancel_left_eq, Value.bytes, true_and, Value.type] at he
    exact ih _ _ (body_eq_of_frame_eq he)
  | rest h ih =>
    intro x x' he
    simp only [Doc.elems, List.cons_append, List.append_assoc, List.cons.injEq,
      List.append_cancel_left_eq, true_and] at he
    exact ih _ _ he

theorem Clash.bytes_ne {d d' : Doc} (h : Clash d d') : d.bytes ≠ d'.bytes := by
  intro he
  have hf : frame d.elems ++ [] = frame d'.elems ++ [] := by
    rw [List.append_nil, List.append_nil]
    exact he
  exact h.elems_ne _ _ (body_eq_of_frame_eq hf)

/-- Documents that have these values at the same place differ in a type. -/
def Differ (v v' : Option Value) : Prop :=
  ∀ n d d', Clash (append n v d) (append n v' d')

theorem differ_object {d d' : Doc} (h : Clash d d') :
    Differ (some (.object d)) (some (.object d')) :=
  fun _ _ _ => .object h

theorem differ_array {d d' : Doc} (h : Clash d d') : Differ (some (.array d)) (some (.array d')) :=
  fun _ _ _ => .array h

theorem clash_append {n : Bytes} {v : Option Value} {d d' : Doc} (h : Clash d d') :
    Clash (append n v d) (append n v d') := by
  cases v with
  | none => exact h
  | some v => exact .rest h

/-! ### Two readings of a text -/

section readings
variable {rt : Runtime} {i j j' : Bytes} {t t' : ParseTree} {ms ms' : Members}

/-- Two readings agree, or the second one takes a special object for pairs. -/
def Same (t : ParseTree) (j : Bytes) (t' : ParseTree) (j' : Bytes) : Prop :=
  t = t' ∧ j = j' ∨ ¬ t'.Resolved ∧ Differ t.value t'.value

def SameMembers (ms : Members) (j : Bytes) (ms' : Members) (j' : Bytes) : Prop :=
  ms = ms' ∧ j = j' ∨ ¬ ms'.Resolved ∧ Clash ms.doc ms'.doc

/-- What other readings there are of a part of a text. -/
def Compared (rt : Runtime) (i : Bytes) : Node → Bytes → Prop
  | .value t, j => ∀ t' j', Reads rt i (.value t') j' → Closes j' → Same t j t' j'
  | .object t, j => ∀ t' j', Reads rt i (.object t') j' → Same t j t' j'
  | .members ms, j => ∀ ms' j' k, Reads rt i (.members ms') j' → Token RBRACE j' k →
      SameMembers ms j ms' j'
  | .elements index es, j => ∀ es' j' k, Reads rt i (.elements index es') j' →
      Token RBRACKET j' k → SameMembers es j es' j'

theorem SameMembers.object {k k' : Bytes} (h : SameMembers ms j ms' j') (hr : Token RBRACE j k)
    (hr' : Token RBRACE j' k') : Same (.object ms) k (.object ms') k' := by
  rcases h with ⟨rfl, rfl⟩ | ⟨hres, hd⟩
  · exact .inl ⟨rfl, Token.unique hr hr'⟩
  · exact .inr ⟨fun h => hres h.2, differ_object hd⟩

theorem SameMembers.array {k k' : Bytes} (h : SameMembers ms j ms' j') (hr : Token RBRACKET j k)
    (hr' : Token RBRACKET j' k') : Same (.array ms) k (.array ms') k' := by
  rcases h with ⟨rfl, rfl⟩ | ⟨hres, hd⟩
  · exact .inl ⟨rfl, Token.unique hr hr'⟩
  · exact .inr ⟨hres, differ_array hd⟩

/-- The first pair, and what follows when it agrees. -/
theorem Same.cons {k k' : Bytes} {name : Spelling} (h : Same t j t' j')
    (hrest : t = t' → j = j' → SameMembers ms k ms' k') :
    SameMembers (.cons name t ms) k (.cons name t' ms') k' := by
  rcases h with ⟨rfl, rfl⟩ | ⟨hres, hd⟩
  · rcases hrest rfl rfl with ⟨rfl, rfl⟩ | ⟨hres, hd⟩
    · exact .inl ⟨rfl, rfl⟩
    · exact .inr ⟨fun h => hres h.2, clash_append hd⟩
  · exact .inr ⟨fun h => hres h.1, hd _ _ _⟩

theorem first_of_members (h : Reads rt i (.members ms) j) :
    ∃ name t rest k l, ms = .cons name t rest ∧ Field i name k ∧ Token COLON k l := by
  cases h with
  | pair hf hc | pairs hf hc => exact ⟨_, _, _, _, _, rfl, hf, hc⟩

/-- A special object is no object. -/
theorem type_of_body {name : SpecialName} (h : Body name i t j) :
    ∃ v, t.value = some v ∧ v.type ≠ .object := by
  cases h <;> exact ⟨_, rfl, by simp [Value.type, appendTimestamp]⟩

theorem not_resolved_of_special {name : SpecialName} {s : Spelling} (h : denoted s = name.name) :
    ¬ ((Members.cons s t ms).Unreserved ∨ (Members.cons s t ms).Reference) := by
  have hres : ∀ name : SpecialName, name.name ∈ reserved ∧ name.name ≠ ascii "$ref" := by
    intro name
    cases name <;> decide
  rintro (hu | href)
  · exact hu (h ▸ (hres name).1)
  · obtain ⟨s', ns, s'', id, he, hs', -⟩ := href.eq
    obtain ⟨rfl, -, -⟩ := Members.cons.inj he
    exact (hres name).2 (h.symm.trans hs')

theorem SpecialName.name_inj {name name' : SpecialName} (h : name.name = name'.name) :
    name = name' := by
  revert h
  cases name <;> cases name' <;> decide

/-! ### One reading against the others -/

theorem compared_dbRef {k l m n o : Bytes} {documented : Bool} {ns : Spelling} {id : ParseTree}
    (ht : Token (if documented then ascii "Dbref" else ascii "DBRef") i j) (hl : Token LPAREN j k)
    (hn : QuotedString k ns l) (hc : Token COMMA l m) (hr : Token RPAREN n o)
    (ih : Compared rt m (.value id) n) : Compared rt i (.value (.dbRef documented ns id)) o := by
  intro t' j' h' _
  obtain ⟨ns', id', k', l', m', n', o', rfl, ht', hl', hn', hc', hv', hr'⟩ :=
    startsWith_of_token _ (mem_starts_of_dbRef _) ht h'
  obtain rfl := Token.unique ht ht'
  obtain rfl := Token.unique hl hl'
  obtain ⟨rfl, rfl⟩ := QuotedString.unique hn hn'
  obtain rfl := Token.unique hc hc'
  rcases ih _ _ hv' (closes_of_rparen hr') with ⟨rfl, rfl⟩ | ⟨hres', hd⟩
  · exact .inl ⟨rfl, Token.unique hr hr'⟩
  · exact .inr ⟨hres', differ_object (.rest (hd _ _ _))⟩

/-- Elements do not start with a closing bracket. -/
theorem not_rbracket_of_elements {index : ℕ} {k : Bytes} (h : Reads rt i (.elements index ms) j) :
    ¬ Token RBRACKET i k := by
  cases h with
  | element hv | elements hv => exact not_rbracket_of_value hv

theorem compared_emptyArray {k : Bytes} (hl : Token LBRACKET i j) (hr : Token RBRACKET j k) :
    Compared rt i (.value (.array .nil)) k := by
  intro t' j' h' _
  obtain ⟨k', hl', ⟨rfl, hr'⟩ | ⟨es', l', rfl, h', -⟩⟩ :=
    startsWith_of_token .bracket (by decide) hl h'
  · obtain rfl := Token.unique hl hl'
    exact .inl ⟨rfl, Token.unique hr hr'⟩
  · obtain rfl := Token.unique hl hl'
    exact absurd hr (not_rbracket_of_elements h')

theorem compared_array {k l : Bytes} (hl : Token LBRACKET i j) (h : Reads rt j (.elements 0 ms) k)
    (hr : Token RBRACKET k l) (ih : Compared rt j (.elements 0 ms) k) :
    Compared rt i (.value (.array ms)) l := by
  intro t' j' h' _
  obtain ⟨k', hl', ⟨-, hr'⟩ | ⟨es', l', rfl, h', hr'⟩⟩ :=
    startsWith_of_token .bracket (by decide) hl h'
  · obtain rfl := Token.unique hl hl'
    exact absurd hr' (not_rbracket_of_elements h)
  · obtain rfl := Token.unique hl hl'
    exact (ih _ _ _ h' hr').array hr hr'

theorem compared_emptyObject {k : Bytes} (hl : Token LBRACE i j) (hr : Token RBRACE j k) :
    Compared rt i (.object (.object .nil)) k := by
  intro t' j' h'
  cases h' with
  | emptyObject hl' hr' =>
    obtain rfl := Token.unique hl hl'
    exact .inl ⟨rfl, Token.unique hr hr'⟩
  | braces hl' h' =>
    obtain rfl := Token.unique hl hl'
    obtain ⟨name, t, rest, k, l, -, hf, -⟩ := first_of_members h'
    exact absurd hr (not_rbrace_of_field hf)
  | special hl' hf =>
    obtain rfl := Token.unique hl hl'
    obtain ⟨name, hf, -⟩ := hf
    exact absurd hr (not_rbrace_of_field hf)

/-- Resolved pairs are not those of a special object. -/
theorem compared_braces {k l : Bytes} (hl : Token LBRACE i j) (h : Reads rt j (.members ms) k)
    (hr : Token RBRACE k l) (hres : ms.Unreserved ∨ ms.Reference)
    (ih : Compared rt j (.members ms) k) : Compared rt i (.object (.object ms)) l := by
  intro t' j' h'
  cases h' with
  | emptyObject hl' hr' =>
    obtain rfl := Token.unique hl hl'
    obtain ⟨name, t, rest, k, l, -, hf, -⟩ := first_of_members h
    exact absurd hr' (not_rbrace_of_field hf)
  | braces hl' h' hr' =>
    obtain rfl := Token.unique hl hl'
    exact (ih _ _ _ h' hr').object hr hr'
  | special hl' hf' hc' =>
    obtain rfl := Token.unique hl hl'
    obtain ⟨name, t, rest, k, l, rfl, hf, hc⟩ := first_of_members h
    obtain ⟨s', hf', hs'⟩ := hf'
    obtain ⟨rfl, -⟩ := Field.unique hf hc hf' hc'
    exact absurd hres (not_resolved_of_special hs')

/-- A special object that is taken for pairs has another type. -/
theorem compared_special {k l m n : Bytes} {name : SpecialName} (hl : Token LBRACE i j)
    (hf : Named name.name j k) (hc : Token COLON k l) (h : Body name l t m)
    (hr : Token RBRACE m n) : Compared rt i (.object t) n := by
  intro t' j' h'
  obtain ⟨s, hf, hs⟩ := hf
  cases h' with
  | emptyObject hl' hr' =>
    obtain rfl := Token.unique hl hl'
    exact absurd hr' (not_rbrace_of_field hf)
  | braces hl' h' =>
    obtain rfl := Token.unique hl hl'
    obtain ⟨name, t, rest, k, l, rfl, hf', hc'⟩ := first_of_members h'
    obtain ⟨rfl, -⟩ := Field.unique hf hc hf' hc'
    obtain ⟨v, hv, htype⟩ := type_of_body h
    refine .inr ⟨fun hres => not_resolved_of_special hs hres.1, fun n d d' => ?_⟩
    rw [hv]
    exact .type htype
  | special hl' hf' hc' h' hr' =>
    obtain rfl := Token.unique hl hl'
    obtain ⟨s', hf', hs'⟩ := hf'
    obtain ⟨rfl, rfl⟩ := Field.unique hf hc hf' hc'
    obtain rfl := SpecialName.name_inj (hs.symm.trans hs')
    obtain ⟨rfl, rfl⟩ := Body.unique h hr h' hr'
    exact .inl ⟨rfl, Token.unique hr hr'⟩

/-- The pairs behind the first one: none before a brace, or those behind a comma. -/
theorem compared_pair {k l o : Bytes} {name : Spelling} (hf : Field i name j)
    (hc : Token COLON j k) (hr : Token RBRACE l o) (ih : Compared rt k (.value t) l) :
    Compared rt i (.members (.cons name t .nil)) l := by
  intro ms' j' n h' hr'
  cases h' with
  | pair hf' hc' hv' =>
    obtain ⟨rfl, rfl⟩ := Field.unique hf hc hf' hc'
    exact (ih _ _ hv' (closes_of_rbrace hr')).cons fun _ hj => .inl ⟨rfl, hj⟩
  | pairs hf' hc' hv' hcomma' =>
    obtain ⟨rfl, rfl⟩ := Field.unique hf hc hf' hc'
    refine (ih _ _ hv' (closes_of_comma hcomma')).cons ?_
    rintro - rfl
    exact absurd (Token.head_eq hr hcomma') (by decide)

theorem compared_pairs {k l m n : Bytes} {name : Spelling} (hf : Field i name j)
    (hc : Token COLON j k) (hcomma : Token COMMA l m) (ih : Compared rt k (.value t) l)
    (ih' : Compared rt m (.members ms) n) : Compared rt i (.members (.cons name t ms)) n := by
  intro ms' j' o h' hr'
  cases h' with
  | pair hf' hc' hv' =>
    obtain ⟨rfl, rfl⟩ := Field.unique hf hc hf' hc'
    refine (ih _ _ hv' (closes_of_rbrace hr')).cons ?_
    rintro - rfl
    exact absurd (Token.head_eq hcomma hr') (by decide)
  | pairs hf' hc' hv' hcomma' hd' =>
    obtain ⟨rfl, rfl⟩ := Field.unique hf hc hf' hc'
    refine (ih _ _ hv' (closes_of_comma hcomma')).cons ?_
    rintro - rfl
    obtain rfl := Token.unique hcomma hcomma'
    exact ih' _ _ _ hd' hr'

theorem compared_element {o : Bytes} (index : ℕ) (hr : Token RBRACKET j o)
    (ih : Compared rt i (.value t) j) :
    Compared rt i (.elements index (.cons ((decimal index).map .plain) t .nil)) j := by
  intro es' j' k h' hr'
  cases h' with
  | element hv' => exact (ih _ _ hv' (closes_of_rbracket hr')).cons fun _ hj => .inl ⟨rfl, hj⟩
  | elements hv' hcomma' =>
    refine (ih _ _ hv' (closes_of_comma hcomma')).cons ?_
    rintro - rfl
    exact absurd (Token.head_eq hr hcomma') (by decide)

theorem compared_elements {k l : Bytes} {index : ℕ} (hcomma : Token COMMA j k)
    (ih : Compared rt i (.value t) j) (ih' : Compared rt k (.elements (index + 1) ms) l) :
    Compared rt i (.elements index (.cons ((decimal index).map .plain) t ms)) l := by
  intro es' j' n h' hr'
  cases h' with
  | element hv' =>
    refine (ih _ _ hv' (closes_of_rbracket hr')).cons ?_
    rintro - rfl
    exact absurd (Token.head_eq hcomma hr') (by decide)
  | elements hv' hcomma' hd' =>
    refine (ih _ _ hv' (closes_of_comma hcomma')).cons ?_
    rintro - rfl
    obtain rfl := Token.unique hcomma hcomma'
    exact ih' _ _ _ hd' hr'

/-- **A reading in which the reserved names are resolved is the only one**, but for those that take
a special object for pairs. -/
theorem compared_of_reads {n : Node} (h : Reads rt i n j) :
    Resolved n → Followed n j → Compared rt i n j := by
  induction h with
  | leaf h => exact fun _ hj t' j' h' hj' => .inl (leaf_unique h hj h' hj')
  | dbRef ht hl hn hc _ hr ih =>
    intro hres _
    exact compared_dbRef ht hl hn hc hr (ih hres (closes_of_rparen hr))
  | object h ih =>
    intro hres _ t' j' h' _
    obtain ⟨k, hk⟩ := lbrace_of_reads h
    exact ih hres trivial t' j' (startsWith_of_token .brace (by decide) hk h')
  | emptyArray hl hr => exact fun _ _ => compared_emptyArray hl hr
  | array hl h hr ih => exact fun hres _ => compared_array hl h hr (ih hres ⟨_, hr⟩)
  | emptyObject hl hr => exact fun _ _ => compared_emptyObject hl hr
  | braces hl h hr ih => exact fun hres _ => compared_braces hl h hr hres.1 (ih hres.2 ⟨_, hr⟩)
  | special hl hf hc h hr => exact fun _ _ => compared_special hl hf hc h hr
  | pair hf hc _ ih =>
    rintro hres ⟨o, hr⟩
    exact compared_pair hf hc hr (ih hres.1 (closes_of_rbrace hr))
  | pairs hf hc _ hcomma _ ih ih' =>
    intro hres hr
    exact compared_pairs hf hc hcomma (ih hres.1 (closes_of_comma hcomma)) (ih' hres.2 hr)
  | element _ ih =>
    rintro hres ⟨o, hr⟩
    exact compared_element _ hr (ih hres.1 (closes_of_rbracket hr))
  | elements _ hcomma _ ih ih' =>
    intro hres hr
    exact compared_elements hcomma (ih hres.1 (closes_of_comma hcomma)) (ih' hres.2 hr)

/-! ### The base object -/

theorem Differ.clash {d d' : Doc} (h : Differ (some (.object d)) (some (.object d'))) :
    Clash d d' := by
  cases h [] .nil .nil with
  | type h => exact absurd rfl h
  | object h => exact h
  | rest h => cases h

/-- A reading of a text is that of its base object, or its document differs from it in a type. -/
theorem Base.cases {s r r' : Bytes} (h : Base rt s ms r)
    (h' : Reads rt s (.object (.object ms')) r') :
    ms = ms' ∧ r = r' ∨ ¬ (ParseTree.object ms').Resolved ∧ Clash ms.doc ms'.doc := by
  have hres : (ParseTree.object ms).Resolved := ⟨.inl h.unreserved, h.resolved⟩
  rcases compared_of_reads h.reads hres trivial _ _ h' with ⟨he, hr⟩ | ⟨hres', hd⟩
  · exact .inl ⟨ParseTree.object.inj he, hr⟩
  · exact .inr ⟨hres', Differ.clash hd⟩

/-- **The base object of a text is determined**, and so is what is left behind it. -/
theorem Base.unique {s r r' : Bytes} (h : Base rt s ms r) (h' : Base rt s ms' r') :
    ms = ms' ∧ r = r' := by
  rcases Base.cases h h'.reads with he | ⟨hres, -⟩
  · exact he
  · exact absurd ⟨.inl h'.unreserved, h'.resolved⟩ hres

theorem ne_nil_of_reads {s r : Bytes} (h : Reads rt s (.object t) r) : s ≠ [] := by
  obtain ⟨k, hk⟩ := lbrace_of_reads h
  rintro rfl
  cases hk

/-- **An object at the beginning of a text is built as it is written** exactly when the base object
does not start with a reserved name, no other list of pairs does unless it is a reference, and the
document is within the size limit. -/
theorem fromjson_eq_doc_iff {s r : Bytes} (h : Reads rt s (.object (.object ms)) r) :
    fromjson rt s = .ok ms.doc ↔
      ms.Unreserved ∧ ms.Resolved ∧ ms.doc.bytes.length ≤ BSONObjMaxInternalSize := by
  constructor
  · intro hok
    obtain ⟨ms', r', hb, hdoc⟩ := fromjson_reads (ne_nil_of_reads h) hok
    rcases Base.cases hb h with ⟨rfl, -⟩ | ⟨-, hclash⟩
    · exact ⟨hb.unreserved, hb.resolved, (fromjson_ok hok).2⟩
    · exact absurd (congrArg Doc.bytes hdoc) hclash.bytes_ne
  · rintro ⟨hu, hres, hsize⟩
    exact fromjson_of_base ⟨h, hu, hres⟩ hsize

end readings

/-! ### A text and its reading -/

theorem quotedString_of_plain {i t j : Bytes} {q : UInt8} (hq : q = 34 ∨ q = 39)
    (ht : ∀ c ∈ t, c ≠ q ∧ c ≠ 92 ∧ 0x1f < c) (h : Token [q] i (t ++ q :: j)) :
    QuotedString i (t.map .plain) j := by
  refine ⟨q, hq, by rwa [written_plain], fun c hc => ?_⟩
  obtain ⟨x, hx, rfl⟩ := List.mem_map.mp hc
  exact ht x hx

theorem field_of_plain {i t j : Bytes} {c : UInt8} (h : Token (c :: t) i j)
    (hc : c ∈ ALPHA ++ ascii "_$") (ht : ∀ x ∈ t, x ∈ ALPHA ++ DIGIT ++ ascii "_$") :
    Field i ((c :: t).map .plain) j :=
  .inr ⟨c, t, rfl, h, hc, ht⟩

/-- An array with a string and a word, and a reference, with white space around. -/
def pairsText : Bytes :=
  ascii "\x7b \"a\" : ['NaN(', null], r : \x7b$ref : 'n', " ++
    ascii "$id : '0123456789abcdef01234567'\x7d \x7d "

def pairsArray : Members :=
  .cons ((decimal 0).map .plain) (.string ((ascii "NaN(").map .plain))
    (.cons ((decimal 1).map .plain) (.scalar .jstNULL) .nil)

def pairsRef : Members :=
  .cons ((ascii "$ref").map .plain) (.string ((ascii "n").map .plain))
    (.cons ((ascii "$id").map .plain)
      (.string ((ascii "0123456789abcdef01234567").map .plain)) .nil)

def pairsMembers : Members :=
  .cons ((ascii "a").map .plain) (.array pairsArray)
    (.cons ((ascii "r").map .plain) (.object pairsRef) .nil)

theorem reads_pairsText (rt : Runtime) :
    Reads rt pairsText (.object (.object pairsMembers)) [32] := by
  have hstring : ∀ {i t j : Bytes}, (∀ c ∈ t, c ≠ 39 ∧ c ≠ 92 ∧ 0x1f < c) →
      Token [39] i (t ++ 39 :: j) → Reads rt i (.value (.string (t.map .plain))) j :=
    fun ht h => .leaf (.string (quotedString_of_plain (.inr rfl) ht h))
  have hname : ∀ {i j : Bytes}, Token [34] i (ascii "a" ++ 34 :: j) →
      Field i ((ascii "a").map .plain) j :=
    fun h => .inl (quotedString_of_plain (.inl rfl) (by decide +kernel) h)
  have harray : ∀ j, Reads rt (ascii "'NaN(', null]" ++ j) (.elements 0 pairsArray)
      (ascii "]" ++ j) :=
    fun j => .elements (hstring (by decide +kernel) rfl) rfl
      (.element (.leaf (.word (w := ascii "null") (by simp [words]) rfl)))
  have href : ∀ j, Reads rt (ascii "$ref : 'n', $id : '0123456789abcdef01234567'\x7d" ++ j)
      (.members pairsRef) (ascii "\x7d" ++ j) :=
    fun j => .pairs (field_of_plain rfl (by decide) (by decide +kernel)) rfl
      (hstring (by decide +kernel) rfl) rfl
      (.pair (field_of_plain rfl (by decide) (by decide +kernel)) rfl
        (hstring (by decide +kernel) rfl))
  exact .braces rfl (.pairs (hname rfl) rfl (.array rfl (harray _) rfl) rfl
    (.pair (field_of_plain (t := []) rfl (by decide) (by simp)) rfl
      (.object (.braces rfl (href _) rfl)))) rfl

theorem base_pairsText (rt : Runtime) : Base rt pairsText pairsMembers [32] where
  reads := reads_pairsText rt
  unreserved := show denoted ((ascii "a").map .plain) ∉ reserved by decide
  resolved := ⟨⟨trivial, trivial, trivial⟩, ⟨.inr ⟨denoted_plain _, denoted_plain _⟩, trivial,
    trivial, trivial⟩, trivial⟩

theorem fromjson_eq_doc_iff_pairsText :
    fromjson .common pairsText = .ok pairsMembers.doc :=
  (fromjson_eq_doc_iff (reads_pairsText .common)).mpr
    ⟨(base_pairsText .common).unreserved, (base_pairsText .common).resolved, by decide +kernel⟩

end PgBson.Json.Ambiguity
