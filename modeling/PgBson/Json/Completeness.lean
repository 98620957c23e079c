import PgBson.Json.Accepts
import PgBson.Json.Recognize

/-! # Every text of the grammar is read

The converse of `fromjson_reads`: a text that begins with an object of the grammar is accepted, and
the document that the object denotes is the one that is built, unless a reserved field name gives it
another meaning or the document is too large. With the two directions between runs and readings this
describes exactly what the parser accepts (`fromjson_eq_ok_iff`). -/

namespace PgBson.Json.Completeness

open PgBson.Lib.Memory PgBson.Lib.Decimal PgBson.Lib.Strtod PgBson.Lib.Parsing
open PgBson.Bson.Types PgBson.Bson.Document
open PgBson.Bson.Element (done done_ok obj_ok)
open PgBson.Json.Encoding PgBson.Json.Parse PgBson.Json.Leaves PgBson.Json.Restore
open PgBson.Json.Grammar PgBson.Json.Reading PgBson.Json.Recognize
open PgBson.Json.Accepts (fromjson_ok)

/-! ### Pairs and elements -/

section members
variable {value : JParse (Option Value)} {fuel : ℕ} {i j k l : Bytes} {ms : Members}

/-- The pairs between two braces, with values as the parser reads them. -/
inductive Pairs (value : JParse (Option Value)) : Bytes → Members → Bytes → Prop
  | pair {i j k l : Bytes} {name : Spelling} {t : ParseTree} (hf : Field i name j)
      (hc : Token COLON j k) (hv : value k = .ok t.value l)
      (hs : ∀ s, t = .string s → QuotedString k s l) (hl : l.length < i.length) :
      Pairs value i (.cons name t .nil) l
  | pairs {i j k l m n : Bytes} {name : Spelling} {t : ParseTree} {ms : Members}
      (hf : Field i name j)
      (hc : Token COLON j k) (hv : value k = .ok t.value l)
      (hs : ∀ s, t = .string s → QuotedString k s l) (hl : l.length < i.length)
      (hcomma : Token COMMA l m) (hd : Pairs value m ms n) : Pairs value i (.cons name t ms) n

/-- The loop over the pairs behind a first one ends at the brace. -/
theorem pairs_of_pairs (h : Pairs value i ms j) (hr : Token RBRACE j k) :
    ∀ {l : Bytes} {fuel : ℕ}, Token COMMA l i → i.length < fuel →
      pairs value fuel l = .ok ms.doc j := by
  have hnil : ∀ {fuel : ℕ}, 0 < fuel → pairs value fuel j = .ok .nil j := by
    intro fuel hf
    obtain ⟨f, rfl⟩ : ∃ f, fuel = f + 1 := ⟨fuel - 1, by omega⟩
    rw [Parse.pairs, not_accept_bind (not_accept_of_token hr rfl), pure_apply]
  induction h with
  | pair hf hc hv _ hl =>
    intro l fuel hcomma hfuel
    obtain ⟨f, rfl⟩ : ∃ f, fuel = f + 1 := ⟨fuel - 1, by omega⟩
    rw [Parse.pairs, accept_bind (accept_of_token hcomma), ok_bind (field_of_text hf hc),
      ok_bind (expect_of_token _ hc), ok_bind hv, ok_bind (hnil (by omega)), pure_apply]
    rfl
  | pairs hf hc hv _ hl hcomma' _ ih =>
    intro l fuel hcomma hfuel
    obtain ⟨f, rfl⟩ : ∃ f, fuel = f + 1 := ⟨fuel - 1, by omega⟩
    have hlt := Token.length_lt hcomma'
    rw [Parse.pairs, accept_bind (accept_of_token hcomma), ok_bind (field_of_text hf hc),
      ok_bind (expect_of_token _ hc), ok_bind hv, ok_bind (ih hr hnil hcomma' (by omega)),
      pure_apply]
    rfl

/-- The first pair, and what the loop reads behind it. -/
theorem first_of_pairs (h : Pairs value i ms j) (hr : Token RBRACE j k)
    (hfuel : i.length ≤ fuel) : ∃ name t rest l m n, ms = .cons name t rest ∧ Field i name l ∧
      Token COLON l m ∧ value m = .ok t.value n ∧ pairs value fuel n = .ok rest.doc j := by
  cases h with
  | pair hf hc hv _ hl =>
    obtain ⟨f, rfl⟩ : ∃ f, fuel = f + 1 := ⟨fuel - 1, by omega⟩
    refine ⟨_, _, _, _, _, _, rfl, hf, hc, hv, ?_⟩
    rw [Parse.pairs, not_accept_bind (not_accept_of_token hr rfl), pure_apply]
    rfl
  | pairs hf hc hv _ hl hcomma hd =>
    have hlt := Token.length_lt hcomma
    exact ⟨_, _, _, _, _, _, rfl, hf, hc, hv, pairs_of_pairs hd hr hcomma (by omega)⟩

/-- An object whose first name is not reserved is read pair by pair. -/
theorem object_of_pairs {sub : Bool} (hl : Token LBRACE i j) (h : Pairs value j ms k)
    (hr : Token RBRACE k l) (hu : ms.Unreserved) (hfuel : j.length ≤ fuel) :
    object value fuel sub i = .ok (.object ms.doc) l := by
  obtain ⟨name, t, rest, m, n, o, rfl, hf, hc, hv, he⟩ := first_of_pairs h hr hfuel
  have hspecial : special value (denoted name) = none := special_of_unreserved hu
  rw [object, ok_bind (expect_of_token _ hl), not_accept_bind (not_accept_rbrace hf),
    ok_bind (field_of_text hf hc)]
  simp only [hspecial]
  rw [ok_bind (expect_of_token _ hc), ok_bind hv, ok_bind he, ok_bind (expect_of_token _ hr),
    pure_apply]
  rfl

/-- An object whose first name is reserved is left to the method for that name. -/
theorem object_of_special {name : Bytes} {p : JParse Value} {v : Value} {m n : Bytes}
    (hl : Token LBRACE i j) (hf : Named name j k) (hc : Token COLON k l)
    (hp : special value name = some p) (hv : p k = .ok v m) (hr : Token RBRACE m n) :
    object value fuel true i = .ok v n := by
  obtain ⟨s, hf, rfl⟩ := hf
  rw [object, ok_bind (expect_of_token _ hl), not_accept_bind (not_accept_rbrace hf),
    ok_bind (field_of_text hf hc)]
  simp only [hp, if_true]
  rw [ok_bind hv, ok_bind (expect_of_token _ hr), pure_apply]

theorem refObject_ok {ns : Bytes} {id : Option Value}
    (hs : (refDoc ns id).bytes.length ≤ BSONObjMaxInternalSize) :
    refObject ns id i = .ok (.object (refDoc ns id)) i := by
  have hd := done_ok hs
  unfold refDoc at hd
  rw [refObject, hd]
  rfl

/-- The pairs of a reference, read by the method for it. -/
theorem object_of_reference (hl : Token LBRACE i j) (h : Pairs value j ms k)
    (hr : Token RBRACE k l) (href : ms.Reference)
    (hs : ms.doc.bytes.length ≤ BSONObjMaxInternalSize) :
    object value fuel true i = .ok (.object ms.doc) l := by
  obtain ⟨name, ns, name', id, rfl, hname, hname'⟩ := href.eq
  have hdoc : (Members.cons name (.string ns) (.cons name' id .nil)).doc =
      refDoc (denoted ns) id.value := by
    simp only [Members.doc, ParseTree.value, hname, hname']
    rfl
  rw [hdoc] at hs ⊢
  cases h with
  | pairs hf hc hv hstring _ hcomma h' =>
    cases h' with
    | pairs _ _ _ _ _ _ h'' => cases h''
    | pair hf' hc' hv' _ _ =>
      refine object_of_special hl ⟨_, hf, hname⟩ hc rfl ?_ hr
      rw [dbRefObject, ok_bind (expect_of_token _ hc),
        ok_bind (quotedString_of_text (hstring _ rfl)), ok_bind (expect_of_token _ hcomma),
        ok_bind (expectField_of_named ⟨_, hf', hname'⟩ hc'), ok_bind (expect_of_token _ hc'),
        ok_bind hv', refObject_ok hs]

end members

/-! ### The whole grammar -/

section grammar
variable {rt : Runtime} {i j : Bytes}

/-- A closing bracket is no value. -/
theorem value_rbracket {fuel : ℕ} (h : Token RBRACKET i j) :
    value rt (fuel + 1) i = .fail (ascii "Bad characters in value") i := by
  have hn : number rt i = .fail (ascii "Bad characters in value") i := by
    have he : (strtod rt i).endptr = i := endptr_strtod_of_not_numeric rt (by rw [h]; rfl)
    simp [number, he]
  rw [value]
  repeat first
    | rw [not_peek_bind (not_peek_of_token h (by rfl))]
    | rw [not_accept_bind (not_accept_of_token h (by rfl))]
  rw [fail_bind hn]

theorem array_of_empty {fuel : ℕ} {k : Bytes} (hl : Token LBRACKET i j) (hr : Token RBRACKET j k) :
    array (value rt fuel) fuel i = .ok (.array .nil) k := by
  have hd : lift (done .nil) j = .ok .nil j := by
    rw [done_ok (by decide)]
    rfl
  rw [array, ok_bind (expect_of_token _ hl), peek_bind (peek_of_token hr), ok_bind hd,
    ok_bind (expect_of_token _ hr), pure_apply]

theorem array_of_elements {fuel : ℕ} {k l : Bytes} {d : Doc} (hl : Token LBRACKET i j)
    (h : elements (value rt fuel) fuel 0 j = .ok d k) (hr : Token RBRACKET k l)
    (hs : (Value.array d).bytes.length ≤ BSONObjMaxInternalSize) :
    array (value rt fuel) fuel i = .ok (.array d) l := by
  have hpeek : peek RBRACKET j = .ok false j := by
    rcases accept_cases RBRACKET j with ⟨m, hm, -⟩ | ⟨hno, -⟩
    · cases fuel with
      | zero => cases h
      | succ f =>
        rw [elements, fail_bind (value_rbracket hm)] at h
        cases h
    · exact not_peek_of_not_token hno
  have hd : lift (done d) k = .ok d k := by
    rw [done_ok hs]
    rfl
  rw [array, ok_bind (expect_of_token _ hl), not_peek_bind hpeek, ok_bind h, ok_bind hd,
    ok_bind (expect_of_token _ hr), pure_apply]

/-- What it denotes is within the size limit. -/
def Fits : Node → Prop
  | .value t | .object t => ∀ v, t.value = some v → v.bytes.length ≤ BSONObjMaxInternalSize
  | .members ms | .elements _ ms => ms.doc.elems.length ≤ BSONObjMaxInternalSize

/-- The reserved names in it are resolved. -/
def Resolved : Node → Prop
  | .value t | .object t => t.Resolved
  | .members ms | .elements _ ms => ms.Resolved

/-- What follows it in a text. -/
def Followed : Node → Bytes → Prop
  | .value _, j => Closes j
  | .object _, _ => True
  | .members _, j => ∃ k, Token RBRACE j k
  | .elements _ _, j => ∃ k, Token RBRACKET j k

/-- The parser reads it, given enough fuel. -/
def Parsed (rt : Runtime) (fuel : ℕ) (i : Bytes) : Node → Bytes → Prop
  | .value t, j => i.length < fuel → value rt fuel i = .ok t.value j
  | .object t, j => i.length ≤ fuel →
      ∃ v, t.value = some v ∧ object (value rt fuel) fuel true i = .ok v j
  | .members ms, j => i.length < fuel → Pairs (value rt fuel) i ms j
  | .elements index es, j => i.length < fuel → ∀ m, i.length < m →
      elements (value rt fuel) m index i = .ok es.doc j

theorem closes_of_comma {k : Bytes} (h : Token COMMA j k) : Closes j := ⟨44, by simp, k, h⟩

theorem closes_of_rbrace {k : Bytes} (h : Token RBRACE j k) : Closes j := ⟨125, by simp, k, h⟩

theorem closes_of_rbracket {k : Bytes} (h : Token RBRACKET j k) : Closes j := ⟨93, by simp, k, h⟩

theorem closes_of_rparen {k : Bytes} (h : Token RPAREN j k) : Closes j := ⟨41, by simp, k, h⟩

theorem lbrace_of_reads {t : ParseTree} (h : Reads rt i (.object t) j) : ∃ k, Token LBRACE i k := by
  cases h with
  | emptyObject hl | braces hl | special hl => exact ⟨_, hl⟩

theorem string_of_reads {s : Spelling} (h : Reads rt i (.value (.string s)) j) :
    QuotedString i s j := by
  cases h with
  | object h =>
    cases h with
    | special _ _ _ h => cases h
  | leaf h =>
    cases h with
    | string h => exact h

/-- The id of a reference is a part of it. -/
theorem fits_id {documented : Bool} {ns : Spelling} {id : ParseTree}
    (h : Fits (.value (.dbRef documented ns id))) : Fits (.value id) := by
  have hs : (refDoc (denoted ns) id.value).bytes.length ≤ BSONObjMaxInternalSize := h _ rfl
  intro v hv
  simp only [hv, refDoc, append, length_bytes, length_elems_cons] at hs
  omega

theorem fits_members {ms : Members} (h : Fits (.object (.object ms))) : Fits (.members ms) := by
  have hs : ms.doc.bytes.length ≤ BSONObjMaxInternalSize := h _ rfl
  rw [length_bytes] at hs
  change ms.doc.elems.length ≤ _
  omega

theorem fits_cons {name : Spelling} {t : ParseTree} {ms : Members}
    (h : Fits (.members (.cons name t ms))) : Fits (.value t) ∧ Fits (.members ms) := by
  have hs : (append (denoted name) t.value ms.doc).elems.length ≤ BSONObjMaxInternalSize := h
  cases hv : t.value with
  | none =>
    rw [hv] at hs
    refine ⟨fun v h => ?_, hs⟩
    rw [hv] at h
    cases h
  | some w =>
    rw [hv, append, length_elems_cons] at hs
    refine ⟨fun v h => ?_, show ms.doc.elems.length ≤ _ by omega⟩
    rw [hv, Option.some.injEq] at h
    subst h
    omega

theorem value_of_dbRef {k l m n o : Bytes} {fuel : ℕ} {documented : Bool} {ns : Spelling}
    {id : Option Value} (ht : Token (if documented then ascii "Dbref" else ascii "DBRef") i j)
    (hl : Token LPAREN j k) (hn : QuotedString k ns l) (hc : Token COMMA l m)
    (hv : value rt fuel m = .ok id n) (hr : Token RPAREN n o)
    (hsize : (refDoc (denoted ns) id).bytes.length ≤ BSONObjMaxInternalSize) :
    value rt (fuel + 1) i = .ok (some (.object (refDoc (denoted ns) id))) o := by
  have hd : dbRef (value rt fuel) j = .ok (.object (refDoc (denoted ns) id)) o := by
    rw [dbRef, ok_bind (expect_of_token _ hl), ok_bind (quotedString_of_text hn),
      ok_bind (expect_of_token _ hc), ok_bind hv, ok_bind (expect_of_token _ hr),
      refObject_ok hsize]
  cases documented with
  | true | false =>
    rw [value_of_keyword (mem_of_lookup (by rfl)) ht, ok_bind hd, pure_apply]

/-- **The parser reads every text of the grammar.** -/
theorem parsed_of_reads {n : Node} (h : Reads rt i n j) :
    Resolved n → Fits n → Followed n j → ∀ fuel, Parsed rt fuel i n j := by
  induction h with
  | leaf h =>
    intro _ _ hj fuel hfuel
    obtain ⟨f, rfl⟩ : ∃ f, fuel = f + 1 := ⟨fuel - 1, by omega⟩
    exact value_of_leaf h hj
  | @dbRef i j k l m n o documented ns id ht hl hn hc hv hr ih =>
    intro hres hfit _ fuel hfuel
    obtain ⟨f, rfl⟩ : ∃ f, fuel = f + 1 := ⟨fuel - 1, by omega⟩
    have hm : m <:+ j := hc.suffix.trans (hn.suffix.trans hl.suffix)
    have hlen := hm.length_le
    have hlt : j.length < i.length := by
      cases documented with
      | true | false => exact Token.length_lt ht
    exact value_of_dbRef ht hl hn hc (ih hres (fits_id hfit) (closes_of_rparen hr) f (by omega)) hr
      (hfit _ rfl)
  | object h ih =>
    intro hres hfit _ fuel hfuel
    obtain ⟨f, rfl⟩ : ∃ f, fuel = f + 1 := ⟨fuel - 1, by omega⟩
    obtain ⟨k, hk⟩ := lbrace_of_reads h
    obtain ⟨v, hv, ho⟩ := ih hres hfit trivial f (by omega)
    rw [value_of_opener (mem_of_lookup (by rfl)) hk, ok_bind ho, pure_apply, hv]
  | emptyArray hl hr =>
    intro _ _ _ fuel hfuel
    obtain ⟨f, rfl⟩ : ∃ f, fuel = f + 1 := ⟨fuel - 1, by omega⟩
    rw [value_of_opener (mem_of_lookup (by rfl)) hl, ok_bind (array_of_empty hl hr), pure_apply]
    rfl
  | @array i j k l es hl h hr ih =>
    intro hres hfit _ fuel hfuel
    obtain ⟨f, rfl⟩ : ∃ f, fuel = f + 1 := ⟨fuel - 1, by omega⟩
    have hsize : (Value.array es.doc).bytes.length ≤ BSONObjMaxInternalSize := hfit _ rfl
    have hlt := Token.length_lt hl
    have hes : Fits (.object (.object es)) := fun v hv => Option.some.inj hv ▸ hsize
    have he := ih hres (fits_members hes) ⟨_, hr⟩ f (by omega) f (by omega)
    rw [value_of_opener (mem_of_lookup (by rfl)) hl, ok_bind (array_of_elements hl he hr hsize),
      pure_apply]
    rfl
  | emptyObject hl hr =>
    intro _ _ _ fuel _
    refine ⟨_, rfl, ?_⟩
    rw [Parse.object, ok_bind (expect_of_token _ hl), accept_bind (accept_of_token hr), pure_apply]
    rfl
  | braces hl h hr ih =>
    intro hres hfit _ fuel hfuel
    have hlt := Token.length_lt hl
    have hm := ih hres.2 (fits_members hfit) ⟨_, hr⟩ fuel (by omega)
    rcases hres.1 with hu | href
    · exact ⟨_, rfl, object_of_pairs hl hm hr hu (by omega)⟩
    · exact ⟨_, rfl, object_of_reference hl hm hr href (hfit _ rfl)⟩
  | special hl hf hc h hr =>
    intro _ _ _ fuel _
    obtain ⟨p, v, hp, hv, hok⟩ := special_of_body hc h hr (value rt fuel)
    exact ⟨v, hv, object_of_special hl hf hc hp hok hr⟩
  | @pair i j k l name t hf hc hv ih =>
    intro hres hfit hr fuel hfuel
    obtain ⟨o, hr⟩ := hr
    have hlt : k.length < i.length := (Token.length_lt hc).trans_le hf.suffix.length_le
    refine .pair hf hc (ih hres.1 (fits_cons hfit).1 (closes_of_rbrace hr) fuel (by omega)) ?_
      (hv.suffix.length_le.trans_lt hlt)
    rintro s rfl
    exact string_of_reads hv
  | @pairs i j k l m n name t ms hf hc hv hcomma hd ih ih' =>
    intro hres hfit hr fuel hfuel
    obtain ⟨hfit, hfit'⟩ := fits_cons hfit
    have hlt : k.length < i.length := (Token.length_lt hc).trans_le hf.suffix.length_le
    have hlen : m.length ≤ k.length := (hcomma.suffix.trans hv.suffix).length_le
    refine .pairs hf hc (ih hres.1 hfit (closes_of_comma hcomma) fuel (by omega)) ?_
      (hv.suffix.length_le.trans_lt hlt) hcomma (ih' hres.2 hfit' hr fuel (by omega))
    rintro s rfl
    exact string_of_reads hv
  | @element i j index t hv ih =>
    intro hres hfit hr fuel hfuel m hm
    obtain ⟨k, hr⟩ := hr
    obtain ⟨f, rfl⟩ : ∃ f, m = f + 1 := ⟨m - 1, by omega⟩
    rw [Parse.elements, ok_bind (ih hres.1 (fits_cons hfit).1 (closes_of_rbracket hr) fuel hfuel),
      not_accept_bind (not_accept_of_token hr rfl), pure_apply, Members.doc, denoted_plain]
    rfl
  | @elements i j k l index t es hv hcomma hd ih ih' =>
    intro hres hfit hr fuel hfuel m hm
    obtain ⟨hfit, hfit'⟩ := fits_cons hfit
    obtain ⟨f, rfl⟩ : ∃ f, m = f + 1 := ⟨m - 1, by omega⟩
    have hlt : k.length < i.length := (Token.length_lt hcomma).trans_le hv.suffix.length_le
    rw [Parse.elements, ok_bind (ih hres.1 hfit (closes_of_comma hcomma) fuel hfuel),
      accept_bind (accept_of_token hcomma),
      ok_bind (ih' hres.2 hfit' hr fuel (by omega) f (by omega)), pure_apply, Members.doc,
      denoted_plain]

/-- The base object of a text. -/
theorem object_of_base {s r : Bytes} {ms : Members} (h : Base rt s ms r)
    (hsize : ms.doc.bytes.length ≤ BSONObjMaxInternalSize) :
    object (value rt s.length) s.length false s = .ok (.object ms.doc) r := by
  have hfit : Fits (.object (.object ms)) := fun v hv => Option.some.inj hv ▸ hsize
  cases h.reads with
  | emptyObject hl hr =>
    rw [Parse.object, ok_bind (expect_of_token _ hl), accept_bind (accept_of_token hr), pure_apply]
    rfl
  | braces hl hm hr =>
    have hlt := Token.length_lt hl
    have hp := parsed_of_reads hm h.resolved (fits_members hfit) ⟨_, hr⟩ s.length hlt
    exact object_of_pairs hl hp hr h.unreserved hlt.le
  | special _ _ _ h => cases h

theorem fromjson_of_base {s r : Bytes} {ms : Members} (h : Base rt s ms r)
    (hsize : ms.doc.bytes.length ≤ BSONObjMaxInternalSize) : fromjson rt s = .ok ms.doc := by
  have ho := object_of_base h hsize
  have hne : s ≠ [] := by
    rintro rfl
    cases ho
  simp only [fromjson, if_neg hne, ho, basePairs, obj_ok hsize]
  rfl

theorem denotes_of_fromjson {s : Bytes} {d : Doc} (h : fromjson rt s = .ok d) : Denotes rt s d := by
  by_cases hs : s = []
  · rw [fromjson, if_pos hs, Except.ok.injEq] at h
    exact .inl ⟨hs, h.symm⟩
  · exact .inr (fromjson_reads hs h)

/-- **What the parser accepts**: the texts that denote a document within the size limit, and this is
the document that it builds. -/
theorem fromjson_eq_ok_iff {s : Bytes} {d : Doc} :
    fromjson rt s = .ok d ↔ Denotes rt s d ∧ d.bytes.length ≤ BSONObjMaxInternalSize := by
  constructor
  · intro h
    exact ⟨denotes_of_fromjson h, (fromjson_ok h).2⟩
  · rintro ⟨⟨rfl, rfl⟩ | ⟨ms, r, hb, rfl⟩, hsize⟩
    · rfl
    · exact fromjson_of_base hb hsize

end grammar

end PgBson.Json.Completeness
