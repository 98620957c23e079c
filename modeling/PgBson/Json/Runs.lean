import PgBson.Bson.Document
import PgBson.Json.Parse

/-! # Runs of the parser

What every run of the parser does on strings, tokens and values without parts: it ends, the pointer
only moves forward, and a string has no NUL inside unless the text has the escape `\u0000`. -/

namespace PgBson.Json.Runs

open PgBson.Lib.Memory PgBson.Lib.Decimal PgBson.Lib.Strtod PgBson.Lib.Parsing
open PgBson.Bson.Types PgBson.Bson.Document PgBson.Json.Encoding PgBson.Json.Parse

/-! ### Texts without the escape -/

/-- The escape of a NUL. -/
def nulEscape : Bytes := ascii "\\u0000"

/-- A C string without the escape of a NUL. -/
def NulFree (s : Bytes) : Prop := 0 ∉ s ∧ ¬ nulEscape <:+: s

theorem NulFree.isInfix {s t : Bytes} (h : NulFree s) (ht : t <:+: s) : NulFree t :=
  ⟨fun h0 => h.1 (ht.subset h0), fun hi => h.2 (hi.trans ht)⟩

theorem NulFree.suffix {s t : Bytes} (h : NulFree s) (hs : t <:+ s) : NulFree t :=
  h.isInfix hs.isInfix

theorem fromHexDigit_eq_zero (c : UInt8) :
    isxdigit c = true → fromHexDigit c < 16 ∧ (fromHexDigit c = 0 → c = 48) := by
  revert c
  exact forall_byte (by decide +kernel)

theorem fromHex_eq_zero {c0 c1 : UInt8} (h0 : isxdigit c0 = true) (h1 : isxdigit c1 = true)
    (h : fromHex c0 c1 = 0) : c0 = 48 ∧ c1 = 48 := by
  have hshift : ∀ x : UInt8, x < 16 → x <<< 4 = 0 → x = 0 := forall_byte (by decide +kernel)
  obtain ⟨hlt, hz0⟩ := fromHexDigit_eq_zero c0 h0
  rw [fromHex, UInt8.or_eq_zero_iff] at h
  exact ⟨hz0 (hshift _ hlt h.1), (fromHexDigit_eq_zero c1 h1).2 h.2⟩

theorem zero_notMem_encodeUTF8 {first second : UInt8} (h : first = 0 → second ≠ 0) :
    0 ∉ encodeUTF8 first second := by
  have hor : ∀ x y : UInt8, x ≠ 0 → (0 : UInt8) ≠ x ||| y := fun x y hx hz =>
    hx (UInt8.or_eq_zero_iff.mp hz.symm).1
  unfold encodeUTF8
  dsimp only
  split_ifs with h1 h2
  · simpa using (h h1.1).symm
  · simp only [List.mem_cons, List.not_mem_nil, or_false, not_or]
    exact ⟨hor _ _ (by decide), hor _ _ (by decide)⟩
  · simp only [List.mem_cons, List.not_mem_nil, or_false, not_or]
    exact ⟨hor _ _ (by decide), hor _ _ (by decide), hor _ _ (by decide)⟩

theorem escaped_ne_zero {c d : UInt8} (hc : c ≠ 0) (h : escaped c = .ok d) : d ≠ 0 := by
  unfold escaped at h
  split_ifs at h <;> injection h with h <;> subst h <;> first | decide | exact hc

theorem pushed_ok {x : Except Bytes (Bytes × Bytes)} {p s j : Bytes}
    (h : (do let (t, r) ← x; return (p ++ t, r)) = Except.ok (s, j)) :
    ∃ t, x = .ok (t, j) ∧ s = p ++ t := by
  rcases x with msg | ⟨t, r⟩
  · cases h
  · simp only [bind, Except.bind, pure, Except.pure, Except.ok.injEq, Prod.mk.injEq] at h
    obtain ⟨rfl, rfl⟩ := h
    exact ⟨t, rfl, rfl⟩

/-- **The characters of a string** end further on in the text, and there is no NUL among them unless
the text has its escape. -/
theorem charsLoop_spec (ts : Bytes) (as : Option Bytes) : ∀ {i s j : Bytes},
    charsLoop ts as i = .ok (s, j) → j <:+ i ∧ (NulFree i → 0 ∉ s) := by
  intro i
  fun_induction charsLoop ts as i with
  | case1 | case4 | case5 | case7 | case8 => simp
  | case2 c q | case3 c q =>
    intro s j h
    simp only [Except.ok.injEq, Prod.mk.injEq] at h
    obtain ⟨rfl, rfl⟩ := h
    simp
  | case6 c _ _ _ h0 h1 h2 h3 q hhex hc ih =>
    -- A `\u` escape: only four zeros give a NUL.
    intro s j h
    obtain ⟨t, ht, rfl⟩ := pushed_ok h
    obtain ⟨hj, hnul⟩ := ih ht
    have hq : q <:+ c :: 117 :: h0 :: h1 :: h2 :: h3 :: q := ⟨[c, 117, h0, h1, h2, h3], rfl⟩
    refine ⟨hj.trans hq, fun hfree => ?_⟩
    simp only [isHexString, List.all_cons, List.all_nil, Bool.and_true, Bool.and_eq_true] at hhex
    obtain ⟨-, x0, x1, x2, x3⟩ := hhex
    rw [List.mem_append, not_or]
    refine ⟨zero_notMem_encodeUTF8 fun hz hz' => hfree.2 ?_, hnul (hfree.suffix hq)⟩
    obtain ⟨rfl, rfl⟩ := fromHex_eq_zero x0 x1 hz
    obtain ⟨rfl, rfl⟩ := fromHex_eq_zero x2 x3 hz'
    rw [hc.1]
    exact ⟨[], q, rfl⟩
  | case9 c _ _ _ e q _ _ _ ih =>
    intro s j h
    rcases he : escaped e with msg | d
    · rw [he] at h
      cases h
    · rw [he] at h
      obtain ⟨t, ht, rfl⟩ := pushed_ok (p := [d]) h
      obtain ⟨hj, hnul⟩ := ih ht
      have hq : q <:+ c :: e :: q := ⟨[c, e], rfl⟩
      refine ⟨hj.trans hq, fun hfree => ?_⟩
      have he0 : e ≠ 0 := fun h0 => hfree.1 (by simp [h0])
      simpa using ⟨(escaped_ne_zero he0 he).symm, hnul (hfree.suffix hq)⟩
  | case10 c q _ _ _ _ ih =>
    intro s j h
    obtain ⟨t, ht, rfl⟩ := pushed_ok (p := [c]) h
    obtain ⟨hj, hnul⟩ := ih ht
    have hq : q <:+ c :: q := List.suffix_cons c q
    refine ⟨hj.trans hq, fun hfree => ?_⟩
    have hc : c ≠ 0 := fun h0 => hfree.1 (by simp [h0])
    simpa using ⟨hc.symm, hnul (hfree.suffix hq)⟩

/-! ### Strings and tokens -/

theorem meets_accept {token : Bytes} (ht : token ≠ []) (i : Bytes) :
    Meets (accept token) i fun b j => if b then j.length < i.length else j = i := by
  unfold Meets accept
  cases h : token.isPrefixOf? (i.dropWhile isspace) with
  | none => exact ⟨List.suffix_refl i, rfl⟩
  | some j =>
    rw [List.isPrefixOf?_eq_some_iff_append_eq] at h
    have hd : i.dropWhile isspace <:+ i := List.dropWhile_suffix _
    have hj : j <:+ i.dropWhile isspace := ⟨token, h⟩
    refine ⟨hj.trans hd, ?_⟩
    have hlen := congrArg List.length h
    rw [List.length_append] at hlen
    have := List.length_pos_of_ne_nil ht
    have := hd.length_le
    simp only [if_true]
    omega

section rules
variable {α : Type} {i : Bytes} {Q : α → Bytes → Prop}

/-- Behind an accepted token there is less text; otherwise nothing has moved. -/
theorem meets_ite_accept {token : Bytes} {p q : JParse α} (ht : token ≠ [])
    (hp : ∀ j, j <:+ i → j.length < i.length → Meets p j Q) (hq : Meets q i Q) :
    Meets (do if ← accept token then p else q) i Q := by
  refine (meets_accept ht i).bind fun b j hj hb => ?_
  cases b with
  | true => exact hp j hj hb
  | false =>
    have hji : j = i := hb
    exact hji ▸ hq

theorem meets_ite_peek {token : Bytes} {p q : JParse α} (hp : Meets p i Q) (hq : Meets q i Q) :
    Meets (do if ← peek token then p else q) i Q := by
  have h : Meets (peek token) i fun _ j => j = i := ⟨List.suffix_refl i, rfl⟩
  refine h.bind fun b j _ hj => ?_
  subst hj
  cases b with
  | true => exact hp
  | false => exact hq

/-- What follows an expected token starts further on. -/
theorem meets_expect {token : Bytes} {msg : String} {p : JParse α} (ht : token ≠ [])
    (hp : ∀ j, j <:+ i → j.length < i.length → Meets p j Q) :
    Meets (do expect token msg; p) i Q :=
  Meets.bind (Q := fun _ j => j.length < i.length)
    (meets_ite_accept ht (fun _ _ hj => meets_pure hj) meets_fail) fun _ j hj hlt => hp j hj hlt

end rules

theorem meets_chars (ts : Bytes) (as : Option Bytes) (i : Bytes) :
    Meets (chars ts as) i fun s _ => NulFree i → 0 ∉ s := by
  unfold Meets chars
  rcases h : charsLoop ts as i with msg | ⟨s, j⟩
  · exact List.suffix_refl i
  · exact charsLoop_spec ts as h

theorem meets_quotedString (i : Bytes) :
    Meets quotedString i fun s j => j.length < i.length ∧ (NulFree i → 0 ∉ s) := by
  have hquote : ∀ (token : Bytes) (msg : String) (j : Bytes), token ≠ [] → j <:+ i →
      Meets (do let s ← chars token none; expect token msg; return s) j
        fun s k => k.length < i.length ∧ (NulFree i → 0 ∉ s) := by
    intro token msg j ht hj
    refine (meets_chars token none j).bind fun s k hk hs => ?_
    refine meets_expect ht fun l _ hl => meets_pure ⟨?_, fun hi => hs (hi.suffix hj)⟩
    have := hk.length_le
    have := hj.length_le
    omega
  refine meets_ite_accept (by decide) (fun j hj _ => hquote _ _ j (by decide) hj) ?_
  exact meets_ite_accept (by decide) (fun j hj _ => hquote _ _ j (by decide) hj) meets_fail

theorem meets_field (i : Bytes) : Meets field i fun s _ => NulFree i → 0 ∉ s := by
  have hq := (meets_quotedString i).mono fun _ _ _ h => h.2
  refine meets_ite_peek hq (meets_ite_peek hq ?_)
  have hd : i.dropWhile isspace <:+ i := List.dropWhile_suffix _
  cases h : i.dropWhile isspace with
  | nil =>
    have hu : unquoted i = .fail (ascii "Field name expected") [] := by rw [unquoted, h]
    exact meets_fail.of_eq hu List.nil_suffix
  | cons c j =>
    rw [h] at hd
    by_cases hc : matchSet c (ALPHA ++ ascii "_$")
    · have hu : unquoted i = chars [] (some (ALPHA ++ DIGIT ++ ascii "_$")) (c :: j) := by
        rw [unquoted, h]
        exact if_pos hc
      exact ((meets_chars _ _ _).mono fun s _ _ hs hi => hs (hi.suffix hd)).of_eq hu hd
    · have hu : unquoted i =
          .fail (ascii "First character in field must be [A-Za-z$_]") (c :: j) := by
        rw [unquoted, h]
        exact if_neg hc
      exact meets_fail.of_eq hu hd

theorem meets_expectField {α : Type} {i : Bytes} {Q : α → Bytes → Prop} {name msg : String}
    {p : JParse α} (hp : ∀ j, j <:+ i → Meets p j Q) :
    Meets (do expectField name msg; p) i Q := by
  have hf : Meets (acceptField (ascii name)) i fun _ _ => True :=
    (meets_field i).attempt.bind fun _ _ _ _ => meets_pure trivial
  refine Meets.bind (Q := fun _ _ => True) (hf.bind fun b j _ _ => ?_) fun _ j hj _ => hp j hj
  cases b with
  | true => exact meets_pure trivial
  | false => exact meets_fail

/-! ### Values without parts -/

theorem length_lt_of_suffix {i j : Bytes} (h : j <:+ i) (hne : j ≠ i) : j.length < i.length :=
  h.length_le.lt_of_ne fun he => hne (h.eq_of_length he)

theorem meets_number (rt : Runtime) (i : Bytes) :
    Meets (number rt) i fun v j => j.length < i.length ∧ v.Valid := by
  have hs := strtod_suffix rt i
  unfold Meets number
  dsimp only
  split_ifs with h1
  · exact List.suffix_refl i
  · exact List.suffix_refl i
  · exact List.nil_suffix
  all_goals exact ⟨hs, length_lt_of_suffix hs h1, trivial⟩

theorem meets_millis (i : Bytes) : Meets millis i fun _ _ => True := by
  unfold Meets millis
  dsimp only
  split_ifs
  · exact List.suffix_refl i
  · exact List.suffix_refl i
  · exact ⟨strtoull_suffix i, trivial⟩
  · exact ⟨strtoll_suffix i, trivial⟩

theorem meets_half (negative overflow expecting : String) (i : Bytes) :
    Meets (half negative overflow expecting) i fun _ _ => True := by
  refine meets_ite_accept (by decide) (fun _ _ _ => meets_fail) ?_
  unfold Meets
  dsimp only
  split_ifs
  · exact List.suffix_refl i
  · exact List.suffix_refl i
  · exact ⟨strtoull_suffix i, trivial⟩

theorem meets_oid (id i : Bytes) : Meets (oid id) i fun v _ => v.Valid := by
  unfold oid
  split_ifs
  · exact meets_pure trivial
  · exact meets_fail
  · exact meets_fail

theorem meets_objectIdObject (i : Bytes) : Meets objectIdObject i fun v _ => v.Valid :=
  meets_expect (by decide) fun j _ _ => (meets_quotedString j).bind fun id k _ _ => meets_oid id k

theorem meets_binaryObject (i : Bytes) : Meets binaryObject i fun v _ => v.Valid := by
  refine meets_expect (by decide) fun j _ _ => (meets_quotedString j).bind fun data k _ _ => ?_
  split_ifs
  · exact meets_fail
  · exact meets_fail
  · refine meets_expect (by decide) fun l _ _ => meets_expectField fun m _ => ?_
    refine meets_expect (by decide) fun n _ _ => (meets_quotedString n).bind fun t o _ _ => ?_
    split
    · split_ifs
      · exact meets_pure trivial
      · exact meets_fail
    · exact meets_fail

theorem meets_dateObject (i : Bytes) : Meets dateObject i fun v _ => v.Valid :=
  meets_expect (by decide) fun j _ _ => (meets_millis j).bind fun _ _ _ _ => meets_pure trivial

theorem meets_timestampObject (i : Bytes) : Meets timestampObject i fun v _ => v.Valid := by
  refine meets_expect (by decide) fun _ _ _ => meets_expect (by decide) fun _ _ _ => ?_
  refine meets_expectField fun _ _ => meets_expect (by decide) fun j _ _ => ?_
  refine (meets_half _ _ _ j).bind fun _ _ _ _ => meets_expect (by decide) fun _ _ _ => ?_
  refine meets_expectField fun _ _ => meets_expect (by decide) fun k _ _ => ?_
  refine (meets_half _ _ _ k).bind fun _ _ _ _ => meets_expect (by decide) fun _ _ _ => ?_
  exact meets_pure trivial

theorem meets_undefinedObject (i : Bytes) : Meets undefinedObject i fun v _ => v.Valid :=
  meets_expect (by decide) fun _ _ _ => meets_expect (by decide) fun _ _ _ => meets_pure trivial

theorem meets_date (i : Bytes) : Meets date i fun v _ => v.Valid :=
  meets_expect (by decide) fun j _ _ => (meets_millis j).bind fun _ _ _ _ =>
    meets_expect (by decide) fun _ _ _ => meets_pure trivial

theorem meets_constructor (i : Bytes) :
    Meets Parse.constructor i fun v _ => ∀ w, v = some w → w.Valid :=
  meets_ite_accept (by decide) (fun j _ _ => (meets_date j).attempt) meets_fail

theorem meets_timestamp (i : Bytes) : Meets timestamp i fun v _ => v.Valid := by
  refine meets_expect (by decide) fun j _ _ => (meets_half _ _ _ j).bind fun _ _ _ _ => ?_
  refine meets_expect (by decide) fun k _ _ => (meets_half _ _ _ k).bind fun _ _ _ _ => ?_
  exact meets_expect (by decide) fun _ _ _ => meets_pure trivial

theorem meets_objectId (i : Bytes) : Meets objectId i fun v _ => v.Valid :=
  meets_expect (by decide) fun j _ _ => (meets_quotedString j).bind fun id _ _ _ =>
    meets_expect (by decide) fun k _ _ => meets_oid id k

end PgBson.Json.Runs
