import PgBson.Json.Grammar

/-! # What the parser reads

Every method of the parser that ends with a result has read a text with a tree for it, and an object
that starts with a reserved field name as a special object (`ensures_value`, `ensures_object`). -/

namespace PgBson.Json.Reading

open PgBson.Lib.Memory PgBson.Lib.Binary64 PgBson.Lib.Decimal PgBson.Lib.Strtod PgBson.Lib.Parsing
open PgBson.Bson.Types PgBson.Bson.Document
open PgBson.Json.Encoding PgBson.Json.Parse PgBson.Json.Restore PgBson.Json.Runs PgBson.Json.Grammar
open PgBson.Bson.Element (done eq_of_done obj size_of_obj)

/-! ### Tokens -/

theorem accept_cases (token i : Bytes) :
    (∃ j, Token token i j ∧ accept token i = .ok true j) ∨
      (∀ j, ¬ Token token i j) ∧ accept token i = .ok false i := by
  unfold accept
  cases h : token.isPrefixOf? (i.dropWhile isspace) with
  | some j =>
    rw [List.isPrefixOf?_eq_some_iff_append_eq] at h
    exact Or.inl ⟨j, h.symm, rfl⟩
  | none =>
    refine Or.inr ⟨fun j hj => ?_, rfl⟩
    rw [List.isPrefixOf?_eq_some_iff_append_eq.mpr hj.symm] at h
    cases h

theorem accept_of_token {token i j : Bytes} (h : Token token i j) :
    accept token i = .ok true j := by
  unfold accept
  rw [List.isPrefixOf?_eq_some_iff_append_eq.mpr h.symm]

section rules
variable {α : Type} {i : Bytes} {Q : α → Bytes → Prop}

theorem ensures_ite_accept {token : Bytes} {p q : JParse α}
    (hp : ∀ j, Token token i j → Ensures p j Q)
    (hq : (∀ j, ¬ Token token i j) → Ensures q i Q) :
    Ensures (do if ← accept token then p else q) i Q := by
  intro a k h
  rcases accept_cases token i with ⟨j, hj, ha⟩ | ⟨hno, ha⟩
  · rw [ok_bind ha] at h
    exact hp j hj a k h
  · rw [ok_bind ha] at h
    exact hq hno a k h

theorem ensures_ite_peek {token : Bytes} {p q : JParse α}
    (hp : ∀ j, Token token i j → Ensures p i Q) (hq : Ensures q i Q) :
    Ensures (do if ← peek token then p else q) i Q := by
  intro a k h
  have hb : peek token i = .ok (token.isPrefixOf? (i.dropWhile isspace)).isSome i := rfl
  rw [ok_bind hb] at h
  cases hj : token.isPrefixOf? (i.dropWhile isspace) with
  | some j =>
    rw [hj] at h
    exact hp j (List.isPrefixOf?_eq_some_iff_append_eq.mp hj).symm a k h
  | none =>
    rw [hj] at h
    exact hq a k h

theorem ensures_expect {token : Bytes} {msg : String} {p : JParse α}
    (hp : ∀ j, Token token i j → Ensures p j Q) : Ensures (do expect token msg; p) i Q :=
  Ensures.bind (Q := fun _ j => Token token i j)
    (ensures_ite_accept (fun _ hj => ensures_pure hj) fun _ => ensures_fail) fun _ j hj => hp j hj

end rules

/-! ### Strings -/

theorem mem_of_matchSet {c : UInt8} {set : Bytes} (h : matchSet c set = true) (h0 : c ≠ 0) :
    c ∈ set := by
  simpa [h0] using (Bool.and_eq_true _ _ |>.mp h).2

/-- Which escapes of one letter there are, and what they denote. -/
theorem escaped_eq_ok {c d : UInt8} :
    escaped c = .ok d ↔ c ≠ 120 ∧ ¬ (48 ≤ c ∧ c ≤ 55) ∧ d = unescaped c := by
  have hopt : ∀ c, (escaped c).toOption =
      if c ≠ 120 ∧ ¬ (48 ≤ c ∧ c ≤ 55) then some (unescaped c) else none :=
    forall_byte (by decide +kernel)
  have h : escaped c = .ok d ↔ (escaped c).toOption = some d := by
    cases escaped c <;> simp [Except.toOption]
  rw [h, hopt, Option.ite_none_right_eq_some, Option.some.injEq, and_assoc, eq_comm]

/-- The characters of a string up to its end. -/
theorem charsLoop_chars (q : UInt8) : ∀ {i t j : Bytes}, charsLoop [q] none i = .ok (t, j) →
    ∃ s c k, i = written s ++ c :: k ∧ j = c :: k ∧ denoted s = t ∧ (∀ x ∈ s, x.Allowed q) ∧
      (c = 0 ∨ c = q) := by
  -- One more character in front of those that follow.
  have hcons : ∀ {i t j : Bytes} (x : StringChar), x.Allowed q →
      (∃ s c k, i = written s ++ c :: k ∧ j = c :: k ∧ denoted s = t ∧ (∀ x ∈ s, x.Allowed q) ∧
        (c = 0 ∨ c = q)) →
      ∃ s c k, x.text ++ i = written s ++ c :: k ∧ j = c :: k ∧ denoted s = x.denoted ++ t ∧
        (∀ x ∈ s, x.Allowed q) ∧ (c = 0 ∨ c = q) := by
    rintro i t j x hx ⟨s, c, k, rfl, hj, rfl, hs, hc⟩
    exact ⟨x :: s, c, k, by simp, hj, by simp, List.forall_mem_cons.mpr ⟨hx, hs⟩, hc⟩
  intro i
  fun_induction charsLoop [q] none i with
  | case1 | case4 | case5 | case7 | case8 => simp
  | case2 c k hc =>
    intro t j h
    simp only [Except.ok.injEq, Prod.mk.injEq] at h
    obtain ⟨rfl, rfl⟩ := h
    exact ⟨[], c, k, rfl, rfl, rfl, by simp, by simpa [matchSet] using hc⟩
  | case3 c k _ hset => simp at hset
  | case6 c _ _ _ h0 h1 h2 h3 k hhex hc ih =>
    intro t j h
    obtain ⟨u, hu, rfl⟩ := pushed_ok h
    rw [hc.1]
    exact hcons (.unicode h0 h1 h2 h3) hhex.2 (ih hu)
  | case9 c _ _ _ e k hnot hne hc ih =>
    intro t j h
    rcases he : escaped e with msg | d
    · rw [he] at h
      cases h
    · rw [he] at h
      obtain ⟨u, hu, rfl⟩ := pushed_ok (p := [d]) h
      obtain ⟨hx, ho, rfl⟩ := escaped_eq_ok.mp he
      rw [hc.1]
      exact hcons (.escape e) ⟨hne, hx, ho⟩ (ih hu)
  | case10 c k hq _ hc hb ih =>
    intro t j h
    obtain ⟨u, hu, rfl⟩ := pushed_ok (p := [c]) h
    have hc92 : c ≠ 92 := by
      rintro rfl
      obtain ⟨s, x, l, rfl, -⟩ := ih hu
      exact hb ⟨rfl, by simp⟩
    have hcq : c ≠ q := by
      rintro rfl
      simp [matchSet] at hq
    exact hcons (.plain c) ⟨hcq, hc92, UInt8.not_le.mp hc⟩ (ih hu)

/-- The characters of a set, up to one that is not in it. -/
theorem charsLoop_allowed {set : Bytes} (h92 : 92 ∉ set) : ∀ {i t j : Bytes},
    charsLoop [] (some set) i = .ok (t, j) →
      i = t ++ j ∧ (∀ c ∈ t, c ∈ set ∧ c ≠ 0) ∧ ∀ c k, j = c :: k → matchSet c set = false := by
  have hesc : ∀ c : UInt8, c = 92 → matchSet c set = true → False := by
    rintro c rfl hc
    exact h92 (mem_of_matchSet hc (by decide))
  intro i
  fun_induction charsLoop [] (some set) i with
  | case1 | case4 | case5 | case7 | case8 => simp
  | case2 c k hc => simp [matchSet] at hc
  | case3 c k _ hset =>
    intro t j h
    simp only [Except.ok.injEq, Prod.mk.injEq] at h
    obtain ⟨rfl, rfl⟩ := h
    refine ⟨rfl, by simp, fun c' k' hk => ?_⟩
    obtain ⟨rfl, rfl⟩ := List.cons.inj hk
    simpa using hset
  | case6 c _ hset _ _ _ _ _ _ _ hc _ => exact (hesc c hc.1 (by simpa using hset)).elim
  | case9 c _ hset _ _ _ _ _ hc _ => exact (hesc c hc.1 (by simpa using hset)).elim
  | case10 c k _ hset hc hb ih =>
    intro t j h
    obtain ⟨u, hu, rfl⟩ := pushed_ok (p := [c]) h
    obtain ⟨rfl, hmem, hend⟩ := ih hu
    have hc0 : c ≠ 0 := by
      rintro rfl
      exact hc (by decide)
    refine ⟨rfl, fun x hx => ?_, hend⟩
    rcases List.mem_cons.mp hx with rfl | hx
    · exact ⟨mem_of_matchSet (by simpa using hset) hc0, hc0⟩
    · exact hmem x hx

/-- A string between two characters `q`. -/
theorem ensures_quoted {α : Type} {i : Bytes} {Q : α → Bytes → Prop} {q : UInt8} {msg : String}
    {p : Bytes → JParse α} (hsp : isspace q = false)
    (hp : ∀ s j, i = written s ++ q :: j → (∀ x ∈ s, x.Allowed q) → Ensures (p (denoted s)) j Q) :
    Ensures (do let t ← chars [q] none; expect [q] msg; p t) i Q := by
  have hchars : Ensures (chars [q] none) i fun t j => ∃ s c k, i = written s ++ c :: k ∧
      j = c :: k ∧ denoted s = t ∧ (∀ x ∈ s, x.Allowed q) ∧ (c = 0 ∨ c = q) := by
    intro t j h
    unfold chars at h
    rcases hl : charsLoop [q] none i with msg | ⟨u, k⟩
    · rw [hl] at h
      cases h
    · rw [hl] at h
      obtain ⟨rfl, rfl⟩ := Outcome.ok.inj h
      exact charsLoop_chars q hl
  refine hchars.bind fun t j ⟨s, c, k, hi, hj, ht, hs, hc⟩ => ensures_expect fun l hl => ?_
  have hspace : isspace c = false := by
    rcases hc with rfl | rfl
    · decide
    · exact hsp
  rw [Token, hj, List.dropWhile_cons_of_neg (by simp [hspace])] at hl
  obtain ⟨rfl, rfl⟩ := List.cons.inj hl
  exact ht ▸ hp s k hi hs

theorem ensures_quotedString (i : Bytes) :
    Ensures quotedString i fun t j => ∃ s, QuotedString i s j ∧ denoted s = t := by
  refine ensures_ite_accept (fun j hj => ?_) fun _ => ensures_ite_accept (fun j hj => ?_) fun _ =>
    ensures_fail
  · refine ensures_quoted (by decide) fun s k hk hs => ensures_pure ⟨s, ?_, rfl⟩
    exact ⟨34, Or.inl rfl, hk ▸ hj, hs⟩
  · refine ensures_quoted (by decide) fun s k hk hs => ensures_pure ⟨s, ?_, rfl⟩
    exact ⟨39, Or.inr rfl, hk ▸ hj, hs⟩

theorem ensures_allowed {set : Bytes} (h92 : 92 ∉ set) (i : Bytes) :
    Ensures (chars [] (some set)) i fun t j =>
      i = t ++ j ∧ (∀ c ∈ t, c ∈ set ∧ c ≠ 0) ∧ ∀ c k, j = c :: k → matchSet c set = false := by
  intro t j h
  unfold chars at h
  rcases hl : charsLoop [] (some set) i with msg | ⟨u, k⟩
  · rw [hl] at h
    cases h
  · rw [hl] at h
    obtain ⟨rfl, rfl⟩ := Outcome.ok.inj h
    exact charsLoop_allowed h92 hl

theorem matchSet_mono {c : UInt8} {s t : Bytes} (h : s ⊆ t) (hc : matchSet c s = true) :
    matchSet c t = true := by
  simp only [matchSet, ne_eq, Bool.and_eq_true, decide_eq_true_eq, Bool.or_eq_true,
    List.contains_iff_mem] at hc ⊢
  refine ⟨?_, hc.2.imp id (@h c)⟩
  rintro rfl
  exact hc.1 (List.subset_nil.mp h)

theorem fieldChars_subset : ALPHA ++ ascii "_$" ⊆ ALPHA ++ DIGIT ++ ascii "_$" :=
  List.append_subset.mpr ⟨List.subset_append_of_subset_left _ (List.subset_append_left _ _),
    List.subset_append_right _ _⟩

theorem ensures_unquoted (i : Bytes) :
    Ensures unquoted i fun t j => ∃ s, Field i s j ∧ denoted s = t := by
  intro name j h
  unfold unquoted at h
  cases hi : i.dropWhile isspace with
  | nil =>
    rw [hi] at h
    cases h
  | cons c k =>
    rw [hi] at h
    by_cases hc : matchSet c (ALPHA ++ ascii "_$") = true
    · simp only [hc, if_true] at h
      obtain ⟨hsplit, hmem, hend⟩ := ensures_allowed (by decide) _ _ _ h
      cases name with
      | nil =>
        have hstop := hend c k hsplit.symm
        rw [matchSet_mono fieldChars_subset hc] at hstop
        cases hstop
      | cons d t =>
        obtain ⟨rfl, rfl⟩ := List.cons.inj hsplit
        have hfirst : c ∈ ALPHA ++ ascii "_$" :=
          mem_of_matchSet hc (hmem c List.mem_cons_self).2
        exact ⟨_, Or.inr ⟨c, t, rfl, hi, hfirst,
          fun x hx => (hmem x (List.mem_cons_of_mem c hx)).1⟩, denoted_plain _⟩
    · simp only [hc] at h
      cases h

theorem ensures_field (i : Bytes) :
    Ensures field i fun t j => ∃ s, Field i s j ∧ denoted s = t := by
  have hq : Ensures quotedString i fun t j => ∃ s, Field i s j ∧ denoted s = t :=
    (ensures_quotedString i).mono fun _ _ ⟨s, h, hs⟩ => ⟨s, Or.inl h, hs⟩
  exact ensures_ite_peek (fun _ _ => hq) (ensures_ite_peek (fun _ _ => hq) (ensures_unquoted i))

theorem ensures_expectField {α : Type} {i : Bytes} {Q : α → Bytes → Prop} {name msg : String}
    {p : JParse α} (hp : ∀ j, Named (ascii name) i j → Ensures p j Q) :
    Ensures (do expectField name msg; p) i Q := by
  have hf : Ensures (acceptField (ascii name)) i fun b j => b = true → Named (ascii name) i j := by
    have ha : Ensures (attempt field) i fun o j => ∀ t, o = some t → Named t i j := by
      intro o j h t ht
      subst ht
      unfold attempt at h
      cases hr : field i with
      | ok t k =>
        rw [hr] at h
        obtain ⟨hts, rfl⟩ := Outcome.ok.inj h
        exact Option.some.inj hts ▸ ensures_field i t k hr
      | fail msg k | throws e | stuck =>
        rw [hr] at h
        cases h
    exact ha.bind fun o j ho => ensures_pure fun hb => ho _ (by simpa using hb)
  refine Ensures.bind (Q := fun _ j => Named (ascii name) i j) (hf.bind fun b j hb => ?_)
    fun _ j hj => hp j hj
  cases b with
  | true => exact ensures_pure (hb rfl)
  | false => exact ensures_fail

/-! ### Integers and dates -/

theorem scanInt_length_lt {i r : Bytes} {neg : Bool} {m : ℕ} (h : scanInt i = some (neg, m, r)) :
    r.length < i.length := by
  have hs : (scanSign (i.dropWhile isspace)).2 <:+ i :=
    (scanSign_suffix _).trans (List.dropWhile_suffix _)
  simp only [scanInt] at h
  split_ifs at h with hne
  simp only [Option.some.injEq, Prod.mk.injEq] at h
  have hlen := congrArg List.length
    (List.takeWhile_append_dropWhile (p := isdigit) (l := (scanSign (i.dropWhile isspace)).2))
  rw [List.length_append, h.2.2] at hlen
  have := List.length_pos_of_ne_nil hne
  have := hs.length_le
  omega

theorem token_of_scanInt {i r : Bytes} {m : ℕ} (h : scanInt i = some (true, m, r)) :
    ∃ j, Token (ascii "-") i j := by
  have hneg : (scanSign (i.dropWhile isspace)).1 = true := by
    simp only [scanInt] at h
    split_ifs at h
    simp only [Option.some.injEq, Prod.mk.injEq] at h
    exact h.1
  unfold scanSign at hneg
  split at hneg
  · next s hs => exact ⟨s, hs⟩
  · cases hneg
  · cases hneg

/-- What `strtoull` makes of an integer: a minus wraps around. -/
theorem strtoull_of_scanInt {i r : Bytes} {neg : Bool} {m : ℕ} (h : scanInt i = some (neg, m, r))
    (hm : m < 2 ^ 64) : strtoull i = ⟨.ofInt 64 (signed neg m), r, false⟩ := by
  simp only [strtoull, h]
  rw [if_neg (by omega)]
  cases neg with
  | false => simp [signed]
  | true => simp [signed, BitVec.ofInt_neg]

theorem strtoull_erange {i r : Bytes} {neg : Bool} {m : ℕ} (h : scanInt i = some (neg, m, r))
    (hm : ¬ m < 2 ^ 64) : (strtoull i).erange = true := by
  simp only [strtoull, h]
  rw [if_pos (by omega)]

/-- Any integer whose magnitude has 64 bits is taken for the milliseconds of a date. -/
theorem millis_cases (i : Bytes) :
    (∃ n j, Millis i n j ∧ millis i = .ok (.ofInt 64 n) j) ∨
      (∀ n j, ¬ Millis i n j) ∧ ∃ msg, millis i = .fail msg i := by
  unfold millis
  cases h : scanInt i with
  | none =>
    refine .inr ⟨?_, _, if_pos (by simp [strtoll, h])⟩
    rintro n j ⟨neg, m, hs, -⟩
    rw [h] at hs
    cases hs
  | some x =>
    obtain ⟨neg, m, r⟩ := x
    have hend : (strtoll i).endptr ≠ i := by
      have hr : (strtoll i).endptr = r := by
        simp only [strtoll, h]
        split_ifs <;> rfl
      rw [hr]
      rintro rfl
      exact (scanInt_length_lt h).false
    dsimp only
    rw [if_neg hend]
    by_cases hm : m < 2 ^ 64
    · refine .inl ⟨signed neg m, r, ⟨neg, m, h, hm, rfl⟩, ?_⟩
      rw [strtoull_of_scanInt h hm]
      by_cases hl : -2 ^ 63 ≤ signed neg m ∧ signed neg m < 2 ^ 63
      · rw [strtoll_of_scanInt h hl.1 hl.2]
        rfl
      · have he : (strtoll i).erange = true := by
          simp only [strtoll, h]
          split_ifs
          · rfl
          · rfl
          · omega
        rw [if_pos he]
        rfl
    · have he : (strtoll i).erange = true := by
        have hs : signed neg m = m ∨ signed neg m = -m := by cases neg <;> simp [signed]
        simp only [strtoll, h]
        split_ifs
        · rfl
        · rfl
        · omega
      refine .inr ⟨?_, _, (if_pos he).trans (if_pos (strtoull_erange h hm))⟩
      rintro n j ⟨neg', m', hs, hlt, -⟩
      rw [h, Option.some.injEq, Prod.mk.injEq, Prod.mk.injEq] at hs
      exact hm (hs.2.1 ▸ hlt)

theorem ensures_millis (i : Bytes) :
    Ensures millis i fun v j => ∃ n, Millis i n j ∧ v = .ofInt 64 n := by
  intro v j h
  rcases millis_cases i with ⟨n, k, hn, hk⟩ | ⟨-, msg, hf⟩
  · rw [hk] at h
    obtain ⟨rfl, rfl⟩ := Outcome.ok.inj h
    exact ⟨n, hn, rfl⟩
  · rw [hf] at h
    cases h

theorem setWidth_ofInt {m : ℕ} :
    (BitVec.ofInt 64 (signed false m)).setWidth 32 = BitVec.ofNat 32 m := by
  have hs : BitVec.ofInt 64 (signed false m) = BitVec.ofNat 64 m := by simp [signed]
  rw [hs, ← BitVec.toNat_inj, BitVec.toNat_setWidth, BitVec.toNat_ofNat, BitVec.toNat_ofNat,
    Nat.mod_mod_of_dvd _ (by decide)]

theorem ensures_half (negative overflow expecting : String) (i : Bytes) :
    Ensures (half negative overflow expecting) i fun v j => ∃ n, Half i n j ∧ v = .ofNat 32 n := by
  refine ensures_ite_accept (fun _ _ => ensures_fail) fun hno v j h => ?_
  dsimp only at h
  split_ifs at h with h1 h2
  obtain ⟨rfl, rfl⟩ := Outcome.ok.inj h
  cases hs : scanInt i with
  | none => exact absurd (by simp [strtoull, hs]) h2
  | some x =>
    obtain ⟨neg, m, r⟩ := x
    have hm : m < 2 ^ 64 := by
      by_contra hm
      exact h1 (strtoull_erange hs hm)
    rw [strtoull_of_scanInt hs hm]
    cases neg with
    | false => exact ⟨m, ⟨hs, hm⟩, setWidth_ofInt⟩
    | true =>
      obtain ⟨k, hk⟩ := token_of_scanInt hs
      exact absurd hk (hno k)

theorem expect_of_token {token i j : Bytes} (msg : String) (h : Token token i j) :
    expect token msg i = .ok () j := by
  rw [expect, ok_bind (accept_of_token h)]
  rfl

/-- Without the token the pointer stays. -/
theorem expect_fail {token i : Bytes} (msg : String) (h : ∀ j, ¬ Token token i j) :
    expect token msg i = .fail (ascii msg) i := by
  rcases accept_cases token i with ⟨j, hj, -⟩ | ⟨-, ha⟩
  · exact absurd hj (h j)
  · rw [expect, ok_bind ha]
    rfl

/-- A date, or where it stops. -/
theorem date_cases (i : Bytes) :
    (∃ n j, DateArgs i n j ∧ date i = .ok (.date (.ofInt 64 n)) j) ∨
      ∃ msg j, Unfinished i j ∧ date i = .fail msg j := by
  unfold date
  rcases accept_cases LPAREN i with ⟨j, hj, -⟩ | ⟨hno, -⟩
  · rw [ok_bind (expect_of_token _ hj)]
    rcases millis_cases j with ⟨n, k, hn, hk⟩ | ⟨hno, msg, hf⟩
    · rw [ok_bind hk]
      rcases accept_cases RPAREN k with ⟨l, hl, -⟩ | ⟨hno, -⟩
      · rw [ok_bind (expect_of_token _ hl)]
        exact .inl ⟨n, l, ⟨j, k, hj, hn, hl⟩, rfl⟩
      · exact .inr ⟨_, k, .rparen hj hn hno, fail_bind (expect_fail _ hno)⟩
    · exact .inr ⟨msg, j, .millis hj hno, fail_bind hf⟩
  · exact .inr ⟨_, i, .lparen hno, fail_bind (expect_fail _ hno)⟩

theorem ensures_date (i : Bytes) :
    Ensures date i fun v j => ∃ n, DateArgs i n j ∧ v = .date (.ofInt 64 n) := by
  intro v j h
  rcases date_cases i with ⟨n, k, hn, hk⟩ | ⟨msg, k, -, hf⟩
  · rw [hk] at h
    obtain ⟨rfl, rfl⟩ := Outcome.ok.inj h
    exact ⟨n, hn, rfl⟩
  · rw [hf] at h
    cases h

/-! ### Values without parts -/

/-- The value of a leaf of the text. -/
def LeafOf (rt : Runtime) (i : Bytes) (v : Option Value) (j : Bytes) : Prop :=
  ∃ t, Leaf rt i t j ∧ t.value = v

/-- `constructor` does not look at the status of `date`. -/
theorem ensures_constructor {rt : Runtime} {i j : Bytes} (hi : Token (ascii "new") i j) :
    Ensures Parse.constructor j (LeafOf rt i) := by
  refine ensures_ite_accept (fun k hk v l h => ?_) fun _ => ensures_fail
  unfold attempt at h
  rcases date_cases k with ⟨n, m, hn, hd⟩ | ⟨msg, m, hu, hd⟩
  · rw [hd] at h
    obtain ⟨rfl, rfl⟩ := Outcome.ok.inj h
    exact ⟨_, .constructor hi hk hn, rfl⟩
  · rw [hd] at h
    obtain ⟨rfl, rfl⟩ := Outcome.ok.inj h
    exact ⟨_, .lost hi hk hu, rfl⟩

section leaves
variable {rt : Runtime} {i j : Bytes}

theorem ensures_timestamp (hi : Token (ascii "Timestamp") i j) :
    Ensures timestamp j fun v k => LeafOf rt i (some v) k := by
  refine ensures_expect fun k hk => (ensures_half _ _ _ k).bind ?_
  rintro _ l ⟨seconds, hs, rfl⟩
  refine ensures_expect fun m hm => (ensures_half _ _ _ m).bind ?_
  rintro _ n ⟨count, hc, rfl⟩
  exact ensures_expect fun o ho => ensures_pure ⟨_, .timestamp hi hk hs hm hc ho, rfl⟩

theorem ensures_oid (s i : Bytes) :
    Ensures (oid s) i fun v j => j = i ∧ ∃ id, HexId s id ∧ v = .jstOID id := by
  unfold oid
  split_ifs with h1 h2
  · exact ensures_pure ⟨rfl, _, ⟨h1, h2, rfl⟩, rfl⟩
  · exact ensures_fail
  · exact ensures_fail

theorem ensures_objectId (hi : Token (ascii "ObjectId") i j) :
    Ensures objectId j fun v k => LeafOf rt i (some v) k := by
  refine ensures_expect fun k hk => (ensures_quotedString k).bind ?_
  rintro _ l ⟨s, hs, rfl⟩
  refine ensures_expect fun m hm => (ensures_oid _ m).mono ?_
  rintro v n ⟨rfl, id, hid, rfl⟩
  exact ⟨_, .objectId hi hk hs hm hid, rfl⟩

theorem ensures_regexOptCheck (opt i : Bytes) : Ensures (regexOptCheck opt) i fun _ j =>
    j = i ∧ ∀ c ∈ opt, matchSet c JOPTIONS = true := by
  unfold regexOptCheck
  cases h : opt.find? fun c => !matchSet c JOPTIONS with
  | none =>
    refine ensures_pure ⟨rfl, fun c hc => ?_⟩
    simpa using List.find?_eq_none.mp h c hc
  | some c => exact ensures_fail

theorem ensures_regex (i : Bytes) : Ensures regex i fun v k => LeafOf rt i (some v) k := by
  refine ensures_expect fun j hj => ?_
  refine ensures_quoted (by decide) fun pat k hk hp => ?_
  refine (ensures_allowed (by decide) k).bind fun opt l ⟨hl, hopt, _⟩ => ?_
  refine (ensures_regexOptCheck opt l).bind fun _ m ⟨hm, _⟩ => ensures_pure ?_
  subst hm hl hk
  exact ⟨_, .regex hj hp fun c hc => (hopt c hc).1, by simp [ParseTree.value]⟩

end leaves

/-! ### Special objects -/

/-- The value of the body of a special object. -/
def BodyOf (name : SpecialName) (i : Bytes) (v : Value) (j : Bytes) : Prop :=
  ∃ k t, Token COLON i k ∧ Body name k t j ∧ t.value = some v

section special
variable (i : Bytes)

theorem ensures_objectIdObject : Ensures objectIdObject i (BodyOf .oid i) := by
  refine ensures_expect fun k hk => (ensures_quotedString k).bind ?_
  rintro _ l ⟨s, hs, rfl⟩
  refine (ensures_oid _ l).mono ?_
  rintro v n ⟨rfl, id, hid, rfl⟩
  exact ⟨k, _, hk, .oid hs hid, rfl⟩

theorem ensures_binaryObject : Ensures binaryObject i (BodyOf .binary i) := by
  refine ensures_expect fun k hk => (ensures_quotedString k).bind ?_
  rintro _ l ⟨data, hs, rfl⟩
  split_ifs with h1 h2
  · exact ensures_fail
  · exact ensures_fail
  · have hb : (denoted data).length % 4 = 0 ∧ isBase64String (denoted data) = true :=
      ⟨not_not.mp h1, by simpa using h2⟩
    refine ensures_expect fun m hm => ensures_expectField fun n hn => ?_
    refine ensures_expect fun o ho => (ensures_quotedString o).bind ?_
    rintro t p ⟨type, ht, hd⟩
    split
    · rename_i c0 c1
      split_ifs with hx
      · exact ensures_pure ⟨k, _, hk, .binary hs hb hm hn ho ht hd hx, rfl⟩
      · exact ensures_fail
    · exact ensures_fail

theorem ensures_dateObject : Ensures dateObject i (BodyOf .date i) := by
  refine ensures_expect fun k hk => (ensures_millis k).bind ?_
  rintro _ l ⟨n, hn, rfl⟩
  exact ensures_pure ⟨k, _, hk, .date hn, rfl⟩

theorem ensures_timestampObject : Ensures timestampObject i (BodyOf .timestamp i) := by
  refine ensures_expect fun k hk => ensures_expect fun l hl => ensures_expectField fun m hm => ?_
  refine ensures_expect fun n hn => (ensures_half _ _ _ n).bind ?_
  rintro _ o ⟨seconds, hs, rfl⟩
  refine ensures_expect fun p hp => ensures_expectField fun q hq => ensures_expect fun r hr => ?_
  refine (ensures_half _ _ _ r).bind ?_
  rintro _ t ⟨count, hc, rfl⟩
  refine ensures_expect fun u hu => ensures_pure ?_
  exact ⟨k, _, hk, .timestamp hl hm hn hs hp hq hr hc hu, rfl⟩

theorem ensures_regexObject : Ensures regexObject i (BodyOf .regex i) := by
  refine ensures_expect fun k hk => (ensures_quotedString k).bind ?_
  rintro _ l ⟨pat, hp, rfl⟩
  refine ensures_ite_accept (fun m hm => ensures_expectField fun n hn => ?_)
    fun _ => ensures_pure ⟨k, _, hk, .regex hp, rfl⟩
  refine ensures_expect fun o ho => (ensures_quotedString o).bind ?_
  rintro _ p ⟨opt, hopt, rfl⟩
  refine (ensures_regexOptCheck _ p).bind fun _ q ⟨hq, hall⟩ => ensures_pure ?_
  subst hq
  refine ⟨k, _, hk, .regexOptions hp hm hn ho hopt fun c hc => ?_, rfl⟩
  by_cases h0 : c = 0
  · exact Or.inr h0
  · exact Or.inl (mem_of_matchSet (hall c hc) h0)

theorem ensures_undefinedObject : Ensures undefinedObject i (BodyOf .undefined i) :=
  ensures_expect fun k hk => ensures_expect fun _ hl =>
    ensures_pure ⟨k, _, hk, .undefined hl, rfl⟩

end special

/-! ### Objects, arrays and values -/

/-- The value of a part of the text in which the reserved names are resolved. -/
def TreeOf (rt : Runtime) (node : ParseTree → Node) (i : Bytes) (v : Option Value) (j : Bytes) :
    Prop :=
  ∃ t, Reads rt i (node t) j ∧ t.value = v ∧ t.Resolved

theorem ensures_refObject {ns i : Bytes} {id : Option Value} :
    Ensures (refObject ns id) i fun v j => j = i ∧ v = .object (refDoc ns id) := by
  refine (ensures_lift (Q := fun d j => j = i ∧ d = refDoc ns id) fun d h => ?_).bind ?_
  · exact ⟨rfl, eq_of_done h⟩
  · rintro d j ⟨rfl, rfl⟩
    exact ensures_pure ⟨rfl, rfl⟩

section containers
variable {rt : Runtime} {value : JParse (Option Value)}
  (hvalue : ∀ i, Ensures value i (TreeOf rt .value i))
include hvalue

/-- A reference is read as the two pairs it has. -/
theorem ensures_dbRefObject {h i j : Bytes} (hl : Token LBRACE h i)
    (hf : Named (ascii "$ref") i j) : Ensures (dbRefObject value) j fun v k =>
      ∀ l, Token RBRACE k l → TreeOf rt .object h (some v) l := by
  obtain ⟨name, hf, hname⟩ := hf
  refine ensures_expect fun k hk => (ensures_quotedString k).bind ?_
  rintro _ l ⟨ns, hns, rfl⟩
  refine ensures_expect fun m hm => ensures_expectField ?_
  rintro n ⟨name', hn, hname'⟩
  refine ensures_expect fun o ho => (hvalue o).bind ?_
  rintro _ p ⟨id, hid, rfl, hres⟩
  refine ensures_refObject.mono ?_
  rintro v q ⟨rfl, rfl⟩ r hr
  refine ⟨_, .braces hl (.pairs hf hk (.leaf (.string hns)) hm (.pair hn ho hid)) hr, ?_, ?_⟩
  · simp only [ParseTree.value, Members.doc, hname, hname']
    rfl
  · exact ⟨.inr ⟨hname, hname'⟩, trivial, hres, trivial⟩

theorem ensures_dbRef {i j : Bytes} (documented : Bool)
    (hi : Token (if documented then ascii "Dbref" else ascii "DBRef") i j) :
    Ensures (dbRef value) j fun v k => TreeOf rt .value i (some v) k := by
  refine ensures_expect fun k hk => (ensures_quotedString k).bind ?_
  rintro _ l ⟨ns, hns, rfl⟩
  refine ensures_expect fun m hm => (hvalue m).bind ?_
  rintro _ n ⟨id, hid, rfl, hres⟩
  refine ensures_expect fun o ho => ensures_refObject.mono ?_
  rintro v p ⟨rfl, rfl⟩
  exact ⟨_, .dbRef hi hk hns hm hid ho, rfl, hres⟩

omit hvalue in
/-- A pair and those that follow it. -/
theorem reads_members {i j k l o : Bytes} {name : Spelling} {t : ParseTree} {ms : Members}
    (hf : Field i name j) (hc : Token COLON j k) (hv : Reads rt k (.value t) l)
    (hd : ms = .nil ∧ o = l ∨ ∃ m, Token COMMA l m ∧ Reads rt m (.members ms) o) :
    Reads rt i (.members (.cons name t ms)) o := by
  rcases hd with ⟨rfl, rfl⟩ | ⟨m, hm, hd⟩
  · exact .pair hf hc hv
  · exact .pairs hf hc hv hm hd

/-- The loop over the pairs. -/
theorem ensures_pairs : ∀ (fuel : ℕ) (i : Bytes), Ensures (pairs value fuel) i fun d j =>
    ∃ ms, (ms = .nil ∧ j = i ∨ ∃ k, Token COMMA i k ∧ Reads rt k (.members ms) j) ∧
      ms.doc = d ∧ ms.Resolved
  | 0, _ => ensures_stuck
  | fuel + 1, i => by
    refine ensures_ite_accept (fun k hk => ?_) fun _ =>
      ensures_pure ⟨.nil, Or.inl ⟨rfl, rfl⟩, rfl, trivial⟩
    refine (ensures_field k).bind ?_
    rintro _ l ⟨name, hl, rfl⟩
    refine ensures_expect fun m hm => (hvalue m).bind ?_
    rintro _ n ⟨t, hv, rfl, hres⟩
    refine (ensures_pairs fuel n).bind ?_
    rintro _ o ⟨ms, hd, rfl, hres'⟩
    exact ensures_pure ⟨_, Or.inr ⟨k, hk, reads_members hl hm hv hd⟩, rfl, hres, hres'⟩

theorem ensures_special {name h i j : Bytes} {p : JParse Value} (hl : Token LBRACE h i)
    (hf : Named name i j) (hp : special value name = some p) :
    Ensures p j fun v k => ∀ l, Token RBRACE k l → TreeOf rt .object h (some v) l := by
  have hspecial : ∀ {p : JParse Value} (sn : SpecialName), sn.name = name →
      Ensures p j (BodyOf sn j) →
      Ensures p j fun v k => ∀ l, Token RBRACE k l → TreeOf rt .object h (some v) l := by
    rintro p sn rfl hp
    refine hp.mono ?_
    rintro v k ⟨m, t, hc, ht, hv⟩ l hr
    exact ⟨t, .special hl hf hc ht hr, hv, ht.resolved⟩
  unfold special at hp
  split_ifs at hp with h1 h2 h3 h4 h5 h6 h7 <;> injection hp with hp <;> subst hp
  · exact hspecial .oid h1.symm (ensures_objectIdObject j)
  · exact hspecial .binary h2.symm (ensures_binaryObject j)
  · exact hspecial .date h3.symm (ensures_dateObject j)
  · exact hspecial .timestamp h4.symm (ensures_timestampObject j)
  · exact hspecial .regex h5.symm (ensures_regexObject j)
  · exact ensures_dbRefObject hvalue hl (h6 ▸ hf)
  · exact hspecial .undefined h7.symm (ensures_undefinedObject j)

omit hvalue in
theorem notMem_reserved {name : Bytes} (h : special value name = none) : name ∉ reserved := by
  unfold special at h
  split_ifs at h
  simp_all [reserved]

/-- An object; the base object has pairs, and its first name is not reserved. -/
theorem ensures_object (fuel : ℕ) (subObject : Bool) (i : Bytes) :
    Ensures (object value fuel subObject) i fun v j => TreeOf rt .object i (some v) j ∧
      (subObject = false → ∃ ms, Base rt i ms j ∧ v = .object ms.doc) := by
  refine ensures_expect fun j hj => ensures_ite_accept (fun k hk => ensures_pure ?_) fun _ => ?_
  · have hr : Reads rt i (.object (.object .nil)) k := .emptyObject hj hk
    exact ⟨⟨_, hr, rfl, .inl trivial, trivial⟩, fun _ => ⟨.nil, ⟨hr, trivial, trivial⟩, rfl⟩⟩
  refine (ensures_field j).bind ?_
  rintro _ k ⟨name, hk, rfl⟩
  cases hsp : special value (denoted name) with
  | some p =>
    cases subObject with
    | false => exact ensures_fail
    | true =>
      refine (ensures_special hvalue hj ⟨name, hk, rfl⟩ hsp).bind fun v l hv => ?_
      exact ensures_expect fun m hm => ensures_pure ⟨hv m hm, by simp⟩
  | none =>
    refine ensures_expect fun l hl => (hvalue l).bind ?_
    rintro _ m ⟨t, hv, rfl, hres⟩
    refine (ensures_pairs hvalue fuel m).bind ?_
    rintro _ n ⟨ms, hd, rfl, hres'⟩
    refine ensures_expect fun o ho => ensures_pure ?_
    have hu : (Members.cons name t ms).Unreserved := notMem_reserved hsp
    have hr : Reads rt i (.object (.object (.cons name t ms))) o :=
      .braces hj (reads_members hk hl hv hd) ho
    exact ⟨⟨_, hr, rfl, .inl hu, hres, hres'⟩, fun _ => ⟨_, ⟨hr, hu, hres, hres'⟩, rfl⟩⟩

/-- The loop over the elements of an array. -/
theorem ensures_elements : ∀ (fuel index : ℕ) (i : Bytes), Ensures (elements value fuel index) i
    fun d j => ∃ es, Reads rt i (.elements index es) j ∧ es.doc = d ∧ es.Resolved
  | 0, _, _ => ensures_stuck
  | fuel + 1, index, i => by
    refine (hvalue i).bind ?_
    rintro _ j ⟨t, hv, rfl, hres⟩
    refine ensures_ite_accept (fun k hk => ?_) fun _ =>
      ensures_pure ⟨_, .element hv, by simp [Members.doc], hres, trivial⟩
    refine (ensures_elements fuel (index + 1) k).bind ?_
    rintro _ l ⟨es, hd, rfl, hres'⟩
    exact ensures_pure ⟨_, .elements hv hk hd, by simp [Members.doc], hres, hres'⟩

theorem ensures_array (fuel : ℕ) (i : Bytes) :
    Ensures (array value fuel) i fun v j => TreeOf rt .value i (some v) j := by
  have hend : ∀ (es : Members) {j : Bytes}, es.Resolved →
      (∀ k, Token RBRACKET j k → Reads rt i (.value (.array es)) k) →
      Ensures (do
        let d ← lift (done es.doc)
        expect RBRACKET "Expecting ']' or ','"
        return .array d) j fun v k => TreeOf rt .value i (some v) k := by
    intro es j hres hd
    refine (ensures_lift (Q := fun d' k => k = j ∧ d' = es.doc) fun d' h => ?_).bind ?_
    · exact ⟨rfl, eq_of_done h⟩
    · rintro d' k ⟨rfl, rfl⟩
      exact ensures_expect fun l hl => ensures_pure ⟨_, hd l hl, rfl, hres⟩
  refine ensures_expect fun j hj => ensures_ite_peek (fun _ _ => ?_) ?_
  · exact hend .nil trivial fun k hk => .emptyArray hj hk
  · refine (ensures_elements hvalue fuel 0 j).bind ?_
    rintro _ k ⟨es, hd, rfl, hres⟩
    exact hend es hres fun l hl => .array hj hd hl

end containers

theorem ensures_some {rt : Runtime} {p : JParse Value} {i j : Bytes}
    (h : Ensures p j fun v k => TreeOf rt .value i (some v) k) :
    Ensures (do return some (← p)) j (TreeOf rt .value i) :=
  h.bind fun _ _ hv => ensures_pure hv

theorem LeafOf.treeOf {rt : Runtime} {i j : Bytes} {v : Option Value} (h : LeafOf rt i v j) :
    TreeOf rt .value i v j := by
  obtain ⟨t, ht, hv⟩ := h
  exact ⟨t, .leaf ht, hv, ht.resolved⟩

/-- **What `value` appends is denoted by the text it has read.** -/
theorem ensures_value (rt : Runtime) : ∀ (fuel : ℕ) (i : Bytes),
    Ensures (value rt fuel) i (TreeOf rt .value i)
  | 0, _ => ensures_stuck
  | fuel + 1, i => by
    have ih := ensures_value rt fuel
    have hleaf : ∀ {p : JParse Value} {j : Bytes}, Ensures p j (fun v k => LeafOf rt i (some v) k) →
        Ensures (do return some (← p)) j (TreeOf rt .value i) :=
      fun hp => ensures_some (hp.mono fun _ _ h => h.treeOf)
    have hstring : Ensures (do return some (.string ((← quotedString) ++ [0]))) i
        (TreeOf rt .value i) := by
      refine (ensures_quotedString i).bind ?_
      rintro _ j ⟨s, hs, rfl⟩
      exact ensures_pure ⟨_, .leaf (.string hs), rfl, trivial⟩
    have hword : ∀ {w : Bytes} {v : Value} {j : Bytes}, (w, v) ∈ words → Token w i j →
        Ensures (pure (some v) : JParse (Option Value)) j (TreeOf rt .value i) :=
      fun hw hj => ensures_pure ⟨_, .leaf (.word hw hj), rfl, trivial⟩
    refine ensures_ite_peek (fun _ _ => ensures_some
      ((ensures_object ih fuel true i).mono fun _ _ ⟨⟨t, ht, hv⟩, _⟩ => ⟨t, .object ht, hv⟩)) ?_
    refine ensures_ite_peek (fun _ _ => ensures_some (ensures_array ih fuel i)) ?_
    refine ensures_ite_accept
      (fun j hj => (ensures_constructor hj).mono fun _ _ h => h.treeOf) fun _ => ?_
    refine ensures_ite_accept (fun j hj => hleaf ((ensures_date j).mono ?_)) fun _ => ?_
    · rintro v k ⟨n, hn, rfl⟩
      exact ⟨_, .date hj hn, rfl⟩
    refine ensures_ite_accept (fun j hj => hleaf (ensures_timestamp hj)) fun _ => ?_
    refine ensures_ite_accept (fun j hj => hleaf (ensures_objectId hj)) fun _ => ?_
    refine ensures_ite_accept
      (fun j hj => ensures_some (ensures_dbRef ih true hj)) fun _ => ?_
    refine ensures_ite_accept
      (fun j hj => ensures_some (ensures_dbRef ih false hj)) fun _ => ?_
    refine ensures_ite_peek (fun _ _ => hleaf (ensures_regex i)) ?_
    refine ensures_ite_peek (fun _ _ => hstring) (ensures_ite_peek (fun _ _ => hstring) ?_)
    refine ensures_ite_accept (fun j hj => hword (by simp [words]) hj) fun h1 => ?_
    refine ensures_ite_accept (fun j hj => hword (by simp [words]) hj) fun h2 => ?_
    refine ensures_ite_accept (fun j hj => hword (by simp [words]) hj) fun h3 => ?_
    refine ensures_ite_accept (fun j hj => hword (by simp [words]) hj) fun h4 => ?_
    refine ensures_ite_accept (fun j hj => hword (by simp [words]) hj) fun h5 => ?_
    refine ensures_ite_accept (fun j hj => hword (by simp [words]) hj) fun h6 => ?_
    refine ensures_ite_accept (fun j hj => hword (by simp [words]) hj) fun h7 => ?_
    refine hleaf fun v j h => ⟨_, .number h ?_, rfl⟩
    simp only [words, List.forall_mem_cons]
    exact ⟨h1, h2, h3, h4, h5, h6, h7, by simp⟩

/-- **The document of a text is denoted by an object at its beginning.** -/
theorem fromjson_reads {rt : Runtime} {s : Bytes} {d : Doc} (hne : s ≠ [])
    (h : fromjson rt s = .ok d) : ∃ ms r, Base rt s ms r ∧ ms.doc = d := by
  have hobject := ensures_object (ensures_value rt s.length) s.length false s
  unfold fromjson at h
  rw [if_neg hne] at h
  cases ho : object (value rt s.length) s.length false s with
  | ok v r =>
    obtain ⟨ms, hr, rfl⟩ := (hobject v r ho).2 rfl
    simp only [ho, basePairs] at h
    rcases hobj : obj ms.doc with x | e'
    · simp [hobj, Except.mapError] at h
    · simp only [hobj, Except.mapError, Except.ok.injEq] at h
      obtain ⟨rfl, -⟩ := size_of_obj hobj
      exact ⟨ms, r, hr, h⟩
  | fail msg r | throws x | stuck => simp [ho] at h

end PgBson.Json.Reading
