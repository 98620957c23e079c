import PgBson.Json.Parse
import PgBson.Json.Text
import PgBson.Lib.ReadBack

/-! # Reading back what was printed

The parser on the texts of values without parts: strings through their escapes, numbers through
`strtod` and `strtoll`, and the special objects that stand for ids, binary data, dates, timestamps
and patterns. -/

namespace PgBson.Json.Leaves

open PgBson.Lib.Memory PgBson.Lib.Binary64 PgBson.Lib.Decimal PgBson.Lib.General
open PgBson.Lib.Strtod PgBson.Lib.ReadBack PgBson.Lib.Parsing
open PgBson.Bson.Types PgBson.Bson.Document
open PgBson.Json.Encoding PgBson.Json.Parse PgBson.Json.Print PgBson.Json.Text

/-! ### Tokens -/

section tokens
variable {α : Type} {token i j : Bytes} {p q : JParse α}

theorem accept_bind (h : accept token i = .ok true j) :
    (do if ← accept token then p else q) i = p j :=
  ok_bind h

theorem not_accept_bind (h : accept token i = .ok false i) :
    (do if ← accept token then p else q) i = q i :=
  ok_bind h

theorem peek_bind (h : peek token i = .ok true i) : (do if ← peek token then p else q) i = p i :=
  ok_bind h

theorem not_peek_bind (h : peek token i = .ok false i) :
    (do if ← peek token then p else q) i = q i :=
  ok_bind h

theorem expect_ok {msg : String} (h : accept token i = .ok true j) :
    expect token msg i = .ok () j :=
  accept_bind h

/-- A token that starts otherwise is not there. -/
theorem isPrefixOf?_ne {t c : UInt8} (ts s : Bytes) (hc : isspace c = false) (h : t ≠ c) :
    (t :: ts).isPrefixOf? ((32 :: c :: s).dropWhile isspace) = none := by
  have hd : (32 :: c :: s).dropWhile isspace = c :: s := by
    rw [List.dropWhile_cons_of_pos (by decide), List.dropWhile_cons_of_neg (by simp [hc])]
  simp [hd, List.isPrefixOf?, h]

theorem accept_ne {t c : UInt8} (ts s : Bytes) (hc : isspace c = false) (h : t ≠ c) :
    accept (t :: ts) (32 :: c :: s) = .ok false (32 :: c :: s) := by
  rw [accept, isPrefixOf?_ne ts s hc h]

theorem peek_ne {t c : UInt8} (ts s : Bytes) (hc : isspace c = false) (h : t ≠ c) :
    peek (t :: ts) (32 :: c :: s) = .ok false (32 :: c :: s) := by
  rw [peek, isPrefixOf?_ne ts s hc h, Option.isSome_none]

end tokens

/-! ### Strings -/

/-- A character is printed as itself, as an escape of one letter or by its code. -/
theorem escapeChar_cases (c : UInt8) :
    escapeChar c = [c] ∧ matchSet c DOUBLEQUOTE = false ∧ ¬ c ≤ 0x1F ∧ c ≠ 92 ∨
      (∃ l ∈ escapeChar c, escapeChar c = [92, l] ∧ escaped l = .ok c ∧ l ≠ 117) ∨
      escapeChar c = ascii "\\u00" ++ hexByte c ∧ c < 0x80 := by
  revert c
  exact forall_byte (by decide +kernel)

theorem charsLoop_escapeChar (c : UInt8) {q : Bytes} (hq : q ≠ []) :
    charsLoop DOUBLEQUOTE none (escapeChar c ++ q) =
      (charsLoop DOUBLEQUOTE none q).map fun x => (c :: x.1, x.2) := by
  have hm : matchSet 92 DOUBLEQUOTE = false := by decide
  rcases escapeChar_cases c with ⟨he, hc⟩ | ⟨l, -, he, hl, hu⟩ | ⟨he, hlt⟩
  · rw [he, List.singleton_append, charsLoop.eq_def]
    simp [hc]
    rfl
  · rw [he, List.cons_append, List.singleton_append, charsLoop.eq_def]
    simp [hm, hl, hu]
    rfl
  · obtain ⟨c0, c1, hb, h0, h1, hx⟩ := hexByte_eq c
    have htext : ascii "\\u00" ++ [c0, c1] ++ q = 92 :: 117 :: 48 :: 48 :: c0 :: c1 :: q := rfl
    have hhex : isHexString [48, 48, c0, c1] = true := by simp [isHexString, h0, h1]; decide
    have hutf : encodeUTF8 (fromHex 48 48) c = [c] := by
      simp [show fromHex 48 48 = 0 by decide, encodeUTF8, hlt]
    rw [he, hb, htext, charsLoop.eq_def]
    simp [hm, hq, hhex, hx, hutf]
    rfl

theorem charsLoop_escapeText (s r : Bytes) :
    charsLoop DOUBLEQUOTE none (escapeText s ++ 34 :: r) = .ok (s, 34 :: r) := by
  induction s with
  | nil =>
    rw [escapeText, List.flatMap_nil, List.nil_append, charsLoop.eq_def]
    rfl
  | cons c s ih =>
    rw [escapeText, List.flatMap_cons, ← escapeText, List.append_assoc,
      charsLoop_escapeChar c (by simp), ih]
    rfl

/-- **A string that was printed is read back.** -/
theorem quotedString_text (s r : Bytes) :
    quotedString (32 :: (quote (escapeText s) ++ r)) = .ok s r := by
  have ht : 32 :: (quote (escapeText s) ++ r) = 32 :: 34 :: (escapeText s ++ 34 :: r) := by
    simp [quote]
  have hc : chars DOUBLEQUOTE none (escapeText s ++ 34 :: r) = .ok s (34 :: r) := by
    rw [chars, charsLoop_escapeText]
  rw [ht, quotedString, accept_bind (j := escapeText s ++ 34 :: r) rfl, ok_bind hc,
    ok_bind (expect_ok (j := r) rfl)]
  rfl

theorem field_text (s r : Bytes) : field (32 :: (quote (escapeText s) ++ r)) = .ok s r := by
  rw [field, peek_bind rfl, quotedString_text]

theorem escapeText_of_plain {s : Bytes} (h : ∀ c ∈ s, escapeChar c = [c]) : escapeText s = s := by
  induction s with
  | nil => rfl
  | cons c s ih =>
    rw [escapeText, List.flatMap_cons, h c List.mem_cons_self, ← escapeText,
      ih fun d hd => h d (List.mem_cons_of_mem c hd)]
    rfl

/-- The same for a string that is printed without escapes. -/
theorem quotedString_plain {s : Bytes} (h : ∀ c ∈ s, escapeChar c = [c]) (r : Bytes) :
    quotedString (32 :: (quote s ++ r)) = .ok s r := by
  have := quotedString_text s r
  rwa [escapeText_of_plain h] at this

theorem expectField_text {name : String} (h : ∀ c ∈ ascii name, escapeChar c = [c]) (msg : String)
    (r : Bytes) : expectField name msg (32 :: (quote (ascii name) ++ r)) = .ok () r := by
  have hf := field_text (ascii name) r
  rw [escapeText_of_plain h] at hf
  have ha : acceptField (ascii name) (32 :: (quote (ascii name) ++ r)) = .ok true r := by
    rw [acceptField, ok_bind (attempt_ok hf)]
    simp
  rw [expectField, ok_bind ha]
  rfl

/-! ### Numbers -/

/-- The value for an integer: an `int` if it fits one. -/
def integer (z : ℤ) : Value :=
  if z = (BitVec.ofInt 32 z).toInt then .numberInt (.ofInt 32 z) else .numberLong (.ofInt 64 z)

/-- `strtod` reports a range error on the decimal. -/
def RangeError (rt : Runtime) (q : ℚ) : Prop :=
  overflowUnits ≤ nearestUnits q ∨ (0 < q ∧ q < 2 ^ 52 * unit) ∧ rt.underflow q = true

instance (rt : Runtime) (q : ℚ) : Decidable (RangeError rt q) :=
  inferInstanceAs (Decidable (_ ∨ _ ∧ _))

/-- The value that is read for a decimal that was printed with sixteen digits. -/
def readDecimal (rt : Runtime) (neg : Bool) (q : ℚ) : Option Value :=
  if RangeError rt q then none
  else if Whole 15 q then some (integer (signed neg q.num.natAbs))
  else some (.numberDouble (toBits neg (nearestUnits q)))

section numbers
variable {rt : Runtime} {i r : Bytes} {neg : Bool} {n : ℕ}

theorem endptr_strtoll (h : scanInt i = some (neg, n, r)) : (strtoll i).endptr = r := by
  simp only [strtoll, h]
  split_ifs <;> rfl

theorem scanned_erange (q : ℚ) : (scanned rt neg q r).erange = decide (RangeError rt q) := by
  unfold scanned RangeError
  split_ifs with h <;> simp [h]

/-- An integer is what both readers read to its end. -/
theorem number_integer (hne : r ≠ []) (hlt : r.length < i.length)
    (hd : (strtod rt i).endptr = r) (he : (strtod rt i).erange = false)
    (hi : scanInt i = some (neg, n, r)) (hl : -2 ^ 63 ≤ signed neg n) (hu : signed neg n < 2 ^ 63) :
    number rt i = .ok (integer (signed neg n)) r := by
  have hri : r ≠ i := fun h => absurd (congrArg List.length h) (by omega)
  simp only [number, strtoll_of_scanInt hi hl hu, hd, he, hri, hne, if_false, Bool.false_eq_true,
    lt_irrefl, or_false, integer]

/-- A double is what `strtoll` does not read to its end. -/
theorem number_real {t : Bytes} (hne : r ≠ []) (hlt : r.length < i.length)
    (hd : (strtod rt i).endptr = r) (he : (strtod rt i).erange = false) (ht : t ≠ [])
    (hi : scanInt i = some (neg, n, t ++ r)) :
    number rt i = .ok (.numberDouble (strtod rt i).value) r := by
  have hri : r ≠ i := fun h => absurd (congrArg List.length h) (by omega)
  have hlen : r.length < (t ++ r).length := by
    have := List.length_pos_of_ne_nil ht
    rw [List.length_append]
    omega
  simp only [number, endptr_strtoll hi, hd, he, hri, hne, if_false, Bool.false_eq_true, hlen,
    true_or, if_true]

theorem number_erange (hd : (strtod rt i).endptr ≠ i) (he : (strtod rt i).erange = true) :
    number rt i = .fail (ascii "Value cannot fit in double") i := by
  simp only [number, hd, he, if_false, if_true]

/-- **An integer that was printed in full is read back.** -/
theorem number_decimalInt (rt : Runtime) {z : ℤ} (hl : -2 ^ 63 ≤ z) (hu : z < 2 ^ 63) (hr : Stops r)
    (hne : r ≠ []) : number rt (32 :: (decimalInt z ++ r)) = .ok (integer z) r := by
  have hd : strtod rt (decimalInt z ++ r) = scanned rt (decide (z < 0)) z.natAbs r := by
    rw [decimalInt_eq_text, List.append_assoc, strtod_text rt _ (by simp) hr]
    simp [numeral_decimal]
  obtain ⟨hend, herange⟩ := scanned_nat rt (decide (z < 0)) (show z.natAbs < 2 ^ 64 by omega) r
  have hnil : decimalInt z ≠ [] := by simp [decimalInt_eq_text, numberText, decimal_ne_nil]
  have hs : strtod rt (32 :: (decimalInt z ++ r)) = scanned rt (decide (z < 0)) z.natAbs r := by
    rw [strtod_space rfl (by rw [hd, hend]; simpa using hnil), hd]
  have hi : scanInt (32 :: (decimalInt z ++ r)) = some (decide (z < 0), z.natAbs, r) := by
    rw [scanInt_space rfl, scanInt_decimalInt z hr.noDigit]
  have hz := signed_natAbs z
  have h := number_integer hne (by rw [List.length_cons, List.length_append]; omega)
    (by rw [hs, hend]) (by rw [hs, herange]) hi
    (by rwa [hz]) (by rwa [hz])
  rwa [hz] at h

/-- **A number that was printed with sixteen digits is read as those digits say.** -/
theorem number_formatReal (rt : Runtime) (neg : Bool) {q : ℚ} (hq : 0 ≤ q) (hr : Stops r)
    (hne : r ≠ []) :
    Yields (number rt) (32 :: (formatReal 15 neg q ++ r))
      (readDecimal rt neg (rounded 15 q)) r := by
  have hd := strtod_formatReal rt 15 neg hq hr
  have hend : (scanned rt neg (rounded 15 q) r).endptr = r := by
    unfold scanned
    split_ifs <;> rfl
  have hnil : formatReal 15 neg q ≠ [] := by
    obtain ⟨a, f, x, hg, -⟩ := general_eq 15 hq
    simp [formatReal, hg, numberText, decimal_ne_nil]
  have hs : strtod rt (32 :: (formatReal 15 neg q ++ r)) = scanned rt neg (rounded 15 q) r := by
    rw [strtod_space rfl (by rw [hd, hend]; simpa using hnil), hd]
  have hlen : r.length < (32 :: (formatReal 15 neg q ++ r)).length := by
    rw [List.length_cons, List.length_append]
    omega
  by_cases he : RangeError rt (rounded 15 q)
  · rw [readDecimal, if_pos he]
    refine ⟨_, _, number_erange ?_ ?_⟩
    · rw [hs, hend]
      exact fun h => absurd (congrArg List.length h) hlen.ne
    · rw [hs, scanned_erange, decide_eq_true he]
  have hrange : (strtod rt (32 :: (formatReal 15 neg q ++ r))).erange = false := by
    rw [hs, scanned_erange, decide_eq_false he]
  by_cases hw : Whole 15 (rounded 15 q)
  · obtain ⟨hz, hlt⟩ := whole_iff.mp hw
    have hi := scanInt_formatReal_whole neg hq hz hlt hr
    rw [← scanInt_space (c := 32) rfl] at hi
    have hsign : -2 ^ 63 ≤ signed neg (rounded 15 q).num.natAbs ∧
        signed neg (rounded 15 q).num.natAbs < 2 ^ 63 := by
      unfold signed
      split_ifs <;> omega
    rw [readDecimal, if_neg he, if_pos hw]
    exact number_integer hne hlen (by rw [hs, hend]) hrange hi hsign.1 hsign.2
  · obtain ⟨a, t, ht, hi⟩ := scanInt_formatReal_real neg hq hw hr
    rw [← scanInt_space (c := 32) rfl] at hi
    have hv : (scanned rt neg (rounded 15 q) r).value =
        toBits neg (nearestUnits (rounded 15 q)) := by
      rw [scanned, if_neg fun h => he (.inl h)]
    have h := number_real hne hlen (by rw [hs, hend]) hrange ht hi
    rw [readDecimal, if_neg he, if_neg hw]
    rwa [hs, hv] at h

end numbers

/-! ### Special objects -/

theorem escapeChar_of_plain {c : UInt8} (h : (0x1f < c && c != 34 && c != 92) = true) :
    escapeChar c = [c] := by
  simp only [Bool.and_eq_true, decide_eq_true_eq, bne_iff_ne] at h
  obtain ⟨⟨hc, hq⟩, hb⟩ := h
  have hne : ∀ k : UInt8, k ≤ 0x1f → c ≠ k := fun k hk he => UInt8.not_le.mpr hc (he ▸ hk)
  have hle : ¬ c ≤ 0x1f := UInt8.not_le.mpr hc
  rw [escapeChar, if_neg hq, if_neg hb, if_neg (hne 8 (by decide)), if_neg (hne 12 (by decide)),
    if_neg (hne 10 (by decide)), if_neg (hne 13 (by decide)), if_neg (hne 9 (by decide)),
    if_neg hle]
  split_ifs with hs
  · rw [hs]
  · rfl

/-- A test that runs for the texts that `escape` leaves as they are. -/
theorem plain_of_all {s : Bytes} (h : s.all (fun c => 0x1f < c && c != 34 && c != 92) = true) :
    ∀ c ∈ s, escapeChar c = [c] :=
  fun c hc => escapeChar_of_plain (List.all_eq_true.mp h c hc)

theorem plain_of_isxdigit {c : UInt8} (h : isxdigit c = true) : escapeChar c = [c] := by
  revert h
  exact forall_byte (P := fun c => isxdigit c = true → escapeChar c = [c]) (by decide +kernel) c

theorem plain_of_isHexString {s : Bytes} (h : isHexString s = true) :
    ∀ c ∈ s, escapeChar c = [c] :=
  fun c hc => plain_of_isxdigit (List.all_eq_true.mp h c hc)

theorem plain_encode (s : Bytes) : ∀ c ∈ encode s, escapeChar c = [c] := by
  have h : ∀ c ∈ base64Chars, escapeChar c = [c] := plain_of_all rfl
  exact fun c hc => h c (mem_encode hc)

theorem objectIdObject_text (id : OID) (r : Bytes) :
    objectIdObject (32 :: 58 :: 32 :: (quote (toHexLower id.data) ++ r)) = .ok (.jstOID id) r := by
  have hx := isHexString_toHexLower id.data
  have hl : (toHexLower id.data).length = 24 := by rw [length_toHexLower, id.size]
  rw [objectIdObject, ok_bind (expect_ok (j := 32 :: (quote (toHexLower id.data) ++ r)) rfl),
    ok_bind (quotedString_plain (plain_of_isHexString hx) r), oid, dif_pos hl, if_pos hx]
  simp only [hexBytes_toHexLower, pure_apply]

theorem binaryObject_text (t : UInt8) (data r : Bytes) :
    binaryObject (32 :: 58 :: 32 :: (quote (encode data) ++ 44 :: 32 :: (quote (ascii "$type") ++
      32 :: 58 :: 32 :: (quote (hexByte t) ++ r)))) = .ok (.binData t data) r := by
  obtain ⟨c0, c1, hb, h0, h1, hx⟩ := hexByte_eq t
  have hhex : isHexString [c0, c1] = true := by simp [isHexString, h0, h1]
  have hlen : ¬ (encode data).length % 4 ≠ 0 := by simp [length_encode]
  have hset : ¬ (!isBase64String (encode data)) = true := by
    simp only [isBase64String, Bool.not_eq_true, Bool.not_eq_false', List.all_eq_true]
    intro c hc
    have hmem := mem_encode hc
    simp [matchSet, hmem, List.ne_nil_of_mem hmem]
  rw [hb, binaryObject, ok_bind (expect_ok rfl), ok_bind (quotedString_plain (plain_encode data) _),
    if_neg hlen, if_neg hset, ok_bind (expect_ok rfl),
    ok_bind (expectField_text (plain_of_all rfl) _ _), ok_bind (expect_ok rfl),
    ok_bind (quotedString_plain (plain_of_isHexString hhex) r)]
  simp only [hhex, if_true, hx, decode_encode, pure_apply]

theorem undefinedObject_text (r : Bytes) :
    undefinedObject (32 :: 58 :: 32 :: (ascii "true" ++ r)) = .ok .undefined r := rfl

theorem dateObject_text (v : BitVec 64) {r : Bytes} (hr : NoDigit r) :
    dateObject (32 :: 58 :: 32 :: (decimalInt v.toInt ++ r)) = .ok (.date v) r := by
  have hs : strtoll (32 :: (decimalInt v.toInt ++ r)) = ⟨v.toInt, r, false⟩ :=
    strtoll_decimalInt (by have := v.le_toInt; simpa using this)
      (by have := v.toInt_lt; simpa using this) (scanInt_space rfl _) hr
  have hne : r ≠ 32 :: (decimalInt v.toInt ++ r) :=
    fun h => absurd (congrArg List.length h) (by simp; omega)
  have hm : millis (32 :: (decimalInt v.toInt ++ r)) = .ok v r := by
    simp [millis, hs, hne]
  rw [dateObject, ok_bind (expect_ok rfl), ok_bind hm, pure_apply]

theorem half_text {n : ℕ} (hn : n < 2 ^ 32) (neg ovf exp : String) {r : Bytes} (hr : NoDigit r) :
    half neg ovf exp (32 :: (decimal n ++ r)) = .ok (BitVec.ofNat 32 n) r := by
  have hs : strtoull (32 :: (decimal n ++ r)) = ⟨BitVec.ofNat 64 n, r, false⟩ :=
    strtoull_decimal (by omega) (scanInt_space rfl _) hr
  have hne : r ≠ 32 :: (decimal n ++ r) :=
    fun h => absurd (congrArg List.length h) (by simp; omega)
  have hm : accept (ascii "-") (32 :: (decimal n ++ r)) = .ok false (32 :: (decimal n ++ r)) := by
    obtain ⟨c, s, hc, hdig⟩ := exists_decimal_eq_cons n
    obtain ⟨hsp, hminus, -⟩ := not_space_of_isdigit hdig
    rw [hc]
    exact accept_ne [] _ hsp hminus.symm
  rw [half, ok_bind hm]
  simp [hs, hne]

theorem timestampObject_text (v : BitVec 64) (r : Bytes) :
    timestampObject (32 :: 58 :: 32 :: 123 :: 32 :: (quote (ascii "t") ++ 32 :: 58 :: 32 ::
      (decimal (v.toNat / 2 ^ 32) ++ 44 :: 32 :: (quote (ascii "i") ++ 32 :: 58 :: 32 ::
        (decimal (v.toNat % 2 ^ 32) ++ 32 :: 125 :: r))))) = .ok (.timestamp v) r := by
  have hv := v.isLt
  have hsecs := half_text (n := v.toNat / 2 ^ 32) (by omega) (r := 44 :: 32 :: (quote (ascii "i") ++
    32 :: 58 :: 32 :: (decimal (v.toNat % 2 ^ 32) ++ 32 :: 125 :: r)))
  have hinc := half_text (n := v.toNat % 2 ^ 32) (by omega) (r := 32 :: 125 :: r)
  have happ : BitVec.ofNat 32 (v.toNat / 2 ^ 32) ++ BitVec.ofNat 32 (v.toNat % 2 ^ 32) = v := by
    apply BitVec.eq_of_toNat_eq
    rw [BitVec.toNat_append, BitVec.toNat_ofNat, BitVec.toNat_ofNat,
      Nat.mod_eq_of_lt (show v.toNat / 2 ^ 32 < 2 ^ 32 by omega), Nat.mod_mod,
      ← Nat.shiftLeft_add_eq_or_of_lt (by omega), Nat.shiftLeft_eq]
    omega
  rw [timestampObject, ok_bind (expect_ok rfl), ok_bind (expect_ok rfl),
    ok_bind (expectField_text (plain_of_all rfl) _ _), ok_bind (expect_ok rfl),
    ok_bind (hsecs _ _ _ (noDigit_cons (by decide))), ok_bind (expect_ok rfl),
    ok_bind (expectField_text (plain_of_all rfl) _ _), ok_bind (expect_ok rfl),
    ok_bind (hinc _ _ _ (noDigit_cons (by decide))), ok_bind (expect_ok rfl), pure_apply,
    appendTimestamp, happ]

theorem regexObject_text (pat : Bytes) {opt : Bytes} (ho : ∀ c ∈ opt, c ∈ JOPTIONS) (r : Bytes) :
    regexObject (32 :: 58 :: 32 :: (quote (escapeText pat) ++
      44 :: 32 :: (quote (ascii "$options") ++ 32 :: 58 :: 32 :: (quote opt ++ r)))) =
        .ok (.regEx pat opt) r := by
  have hplain : ∀ c ∈ JOPTIONS, escapeChar c = [c] := plain_of_all rfl
  have hcheck : regexOptCheck opt r = .ok () r := by
    have hf : opt.find? (fun c => !matchSet c JOPTIONS) = none := by
      rw [List.find?_eq_none]
      intro c hc
      simp [matchSet, ho c hc, List.ne_nil_of_mem (ho c hc)]
    rw [regexOptCheck, hf]
    rfl
  rw [regexObject, ok_bind (expect_ok rfl), ok_bind (quotedString_text pat _), accept_bind rfl,
    ok_bind (expectField_text (plain_of_all rfl) _ _), ok_bind (expect_ok rfl),
    ok_bind (quotedString_plain (fun c hc => hplain c (ho c hc)) r), ok_bind hcheck, pure_apply]

/-! ### Values without parts -/

section value
variable {rt : Runtime} {fuel : ℕ}

/-- An object whose first field name is reserved is read by the method for that name. -/
theorem value_special {n i r : Bytes} {p : JParse Value} {v : Value}
    (hn : ∀ c ∈ n, escapeChar c = [c]) (hp : special (value rt fuel) n = some p)
    (hv : p i = .ok v (32 :: 125 :: r)) :
    value rt (fuel + 1) (32 :: 123 :: 32 :: (quote n ++ i)) = .ok (some v) r := by
  have hf := field_text n i
  rw [escapeText_of_plain hn] at hf
  have ho : object (value rt fuel) fuel true (32 :: 123 :: 32 :: (quote n ++ i)) = .ok v r := by
    rw [object, ok_bind (expect_ok rfl), not_accept_bind rfl, ok_bind hf]
    simp only [hp, if_true]
    rw [ok_bind hv, ok_bind (expect_ok rfl), pure_apply]
  rw [value, peek_bind rfl, ok_bind ho, pure_apply]

theorem value_jstOID (id : OID) (r : Bytes) :
    value rt (fuel + 1) (32 :: (valueText (.jstOID id) ++ r)) = .ok (some (.jstOID id)) r := by
  have ht : valueText (.jstOID id) ++ r = 123 :: 32 :: (quote (ascii "$oid") ++
      32 :: 58 :: 32 :: (quote (toHexLower id.data) ++ 32 :: 125 :: r)) := by
    simp only [valueText, quote, List.append_assoc, List.cons_append, List.nil_append]
    rfl
  rw [ht]
  exact value_special (plain_of_all rfl) rfl (objectIdObject_text id _)

theorem value_binData (t : UInt8) (data r : Bytes) :
    value rt (fuel + 1) (32 :: (valueText (.binData t data) ++ r)) =
      .ok (some (.binData t data)) r := by
  have ht : valueText (.binData t data) ++ r = 123 :: 32 :: (quote (ascii "$binary") ++
      32 :: 58 :: 32 :: (quote (encode data) ++ 44 :: 32 :: (quote (ascii "$type") ++
        32 :: 58 :: 32 :: (quote (hexByte t) ++ 32 :: 125 :: r)))) := by
    simp only [valueText, quote, List.append_assoc, List.cons_append, List.nil_append]
    rfl
  rw [ht]
  exact value_special (plain_of_all rfl) rfl (binaryObject_text t data _)

theorem value_undefined (r : Bytes) :
    value rt (fuel + 1) (32 :: (valueText .undefined ++ r)) = .ok (some .undefined) r :=
  value_special (n := ascii "$undefined") (plain_of_all rfl) rfl (undefinedObject_text _)

theorem value_date (v : BitVec 64) (r : Bytes) :
    value rt (fuel + 1) (32 :: (valueText (.date v) ++ r)) = .ok (some (.date v)) r := by
  have ht : valueText (.date v) ++ r = 123 :: 32 :: (quote (ascii "$date") ++
      32 :: 58 :: 32 :: (decimalInt v.toInt ++ 32 :: 125 :: r)) := by
    simp only [valueText, quote, List.append_assoc, List.cons_append, List.nil_append]
    rfl
  rw [ht]
  exact value_special (plain_of_all rfl) rfl (dateObject_text v (noDigit_cons (by decide)))

theorem value_timestamp (v : BitVec 64) (r : Bytes) :
    value rt (fuel + 1) (32 :: (valueText (.timestamp v) ++ r)) = .ok (some (.timestamp v)) r := by
  have ht : valueText (.timestamp v) ++ r = 123 :: 32 :: (quote (ascii "$timestamp") ++
      32 :: 58 :: 32 :: 123 :: 32 :: (quote (ascii "t") ++ 32 :: 58 :: 32 ::
        (decimal (v.toNat / 2 ^ 32) ++ 44 :: 32 :: (quote (ascii "i") ++ 32 :: 58 :: 32 ::
          (decimal (v.toNat % 2 ^ 32) ++ 32 :: 125 :: 32 :: 125 :: r))))) := by
    simp only [valueText, quote, List.append_assoc, List.cons_append, List.nil_append]
    rfl
  rw [ht]
  exact value_special (plain_of_all rfl) rfl (timestampObject_text v _)

theorem value_regEx (pat : Bytes) {opt : Bytes} (ho : ∀ c ∈ opt, c ∈ JOPTIONS) (r : Bytes) :
    value rt (fuel + 1) (32 :: (valueText (.regEx pat opt) ++ r)) =
      .ok (some (.regEx pat opt)) r := by
  have ht : valueText (.regEx pat opt) ++ r = 123 :: 32 :: (quote (ascii "$regex") ++
      32 :: 58 :: 32 :: (quote (escapeText pat) ++ 44 :: 32 :: (quote (ascii "$options") ++
        32 :: 58 :: 32 :: (quote opt ++ 32 :: 125 :: r)))) := by
    simp only [valueText, quote, List.append_assoc, List.cons_append, List.nil_append]
    rfl
  rw [ht]
  exact value_special (plain_of_all rfl) rfl (regexObject_text pat ho _)

theorem value_string {s : Bytes} (hs : Terminated s) (r : Bytes) :
    value rt (fuel + 1) (32 :: (valueText (.string s) ++ r)) = .ok (some (.string s)) r := by
  have hv : value rt (fuel + 1) (32 :: (valueText (.string s) ++ r)) =
      (do return some (Value.string ((← quotedString) ++ [0])))
        (32 :: (quote (escapeText s.dropLast) ++ r)) := rfl
  rw [hv, ok_bind (quotedString_text s.dropLast r), pure_apply, ← hs.eq_append]

/-- The token does not begin as a number does. -/
def nonNumeric : Bytes → Bool
  | 45 :: t :: _ => !isdigit t
  | t :: _ => !isdigit t && t ≠ 45
  | [] => false

theorem isPrefixOf?_number {c : UInt8} (hc : isdigit c = true) (neg : Bool) (s : Bytes)
    {token : Bytes} (ht : nonNumeric token = true) :
    token.isPrefixOf? ((32 :: (signText neg ++ c :: s)).dropWhile isspace) = none := by
  obtain ⟨hsp, -, -⟩ := not_space_of_isdigit hc
  have hdigit : ∀ t, isdigit t = false → t ≠ c := by
    rintro t ht rfl
    simp [hc] at ht
  cases neg with
  | false =>
    have hd : (32 :: (signText false ++ c :: s)).dropWhile isspace = c :: s := by
      simp [signText, hsp, show isspace 32 = true by decide]
    rw [hd]
    unfold nonNumeric at ht
    split at ht
    · simp [List.isPrefixOf?, hdigit 45 (by decide)]
    · next t _ _ =>
      simp only [Bool.and_eq_true, Bool.not_eq_true'] at ht
      simp [List.isPrefixOf?, hdigit t ht.1]
    · cases ht
  | true =>
    have hd : (32 :: (signText true ++ c :: s)).dropWhile isspace = 45 :: c :: s := by
      simp [signText, show isspace 32 = true by decide, show isspace 45 = false by decide]
    rw [hd]
    unfold nonNumeric at ht
    split at ht
    · next t _ =>
      simp [List.isPrefixOf?, hdigit t (by simpa using ht)]
    · simp only [Bool.and_eq_true, decide_eq_true_eq] at ht
      simp [List.isPrefixOf?, ht.2]
    · cases ht

/-- Where no word and no opening character stands there is a number. -/
theorem value_number {c : UInt8} (hc : isdigit c = true) (neg : Bool) (s : Bytes) :
    value rt (fuel + 1) (32 :: (signText neg ++ c :: s)) =
      (do return some (← number rt)) (32 :: (signText neg ++ c :: s)) := by
  have haccept : ∀ {token : Bytes}, nonNumeric token = true →
      accept token (32 :: (signText neg ++ c :: s)) =
        .ok false (32 :: (signText neg ++ c :: s)) := by
    intro token ht
    rw [accept, isPrefixOf?_number hc neg s ht]
  have hpeek : ∀ {token : Bytes}, nonNumeric token = true →
      peek token (32 :: (signText neg ++ c :: s)) = .ok false (32 :: (signText neg ++ c :: s)) := by
    intro token ht
    rw [peek, isPrefixOf?_number hc neg s ht, Option.isSome_none]
  rw [value]
  repeat first
    | rw [not_peek_bind (hpeek (by decide))]
    | rw [not_accept_bind (haccept (by decide))]

/-- An integer that was printed in full is read back as an `int` or a `long`. -/
theorem value_decimalInt {z : ℤ} (hl : -2 ^ 63 ≤ z) (hu : z < 2 ^ 63) {r : Bytes} (hr : Stops r)
    (hne : r ≠ []) :
    value rt (fuel + 1) (32 :: (decimalInt z ++ r)) = .ok (some (integer z)) r := by
  obtain ⟨c, s, hs, hc⟩ := numberText_head (a := z.natAbs) (f := []) (x := none) (r := r)
  have ht : decimalInt z ++ r = signText (decide (z < 0)) ++ c :: s := by
    rw [decimalInt_eq_text, List.append_assoc, hs]
  have hn := number_decimalInt rt hl hu hr hne
  rw [ht] at hn ⊢
  rw [value_number hc, ok_bind hn, pure_apply]

/-- A number that was printed with sixteen digits is read as those digits say. -/
theorem value_formatReal {neg : Bool} {q : ℚ} (hq : 0 ≤ q) {r : Bytes} (hr : Stops r)
    (hne : r ≠ []) :
    Yields (value rt (fuel + 1)) (32 :: (formatReal 15 neg q ++ r))
      ((readDecimal rt neg (rounded 15 q)).map some) r := by
  obtain ⟨a, f, x, hg, -⟩ := general_eq 15 hq
  obtain ⟨c, s, hs, hc⟩ := numberText_head (a := a) (f := f) (x := x) (r := r)
  have ht : formatReal 15 neg q ++ r = signText neg ++ c :: s := by
    rw [formatReal, hg, List.append_assoc, hs]
  have hn := number_formatReal rt neg hq hr hne
  rw [ht] at hn ⊢
  exact (hn.map fun _ _ => rfl).of_eq (value_number hc neg s)

end value

end PgBson.Json.Leaves
