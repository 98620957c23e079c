import PgBson.Lib.General
import PgBson.Lib.Strtod

/-! # Reading numbers that were printed

`strtod` reads the general format of a number as the double nearest to the decimal that was printed
(`strtod_formatReal`). `strtoll` reads all of it when that decimal is whole, and stops at the point
or the exponent otherwise. -/

namespace PgBson.Lib.ReadBack

open PgBson.Lib.Memory PgBson.Lib.Binary64 PgBson.Lib.Decimal PgBson.Lib.General PgBson.Lib.Strtod

/-- The text does not go on with what could belong to a number. -/
def Stops (r : Bytes) : Prop :=
  ∀ c ∈ r.head?, isdigit c = false ∧ c ≠ 46 ∧ c ≠ 101 ∧ c ≠ 69 ∧ c ≠ 120 ∧ c ≠ 88

section text
variable {a : ℕ} {f r : Bytes} {x : Option ℤ}

theorem Stops.noDigit (hr : Stops r) : NoDigit r := fun c hc => (hr c hc).1

/-- Behind the fraction comes no digit, no point and no `x`. -/
theorem exponentText_head (hr : Stops r) :
    ∀ c ∈ (exponentText x ++ r).head?, isdigit c = false ∧ c ≠ 46 ∧ c ≠ 120 ∧ c ≠ 88 := by
  intro c hc
  cases x with
  | none =>
    obtain ⟨h1, h2, -, -, h5, h6⟩ := hr c hc
    exact ⟨h1, h2, h5, h6⟩
  | some x =>
    simp only [exponentText, exponent, List.cons_append, List.head?_cons, Option.mem_def,
      Option.some.injEq] at hc
    subst hc
    decide

theorem pointed_head (hr : Stops r) :
    ∀ c ∈ (pointed f ++ (exponentText x ++ r)).head?, isdigit c = false ∧ c ≠ 120 ∧ c ≠ 88 := by
  intro c hc
  by_cases hf : f = []
  · simp only [pointed, hf, if_true, List.nil_append] at hc
    obtain ⟨h1, -, h2⟩ := exponentText_head hr c hc
    exact ⟨h1, h2⟩
  · simp only [pointed, hf, if_false, List.cons_append, List.head?_cons, Option.mem_def,
      Option.some.injEq] at hc
    subst hc
    decide

theorem scanExponent_text (hr : Stops r) :
    scanExponent 101 (exponentText x ++ r) = (x.getD 0, r) := by
  cases x with
  | none =>
    have hc : caseless [101] r = none := by
      cases r with
      | nil => rfl
      | cons c r =>
        obtain ⟨-, -, h1, h2, -, -⟩ := hr c rfl
        have h3 : ¬ c + 32 = 101 := fun h => h2 (by rw [← UInt8.add_left_inj 32, h]; rfl)
        simp [caseless, h1, h3]
    simp [exponentText, scanExponent, hc]
  | some x =>
    have hn : numeral (padded (max 1 (Nat.log 10 x.natAbs) + 1) x.natAbs) = x.natAbs := by
      rw [numeral_padded, Nat.mod_eq_of_lt]
      exact (Nat.lt_pow_succ_log_self (by omega) _).trans_le
        (Nat.pow_le_pow_right (by omega) (by omega))
    have hp : padded (max 1 (Nat.log 10 x.natAbs) + 1) x.natAbs ≠ [] := by
      intro h
      have := congrArg List.length h
      simp at this
    have ht := takeWhile_isdigit (fun _ => isdigit_of_mem_padded
      (k := max 1 (Nat.log 10 x.natAbs) + 1) (n := x.natAbs)) hr.noDigit
    have hd := dropWhile_isdigit (fun _ => isdigit_of_mem_padded
      (k := max 1 (Nat.log 10 x.natAbs) + 1) (n := x.natAbs)) hr.noDigit
    have hs := signed_natAbs x
    by_cases hx : x < 0
    · simp only [hx, decide_true] at hs
      simp [exponentText, exponent, scanExponent, caseless, hx, scanSign, ht, hd, hp, hn, hs]
    · simp only [hx, decide_false] at hs
      simp [exponentText, exponent, scanExponent, caseless, hx, scanSign, ht, hd, hp, hn, hs]

theorem scanFraction_text (hf : ∀ c ∈ f, isdigit c = true) (hr : Stops r) :
    scanFraction isdigit (numberText a f x ++ r) = some (decimal a, f, exponentText x ++ r) := by
  have hh := exponentText_head (x := x) hr
  have ha : ∀ c ∈ decimal a, isdigit c = true := fun c hc => isdigit_of_mem_decimal hc
  have hp : NoDigit (pointed f ++ (exponentText x ++ r)) := fun c hc => (pointed_head hr c hc).1
  have he : NoDigit (exponentText x ++ r) := fun c hc => (hh c hc).1
  have hassoc : numberText a f x ++ r = decimal a ++ (pointed f ++ (exponentText x ++ r)) := by
    simp [numberText]
  simp only [scanFraction, hassoc, takeWhile_isdigit ha hp, dropWhile_isdigit ha hp, decimal_ne_nil,
    false_and, if_false]
  by_cases hnil : f = []
  · subst hnil
    simp only [pointed, if_true, List.nil_append]
    split
    · next t ht => exact absurd rfl (hh 46 (by simp [ht])).2.1
    · rfl
  · simp only [pointed, hnil, if_false, List.cons_append, takeWhile_isdigit hf he,
      dropWhile_isdigit hf he]

theorem scanDecimal_text (hf : ∀ c ∈ f, isdigit c = true) (hr : Stops r) :
    scanDecimal (numberText a f x ++ r) =
      some ((numeral (decimal a ++ f) : ℚ) * 10 ^ (x.getD 0 - f.length), r) := by
  simp [scanDecimal, scanFraction_text hf hr, scanExponent_text hr]

theorem caseless_letter {c w : UInt8} (hc : isdigit c = true) (hw : 97 ≤ w) (ws s : Bytes) :
    caseless (w :: ws) (c :: s) = none := by
  simp only [isdigit, Bool.and_eq_true, decide_eq_true_eq, UInt8.le_iff_toNat_le] at hc hw
  simp at hc hw
  have h1 : c ≠ w := by rintro rfl; omega
  have h2 : ¬ 65 ≤ c := by
    rw [UInt8.le_iff_toNat_le]
    simp
    omega
  simp [caseless, h1, h2]

theorem scanHex_text (hr : Stops r) : scanHex (numberText a f x ++ r) = none := by
  have hassoc : numberText a f x ++ r = decimal a ++ (pointed f ++ (exponentText x ++ r)) := by
    simp [numberText]
  have hp := pointed_head (f := f) (x := x) hr
  suffices h : caseless [48, 120] (numberText a f x ++ r) = none by simp [scanHex, h]
  rw [hassoc]
  generalize pointed f ++ (exponentText x ++ r) = t at hp
  have hx : ∀ c ∈ t.head?, c ≠ 120 ∧ c + 32 ≠ 120 := fun c hc =>
    ⟨(hp c hc).2.1, fun h => (hp c hc).2.2 (by rw [← UInt8.add_left_inj 32, h]; rfl)⟩
  have hdx : ∀ c, isdigit c = true → c ≠ 120 ∧ c + 32 ≠ 120 := by
    intro c hc
    refine ⟨by rintro rfl; simp [isdigit] at hc, fun h => ?_⟩
    have : c = 88 := by rw [← UInt8.add_left_inj 32, h]; rfl
    subst this
    simp [isdigit] at hc
  -- The character behind the first digit is another digit or the head of what follows.
  obtain ⟨c, s, hs, -⟩ := exists_decimal_eq_cons a
  have hsecond : ∀ d ∈ (s ++ t).head?, d ≠ 120 ∧ d + 32 ≠ 120 := by
    cases s with
    | nil => simpa using hx
    | cons d s =>
      intro e he
      simp only [List.cons_append, List.head?_cons, Option.mem_def, Option.some.injEq] at he
      subst he
      exact hdx d (isdigit_of_mem_decimal (n := a) (by simp [hs]))
  rw [hs, List.cons_append]
  generalize s ++ t = u at hsecond
  cases u with
  | nil => simp [caseless]
  | cons d u =>
    obtain ⟨h1, h2⟩ := hsecond d rfl
    simp [caseless, h1, h2]

theorem numberText_head : ∃ c s, numberText a f x ++ r = c :: s ∧ isdigit c = true := by
  obtain ⟨c, s, hs, hc⟩ := exists_decimal_eq_cons a
  exact ⟨c, s ++ (pointed f ++ exponentText x) ++ r, by simp [numberText, hs], hc⟩

/-- The sign of a printed number is found in front of its first digit. -/
theorem scanSign_text (neg : Bool) :
    scanSign ((signText neg ++ (numberText a f x ++ r)).dropWhile isspace) =
      (neg, numberText a f x ++ r) := by
  obtain ⟨c, s, hs, hc⟩ := numberText_head (a := a) (f := f) (x := x) (r := r)
  cases neg with
  | false =>
    simp only [signText, Bool.false_eq_true, if_false, List.nil_append]
    rw [hs, List.dropWhile_cons_of_neg (by simp [not_space_of_isdigit hc]), scanSign_digit hc]
  | true =>
    simp only [signText, if_true, List.singleton_append]
    rw [List.dropWhile_cons_of_neg (by decide), scanSign]

/-- The number that a text denotes: an optional sign, digits with an optional point, an optional
exponent, and nothing else. -/
def denoted (s : Bytes) : Option ℚ :=
  match scanDecimal (scanSign s).2 with
  | some (q, []) => some (if (scanSign s).1 then -q else q)
  | _ => none

theorem denoted_text (neg : Bool) (hf : ∀ c ∈ f, isdigit c = true) :
    denoted (signText neg ++ numberText a f x) =
      some (if neg then -((numeral (decimal a ++ f) : ℚ) * 10 ^ (x.getD 0 - f.length))
        else (numeral (decimal a ++ f) : ℚ) * 10 ^ (x.getD 0 - f.length)) := by
  have hs : scanSign (signText neg ++ numberText a f x) = (neg, numberText a f x) := by
    obtain ⟨c, s, hs, hc⟩ := numberText_head (a := a) (f := f) (x := x) (r := [])
    rw [List.append_nil] at hs
    cases neg with
    | false => rw [signText, if_neg (by simp), List.nil_append, hs, scanSign_digit hc]
    | true => rfl
  have hstop : Stops [] := by simp [Stops]
  have hd := scanDecimal_text (a := a) (x := x) hf hstop
  rw [List.append_nil] at hd
  simp only [denoted, hs, hd]

theorem strtod_text (rt : Runtime) (neg : Bool) (hf : ∀ c ∈ f, isdigit c = true) (hr : Stops r) :
    strtod rt (signText neg ++ (numberText a f x ++ r)) =
      scanned rt neg (numeral (decimal a ++ f) * 10 ^ (x.getD 0 - f.length)) r := by
  have hword : ∀ w ws, 97 ≤ w → caseless (w :: ws) (numberText a f x ++ r) = none := by
    intro w ws hw
    obtain ⟨c, s, hs, hc⟩ := numberText_head (a := a) (f := f) (x := x) (r := r)
    rw [hs, caseless_letter hc hw]
  have h1 : caseless (ascii "infinity") (numberText a f x ++ r) = none := hword 105 _ (by decide)
  have h2 : caseless (ascii "inf") (numberText a f x ++ r) = none := hword 105 _ (by decide)
  have h3 : caseless (ascii "nan") (numberText a f x ++ r) = none := hword 110 _ (by decide)
  simp only [strtod, scanSign_text, h1, h2, h3, scanHex_text hr, scanDecimal_text hf hr]
  rfl

/-- `strtoll` reads the digits up to the point or the exponent. -/
theorem scanInt_text (neg : Bool) (hr : Stops r) :
    scanInt (signText neg ++ (numberText a f x ++ r)) =
      some (neg, a, pointed f ++ (exponentText x ++ r)) := by
  have hp : NoDigit (pointed f ++ (exponentText x ++ r)) := fun c hc => (pointed_head hr c hc).1
  have hassoc : numberText a f x ++ r = decimal a ++ (pointed f ++ (exponentText x ++ r)) := by
    simp [numberText]
  simp only [scanInt, scanSign_text]
  rw [hassoc, takeWhile_isdigit (fun _ => isdigit_of_mem_decimal) hp,
    dropWhile_isdigit (fun _ => isdigit_of_mem_decimal) hp, if_neg (decimal_ne_nil a),
    numeral_decimal]

end text

/-- White space in front of a number that is read does not matter. -/
theorem strtod_space {rt : Runtime} {c : UInt8} (hc : isspace c = true) {s : Bytes}
    (h : (strtod rt s).endptr ≠ s) : strtod rt (c :: s) = strtod rt s := by
  have hd : (c :: s).dropWhile isspace = s.dropWhile isspace := List.dropWhile_cons_of_pos hc
  unfold strtod at h ⊢
  rw [hd]
  dsimp only at h ⊢
  split
  · rfl
  · split
    · rfl
    · split
      · rfl
      · next h1 _ h2 _ h3 => simp only [h1, h2, h3, ne_eq, not_true_eq_false] at h

/-- **The general format denotes the rounded decimal.** -/
theorem denoted_formatReal (p : ℕ) (neg : Bool) {q : ℚ} (hq : 0 ≤ q) :
    denoted (formatReal p neg q) = some (if neg then -rounded p q else rounded p q) := by
  obtain ⟨a, f, x, hg, hf, hv, -⟩ := general_eq p hq
  rw [formatReal, hg, denoted_text neg hf, hv]

theorem denoted_decimalInt (z : ℤ) : denoted (decimalInt z) = some (z : ℚ) := by
  have hz : ((z.natAbs : ℕ) : ℚ) = |(z : ℚ)| := by rw [Nat.cast_natAbs, Int.cast_abs]
  rw [decimalInt_eq_text, denoted_text _ (by simp)]
  simp only [List.append_nil, numeral_decimal, Option.getD_none, List.length_nil, Nat.cast_zero,
    sub_zero, zpow_zero, mul_one, hz]
  by_cases h : z < 0
  · rw [if_pos (by simpa using h), abs_of_neg (by exact_mod_cast h), neg_neg]
  · rw [if_neg (by simpa using h), abs_of_nonneg (by exact_mod_cast not_lt.mp h)]

/-- **What was printed is read as the double nearest to the rounded decimal.** -/
theorem strtod_formatReal (rt : Runtime) (p : ℕ) (neg : Bool) {q : ℚ} (hq : 0 ≤ q) {r : Bytes}
    (hr : Stops r) : strtod rt (formatReal p neg q ++ r) = scanned rt neg (rounded p q) r := by
  obtain ⟨a, f, x, hg, hf, hv, -⟩ := general_eq p hq
  rw [formatReal, hg, List.append_assoc, strtod_text rt neg hf hr, hv]

/-- A whole decimal is also read by `strtoll`. -/
theorem scanInt_formatReal_whole {p : ℕ} (neg : Bool) {q : ℚ} (hq : 0 ≤ q) {z : ℕ}
    (hz : rounded p q = z) (hlt : z < 10 ^ (p + 1)) {r : Bytes} (hr : Stops r) :
    scanInt (formatReal p neg q ++ r) = some (neg, z, r) := by
  obtain ⟨a, f, x, hg, hf, hv, hw⟩ := general_eq p hq
  obtain ⟨rfl, rfl⟩ := hw.mpr ⟨z, hz, hlt⟩
  have ha : a = z := by
    rw [hz] at hv
    simpa [numeral_decimal] using hv
  rw [formatReal, hg, List.append_assoc, scanInt_text neg hr, ha]
  rfl

/-- On any other decimal `strtoll` stops short. -/
theorem scanInt_formatReal_real {p : ℕ} (neg : Bool) {q : ℚ} (hq : 0 ≤ q)
    (hw : ¬ Whole p (rounded p q)) {r : Bytes} (hr : Stops r) :
    ∃ a t, t ≠ [] ∧ scanInt (formatReal p neg q ++ r) = some (neg, a, t ++ r) := by
  obtain ⟨a, f, x, hg, hf, hv, hiff⟩ := general_eq p hq
  refine ⟨a, pointed f ++ exponentText x, ?_, ?_⟩
  · intro h
    rw [List.append_eq_nil_iff] at h
    refine hw (hiff.mp ⟨?_, ?_⟩)
    · by_contra hne
      simp [pointed, hne] at h
    · cases x with
      | none => rfl
      | some x => simp [exponentText, exponent] at h
  · rw [formatReal, hg, List.append_assoc, scanInt_text neg hr, List.append_assoc]

end PgBson.Lib.ReadBack
