import PgBson.Lib.Decimal
import Mathlib.Data.Int.Log
import Mathlib.Data.Rat.Floor

/-! # The general format

How the C and C++ libraries write a number with a given count of significant decimal digits
(`%.16g`, a stream with its precision set), on exact rational values: round to that many digits,
to even on a tie, leave out the zeros at the end, and use an exponent where the number is large
or small.

The text denotes the rounded decimal (`general_eq`), and an integer that needs no rounding is
written in full (`general_nat`). -/

namespace PgBson.Lib.General

open PgBson.Lib.Memory PgBson.Lib.Binary64 PgBson.Lib.Decimal

/-- A positive rational rounded to `p + 1` significant decimal digits: the digits as a number, and
the exponent of the first of them. -/
def significant (p : ℕ) (q : ℚ) : ℕ × ℤ :=
  let x := Int.log 10 q
  let r := q * 10 ^ (p - x)
  let m := roundEven r.num.natAbs r.den
  if m = 10 ^ (p + 1) then (10 ^ p, x + 1) else (m, x)

/-- The last `k` digits of `n` without the zeros at their end. -/
def fraction : ℕ → ℕ → Bytes
  | 0, _ => []
  | k + 1, n => if n % 10 = 0 then fraction k (n / 10) else padded (k + 1) n

/-- Digits behind a point, or nothing. -/
def pointed (f : Bytes) : Bytes := if f = [] then [] else 46 :: f

/-- `m / 10 ^ k` in full, without zeros at the end. -/
def fixed (m k : ℕ) : Bytes := decimal (m / 10 ^ k) ++ pointed (fraction k m)

/-- An exponent, of at least two digits. -/
def exponent (x : ℤ) : Bytes :=
  101 :: (if x < 0 then 45 else 43) :: padded (max 1 (Nat.log 10 x.natAbs) + 1) x.natAbs

/-- A rational that is not negative, with `p + 1` significant digits. -/
def general (p : ℕ) (q : ℚ) : Bytes :=
  if q = 0 then [48]
  else
    let (m, x) := significant p q
    if -4 ≤ x ∧ x ≤ p then fixed m (p - x).toNat else fixed m p ++ exponent x

/-- A minus for a negative number. -/
def signText (neg : Bool) : Bytes := if neg then [45] else []

/-- A number given by its sign and magnitude; a zero may be negative. -/
def formatReal (p : ℕ) (neg : Bool) (q : ℚ) : Bytes := signText neg ++ general p q

/-! ### Rounding to significant digits -/

/-- The decimal with `p + 1` significant digits that is printed for a rational. -/
def rounded (p : ℕ) (q : ℚ) : ℚ :=
  if q = 0 then 0 else (significant p q).1 * 10 ^ ((significant p q).2 - p)

theorem div_den_bounds {r : ℚ} {l u : ℕ} (hl : l ≤ r) (hu : r < u) :
    l ≤ r.num.natAbs / r.den ∧ r.num.natAbs / r.den < u := by
  have hr : (0 : ℚ) ≤ r := le_trans (Nat.cast_nonneg l) hl
  have hd : 0 < r.den := r.den_pos
  have hn : (r.num.natAbs : ℚ) = r * r.den := by
    rw [Rat.mul_den_eq_num, Nat.cast_natAbs, abs_of_nonneg (Rat.num_nonneg.mpr hr)]
  constructor
  · rw [Nat.le_div_iff_mul_le hd]
    have : (l : ℚ) * r.den ≤ r * r.den := mul_le_mul_of_nonneg_right hl (by positivity)
    rw [← hn] at this
    exact_mod_cast this
  · rw [Nat.div_lt_iff_lt_mul hd]
    have : r * r.den < (u : ℚ) * r.den := mul_lt_mul_of_pos_right hu (by exact_mod_cast hd)
    rw [← hn] at this
    exact_mod_cast this

/-- **There are `p + 1` digits, and the first is not zero.** -/
theorem significant_bounds (p : ℕ) {q : ℚ} (hq : 0 < q) :
    10 ^ p ≤ (significant p q).1 ∧ (significant p q).1 < 10 ^ (p + 1) := by
  have hl := Int.zpow_log_le_self (b := 10) (by omega) hq
  have hu := Int.lt_zpow_succ_log_self (b := 10) (by omega) q
  push_cast at hl hu
  have hr : ((10 ^ p : ℕ) : ℚ) ≤ q * 10 ^ ((p : ℤ) - Int.log 10 q) ∧
      q * 10 ^ ((p : ℤ) - Int.log 10 q) < ((10 ^ (p + 1) : ℕ) : ℚ) := by
    have h10 : (0 : ℚ) < 10 ^ ((p : ℤ) - Int.log 10 q) := zpow_pos (by norm_num) _
    constructor
    · calc ((10 ^ p : ℕ) : ℚ) = 10 ^ Int.log 10 q * 10 ^ ((p : ℤ) - Int.log 10 q) := by
            rw [← zpow_add₀ (by norm_num)]
            simp
        _ ≤ _ := mul_le_mul_of_nonneg_right hl h10.le
    · calc q * 10 ^ ((p : ℤ) - Int.log 10 q)
          < 10 ^ (Int.log 10 q + 1) * 10 ^ ((p : ℤ) - Int.log 10 q) :=
            mul_lt_mul_of_pos_right hu h10
        _ = ((10 ^ (p + 1) : ℕ) : ℚ) := by
            rw [← zpow_add₀ (by norm_num), Nat.cast_pow, ← zpow_natCast]
            congr 1
            push_cast
            ring
  obtain ⟨h1, h2⟩ := div_den_bounds hr.1 hr.2
  have hm := roundEven_le (q * 10 ^ ((p : ℤ) - Int.log 10 q)).num.natAbs
    (q * 10 ^ ((p : ℤ) - Int.log 10 q)).den
  have hm' := le_roundEven (q * 10 ^ ((p : ℤ) - Int.log 10 q)).num.natAbs
    (q * 10 ^ ((p : ℤ) - Int.log 10 q)).den
  simp only [significant]
  split_ifs with h
  · exact ⟨le_rfl, Nat.pow_lt_pow_right (by omega) (by omega)⟩
  · exact ⟨h1.trans hm', by omega⟩

/-! ### The digits behind the point -/

theorem isdigit_of_mem_fraction : ∀ {k n : ℕ} {c : UInt8}, c ∈ fraction k n → isdigit c = true
  | 0, _, _, h => by simp [fraction] at h
  | k + 1, n, c, h => by
    rw [fraction] at h
    split_ifs at h
    · exact isdigit_of_mem_fraction h
    · exact isdigit_of_mem_padded h

theorem length_fraction_le : ∀ k n, (fraction k n).length ≤ k
  | 0, _ => le_rfl
  | k + 1, n => by
    rw [fraction]
    split_ifs
    · exact (length_fraction_le k _).trans (by omega)
    · simp

/-- The zeros that are left out scale the rest. -/
theorem numeral_fraction : ∀ k n,
    numeral (fraction k n) * 10 ^ (k - (fraction k n).length) = n % 10 ^ k
  | 0, n => by simp [fraction, numeral, Nat.mod_one]
  | k + 1, n => by
    rw [fraction]
    split_ifs with h
    · have hle := length_fraction_le k (n / 10)
      have hp : (10 : ℕ) ^ (k + 1) = 10 * 10 ^ k := by ring
      rw [show k + 1 - (fraction k (n / 10)).length = k - (fraction k (n / 10)).length + 1 by omega,
        pow_succ, ← mul_assoc, numeral_fraction k, hp, Nat.mod_mul, h]
      ring
    · simp [numeral_padded]

theorem fraction_eq_nil_iff {k n : ℕ} : fraction k n = [] ↔ 10 ^ k ∣ n := by
  constructor
  · intro h
    have := numeral_fraction k n
    rw [h] at this
    exact Nat.dvd_of_mod_eq_zero (by simpa [numeral] using this.symm)
  · induction k generalizing n with
    | zero => intro _; rfl
    | succ k ih =>
      rintro ⟨j, rfl⟩
      have hp : (10 : ℕ) ^ (k + 1) * j = 10 * (10 ^ k * j) := by ring
      rw [fraction, hp, if_pos (by omega), Nat.mul_div_cancel_left _ (by omega)]
      exact ih ⟨j, rfl⟩

/-- The digits of `fixed m k` denote `m` up to the zeros that are left out. -/
theorem numeral_fixed (m k : ℕ) :
    numeral (decimal (m / 10 ^ k) ++ fraction k m) * 10 ^ (k - (fraction k m).length) = m := by
  have hk : 10 ^ (fraction k m).length * 10 ^ (k - (fraction k m).length) = 10 ^ k := by
    rw [← pow_add, Nat.add_sub_cancel' (length_fraction_le k m)]
  rw [numeral_append, numeral_decimal, add_mul, mul_assoc, hk, numeral_fraction, mul_comm]
  exact Nat.div_add_mod m (10 ^ k)

/-- **`fixed m k` denotes `m / 10 ^ k`.** -/
theorem fixed_value (m k : ℕ) (e : ℤ) :
    (numeral (decimal (m / 10 ^ k) ++ fraction k m) : ℚ) * 10 ^ (e - (fraction k m).length) =
      m * 10 ^ (e - k) := by
  have hle := length_fraction_le k m
  have hm : (m : ℚ) = numeral (decimal (m / 10 ^ k) ++ fraction k m) *
      10 ^ ((k : ℤ) - (fraction k m).length) := by
    rw [← Nat.cast_sub hle, zpow_natCast]
    exact_mod_cast (numeral_fixed m k).symm
  rw [hm, mul_assoc, ← zpow_add₀ (by norm_num)]
  congr 2
  ring

/-! ### What the text denotes -/

/-- An optional exponent. -/
def exponentText : Option ℤ → Bytes
  | none => []
  | some x => exponent x

/-- Digits, an optional fraction and an optional exponent. -/
def numberText (a : ℕ) (f : Bytes) (x : Option ℤ) : Bytes :=
  decimal a ++ (pointed f ++ exponentText x)

/-- A decimal that is printed without a point or an exponent. -/
def Whole (p : ℕ) (q : ℚ) : Prop := ∃ z : ℕ, q = z ∧ z < 10 ^ (p + 1)

theorem whole_iff {p : ℕ} {q : ℚ} :
    Whole p q ↔ q = q.num.natAbs ∧ q.num.natAbs < 10 ^ (p + 1) := by
  constructor
  · rintro ⟨z, rfl, hz⟩
    simpa using hz
  · rintro ⟨h, hlt⟩
    exact ⟨_, h, hlt⟩

instance (p : ℕ) (q : ℚ) : Decidable (Whole p q) := decidable_of_iff _ whole_iff.symm

/-- A decimal with `p + 1` digits that is scaled beyond `10 ^ (p + 1)`, or below one, is not
whole. -/
theorem not_whole_of_exponent {p m : ℕ} {x : ℤ} (hl : 10 ^ p ≤ m) (hu : m < 10 ^ (p + 1))
    (hx : x < -4 ∨ p < x) : ¬ Whole p (m * 10 ^ (x - p)) := by
  rintro ⟨z, hz, hlt⟩
  have hl' : ((10 : ℚ) ^ (p : ℤ)) ≤ m := by
    rw [zpow_natCast]
    exact_mod_cast hl
  have hu' : (m : ℚ) < 10 ^ ((p : ℤ) + 1) := by
    rw [← Nat.cast_succ, zpow_natCast]
    exact_mod_cast hu
  have hpos : (0 : ℚ) < 10 ^ (x - p) := zpow_pos (by norm_num) _
  rcases hx with hx | hx
  · have hone : (m : ℚ) * 10 ^ (x - p) < 1 := by
      calc (m : ℚ) * 10 ^ (x - p) < 10 ^ ((p : ℤ) + 1) * 10 ^ (x - p) :=
            mul_lt_mul_of_pos_right hu' hpos
        _ = 10 ^ (x + 1) := by
            rw [← zpow_add₀ (by norm_num)]
            congr 1
            ring
        _ ≤ 10 ^ (0 : ℤ) := zpow_le_zpow_right₀ (by norm_num) (by omega)
        _ = 1 := zpow_zero _
    have hz0 : z = 0 := by
      rw [hz] at hone
      have : z < 1 := by exact_mod_cast hone
      omega
    have hm : (0 : ℚ) < m := lt_of_lt_of_le (zpow_pos (by norm_num) _) hl'
    rw [hz0, Nat.cast_zero] at hz
    exact (mul_pos hm hpos).ne' hz
  · have hbig : (10 : ℚ) ^ ((p : ℤ) + 1) ≤ m * 10 ^ (x - p) := by
      calc (10 : ℚ) ^ ((p : ℤ) + 1) ≤ 10 ^ x := zpow_le_zpow_right₀ (by norm_num) (by omega)
        _ = 10 ^ (p : ℤ) * 10 ^ (x - p) := by
            rw [← zpow_add₀ (by norm_num)]
            congr 1
            ring
        _ ≤ m * 10 ^ (x - p) := mul_le_mul_of_nonneg_right hl' hpos.le
    rw [hz, ← Nat.cast_succ, zpow_natCast] at hbig
    have : 10 ^ (p + 1) ≤ z := by exact_mod_cast hbig
    omega

/-- **The general format of a rational denotes the rounded decimal**; it has a point or an exponent
unless that decimal is whole. -/
theorem general_eq (p : ℕ) {q : ℚ} (hq : 0 ≤ q) : ∃ a f x, general p q = numberText a f x ∧
    (∀ c ∈ f, isdigit c = true) ∧
    (numeral (decimal a ++ f) : ℚ) * 10 ^ (x.getD 0 - f.length) = rounded p q ∧
    (f = [] ∧ x = none ↔ Whole p (rounded p q)) := by
  by_cases h0 : q = 0
  · refine ⟨0, [], none, by rw [general, if_pos h0]; rfl, by simp, ?_, ?_⟩
    · rw [rounded, if_pos h0, List.append_nil, numeral_decimal, Nat.cast_zero, zero_mul]
    · rw [rounded, if_pos h0]
      exact ⟨fun _ => ⟨0, by simp, by positivity⟩, fun _ => ⟨rfl, rfl⟩⟩
  · obtain ⟨hl, hu⟩ := significant_bounds p (lt_of_le_of_ne hq (Ne.symm h0))
    rw [rounded, if_neg h0]
    simp only [general, if_neg h0]
    generalize (significant p q).1 = m at hl hu
    generalize (significant p q).2 = x
    split_ifs with hx
    · obtain ⟨k, hk⟩ : ∃ k : ℕ, (p : ℤ) - x = k := ⟨_, (Int.toNat_of_nonneg (by omega)).symm⟩
      rw [hk, Int.toNat_natCast, show x - (p : ℤ) = 0 - k by omega]
      have hv := fixed_value m k 0
      refine ⟨m / 10 ^ k, fraction k m, none, by simp [fixed, numberText, exponentText],
        fun c => isdigit_of_mem_fraction, hv, ?_⟩
      constructor
      · rintro ⟨hf, -⟩
        refine ⟨m / 10 ^ k, ?_, (Nat.div_le_self _ _).trans_lt hu⟩
        rw [← hv, hf]
        simp [numeral_decimal]
      · rintro ⟨z, hz, -⟩
        refine ⟨fraction_eq_nil_iff.mpr ⟨z, ?_⟩, rfl⟩
        rw [zero_sub, zpow_neg, zpow_natCast, mul_inv_eq_iff_eq_mul₀ (by positivity)] at hz
        rw [mul_comm]
        exact_mod_cast hz
    · refine ⟨m / 10 ^ p, fraction p m, some x, by simp [fixed, numberText, exponentText],
        fun c => isdigit_of_mem_fraction, fixed_value m p x, ?_⟩
      simp only [reduceCtorEq, and_false, false_iff]
      exact not_whole_of_exponent hl hu (by omega)

/-! ### Integers -/

theorem exponent_nat {p z : ℕ} (h0 : z ≠ 0) (h : z < 10 ^ (p + 1)) : Nat.log 10 z ≤ p :=
  Nat.lt_succ_iff.mp (Nat.log_lt_of_lt_pow h0 h)

/-- The exponent of the first digit of a decimal. -/
theorem log_decimal {m : ℕ} (h0 : m ≠ 0) (k : ℤ) :
    Int.log 10 ((m : ℚ) * 10 ^ k) = Nat.log 10 m + k := by
  have hk : (0 : ℚ) < 10 ^ k := zpow_pos (by norm_num) _
  have hpos : (0 : ℚ) < m * 10 ^ k := mul_pos (by exact_mod_cast Nat.pos_of_ne_zero h0) hk
  have hl : ((10 : ℕ) : ℚ) ^ (Nat.log 10 m : ℤ) ≤ m := by
    rw [zpow_natCast]
    exact_mod_cast Nat.pow_log_le_self 10 h0
  have hu : (m : ℚ) < ((10 : ℕ) : ℚ) ^ ((Nat.log 10 m : ℤ) + 1) := by
    rw [← Nat.cast_succ, zpow_natCast]
    exact_mod_cast Nat.lt_pow_succ_log_self (by omega) m
  apply le_antisymm
  · rw [← Int.lt_add_one_iff, ← Int.lt_zpow_iff_log_lt (by omega) hpos,
      show (Nat.log 10 m : ℤ) + k + 1 = (Nat.log 10 m : ℤ) + 1 + k by ring,
      zpow_add₀ (by norm_num)]
    exact mul_lt_mul_of_pos_right hu (by exact_mod_cast hk)
  · rw [← Int.zpow_le_iff_le_log (by omega) hpos, zpow_add₀ (by norm_num)]
    exact mul_le_mul_of_nonneg_right hl (by exact_mod_cast hk.le)

/-- A decimal of up to `p + 1` digits is not rounded. -/
theorem significant_decimal {p m : ℕ} (h0 : m ≠ 0) (h : m < 10 ^ (p + 1)) (k : ℤ) :
    significant p (m * 10 ^ k) = (m * 10 ^ (p - Nat.log 10 m), (Nat.log 10 m : ℤ) + k) := by
  have hp := exponent_nat h0 h
  have hr : (m : ℚ) * 10 ^ k * 10 ^ ((p : ℤ) - ((Nat.log 10 m : ℤ) + k)) =
      ((m * 10 ^ (p - Nat.log 10 m) : ℕ) : ℚ) := by
    rw [mul_assoc, ← zpow_add₀ (by norm_num),
      show k + ((p : ℤ) - ((Nat.log 10 m : ℤ) + k)) = ((p - Nat.log 10 m : ℕ) : ℤ) by omega,
      zpow_natCast]
    push_cast
    rfl
  have hm : roundEven (m * 10 ^ (p - Nat.log 10 m)) 1 = m * 10 ^ (p - Nat.log 10 m) := by
    have := roundEven_mul (m * 10 ^ (p - Nat.log 10 m)) Nat.one_pos
    rwa [one_mul] at this
  have hne : m * 10 ^ (p - Nat.log 10 m) ≠ 10 ^ (p + 1) := by
    have hlt : m * 10 ^ (p - Nat.log 10 m) < 10 ^ (Nat.log 10 m + 1) * 10 ^ (p - Nat.log 10 m) :=
      Nat.mul_lt_mul_of_pos_right (Nat.lt_pow_succ_log_self (by omega) m) (by positivity)
    rw [← pow_add, show Nat.log 10 m + 1 + (p - Nat.log 10 m) = p + 1 by omega] at hlt
    exact hlt.ne
  simp only [significant, log_decimal h0, hr, Rat.num_natCast, Rat.den_natCast,
    Int.natAbs_natCast, hm, if_neg hne]

/-- An integer of up to `p + 1` digits is not rounded. -/
theorem significant_nat {p z : ℕ} (h0 : z ≠ 0) (h : z < 10 ^ (p + 1)) :
    significant p z = (z * 10 ^ (p - Nat.log 10 z), (Nat.log 10 z : ℤ)) := by
  have hd := significant_decimal h0 h 0
  rwa [zpow_zero, mul_one, add_zero] at hd

/-- **Rounding keeps exactly the decimals of up to `p + 1` digits.** -/
theorem rounded_eq_self_iff (p : ℕ) {q : ℚ} (hq : 0 ≤ q) :
    rounded p q = q ↔ ∃ (m : ℕ) (k : ℤ), m < 10 ^ (p + 1) ∧ q = m * 10 ^ k := by
  constructor
  · intro h
    by_cases h0 : q = 0
    · exact ⟨0, 0, by positivity, by simp [h0]⟩
    · rw [rounded, if_neg h0] at h
      exact ⟨_, _, (significant_bounds p (lt_of_le_of_ne hq (Ne.symm h0))).2, h.symm⟩
  · rintro ⟨m, k, hm, rfl⟩
    by_cases h0 : m = 0
    · simp [rounded, h0]
    have hne : (m : ℚ) * 10 ^ k ≠ 0 :=
      mul_ne_zero (by exact_mod_cast h0) (zpow_ne_zero _ (by norm_num))
    have hp := exponent_nat h0 hm
    rw [rounded, if_neg hne, significant_decimal h0 hm, Nat.cast_mul, mul_assoc, Nat.cast_pow,
      ← zpow_natCast, Nat.cast_ofNat, ← zpow_add₀ (by norm_num),
      show ((p - Nat.log 10 m : ℕ) : ℤ) + ((Nat.log 10 m : ℤ) + k - p) = k by omega]

/-- **An integer of up to `p + 1` digits is printed in full.** -/
theorem general_nat {p z : ℕ} (h : z < 10 ^ (p + 1)) : general p z = decimal z := by
  by_cases h0 : z = 0
  · subst h0
    rfl
  · have hp := exponent_nat h0 h
    have hk : ((p : ℤ) - (Nat.log 10 z : ℤ)).toNat = p - Nat.log 10 z := by omega
    simp only [general, Nat.cast_eq_zero, h0, if_false, significant_nat h0 h, hk]
    rw [if_pos (by omega), fixed, Nat.mul_div_cancel _ (by positivity),
      fraction_eq_nil_iff.mpr (Dvd.intro_left z rfl)]
    simp [pointed]

theorem formatReal_int {p : ℕ} {z : ℤ} (h : z.natAbs < 10 ^ (p + 1)) :
    formatReal p (decide (z < 0)) z.natAbs = decimalInt z := by
  rw [formatReal, general_nat h, signText, decimalInt]
  by_cases hz : z < 0 <;> simp [hz]

theorem decimalInt_eq_text (z : ℤ) :
    decimalInt z = signText (decide (z < 0)) ++ numberText z.natAbs [] none := by
  rw [decimalInt, signText, numberText]
  by_cases hz : z < 0 <;> simp [hz, pointed, exponentText]

/-! ### The characters of a number -/

theorem mem_numberText {neg : Bool} {a : ℕ} {f : Bytes} {x : Option ℤ} {c : UInt8}
    (hf : ∀ c ∈ f, isdigit c = true) (h : c ∈ signText neg ++ numberText a f x) :
    isdigit c = true ∨ c ∈ [43, 45, 46, 101] := by
  simp only [numberText, List.mem_append] at h
  rcases h with h | h | h | h
  · refine Or.inr ?_
    cases neg <;> simp_all [signText]
  · exact Or.inl (isdigit_of_mem_decimal h)
  · unfold pointed at h
    split_ifs at h
    · simp at h
    · rcases List.mem_cons.mp h with rfl | h
      · exact Or.inr (by decide)
      · exact Or.inl (hf c h)
  · cases x with
    | none => simp [exponentText] at h
    | some x =>
      simp only [exponentText, exponent, List.mem_cons] at h
      rcases h with rfl | rfl | h
      · exact Or.inr (by decide)
      · refine Or.inr ?_
        split_ifs <;> decide
      · exact Or.inl (isdigit_of_mem_padded h)

/-- A number is written in ASCII, without a NUL. -/
theorem ascii_numberText {neg : Bool} {a : ℕ} {f : Bytes} {x : Option ℤ} {c : UInt8}
    (hf : ∀ c ∈ f, isdigit c = true) (h : c ∈ signText neg ++ numberText a f x) :
    0 < c ∧ c < 128 := by
  rcases mem_numberText hf h with hd | hm
  · simp only [isdigit, Bool.and_eq_true, decide_eq_true_eq, UInt8.le_iff_toNat_le] at hd
    obtain ⟨h1, h2⟩ := hd
    rw [UInt8.lt_iff_toNat_lt, UInt8.lt_iff_toNat_lt]
    exact ⟨lt_of_lt_of_le (by decide) h1, lt_of_le_of_lt h2 (by decide)⟩
  · simp only [List.mem_cons, List.not_mem_nil, or_false] at hm
    rcases hm with rfl | rfl | rfl | rfl <;> decide

theorem ascii_formatReal {p : ℕ} {neg : Bool} {q : ℚ} {c : UInt8} (hq : 0 ≤ q)
    (h : c ∈ formatReal p neg q) : 0 < c ∧ c < 128 := by
  obtain ⟨a, f, x, hg, hf, -⟩ := general_eq p hq
  rw [formatReal, hg] at h
  exact ascii_numberText hf h

theorem ascii_decimalInt {z : ℤ} {c : UInt8} (h : c ∈ decimalInt z) : 0 < c ∧ c < 128 := by
  rw [decimalInt_eq_text] at h
  exact ascii_numberText (by simp) h

theorem zero_notMem_formatReal {p : ℕ} {neg : Bool} {q : ℚ} (hq : 0 ≤ q) :
    0 ∉ formatReal p neg q := fun h => absurd (ascii_formatReal hq h).1 (by decide)

theorem zero_notMem_decimalInt (z : ℤ) : 0 ∉ decimalInt z := fun h =>
  absurd (ascii_decimalInt h).1 (by decide)

end PgBson.Lib.General
