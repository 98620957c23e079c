import PgBson.Lib.Decimal
import Mathlib.Data.Rat.Floor

/-! # Doubles and rationals

The bits of the double nearest to a rational, and the reader `strtod` of the C library, which rounds
the number that a text denotes to the nearest double. A finite double is given by its sign and its
magnitude in units (`toBits_units`). -/

namespace PgBson.Lib.Strtod

open PgBson.Lib.Memory PgBson.Lib.Binary64 PgBson.Lib.Decimal

/-! ### Rationals and the bits of doubles -/

/-- The unit in which `Dbl` counts. -/
def unit : ℚ := 1 / 2 ^ unitExp

/-- The magnitude of a finite double in units. -/
def units (b : BitVec 64) : ℕ :=
  match Dbl.ofBits b with
  | .fin n => n.natAbs
  | _ => 0

/-- The bits of `k` units; from `2 ^ (unitExp + 1024)` on these are an infinity. -/
def toBits (neg : Bool) (k : ℕ) : BitVec 64 :=
  .ofNat 64 ((if neg then 2 ^ 63 else 0) + (k.log2 - 52) * 2 ^ 52 + k / 2 ^ (k.log2 - 52))

/-- The number of units nearest to a rational. -/
def nearestUnits (q : ℚ) : ℕ := nearest (q.num.natAbs * 2 ^ unitExp) q.den

/-- The first number of units beyond the doubles. -/
@[irreducible] def overflowUnits : ℕ := 2 ^ (unitExp + 1024)

/-! ### Bits of finite doubles -/

/-- The bits are not those of an infinity or a NaN. -/
def FiniteBits (b : BitVec 64) : Prop := b.toNat / 2 ^ 52 % 2 ^ 11 ≠ 2047

instance (b : BitVec 64) : Decidable (FiniteBits b) := inferInstanceAs (Decidable (_ ≠ _))

theorem units_eq {b : BitVec 64} (h : FiniteBits b) : units b =
    if b.toNat / 2 ^ 52 % 2 ^ 11 = 0 then b.toNat % 2 ^ 52
    else (2 ^ 52 + b.toNat % 2 ^ 52) * 2 ^ (b.toNat / 2 ^ 52 % 2 ^ 11 - 1) := by
  simp only [units, Dbl.ofBits, if_neg h, natAbs_signed]

theorem log2_mul_pow {m j : ℕ} (hl : 2 ^ 52 ≤ m) (hu : m < 2 ^ 53) :
    (m * 2 ^ j).log2 = 52 + j := by
  rw [Nat.log2_eq_iff (by positivity), pow_add, show 52 + j + 1 = 53 + j by omega, pow_add]
  exact ⟨Nat.mul_le_mul_right _ hl, Nat.mul_lt_mul_of_pos_right hu (by positivity)⟩

theorem toBits_small {neg : Bool} {m : ℕ} (h : m < 2 ^ 52) :
    toBits neg m = .ofNat 64 ((if neg then 2 ^ 63 else 0) + m) := by
  have hl : m.log2 - 52 = 0 := by
    by_cases h0 : m = 0
    · simp [h0]
    · have := (Nat.log2_lt h0).mpr h
      omega
  simp [toBits, hl]

theorem toBits_mul_pow {neg : Bool} {m j : ℕ} (hl : 2 ^ 52 ≤ m) (hu : m < 2 ^ 53) :
    toBits neg (m * 2 ^ j) = .ofNat 64 ((if neg then 2 ^ 63 else 0) + j * 2 ^ 52 + m) := by
  have hj : (m * 2 ^ j).log2 - 52 = j := by rw [log2_mul_pow hl hu]; omega
  rw [toBits, hj, Nat.mul_div_cancel _ (by positivity)]

theorem sign_bits (b : BitVec 64) :
    (if b.msb then 2 ^ 63 else 0) = b.toNat / 2 ^ 63 * 2 ^ 63 := by
  have hb := b.isLt
  rw [BitVec.msb_eq_decide]
  by_cases hm : 2 ^ 63 ≤ b.toNat
  · simp only [Nat.add_one_sub_one, hm, decide_true, if_true]
    omega
  · simp only [Nat.add_one_sub_one, hm, decide_false, Bool.false_eq_true, if_false]
    omega

/-- **A finite double is given by its sign and magnitude.** -/
theorem toBits_units {b : BitVec 64} (h : FiniteBits b) : toBits b.msb (units b) = b := by
  have hb := b.isLt
  have hs := sign_bits b
  rw [units_eq h]
  split_ifs with he
  · rw [toBits_small (Nat.mod_lt _ (by omega)), hs, ← BitVec.toNat_inj, BitVec.toNat_ofNat]
    omega
  · rw [toBits_mul_pow (by omega) (by omega), hs, ← BitVec.toNat_inj, BitVec.toNat_ofNat]
    omega

theorem toBits_overflowUnits {b : BitVec 64} {neg : Bool} (h : Dbl.ofBits b = .inf neg) :
    toBits neg overflowUnits = b := by
  have hb := b.isLt
  have hs := sign_bits b
  simp only [Dbl.ofBits] at h
  split_ifs at h with he hm
  injection h with h
  have hu : overflowUnits = 2 ^ 52 * 2 ^ 2046 := by
    unfold overflowUnits unitExp
    rw [← pow_add]
  rw [hu, toBits_mul_pow le_rfl (by omega), ← h, hs, ← BitVec.toNat_inj, BitVec.toNat_ofNat]
  omega

theorem units_toBits_small {neg : Bool} {m : ℕ} (h : m < 2 ^ 52) : units (toBits neg m) = m := by
  rw [toBits_small h]
  have hn : (BitVec.ofNat 64 ((if neg then 2 ^ 63 else 0) + m)).toNat =
      (if neg then 2 ^ 63 else 0) + m := by
    rw [BitVec.toNat_ofNat]
    split_ifs <;> omega
  rw [units_eq (by rw [FiniteBits, hn]; split_ifs <;> omega), hn]
  split_ifs <;> omega

theorem units_toBits_mul_pow {neg : Bool} {m j : ℕ} (hl : 2 ^ 52 ≤ m) (hu : m < 2 ^ 53)
    (hj : j < 2046) : units (toBits neg (m * 2 ^ j)) = m * 2 ^ j := by
  rw [toBits_mul_pow hl hu]
  have hn : (BitVec.ofNat 64 ((if neg then 2 ^ 63 else 0) + j * 2 ^ 52 + m)).toNat =
      (if neg then 2 ^ 63 else 0) + j * 2 ^ 52 + m := by
    rw [BitVec.toNat_ofNat]
    split_ifs <;> omega
  have he : ((if neg then 2 ^ 63 else 0) + j * 2 ^ 52 + m) / 2 ^ 52 % 2 ^ 11 = j + 1 := by
    split_ifs <;> omega
  have hm : ((if neg then 2 ^ 63 else 0) + j * 2 ^ 52 + m) % 2 ^ 52 = m - 2 ^ 52 := by
    split_ifs <;> omega
  rw [units_eq (by rw [FiniteBits, hn, he]; omega), hn, he, hm, if_neg (by omega),
    Nat.add_sub_cancel' hl, Nat.add_sub_cancel]

/-- **What was rounded to 53 bits is the magnitude of its bits**, below the first number beyond the
doubles. -/
theorem units_toBits_nearest (neg : Bool) {n d : ℕ} (h : nearest n d < overflowUnits) :
    units (toBits neg (nearest n d)) = nearest n d := by
  have hexp : ∀ {m j : ℕ}, 2 ^ 52 ≤ m → m * 2 ^ j < overflowUnits → j < 2046 := by
    intro m j hm hlt
    have h1 : 2 ^ (52 + j) < 2 ^ (unitExp + 1024) := by
      unfold overflowUnits at hlt
      rw [pow_add]
      exact (Nat.mul_le_mul_right _ hm).trans_lt hlt
    have h2 := (Nat.pow_lt_pow_iff_right (by omega)).mp h1
    unfold unitExp at h2
    omega
  have hpos : 0 < 2 ^ expo n d := by positivity
  have hR : roundEven n (d * 2 ^ expo n d) ≤ 2 ^ 53 := by
    have hle := nearest_le n d
    rw [nearest, Nat.add_comm, pow_add] at hle
    exact Nat.le_of_mul_le_mul_right hle hpos
  have hlow : 0 < expo n d → 2 ^ 52 ≤ roundEven n (d * 2 ^ expo n d) := by
    intro he
    have hle := le_nearest he
    rw [nearest, Nat.add_comm, pow_add] at hle
    exact Nat.le_of_mul_le_mul_right hle hpos
  unfold nearest at h ⊢
  generalize roundEven n (d * 2 ^ expo n d) = R at h hR hlow
  generalize expo n d = e at h hlow
  rcases Nat.lt_or_ge R (2 ^ 52) with hsmall | hlarge
  · have he : e = 0 := by
      by_contra hne
      have := hlow (by omega)
      omega
    rw [he, pow_zero, mul_one]
    exact units_toBits_small hsmall
  · rcases hR.lt_or_eq with hlt | rfl
    · exact units_toBits_mul_pow hlarge hlt (hexp hlarge h)
    · have hcarry : 2 ^ 53 * 2 ^ e = 2 ^ 52 * 2 ^ (e + 1) := by
        rw [← pow_add, ← pow_add]
        congr 1
        omega
      rw [hcarry] at h ⊢
      exact units_toBits_mul_pow le_rfl (by omega) (hexp le_rfl h)

/-! ### `strtod` -/

/-- What the standard leaves to the implementation: the bits of a NaN for its sign and the
characters in its parentheses, and whether a magnitude below the normal range sets `errno`. -/
structure Runtime where
  nan : Bool → Bytes → BitVec 64
  underflow : ℚ → Bool

/-- A common choice: quiet NaNs, and `errno` is set for tiny results that had to be rounded. -/
def Runtime.common : Runtime where
  nan neg _ := if neg then 0xfff8000000000000 else 0x7ff8000000000000
  underflow q := nearestUnits q * unit ≠ q

def isxdigit (c : UInt8) : Bool :=
  isdigit c || (65 ≤ c && c ≤ 70) || (97 ≤ c && c ≤ 102)

/-- The value of a hexadecimal digit. -/
def xdigit (c : UInt8) : ℕ :=
  if isdigit c then c.toNat - 48 else if c ≤ 70 then c.toNat - 55 else c.toNat - 87

/-- A lower-case word at a pointer, in any case. -/
def caseless : Bytes → Bytes → Option Bytes
  | [], s => some s
  | w :: ws, c :: s => if c = w ∨ c + 32 = w ∧ 65 ≤ c ∧ c ≤ 90 then caseless ws s else none
  | _ :: _, [] => none

/-- The digits before and behind an optional point. -/
def scanFraction (dig : UInt8 → Bool) (s : Bytes) : Option (Bytes × Bytes × Bytes) :=
  let (f, r) :=
    match s.dropWhile dig with
    | 46 :: t => (t.takeWhile dig, t.dropWhile dig)
    | t => ([], t)
  if s.takeWhile dig = [] ∧ f = [] then none else some (s.takeWhile dig, f, r)

/-- An optional exponent behind the letter `c`, in any case. -/
def scanExponent (c : UInt8) (s : Bytes) : ℤ × Bytes :=
  match caseless [c] s with
  | none => (0, s)
  | some t =>
    let (neg, u) := scanSign t
    if u.takeWhile isdigit = [] then (0, s)
    else (signed neg (numeral (u.takeWhile isdigit)), u.dropWhile isdigit)

/-- A decimal number without its sign. -/
def scanDecimal (s : Bytes) : Option (ℚ × Bytes) := do
  let (i, f, r) ← scanFraction isdigit s
  let (e, r) := scanExponent 101 r
  return (numeral (i ++ f) * 10 ^ (e - f.length), r)

/-- A hexadecimal number without its sign. -/
def scanHex (s : Bytes) : Option (ℚ × Bytes) := do
  let t ← caseless [48, 120] s
  let (i, f, r) ← scanFraction isxdigit t
  let (e, r) := scanExponent 112 r
  return ((i ++ f).foldl (fun n c => 16 * n + xdigit c) 0 * 2 ^ (e - 4 * f.length), r)

/-- The characters in the parentheses behind a NaN, if there are any. -/
def scanNan (s : Bytes) : Bytes × Bytes :=
  let nchar (c : UInt8) : Bool := isdigit c || (65 ≤ c && c ≤ 90) || (97 ≤ c && c ≤ 122) || c = 95
  match s with
  | 40 :: t =>
    match t.dropWhile nchar with
    | 41 :: r => (t.takeWhile nchar, r)
    | _ => ([], s)
  | _ => ([], s)

/-- The double nearest to a rational; it is out of range beyond the largest double, and below the
normal range where the implementation says so. -/
def scanned (rt : Runtime) (neg : Bool) (q : ℚ) (r : Bytes) : Scan (BitVec 64) :=
  if overflowUnits ≤ nearestUnits q then ⟨toBits neg overflowUnits, r, true⟩
  else ⟨toBits neg (nearestUnits q), r, decide (0 < q ∧ q < 2 ^ 52 * unit) && rt.underflow q⟩

/-- `strtod`. -/
def strtod (rt : Runtime) (s : Bytes) : Scan (BitVec 64) :=
  let (neg, t) := scanSign (s.dropWhile isspace)
  match caseless (ascii "infinity") t <|> caseless (ascii "inf") t with
  | some r => ⟨toBits neg overflowUnits, r, false⟩
  | none =>
    match caseless (ascii "nan") t with
    | some u => ⟨rt.nan neg (scanNan u).1, (scanNan u).2, false⟩
    | none =>
      match scanHex t <|> scanDecimal t with
      | some (q, r) => scanned rt neg q r
      | none => ⟨0, s, false⟩

/-! ### `strtod` moves forward -/

theorem caseless_suffix : ∀ {w s r : Bytes}, caseless w s = some r → r <:+ s
  | [], s, r, h => by
    rw [caseless, Option.some.injEq] at h
    exact h ▸ List.suffix_refl s
  | _ :: _, [], _, h => by cases h
  | w :: ws, c :: s, r, h => by
    rw [caseless] at h
    split_ifs at h
    exact (caseless_suffix h).trans (List.suffix_cons c s)

theorem scanFraction_suffix {dig : UInt8 → Bool} {s i f r : Bytes}
    (h : scanFraction dig s = some (i, f, r)) : r <:+ s := by
  have hd : s.dropWhile dig <:+ s := List.dropWhile_suffix _
  simp only [scanFraction] at h
  split at h <;> split_ifs at h <;> simp only [Option.some.injEq, Prod.mk.injEq] at h
  · next t ht _ =>
    rw [← h.2.2]
    rw [ht] at hd
    exact (List.dropWhile_suffix _).trans ((List.suffix_cons _ _).trans hd)
  · rw [← h.2.2]
    exact hd

theorem scanExponent_suffix (c : UInt8) (s : Bytes) : (scanExponent c s).2 <:+ s := by
  unfold scanExponent
  split
  · exact List.suffix_refl s
  · next t ht =>
    dsimp only
    split_ifs
    · exact List.suffix_refl s
    · exact (List.dropWhile_suffix _).trans ((scanSign_suffix t).trans (caseless_suffix ht))

theorem scanDecimal_suffix {s r : Bytes} {q : ℚ} (h : scanDecimal s = some (q, r)) : r <:+ s := by
  simp only [scanDecimal, bind, Option.bind_eq_some_iff, pure, Option.some.injEq,
    Prod.mk.injEq] at h
  obtain ⟨⟨i, f, t⟩, ht, -, hr⟩ := h
  rw [← hr]
  exact (scanExponent_suffix 101 t).trans (scanFraction_suffix ht)

theorem scanHex_suffix {s r : Bytes} {q : ℚ} (h : scanHex s = some (q, r)) : r <:+ s := by
  simp only [scanHex, bind, Option.bind_eq_some_iff, pure, Option.some.injEq, Prod.mk.injEq] at h
  obtain ⟨u, hu, ⟨i, f, t⟩, ht, -, hr⟩ := h
  rw [← hr]
  exact (scanExponent_suffix 112 t).trans ((scanFraction_suffix ht).trans (caseless_suffix hu))

theorem scanNan_suffix (s : Bytes) : (scanNan s).2 <:+ s := by
  unfold scanNan
  dsimp only
  split
  · next t =>
    split
    · next r hr =>
      have := List.dropWhile_suffix (l := t) fun c : UInt8 =>
        isdigit c || (65 ≤ c && c ≤ 90) || (97 ≤ c && c ≤ 122) || c = 95
      rw [hr] at this
      exact (List.suffix_cons _ _).trans (this.trans (List.suffix_cons _ _))
    · exact List.suffix_refl _
  · exact List.suffix_refl _

theorem strtod_suffix (rt : Runtime) (s : Bytes) : (strtod rt s).endptr <:+ s := by
  have hsign : (scanSign (s.dropWhile isspace)).2 <:+ s :=
    (scanSign_suffix _).trans (List.dropWhile_suffix _)
  unfold strtod
  dsimp only
  split
  · next r hr =>
    rw [Option.orElse_eq_some] at hr
    rcases hr with hr | ⟨-, hr⟩ <;> exact (caseless_suffix hr).trans hsign
  · split
    · next u hu => exact (scanNan_suffix u).trans ((caseless_suffix hu).trans hsign)
    · split
      · next q r hr =>
        have hq : r <:+ (scanSign (s.dropWhile isspace)).2 := by
          rw [Option.orElse_eq_some] at hr
          rcases hr with hr | ⟨-, hr⟩
          · exact scanHex_suffix hr
          · exact scanDecimal_suffix hr
        unfold scanned
        split_ifs <;> exact hq.trans hsign
      · exact List.suffix_refl s

/-! ### Integers are in range -/

theorem nearest_two_pow (j : ℕ) : nearest (2 ^ j) 1 = 2 ^ j := by
  have h := nearest_exact (d := 1) (k := 1) (j := j) Nat.one_pos (by omega)
  rwa [one_mul, one_mul] at h

theorem nearestUnits_nat_lt {z : ℕ} (h : z < 2 ^ 64) : nearestUnits z < overflowUnits := by
  simp only [nearestUnits, Rat.num_natCast, Rat.den_natCast, Int.natAbs_natCast]
  unfold overflowUnits
  generalize unitExp = u
  have hle : z * 2 ^ u ≤ 2 ^ (64 + u) := by
    rw [pow_add]
    exact Nat.mul_le_mul_right _ h.le
  calc nearest (z * 2 ^ u) 1 ≤ nearest (2 ^ (64 + u)) 1 := nearest_mono hle
    _ = 2 ^ (64 + u) := nearest_two_pow _
    _ < 2 ^ (u + 1024) := Nat.pow_lt_pow_right (by omega) (by omega)

/-- A 64-bit integer is in the range of the doubles. -/
theorem scanned_nat (rt : Runtime) (neg : Bool) {z : ℕ} (h : z < 2 ^ 64) (r : Bytes) :
    (scanned rt neg z r).endptr = r ∧ (scanned rt neg z r).erange = false := by
  have hsmall : ¬ ((0 : ℚ) < z ∧ (z : ℚ) < 2 ^ 52 * unit) := by
    rintro ⟨hpos, hlt⟩
    have h1 : (1 : ℚ) ≤ z := by exact_mod_cast hpos
    have hu : (2 : ℚ) ^ 52 * unit ≤ 1 := by
      rw [unit, mul_one_div, div_le_one (by positivity)]
      exact pow_le_pow_right₀ (by norm_num) (by unfold unitExp; omega)
    linarith
  rw [scanned, if_neg (not_le.mpr (nearestUnits_nat_lt h))]
  exact ⟨rfl, by simp only [hsmall, decide_false, Bool.false_and]⟩

end PgBson.Lib.Strtod
