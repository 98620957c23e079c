import PgBson.Lib.Memory
import Mathlib.Algebra.Order.Ring.Nat
import Mathlib.Data.Nat.Log
import Mathlib.Tactic.Positivity

/-! # Binary64 numbers

A finite double is an integer in units of `2 ^ -1074`, the smallest positive double, so the values
of doubles are compared and rounded as integers. `nearest` rounds a ratio in these units to 53
significant bits, ties to even; it is monotone (`nearest_mono`) and exact on what needs no more than
53 bits (`nearest_exact`). -/

namespace PgBson.Lib.Binary64

open PgBson.Lib.Sign PgBson.Lib.Memory

/-! ### Rounding -/

/-- `n / d` rounded to an integer, ties to even. -/
def roundEven (n d : ℕ) : ℕ :=
  if 2 * (n % d) < d ∨ 2 * (n % d) = d ∧ n / d % 2 = 0 then n / d else n / d + 1

/-- The exponent of the last of the 53 bits kept of `n / d`. -/
def expo (n d : ℕ) : ℕ := (n / d).log2 - 52

/-- `n / d` rounded to 53 significant bits. -/
def nearest (n d : ℕ) : ℕ := roundEven n (d * 2 ^ expo n d) * 2 ^ expo n d

theorem le_roundEven (n d : ℕ) : n / d ≤ roundEven n d := by
  unfold roundEven; split_ifs <;> omega

theorem roundEven_le (n d : ℕ) : roundEven n d ≤ n / d + 1 := by
  unfold roundEven; split_ifs <;> omega

theorem roundEven_mul (k : ℕ) {d : ℕ} (hd : 0 < d) : roundEven (d * k) d = k := by
  have hm : d * k % d = 0 := Nat.mul_mod_right d k
  have hq : d * k / d = k := Nat.mul_div_cancel_left k hd
  unfold roundEven
  rw [hm, hq, if_pos (Or.inl (by omega))]

theorem roundEven_mono {n m d : ℕ} (h : n ≤ m) : roundEven n d ≤ roundEven m d := by
  rcases (Nat.div_le_div_right (c := d) h).lt_or_eq with hlt | heq
  · calc roundEven n d ≤ n / d + 1 := roundEven_le n d
      _ ≤ m / d := hlt
      _ ≤ roundEven m d := le_roundEven m d
  · -- Same quotient: only the remainders differ.
    have hn := Nat.div_add_mod n d
    have hm := Nat.div_add_mod m d
    rw [heq] at hn
    unfold roundEven
    rw [heq]
    split_ifs <;> omega

theorem expo_mono {n m d : ℕ} (h : n ≤ m) : expo n d ≤ expo m d := by
  have hq : n / d ≤ m / d := Nat.div_le_div_right h
  have hl : (n / d).log2 ≤ (m / d).log2 := by
    simpa [Nat.log2_eq_log_two] using Nat.log_mono_right hq
  unfold expo
  omega

theorem nearest_le (n d : ℕ) : nearest n d ≤ 2 ^ (expo n d + 53) := by
  have hq : n / (d * 2 ^ expo n d) < 2 ^ 53 := by
    rw [← Nat.div_div_eq_div_mul]
    refine Nat.div_lt_of_lt_mul ?_
    rw [← pow_add]
    refine Nat.lt_log2_self.trans_le (Nat.pow_le_pow_right (by omega) ?_)
    unfold expo
    omega
  have hr : roundEven n (d * 2 ^ expo n d) ≤ 2 ^ 53 := (roundEven_le _ _).trans hq
  calc nearest n d ≤ 2 ^ 53 * 2 ^ expo n d := Nat.mul_le_mul_right _ hr
    _ = 2 ^ (expo n d + 53) := by ring

theorem le_nearest {n d : ℕ} (h : 0 < expo n d) : 2 ^ (expo n d + 52) ≤ nearest n d := by
  have hl : expo n d + 52 = (n / d).log2 := by unfold expo at h ⊢; omega
  have hne : n / d ≠ 0 := by
    intro h0
    rw [h0] at hl
    simp at hl
  have hq : 2 ^ 52 ≤ n / (d * 2 ^ expo n d) := by
    rw [← Nat.div_div_eq_div_mul, Nat.le_div_iff_mul_le (by positivity), ← pow_add, add_comm, hl]
    exact Nat.log2_self_le hne
  calc 2 ^ (expo n d + 52) = 2 ^ 52 * 2 ^ expo n d := by ring
    _ ≤ nearest n d := Nat.mul_le_mul_right _ (hq.trans (le_roundEven _ _))

/-- **Rounding is monotone.** -/
theorem nearest_mono {n m d : ℕ} (h : n ≤ m) : nearest n d ≤ nearest m d := by
  rcases (expo_mono (d := d) h).lt_or_eq with hlt | heq
  · -- The larger number has more bits: a power of two lies between the results.
    calc nearest n d ≤ 2 ^ (expo n d + 53) := nearest_le n d
      _ ≤ 2 ^ (expo m d + 52) := Nat.pow_le_pow_right (by omega) (by omega)
      _ ≤ nearest m d := le_nearest (by omega)
  · unfold nearest
    rw [heq]
    exact Nat.mul_le_mul_right _ (roundEven_mono h)

/-- **What fits in 53 bits is not rounded.** -/
theorem nearest_exact {d k j : ℕ} (hd : 0 < d) (hk : k < 2 ^ 53) :
    nearest (d * (k * 2 ^ j)) d = k * 2 ^ j := by
  have hq : d * (k * 2 ^ j) / d = k * 2 ^ j := Nat.mul_div_cancel_left _ hd
  have he : expo (d * (k * 2 ^ j)) d ≤ j := by
    have hlt : k * 2 ^ j < 2 ^ (53 + j) := by
      rw [pow_add]
      exact Nat.mul_lt_mul_of_pos_right hk (by positivity)
    unfold expo
    rw [hq]
    by_cases h0 : k * 2 ^ j = 0
    · simp [h0]
    · have := (Nat.log2_lt h0).mpr hlt
      omega
  obtain ⟨i, hi⟩ := Nat.exists_eq_add_of_le he
  unfold nearest
  generalize expo (d * (k * 2 ^ j)) d = e at hi
  have hn : d * (k * 2 ^ j) = d * 2 ^ e * (k * 2 ^ i) := by rw [hi, pow_add]; ring
  rw [hn, roundEven_mul _ (by positivity), hi, pow_add]
  ring

/-! ### Doubles -/

/-- The value of a double; a finite one is `n * 2 ^ -1074`, and the zeros are one value. -/
inductive Dbl
  | nan
  | inf (neg : Bool)
  | fin (n : ℤ)
  deriving DecidableEq, Repr

/-- Minus the exponent of the unit. -/
def unitExp : ℕ := 1074

/-- `n`, negated if asked. -/
def signed (neg : Bool) (n : ℕ) : ℤ := if neg then -n else n

/-- The value of the 64 bits of a double. -/
def Dbl.ofBits (b : BitVec 64) : Dbl :=
  let e := b.toNat / 2 ^ 52 % 2 ^ 11
  let m := b.toNat % 2 ^ 52
  if e = 2047 then
    if m = 0 then .inf b.msb else .nan
  else .fin (signed b.msb (if e = 0 then m else (2 ^ 52 + m) * 2 ^ (e - 1)))

/-- The double with the value of a 32-bit float; a NaN becomes a quiet one. -/
def widen (f : BitVec 32) : BitVec 64 :=
  let s := if f.msb then 2 ^ 63 else 0
  let e := f.toNat / 2 ^ 23 % 2 ^ 8
  let m := f.toNat % 2 ^ 23
  .ofNat 64 <|
    if e = 255 then s + 2047 * 2 ^ 52 + if m = 0 then 0 else m % 2 ^ 22 * 2 ^ 29 + 2 ^ 51
    else if e = 0 then
      -- A subnormal float has its leading bit somewhere in `m`.
      if m = 0 then s else s + (m.log2 + 874) * 2 ^ 52 + (m - 2 ^ m.log2) * 2 ^ (52 - m.log2)
    else s + (e + 896) * 2 ^ 52 + m * 2 ^ 29

/-- The value of an integer, without rounding. -/
def Dbl.exact (n : ℤ) : Dbl := .fin (n * 2 ^ unitExp)

/-- `z / d` rounded to 53 significant bits. -/
def nearestInt (z : ℤ) (d : ℕ) : ℤ := signed (z < 0) (nearest z.natAbs d)

/-- The double nearest to an integer: the conversion of a 32-bit or 64-bit integer. -/
def Dbl.ofInt (n : ℤ) : Dbl := .fin (nearestInt (n * 2 ^ unitExp) 1)

/-- `<` on doubles. -/
def Dbl.lt : Dbl → Dbl → Bool
  | .fin a, .fin b => a < b
  | .inf s, .fin _ => s
  | .fin _, .inf t => !t
  | .inf s, .inf t => s && !t
  | .nan, _ | _, .nan => false

/-- `==` on doubles. -/
def Dbl.eq : Dbl → Dbl → Bool
  | .fin a, .fin b => a = b
  | .inf s, .inf t => s = t
  | _, _ => false

def Dbl.isNaN : Dbl → Bool
  | .nan => true
  | _ => false

/-- Doubles in one line: NaN, then the numbers from `-∞` to `∞`. -/
def Dbl.key : Dbl → List ℤ
  | .nan => [0]
  | .inf true => [1]
  | .fin n => [2, n]
  | .inf false => [3]

theorem Dbl.key_inj : ∀ {x y : Dbl}, x.key = y.key ↔ x = y
  | .nan, .nan | .nan, .fin _ | .fin _, .nan | .fin _, .fin _ => by simp [Dbl.key]
  | .nan, .inf s | .inf s, .nan | .inf s, .fin _ | .fin _, .inf s => by cases s <;> simp [Dbl.key]
  | .inf s, .inf t => by cases s <;> cases t <;> simp [Dbl.key]

theorem Dbl.order_key_fin (a b : ℤ) : order (Dbl.fin a).key (Dbl.fin b).key = order a b := by
  simp [Dbl.key, order_cons]

/-- **The usual comparison of doubles, with NaN put below everything, is the order of the keys.** -/
theorem Dbl.order_key (x y : Dbl) : order x.key y.key =
    if x.lt y then -1 else if x.eq y then 0
    else if x.isNaN then if y.isNaN then 0 else -1 else 1 := by
  rcases x with _ | (_ | _) | a <;> rcases y with _ | (_ | _) | b
  case fin.fin =>
    rw [Dbl.order_key_fin]
    rcases lt_trichotomy a b with h | rfl | h
    · simp [Dbl.lt, order, h]
    · simp [Dbl.lt, Dbl.eq]
    · simp [Dbl.lt, Dbl.eq, Dbl.isNaN, order, h, h.not_gt, h.ne']
  all_goals
    simp only [Dbl.key, order_cons]
    simp [Dbl.lt, Dbl.eq, Dbl.isNaN, first, order]

theorem nearestInt_mono {a b : ℤ} (d : ℕ) (h : a ≤ b) : nearestInt a d ≤ nearestInt b d := by
  unfold nearestInt signed
  by_cases ha : a < 0 <;> by_cases hb : b < 0
  · have := nearest_mono (d := d) (show b.natAbs ≤ a.natAbs by omega)
    simp [ha, hb, this]
  · simp [ha, hb]
  · omega
  · have := nearest_mono (d := d) (show a.natAbs ≤ b.natAbs by omega)
    simp [ha, hb, this]

theorem nearestInt_exact {k : ℤ} {d j : ℕ} (hd : 0 < d) (hk : k.natAbs < 2 ^ 53) :
    nearestInt (d * (k * 2 ^ j)) d = k * 2 ^ j := by
  have hn : (d * (k * 2 ^ j)).natAbs = d * (k.natAbs * 2 ^ j) := by
    simp [Int.natAbs_mul, Int.natAbs_pow]
  have hs : d * (k * 2 ^ j) < 0 ↔ k < 0 := by
    rw [← mul_assoc, mul_comm (d : ℤ), mul_assoc]
    exact ⟨fun h => neg_of_mul_neg_left h (by positivity), fun h =>
      mul_neg_of_neg_of_pos h (by positivity)⟩
  unfold nearestInt signed
  rw [hn, nearest_exact hd hk]
  simp only [hs, decide_eq_true_eq]
  split_ifs with h
  · push_cast
    rw [abs_of_neg h, neg_mul, neg_neg]
  · push_cast
    rw [abs_of_nonneg (not_lt.mp h)]

theorem Dbl.key_fin_le {a b : ℤ} : (Dbl.fin a).key ≤ (Dbl.fin b).key ↔ a ≤ b := by
  rw [← order_nonpos, Dbl.order_key_fin, order_nonpos]

/-- **Integers keep their order when they become doubles.** -/
theorem Dbl.ofInt_mono {a b : ℤ} (h : a ≤ b) : (Dbl.ofInt a).key ≤ (Dbl.ofInt b).key :=
  Dbl.key_fin_le.mpr (nearestInt_mono 1 (Int.mul_le_mul_of_nonneg_right h (by positivity)))

/-- Integers of up to 53 bits become doubles exactly. -/
theorem Dbl.ofInt_eq_exact {n : ℤ} (h : n.natAbs < 2 ^ 53) : Dbl.ofInt n = Dbl.exact n := by
  have he := nearestInt_exact (d := 1) (j := unitExp) Nat.one_pos h
  rw [Nat.cast_one, one_mul] at he
  rw [Dbl.ofInt, Dbl.exact, he]

theorem natAbs_signed (s : Bool) (n : ℕ) : (signed s n).natAbs = n := by
  cases s <;> simp [signed]

theorem signed_mul (s : Bool) (n m : ℕ) : signed s (n * m) = signed s n * m := by
  cases s <;> simp [signed]

/-- A finite double has 53 significant bits. -/
theorem Dbl.ofBits_eq_fin {b : BitVec 64} {n : ℤ} (h : Dbl.ofBits b = .fin n) :
    ∃ (k : ℤ) (j : ℕ), k.natAbs < 2 ^ 53 ∧ n = k * 2 ^ j := by
  have hm : b.toNat % 2 ^ 52 < 2 ^ 52 := Nat.mod_lt _ (by omega)
  simp only [Dbl.ofBits] at h
  split_ifs at h with h1 h2 h3
  · injection h with h
    refine ⟨signed b.msb (b.toNat % 2 ^ 52), 0, ?_, by rw [← h]; simp⟩
    rw [natAbs_signed]
    omega
  · injection h with h
    rw [signed_mul] at h
    refine ⟨signed b.msb (2 ^ 52 + b.toNat % 2 ^ 52), b.toNat / 2 ^ 52 % 2 ^ 11 - 1, ?_, ?_⟩
    · rw [natAbs_signed]
      omega
    · rw [← h]
      push_cast
      rfl

/-- **The conversion of an integer that is the value of a double is that double.** -/
theorem Dbl.ofInt_of_exact {b : BitVec 64} {a : ℤ} (h : Dbl.exact a = Dbl.ofBits b) :
    Dbl.ofInt a = Dbl.ofBits b := by
  obtain ⟨k, j, hk, hn⟩ := Dbl.ofBits_eq_fin h.symm
  have he := nearestInt_exact (d := 1) (j := j) Nat.one_pos hk
  rw [Nat.cast_one, one_mul] at he
  rw [← h, Dbl.ofInt, hn, he, Dbl.exact, hn]

end PgBson.Lib.Binary64
