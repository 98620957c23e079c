import PgBson.Lib.Binary64

/-! # Decimal numerals

The text of integers as the C and C++ libraries print it, and the functions of the `strto` family
that read it back in base ten. A reader skips white space, takes an optional sign and the longest
run of digits, and leaves the pointer behind them, or where it was when there is no digit.

An integer that is printed and not followed by a digit is read back (`strtoll_decimalInt`). -/

namespace PgBson.Lib.Decimal

open PgBson.Lib.Memory PgBson.Lib.Binary64

/-! ### Characters, in the `C` locale -/

/-- Space, `\t`, `\n`, `\v`, `\f`, `\r`. -/
def isspace (c : UInt8) : Bool := c = 32 || (9 ≤ c && c ≤ 13)

def isdigit (c : UInt8) : Bool := 48 ≤ c && c ≤ 57

/-- The character of the last digit of `n`. -/
def digit (n : ℕ) : UInt8 := UInt8.ofNat (48 + n % 10)

theorem toNat_digit (n : ℕ) : (digit n).toNat = 48 + n % 10 := by
  rw [digit, UInt8.toNat_ofNat']
  omega

theorem isdigit_digit (n : ℕ) : isdigit (digit n) = true := by
  have h := toNat_digit n
  simp only [isdigit, Bool.and_eq_true, decide_eq_true_eq, UInt8.le_iff_toNat_le]
  exact ⟨by rw [h]; simp, by rw [h]; simp; omega⟩

/-! ### Numerals -/

/-- The last `k` digits of `n`. -/
def padded : ℕ → ℕ → Bytes
  | 0, _ => []
  | k + 1, n => padded k (n / 10) ++ [digit n]

/-- The text of a natural number. -/
def decimal (n : ℕ) : Bytes := padded (Nat.log 10 n + 1) n

/-- The text of an integer. -/
def decimalInt (z : ℤ) : Bytes := if z < 0 then 45 :: decimal z.natAbs else decimal z.natAbs

/-- The number that a string of digits denotes. -/
def numeral (s : Bytes) : ℕ := s.foldl (fun n c => 10 * n + (c.toNat - 48)) 0

@[simp] theorem length_padded : ∀ k n, (padded k n).length = k
  | 0, _ => rfl
  | k + 1, n => by simp [padded, length_padded k]

theorem isdigit_of_mem_padded : ∀ {k n : ℕ} {c : UInt8}, c ∈ padded k n → isdigit c = true
  | 0, _, _, h => by simp [padded] at h
  | k + 1, n, c, h => by
    rw [padded, List.mem_append, List.mem_singleton] at h
    rcases h with h | rfl
    · exact isdigit_of_mem_padded h
    · exact isdigit_digit n

theorem numeral_concat (s : Bytes) (c : UInt8) :
    numeral (s ++ [c]) = 10 * numeral s + (c.toNat - 48) := by
  simp [numeral]

theorem numeral_append (s t : Bytes) :
    numeral (s ++ t) = numeral s * 10 ^ t.length + numeral t := by
  induction t using List.reverseRecOn with
  | nil => simp [numeral]
  | append_singleton t c ih =>
    rw [← List.append_assoc, numeral_concat, numeral_concat, ih, List.length_append,
      List.length_singleton, pow_succ]
    ring

theorem numeral_padded : ∀ k n, numeral (padded k n) = n % 10 ^ k
  | 0, n => by simp [padded, numeral, Nat.mod_one]
  | k + 1, n => by
    have hp : (10 : ℕ) ^ (k + 1) = 10 * 10 ^ k := by ring
    rw [padded, numeral_concat, numeral_padded k, toNat_digit, hp, Nat.mod_mul]
    omega

/-- **The text of a number denotes it.** -/
theorem numeral_decimal (n : ℕ) : numeral (decimal n) = n := by
  rw [decimal, numeral_padded, Nat.mod_eq_of_lt (Nat.lt_pow_succ_log_self (by omega) n)]

theorem isdigit_of_mem_decimal {n : ℕ} {c : UInt8} (h : c ∈ decimal n) : isdigit c = true :=
  isdigit_of_mem_padded h

theorem zero_notMem_decimal (n : ℕ) : 0 ∉ decimal n := fun h => by
  have := isdigit_of_mem_decimal h
  simp [isdigit] at this

theorem decimal_ne_nil (n : ℕ) : decimal n ≠ [] := by
  intro h
  have := congrArg List.length h
  simp [decimal] at this

theorem head?_padded : ∀ k n, (padded (k + 1) n).head? = some (digit (n / 10 ^ k))
  | 0, n => by simp [padded]
  | k + 1, n => by
    have ih := head?_padded k (n / 10)
    rw [padded, List.head?_append, ih, Nat.div_div_eq_div_mul, ← pow_succ']
    rfl

/-- A number in decimal does not start with a zero. -/
theorem head?_decimal_ne {n : ℕ} (h : n ≠ 0) : (decimal n).head? ≠ some 48 := by
  rw [decimal, head?_padded, ne_eq, Option.some.injEq]
  intro he
  have ht := congrArg UInt8.toNat he
  have hlo : 0 < n / 10 ^ Nat.log 10 n := Nat.div_pos (Nat.pow_log_le_self 10 h) (by positivity)
  have hhi : n / 10 ^ Nat.log 10 n < 10 := by
    rw [Nat.div_lt_iff_lt_mul (by positivity), ← pow_succ']
    exact Nat.lt_pow_succ_log_self (by omega) n
  rw [toNat_digit, Nat.mod_eq_of_lt hhi] at ht
  have h48 : (48 : UInt8).toNat = 48 := rfl
  omega

theorem exists_decimal_eq_cons (n : ℕ) : ∃ c s, decimal n = c :: s ∧ isdigit c = true := by
  obtain ⟨c, s, hs⟩ := List.exists_cons_of_ne_nil (decimal_ne_nil n)
  exact ⟨c, s, hs, isdigit_of_mem_decimal (hs ▸ List.mem_cons_self)⟩

/-! ### Readers -/

/-- What a reader returns: the value, the pointer behind what it read, `errno == ERANGE`. -/
structure Scan (α : Type) where
  value : α
  endptr : Bytes
  erange : Bool

/-- An optional sign; the flag is for a minus. -/
def scanSign : Bytes → Bool × Bytes
  | 45 :: s => (true, s)
  | 43 :: s => (false, s)
  | s => (false, s)

/-- The sign and magnitude of the integer at a pointer, and what follows it. -/
def scanInt (s : Bytes) : Option (Bool × ℕ × Bytes) :=
  let (neg, s) := scanSign (s.dropWhile isspace)
  if s.takeWhile isdigit = [] then none
  else some (neg, numeral (s.takeWhile isdigit), s.dropWhile isdigit)

/-- `strtoll`, and `strtol` where `long` has 64 bits. -/
def strtoll (s : Bytes) : Scan ℤ :=
  match scanInt s with
  | none => ⟨0, s, false⟩
  | some (neg, n, r) =>
    if signed neg n < -2 ^ 63 then ⟨-2 ^ 63, r, true⟩
    else if 2 ^ 63 ≤ signed neg n then ⟨2 ^ 63 - 1, r, true⟩
    else ⟨signed neg n, r, false⟩

/-- `strtoull`, and `strtoul` where `long` has 64 bits: a minus negates the unsigned value. -/
def strtoull (s : Bytes) : Scan (BitVec 64) :=
  match scanInt s with
  | none => ⟨0, s, false⟩
  | some (neg, n, r) =>
    if 2 ^ 64 ≤ n then ⟨BitVec.allOnes 64, r, true⟩
    else ⟨if neg then -BitVec.ofNat 64 n else BitVec.ofNat 64 n, r, false⟩

/-! ### Readers move forward -/

theorem scanSign_suffix (s : Bytes) : (scanSign s).2 <:+ s := by
  unfold scanSign
  split
  · exact List.suffix_cons _ _
  · exact List.suffix_cons _ _
  · exact List.suffix_refl _

theorem scanInt_suffix {s r : Bytes} {neg : Bool} {n : ℕ} (h : scanInt s = some (neg, n, r)) :
    r <:+ s := by
  simp only [scanInt] at h
  split_ifs at h
  injection h with h
  injection h with _ h
  injection h with _ h
  rw [← h]
  exact (List.dropWhile_suffix _).trans ((scanSign_suffix _).trans (List.dropWhile_suffix _))

theorem strtoll_suffix (s : Bytes) : (strtoll s).endptr <:+ s := by
  unfold strtoll
  split
  · exact List.suffix_refl s
  · next h => split_ifs <;> exact scanInt_suffix h

theorem strtoull_suffix (s : Bytes) : (strtoull s).endptr <:+ s := by
  unfold strtoull
  split
  · exact List.suffix_refl s
  · next h => split_ifs <;> exact scanInt_suffix h

/-! ### Reading what was printed -/

/-- The text does not go on with a digit. -/
def NoDigit (r : Bytes) : Prop := ∀ c ∈ r.head?, isdigit c = false

theorem noDigit_cons {c : UInt8} {r : Bytes} (h : isdigit c = false) : NoDigit (c :: r) := by
  intro d hd
  rw [List.head?_cons, Option.mem_def, Option.some.injEq] at hd
  exact hd ▸ h

theorem takeWhile_isdigit {ds r : Bytes} (hds : ∀ c ∈ ds, isdigit c = true) (hr : NoDigit r) :
    (ds ++ r).takeWhile isdigit = ds := by
  rw [List.takeWhile_append_of_pos hds]
  cases r with
  | nil => simp
  | cons c r => simp [hr c (by simp)]

theorem dropWhile_isdigit {ds r : Bytes} (hds : ∀ c ∈ ds, isdigit c = true) (hr : NoDigit r) :
    (ds ++ r).dropWhile isdigit = r := by
  rw [List.dropWhile_append_of_pos hds]
  cases r with
  | nil => simp
  | cons c r => simp [hr c (by simp)]

/-- A digit is neither white space nor a sign. -/
theorem not_space_of_isdigit {c : UInt8} (h : isdigit c = true) :
    isspace c = false ∧ c ≠ 45 ∧ c ≠ 43 := by
  refine ⟨?_, by rintro rfl; simp [isdigit] at h, by rintro rfl; simp [isdigit] at h⟩
  simp only [isdigit, isspace, Bool.and_eq_true, decide_eq_true_eq, UInt8.le_iff_toNat_le,
    Bool.or_eq_false_iff, decide_eq_false_iff_not, Bool.and_eq_false_iff, ← UInt8.toNat_inj] at h ⊢
  simp at h ⊢
  omega

theorem scanSign_digit {c : UInt8} {s : Bytes} (h : isdigit c = true) :
    scanSign (c :: s) = (false, c :: s) := by
  obtain ⟨-, h1, h2⟩ := not_space_of_isdigit h
  unfold scanSign
  split <;> simp_all

theorem scanInt_space {c : UInt8} (h : isspace c = true) (s : Bytes) :
    scanInt (c :: s) = scanInt s := by
  simp [scanInt, h]

theorem scanInt_decimal (n : ℕ) {r : Bytes} (hr : NoDigit r) :
    scanInt (decimal n ++ r) = some (false, n, r) := by
  obtain ⟨c, s, hs, hc⟩ := exists_decimal_eq_cons n
  have hd : (decimal n ++ r).dropWhile isspace = decimal n ++ r := by
    rw [hs, List.cons_append, List.dropWhile_cons_of_neg (by simp [not_space_of_isdigit hc])]
  have hsign : scanSign (decimal n ++ r) = (false, decimal n ++ r) := by
    rw [hs, List.cons_append, scanSign_digit hc]
  simp only [scanInt, hd, hsign, takeWhile_isdigit (fun _ => isdigit_of_mem_decimal) hr,
    dropWhile_isdigit (fun _ => isdigit_of_mem_decimal) hr, decimal_ne_nil, if_false,
    numeral_decimal]

theorem scanInt_decimalInt (z : ℤ) {r : Bytes} (hr : NoDigit r) :
    scanInt (decimalInt z ++ r) = some (decide (z < 0), z.natAbs, r) := by
  unfold decimalInt
  split_ifs with hz
  · simp only [scanInt, List.cons_append,
      List.dropWhile_cons_of_neg (show ¬ isspace 45 = true by decide), scanSign,
      takeWhile_isdigit (fun _ => isdigit_of_mem_decimal) hr,
      dropWhile_isdigit (fun _ => isdigit_of_mem_decimal) hr, decimal_ne_nil, if_false,
      numeral_decimal, hz, decide_true]
  · rw [scanInt_decimal _ hr]
    simp [hz]

theorem signed_natAbs (z : ℤ) : signed (decide (z < 0)) z.natAbs = z := by
  unfold signed
  by_cases hz : z < 0
  · simp [hz, abs_of_neg hz]
  · simp [hz, abs_of_nonneg (not_lt.mp hz)]

/-- A number in range is what `strtoll` returns. -/
theorem strtoll_of_scanInt {s r : Bytes} {neg : Bool} {n : ℕ} (h : scanInt s = some (neg, n, r))
    (hl : -2 ^ 63 ≤ signed neg n) (hu : signed neg n < 2 ^ 63) :
    strtoll s = ⟨signed neg n, r, false⟩ := by
  simp only [strtoll, h]
  rw [if_neg (by omega), if_neg (by omega)]

/-- **A 64-bit integer that was printed is read back.** -/
theorem strtoll_decimalInt {z : ℤ} (hl : -2 ^ 63 ≤ z) (hu : z < 2 ^ 63) {s r : Bytes}
    (h : scanInt s = scanInt (decimalInt z ++ r)) (hr : NoDigit r) : strtoll s = ⟨z, r, false⟩ := by
  rw [scanInt_decimalInt z hr] at h
  have hz := signed_natAbs z
  rw [strtoll_of_scanInt h (by rwa [hz]) (by rwa [hz]), hz]

/-- The same for an unsigned one. -/
theorem strtoull_decimal {n : ℕ} (hn : n < 2 ^ 64) {s r : Bytes}
    (h : scanInt s = scanInt (decimal n ++ r)) (hr : NoDigit r) :
    strtoull s = ⟨BitVec.ofNat 64 n, r, false⟩ := by
  rw [scanInt_decimal n hr] at h
  simp only [strtoull, h]
  rw [if_neg (by omega), if_neg (by simp)]

end PgBson.Lib.Decimal
