import PgBson.Lib.Sign
import Mathlib.Data.List.Lex
import Mathlib.Tactic.Ring

/-! # Bytes in memory

A pointer is the list of the bytes from it on, so pointer arithmetic is `List.drop` and what lies
behind an object is the tail of the list. This is the part of the C library that walks over such
pointers: little-endian words, C strings, `memcmp` and `strcmp`. Only the sign of the last two is
fixed by the standard; here they answer `-1`, `0` or `1`.

On the bytes they are meant for, `memcmp` and `strcmp` are Mathlib's lexicographic order of the
lists of byte values (`memcmp_eq_order`, `strcmp_eq_order`). -/

namespace PgBson.Lib.Memory

open PgBson.Lib.Sign

/-- A string of bytes, or the memory from an address on. -/
abbrev Bytes := List UInt8

/-- The bytes of an ASCII literal. -/
def ascii (s : String) : Bytes := s.toList.map fun c => UInt8.ofNat c.toNat

/-- A byte read as a `signed char`. -/
def schar (b : UInt8) : ℤ := if b.toNat < 128 then b.toNat else (b.toNat : ℤ) - 256

/-- The byte values. -/
def nats (s : Bytes) : List ℕ := s.map UInt8.toNat

theorem nats_inj {s t : Bytes} : nats s = nats t ↔ s = t :=
  (List.map_injective_iff.mpr fun _ _ h => UInt8.toNat_inj.mp h).eq_iff

/-! ### Little-endian words -/

/-- The low `k` bytes of `n`, least significant first. -/
def le : ℕ → ℕ → Bytes
  | 0, _ => []
  | k + 1, n => UInt8.ofNat n :: le k (n / 256)

/-- The number whose little-endian bytes are given. -/
def leNat : Bytes → ℕ
  | [] => 0
  | b :: bs => b.toNat + 256 * leNat bs

/-- The `k`-byte word at a pointer. -/
def word (k : ℕ) (p : Bytes) : ℕ := leNat (p.take k)

@[simp] theorem length_le : ∀ k n, (le k n).length = k
  | 0, _ => rfl
  | k + 1, n => by simp [le, length_le k]

theorem le_add : ∀ j k n, le (j + k) n = le j n ++ le k (n / 256 ^ j)
  | 0, k, n => by simp [le]
  | j + 1, k, n => by
    rw [Nat.add_right_comm, le, le_add j k, le, Nat.div_div_eq_div_mul, pow_succ', List.cons_append]

theorem leNat_le : ∀ k n, leNat (le k n) = n % 256 ^ k
  | 0, n => by simp [le, leNat, Nat.mod_one]
  | k + 1, n => by
    have hp : (256 : ℕ) ^ (k + 1) = 256 * 256 ^ k := by ring
    rw [le, leNat, leNat_le k, UInt8.toNat_ofNat', hp, Nat.mod_mul]

theorem leNat_lt : ∀ bs : Bytes, leNat bs < 256 ^ bs.length
  | [] => by simp [leNat]
  | b :: bs => by
    have := leNat_lt bs
    have := b.toNat_lt
    rw [leNat, List.length_cons, pow_succ]
    omega

theorem le_leNat : ∀ bs : Bytes, le bs.length (leNat bs) = bs
  | [] => rfl
  | b :: bs => by
    have hb := b.toNat_lt
    have h1 : UInt8.ofNat (b.toNat + 256 * leNat bs) = b := by
      rw [← UInt8.toNat_inj, UInt8.toNat_ofNat']; omega
    have h2 : (b.toNat + 256 * leNat bs) / 256 = leNat bs := by omega
    rw [leNat, List.length_cons, le, h1, h2, le_leNat bs]

/-- **A word written at a pointer is read back**, whatever follows it. -/
theorem word_le_append (k n : ℕ) (r : Bytes) : word k (le k n ++ r) = n % 256 ^ k := by
  rw [word, List.take_left' (length_le k n), leNat_le]

/-- The `int` at a pointer. -/
def int32 (p : Bytes) : ℤ := (BitVec.ofNat 32 (word 4 p)).toInt

/-- The 64-bit word at a pointer. -/
def bits64 (p : Bytes) : BitVec 64 := BitVec.ofNat 64 (word 8 p)

theorem int32_toNat (v : BitVec 32) (r : Bytes) : int32 (le 4 v.toNat ++ r) = v.toInt := by
  rw [int32, word_le_append, Nat.mod_eq_of_lt (by simpa using v.isLt), BitVec.ofNat_toNat,
    BitVec.setWidth_eq]

theorem int32_of_lt {n : ℕ} (h : n < 2 ^ 31) (r : Bytes) : int32 (le 4 n ++ r) = n := by
  rw [int32, word_le_append, Nat.mod_eq_of_lt (by omega), BitVec.toInt_eq_toNat_of_lt] <;>
    simp <;> omega

theorem bits64_toNat (v : BitVec 64) (r : Bytes) : bits64 (le 8 v.toNat ++ r) = v := by
  rw [bits64, word_le_append, Nat.mod_eq_of_lt (by simpa using v.isLt), BitVec.ofNat_toNat,
    BitVec.setWidth_eq]

/-! ### C strings -/

/-- The C string at a pointer: the bytes before the first NUL. -/
def cstr : Bytes → Bytes
  | [] => []
  | b :: p => if b = 0 then [] else b :: cstr p

/-- What follows the C string at a pointer and its NUL. -/
def afterCstr (p : Bytes) : Bytes := p.drop ((cstr p).length + 1)

theorem cstr_append : ∀ {s : Bytes} (r : Bytes), 0 ∉ s → cstr (s ++ 0 :: r) = s
  | [], r, _ => by simp [cstr]
  | b :: s, r, h => by
    rw [List.mem_cons, not_or] at h
    rw [List.cons_append, cstr, if_neg (Ne.symm h.1), cstr_append r h.2]

theorem afterCstr_append {s : Bytes} (r : Bytes) (h : 0 ∉ s) : afterCstr (s ++ 0 :: r) = r := by
  rw [afterCstr, cstr_append r h, ← List.singleton_append, ← List.append_assoc]
  exact List.drop_left' (by simp)

theorem zero_notMem_cstr : ∀ p : Bytes, 0 ∉ cstr p
  | [] => by simp [cstr]
  | b :: p => by
    rw [cstr]
    split_ifs with h
    · simp
    · simpa [Ne.symm h] using zero_notMem_cstr p

/-- **A pointer with a NUL ahead is its C string, the NUL and the rest.** -/
theorem cstr_append_afterCstr : ∀ {p : Bytes}, 0 ∈ p → p = cstr p ++ 0 :: afterCstr p
  | [], h => by simp at h
  | b :: p, h => by
    by_cases hb : b = 0
    · simp [afterCstr, cstr, hb]
    · have hp : 0 ∈ p := by simpa [Ne.symm hb] using h
      have ih := cstr_append_afterCstr hp
      simp only [afterCstr, cstr, if_neg hb, List.length_cons, List.drop_succ_cons,
        List.cons_append] at ih ⊢
      rw [← ih]

theorem cstr_append_of_mem : ∀ {p : Bytes} (r : Bytes), 0 ∈ p → cstr (p ++ r) = cstr p
  | [], r, h => by simp at h
  | b :: p, r, h => by
    by_cases hb : b = 0
    · simp [cstr, hb]
    · have hp : 0 ∈ p := by simpa [Ne.symm hb] using h
      simp [cstr, hb, cstr_append_of_mem r hp]

theorem afterCstr_append_of_mem {p : Bytes} (r : Bytes) (h : 0 ∈ p) :
    afterCstr (p ++ r) = afterCstr p ++ r := by
  have hp := congrArg List.length (cstr_append_afterCstr h)
  rw [List.length_append, List.length_cons] at hp
  unfold afterCstr
  rw [cstr_append_of_mem r h, List.drop_append_of_le_length (by omega)]

/-! ### Comparisons -/

/-- `memcmp`: the first `n` bytes at two pointers. -/
def memcmp : ℕ → Bytes → Bytes → ℤ
  | n + 1, x :: a, y :: b => if x < y then -1 else if y < x then 1 else memcmp n a b
  | _, _, _ => 0

/-- `strcmp`: the C strings at two pointers. -/
def strcmp : Bytes → Bytes → ℤ
  | x :: a, y :: b =>
    if x < y then -1 else if y < x then 1 else if x = 0 then 0 else strcmp a b
  | _, _ => 0

/-- Two counted strings: the common part by `memcmp`, then the longer one is the greater. -/
def stringCompare (s t : Bytes) : ℤ :=
  first (memcmp (min s.length t.length) s t) ((s.length : ℤ) - t.length)

theorem order_cons {α : Type} [LinearOrder α] (x y : α) (a b : List α) :
    order (x :: a) (y :: b) = first (order x y) (order a b) := by
  rcases lt_trichotomy x y with h | rfl | h
  · rw [order_of_lt h, order_of_lt (List.cons_lt_cons_iff.mpr (Or.inl h))]; rfl
  · have hself : first (order x x) (order a b) = order a b := by simp [first]
    rw [hself]
    rcases lt_trichotomy a b with h | rfl | h
    · rw [order_of_lt h, order_of_lt (List.cons_lt_cons_iff.mpr (Or.inr ⟨rfl, h⟩))]
    · simp
    · rw [order_of_gt h, order_of_gt (List.cons_lt_cons_iff.mpr (Or.inr ⟨rfl, h⟩))]
  · rw [order_of_gt h, order_of_gt (List.cons_lt_cons_iff.mpr (Or.inl h))]; rfl

theorem order_singleton {α : Type} [LinearOrder α] (x y : α) : order [x] [y] = order x y := by
  simp [order_cons]

theorem first_order_byte (x y : UInt8) (z : ℤ) :
    first (order x.toNat y.toNat) z = if x < y then -1 else if y < x then 1 else z := by
  unfold first order
  simp only [UInt8.lt_iff_toNat_lt]
  split_ifs <;> simp_all

theorem memcmp_eq_order : ∀ {n : ℕ} {a b : Bytes}, n ≤ a.length → n ≤ b.length →
    memcmp n a b = order (nats (a.take n)) (nats (b.take n))
  | 0, a, b, _, _ => by simp [memcmp, nats]
  | n + 1, [], b, ha, _ => by simp at ha
  | n + 1, x :: a, [], _, hb => by simp at hb
  | n + 1, x :: a, y :: b, ha, hb => by
    have ih := memcmp_eq_order (n := n) (a := a) (b := b) (by simpa using ha) (by simpa using hb)
    simp only [nats, List.take_succ_cons, List.map_cons] at ih ⊢
    rw [order_cons, first_order_byte, memcmp, ih]

theorem strcmp_eq_order : ∀ {s t : Bytes} (r r' : Bytes), 0 ∉ s → 0 ∉ t →
    strcmp (s ++ 0 :: r) (t ++ 0 :: r') = order (nats s) (nats t)
  | [], [], r, r', _, _ => by simp [strcmp, nats]
  | [], y :: t, r, r', _, ht => by
    have hy : (0 : UInt8) < y := by
      have h0 : y ≠ 0 := fun h => ht (by simp [h])
      rw [UInt8.lt_iff_toNat_lt]
      rw [← UInt8.toNat_inj.ne] at h0
      simpa [Nat.pos_iff_ne_zero] using h0
    simp [strcmp, hy, nats, order]
  | x :: s, [], r, r', hs, _ => by
    have hx : (0 : UInt8) < x := by
      have h0 : x ≠ 0 := fun h => hs (by simp [h])
      rw [UInt8.lt_iff_toNat_lt]
      rw [← UInt8.toNat_inj.ne] at h0
      simpa [Nat.pos_iff_ne_zero] using h0
    have hx' : ¬ x < 0 := by rw [UInt8.lt_iff_toNat_lt]; simp
    simp [strcmp, hx, hx', nats, order]
  | x :: s, y :: t, r, r', hs, ht => by
    rw [List.mem_cons, not_or] at hs ht
    have ih := strcmp_eq_order r r' hs.2 ht.2
    have hx : x ≠ 0 := Ne.symm hs.1
    simp only [nats, List.map_cons] at ih ⊢
    rw [order_cons, first_order_byte, List.cons_append, List.cons_append, strcmp, ih, if_neg hx]

theorem strcmp_of_mem {p q : Bytes} (hp : 0 ∈ p) (hq : 0 ∈ q) :
    strcmp p q = order (nats (cstr p)) (nats (cstr q)) := by
  conv_lhs => rw [cstr_append_afterCstr hp, cstr_append_afterCstr hq]
  exact strcmp_eq_order _ _ (zero_notMem_cstr p) (zero_notMem_cstr q)

theorem memcmp_append : ∀ {n : ℕ} {a b : Bytes} (r r' : Bytes), n ≤ a.length → n ≤ b.length →
    memcmp n (a ++ r) (b ++ r') = memcmp n a b
  | 0, a, b, r, r', _, _ => by simp [memcmp]
  | n + 1, [], b, r, r', ha, _ => by simp at ha
  | n + 1, x :: a, [], r, r', _, hb => by simp at hb
  | n + 1, x :: a, y :: b, r, r', ha, hb => by
    have ih := memcmp_append (n := n) (a := a) (b := b) r r' (by simpa using ha) (by simpa using hb)
    rw [List.cons_append, List.cons_append, memcmp, memcmp, ih]

theorem sameSign_stringCompare : ∀ s t : Bytes,
    SameSign (stringCompare s t) (order (nats s) (nats t))
  | [], [] => by simp [stringCompare, memcmp, first, nats, SameSign]
  | [], y :: t => by simp [stringCompare, memcmp, first, nats, SameSign, order]; omega
  | x :: s, [] => by simp [stringCompare, memcmp, first, nats, SameSign, order]; omega
  | x :: s, y :: t => by
    have ih := sameSign_stringCompare s t
    unfold stringCompare at ih ⊢
    simp only [nats, List.map_cons, order_cons, first_order_byte, List.length_cons,
      Nat.add_min_add_right, memcmp] at ih ⊢
    split_ifs with h1 h2
    · simp [first, SameSign]
    · simp [first, SameSign]
    · push_cast
      rwa [add_sub_add_right_eq_sub]

end PgBson.Lib.Memory
