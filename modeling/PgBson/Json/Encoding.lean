import PgBson.Lib.Strtod
import Mathlib.Data.List.GetD
import Mathlib.Tactic.IntervalCases

/-! # Hexadecimal and base64

The encodings of bytes in the text form: `toHexLower` and `fromHex` for ids and subtypes,
`base64::encode` and `base64::decode` for binary data, and the UTF-8 bytes of a `\u` escape. What is
encoded is decoded again (`hexBytes_toHexLower`, `decode_encode`). -/

namespace PgBson.Json.Encoding

open PgBson.Lib.Memory PgBson.Lib.Decimal PgBson.Lib.Strtod

/-! ### Hexadecimal digits -/

/-- `fromHex(char)`; the last line is behind a `verify`, and callers have checked the digits. -/
def fromHexDigit (c : UInt8) : UInt8 :=
  if 48 ≤ c ∧ c ≤ 57 then c - 48
  else if 97 ≤ c ∧ c ≤ 102 then c - 97 + 10
  else if 65 ≤ c ∧ c ≤ 70 then c - 65 + 10
  else 0xff

/-- `fromHex(const char*)`: the byte of two digits. -/
def fromHex (c0 c1 : UInt8) : UInt8 := fromHexDigit c0 <<< 4 ||| fromHexDigit c1

def hexchars : Bytes := ascii "0123456789abcdef"

/-- `toHexLower` on one byte. -/
def hexByte (c : UInt8) : Bytes :=
  [hexchars.getD ((c &&& 0xF0) >>> 4).toNat 0, hexchars.getD (c &&& 0x0F).toNat 0]

def toHexLower (s : Bytes) : Bytes := s.flatMap hexByte

/-- The bytes of a string of digits, two for each. -/
def hexBytes : Bytes → Bytes
  | c0 :: c1 :: s => fromHex c0 c1 :: hexBytes s
  | _ => []

/-- `isHexString`. -/
def isHexString (s : Bytes) : Bool := s.all isxdigit

/-- A fact about all bytes is checked value by value. -/
theorem forall_byte {P : UInt8 → Prop} (h : ∀ n < 256, P (UInt8.ofNat n)) (c : UInt8) : P c := by
  have := h c.toNat c.toNat_lt
  rwa [UInt8.ofNat_toNat] at this

theorem hexByte_eq (c : UInt8) :
    ∃ c0 c1, hexByte c = [c0, c1] ∧ isxdigit c0 = true ∧ isxdigit c1 = true ∧
      fromHex c0 c1 = c := by
  refine ⟨_, _, rfl, ?_⟩
  revert c
  exact forall_byte (by decide +kernel)

theorem length_hexBytes : ∀ s : Bytes, (hexBytes s).length = s.length / 2
  | [] => rfl
  | [_] => by simp [hexBytes]
  | _ :: _ :: s => by
    rw [hexBytes, List.length_cons, length_hexBytes s, List.length_cons, List.length_cons]
    omega

theorem length_toHexLower (s : Bytes) : (toHexLower s).length = 2 * s.length := by
  induction s with
  | nil => rfl
  | cons c s ih =>
    rw [toHexLower, List.flatMap_cons, List.length_append, ← toHexLower, ih, List.length_cons]
    simp [hexByte]
    omega

theorem isHexString_toHexLower (s : Bytes) : isHexString (toHexLower s) = true := by
  induction s with
  | nil => rfl
  | cons c s ih =>
    obtain ⟨c0, c1, hc, h0, h1, -⟩ := hexByte_eq c
    rw [toHexLower, List.flatMap_cons, ← toHexLower, hc]
    simpa [isHexString, h0, h1] using ih

/-- **Hexadecimal digits are read back.** -/
theorem hexBytes_toHexLower (s : Bytes) : hexBytes (toHexLower s) = s := by
  induction s with
  | nil => rfl
  | cons c s ih =>
    obtain ⟨c0, c1, hc, -, -, hb⟩ := hexByte_eq c
    rw [toHexLower, List.flatMap_cons, ← toHexLower, hc]
    simp [hexBytes, hb, ih]

/-! ### Base64 -/

/-- `Alphabet::encode`. -/
def alphabet : Bytes := ascii "ABCDEFGHIJKLMNOPQRSTUVWXYZabcdefghijklmnopqrstuvwxyz0123456789+/"

/-- `Alphabet::e`: the character of six bits. -/
def e (x : UInt8) : UInt8 := alphabet.getD (x &&& 0x3f).toNat 0

/-- `Alphabet::decode`: a table with zero for all other characters. -/
def decodeChar (c : UInt8) : UInt8 := UInt8.ofNat ((alphabet.idxOf? c).getD 0)

/-- `base64::encode`. -/
def encode : Bytes → Bytes
  | [] => []
  | [a] => [e (a >>> 2), e (a <<< 4), 61, 61]
  | [a, b] => [e (a >>> 2), e (a <<< 4 ||| (b >>> 4 &&& 0xF)), e ((b &&& 0xF) <<< 2), 61]
  | a :: b :: c :: s =>
    e (a >>> 2) :: e (a <<< 4 ||| (b >>> 4 &&& 0xF)) ::
      e ((b &&& 0xF) <<< 2 ||| (c >>> 6 &&& 0x3)) :: e (c &&& 0x3f) :: encode s

/-- The three bytes of four characters. -/
def decodeGroup (w x y z : UInt8) : Bytes :=
  [(decodeChar w <<< 2 &&& (0xFC : UInt8)) ||| (decodeChar x >>> 4 &&& (0x3 : UInt8)),
   (decodeChar x <<< 4 &&& (0xF0 : UInt8)) ||| (decodeChar y >>> 2 &&& (0xF : UInt8)),
   (decodeChar y <<< 6 &&& (0xC0 : UInt8)) ||| (decodeChar z &&& (0x3F : UInt8))]

/-- `base64::decode`, on a string of groups of four. -/
def decode : Bytes → Bytes
  | w :: x :: y :: z :: s =>
    (decodeGroup w x y z).take (if z = 61 then if y = 61 then 1 else 2 else 3) ++ decode s
  | _ => []

/-- `base64::chars`. -/
def base64Chars : Bytes := alphabet ++ [61]

theorem length_alphabet : alphabet.length = 64 := by decide +kernel

theorem alphabet_spec : ∀ n < 64, decodeChar (alphabet.getD n 0) = UInt8.ofNat n ∧
    alphabet.getD n 0 ≠ 61 := by
  decide +kernel

theorem e_spec (x : UInt8) : decodeChar (e x) = x &&& 0x3f ∧ e x ≠ 61 ∧ e x ∈ base64Chars := by
  have hx : (x &&& 0x3f).toNat < 64 := by
    rw [UInt8.toNat_and]
    exact Nat.lt_of_le_of_lt Nat.and_le_right (by decide)
  obtain ⟨hd, hne⟩ := alphabet_spec _ hx
  rw [UInt8.ofNat_toNat] at hd
  have hmem : e x ∈ alphabet := by
    rw [e, List.getD_eq_getElem _ _ (hx.trans_eq length_alphabet.symm)]
    exact List.getElem_mem _
  exact ⟨hd, hne, List.mem_append_left _ hmem⟩

theorem length_encode : ∀ s : Bytes, (encode s).length = 4 * ((s.length + 2) / 3)
  | [] => rfl
  | [_] => by simp [encode]
  | [_, _] => by simp [encode]
  | _ :: _ :: _ :: s => by
    simp only [encode, List.length_cons, length_encode s]
    omega

theorem mem_encode : ∀ {s : Bytes} {c : UInt8}, c ∈ encode s → c ∈ base64Chars
  | [], c, h => by simp [encode] at h
  | [a], c, h => by
    simp only [encode, List.mem_cons, List.not_mem_nil, or_false] at h
    rcases h with rfl | rfl | rfl | rfl
    all_goals first | exact (e_spec _).2.2 | decide
  | [a, b], c, h => by
    simp only [encode, List.mem_cons, List.not_mem_nil, or_false] at h
    rcases h with rfl | rfl | rfl | rfl
    all_goals first | exact (e_spec _).2.2 | decide
  | a :: b :: d :: s, c, h => by
    simp only [encode, List.mem_cons] at h
    rcases h with rfl | rfl | rfl | rfl | h
    all_goals first | exact (e_spec _).2.2 | exact mem_encode h

/-! The bits of three bytes in four groups of six: each byte is put together from two groups. -/

theorem byte_zero (a b : UInt8) :
    ((a >>> 2 &&& (0x3f : UInt8)) <<< 2 &&& (0xFC : UInt8)) |||
      (((a <<< 4 ||| (b >>> 4 &&& (0xF : UInt8))) &&& (0x3f : UInt8)) >>> 4 &&& (0x3 : UInt8)) =
        a := by
  rw [← UInt8.toBitVec_inj]
  ext i hi
  simp only [UInt8.toBitVec_or, UInt8.toBitVec_and, UInt8.toBitVec_shiftLeft,
    UInt8.toBitVec_shiftRight, UInt8.toBitVec_ofNat]
  interval_cases i <;> simp

theorem byte_one (a b c : UInt8) :
    (((a <<< 4 ||| (b >>> 4 &&& (0xF : UInt8))) &&& (0x3f : UInt8)) <<< 4 &&& (0xF0 : UInt8)) |||
      ((((b &&& (0xF : UInt8)) <<< 2 ||| (c >>> 6 &&& (0x3 : UInt8))) &&& (0x3f : UInt8)) >>> 2 &&&
        (0xF : UInt8)) = b := by
  rw [← UInt8.toBitVec_inj]
  ext i hi
  simp only [UInt8.toBitVec_or, UInt8.toBitVec_and, UInt8.toBitVec_shiftLeft,
    UInt8.toBitVec_shiftRight, UInt8.toBitVec_ofNat]
  interval_cases i <;> simp

theorem byte_two (b c : UInt8) :
    ((((b &&& (0xF : UInt8)) <<< 2 ||| (c >>> 6 &&& (0x3 : UInt8))) &&& (0x3f : UInt8)) <<< 6 &&&
        (0xC0 : UInt8)) ||| (c &&& (0x3f : UInt8) &&& (0x3f : UInt8) &&& (0x3f : UInt8)) = c := by
  rw [← UInt8.toBitVec_inj]
  ext i hi
  simp only [UInt8.toBitVec_or, UInt8.toBitVec_and, UInt8.toBitVec_shiftLeft,
    UInt8.toBitVec_shiftRight, UInt8.toBitVec_ofNat]
  interval_cases i <;> simp

/-- **Binary data is read back.** -/
theorem decode_encode : ∀ s : Bytes, decode (encode s) = s
  | [] => rfl
  | [a] => by
    have h0 := byte_zero a 0
    simp at h0
    simp [encode, decode, decodeGroup, e_spec, h0]
  | [a, b] => by
    have h1 := byte_one a b 0
    simp at h1
    simp [encode, decode, decodeGroup, e_spec, byte_zero, h1]
  | a :: b :: c :: s => by
    simp [encode, decode, decodeGroup, e_spec, byte_zero, byte_one, byte_two, decode_encode s]

/-! ### Escapes -/

/-- `encodeUTF8`: the UTF-8 bytes of the code point with these two bytes. -/
def encodeUTF8 (first second : UInt8) : Bytes :=
  let lead : UInt8 := first <<< 2 ||| second >>> 6
  if first = 0 ∧ second < 0x80 then [second]
  else if first < 0x08 then [(0xc0 : UInt8) ||| lead, (0x80 : UInt8) ||| (~~~0xc0 &&& second)]
  else
    [(0xe0 : UInt8) ||| first >>> 4, (0x80 : UInt8) ||| (~~~0xc0 &&& lead),
     (0x80 : UInt8) ||| (~~~0xc0 &&& second)]

end PgBson.Json.Encoding
