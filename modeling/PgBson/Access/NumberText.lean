import PgBson.Access.Get
import PgBson.Lib.ReadBack

/-! # Numbers as texts

An index on `bson_get_text` is an index on the texts of a field. Integers are printed in full.
Doubles go through a stream with its default precision and keep six significant digits, so the text
denotes the stored number exactly when the double is a decimal of up to six digits
(`bsonGetText_faithful_iff`); other doubles share their texts. -/

namespace PgBson.Access.NumberText

open PgBson.Lib.Memory PgBson.Lib.Binary64 PgBson.Lib.Decimal PgBson.Lib.General PgBson.Lib.Strtod
open PgBson.Lib.ReadBack PgBson.Bson.Types PgBson.Bson.Document
open PgBson.Access.Lookup PgBson.Access.Get

/-- The number of a finite numeric value. -/
def finiteNumber : Value → Option ℚ
  | .numberInt v => some v.toInt
  | .numberLong v => some v.toInt
  | .numberDouble b =>
    match Dbl.ofBits b with
    | .fin n => some (n * unit)
    | _ => none
  | _ => none

/-- A decimal of up to six significant digits. -/
def SixDigits (x : ℚ) : Prop := ∃ (m k : ℤ), m.natAbs < 10 ^ 6 ∧ x = m * 10 ^ k

/-- An integer, or a double of up to six significant digits. -/
def Brief (v : Value) (x : ℚ) : Prop := v.type = .numberDouble → SixDigits x

/-! ### Doubles -/

/-- A finite double by its sign and its magnitude. -/
theorem ofBits_eq_signed {b : BitVec 64} {n : ℤ} (h : Dbl.ofBits b = .fin n) :
    n = signed b.msb (units b) := by
  have hfin : FiniteBits b := by
    intro he
    simp only [Dbl.ofBits, if_pos he] at h
    split_ifs at h
  rw [units_eq hfin]
  simp only [Dbl.ofBits, if_neg hfin, Dbl.fin.injEq] at h
  exact h.symm

theorem cast_signed (neg : Bool) (n : ℕ) :
    ((signed neg n : ℤ) : ℚ) = if neg then -(n : ℚ) else n := by
  cases neg <;> simp [signed]

theorem sixDigits_neg {x : ℚ} : SixDigits (-x) ↔ SixDigits x := by
  have hneg : ∀ {y : ℚ}, SixDigits y → SixDigits (-y) := by
    rintro y ⟨m, k, hm, rfl⟩
    exact ⟨-m, k, by rwa [Int.natAbs_neg], by push_cast; ring⟩
  exact ⟨fun h => neg_neg x ▸ hneg h, hneg⟩

/-- Six digits are kept by the precision of a stream. -/
theorem rounded_five_iff {q : ℚ} (hq : 0 ≤ q) : rounded 5 q = q ↔ SixDigits q := by
  rw [rounded_eq_self_iff 5 hq]
  constructor
  · rintro ⟨m, k, hm, h⟩
    exact ⟨m, k, by simpa using hm, by simpa using h⟩
  · rintro ⟨m, k, hm, rfl⟩
    refine ⟨m.natAbs, k, hm, ?_⟩
    have hk : (0 : ℚ) < 10 ^ k := zpow_pos (by norm_num) _
    have hm0 : (0 : ℚ) ≤ m := nonneg_of_mul_nonneg_left hq hk
    rw [Nat.cast_natAbs, abs_of_nonneg (by exact_mod_cast hm0)]

/-- **The text of a finite double denotes it exactly when six digits do.** -/
theorem denoted_streamDouble_iff {b : BitVec 64} {n : ℤ} (h : Dbl.ofBits b = .fin n) :
    denoted (streamDouble b) = some (n * unit) ↔ SixDigits (n * unit) := by
  have hq : (0 : ℚ) ≤ units b * unit := mul_nonneg (Nat.cast_nonneg _) (by unfold unit; positivity)
  have hx : (n : ℚ) * unit = if b.msb then -(units b * unit) else units b * unit := by
    rw [ofBits_eq_signed h, cast_signed]
    split_ifs <;> ring
  simp only [streamDouble, h, denoted_formatReal 5 b.msb hq, hx, Option.some.injEq]
  split_ifs with hs
  · rw [neg_inj, sixDigits_neg, rounded_five_iff hq]
  · exact rounded_five_iff hq

/-! ### Texts of numbers -/

/-- The text of a finite number is a text, which denotes the number when it is brief, and only
then. -/
theorem textOf_finiteNumber (lib : Library) {v : Value} {x : ℚ} (h : finiteNumber v = some x) :
    ∃ t, textOf lib v = .ok t ∧ (denoted t = some x ↔ Brief v x) := by
  cases v with
  | numberInt a | numberLong a =>
    obtain rfl := Option.some.inj h
    refine ⟨_, rfl, ?_⟩
    rw [denoted_decimalInt]
    exact iff_of_true rfl fun ht => by cases ht
  | numberDouble b =>
    rw [finiteNumber] at h
    refine ⟨_, rfl, ?_⟩
    cases hb : Dbl.ofBits b with
    | fin n =>
      rw [hb] at h
      obtain rfl := Option.some.inj h
      rw [denoted_streamDouble_iff hb]
      exact ⟨fun hs _ => hs, fun hs => hs rfl⟩
    | nan | inf neg => simp [hb] at h
  | _ => cases h

/-- The accessor returns a text for a finite number. -/
theorem bsonGetText_finiteNumber (lib : Library) (a : Stored) (r path : Bytes) {v : Value} {x : ℚ}
    (hv : valueAt a.doc path = some v) (hx : finiteNumber v = some x) :
    ∃ t, bsonGetText lib (a.bytes ++ r) path = .ok (some t) ∧
      (denoted t = some x ↔ Brief v x) := by
  obtain ⟨t, ht, hd⟩ := textOf_finiteNumber lib hx
  exact ⟨t, (bsonGet_eq_some (converts_text lib) a).mpr ⟨v, hv, ht⟩, hd⟩

/-- **The text of a finite number denotes it exactly when it is an integer or a double of up to six
significant digits**, and among such numbers equal texts mean equal numbers. -/
theorem bsonGetText_faithful_iff (lib : Library) (a b : Stored) (r r' path : Bytes) (v w : Value)
    (x y : ℚ) (hv : valueAt a.doc path = some v) (hx : finiteNumber v = some x)
    (hw : valueAt b.doc path = some w) (hy : finiteNumber w = some y) :
    ((∃ t, bsonGetText lib (a.bytes ++ r) path = .ok (some t) ∧ denoted t = some x) ↔
      Brief v x) ∧
    (Brief v x → Brief w y →
      bsonGetText lib (a.bytes ++ r) path = bsonGetText lib (b.bytes ++ r') path → x = y) := by
  obtain ⟨t, ht, hd⟩ := bsonGetText_finiteNumber lib a r path hv hx
  obtain ⟨u, hu, he⟩ := bsonGetText_finiteNumber lib b r' path hw hy
  refine ⟨⟨?_, fun hb => ⟨t, ht, hd.mpr hb⟩⟩, fun hbx hby heq => ?_⟩
  · rintro ⟨s, hs, hsx⟩
    rw [ht] at hs
    obtain rfl := Option.some.inj (Except.ok.inj hs)
    exact hd.mp hsx
  · rw [ht, hu] at heq
    obtain rfl := Option.some.inj (Except.ok.inj heq)
    exact Option.some.inj ((hd.mpr hbx).symm.trans (he.mpr hby))

/-- `{"a": 7}`. -/
def sevenDoc : Stored where
  doc := .cons (ascii "a") (.numberInt 7) .nil
  valid := by decide
  size := by decide

/-- `{"a": 1.0}`. -/
def oneDoc : Stored where
  doc := .cons (ascii "a") (.numberDouble 0x3ff0000000000000) .nil
  valid := by decide
  size := by decide

/-- `{"a": x}`, where `x` is the double next to one. -/
def nextDoc : Stored where
  doc := .cons (ascii "a") (.numberDouble 0x3ff0000000000001) .nil
  valid := by decide
  size := by decide

/-- `{"a": 1.5}`. -/
def decimalDoc : Stored where
  doc := .cons (ascii "a") (.numberDouble 0x3ff8000000000000) .nil
  valid := by decide
  size := by decide

theorem bsonGetText_faithful_decimalDoc :
    finiteNumber (.numberDouble 0x3ff8000000000000) = some (3 / 2) ∧
    finiteNumber (.numberInt 7) = some 7 ∧
    (∃ t, bsonGetText .timeless (decimalDoc.bytes ++ []) (ascii "a") = .ok (some t) ∧
      denoted t = some (3 / 2)) ∧
    bsonGetText .timeless (decimalDoc.bytes ++ []) (ascii "a") ≠
      bsonGetText .timeless (sevenDoc.bytes ++ []) (ascii "a") := by
  have hx : finiteNumber (.numberDouble 0x3ff8000000000000) = some (3 / 2) := by decide +kernel
  have hy : finiteNumber (.numberInt 7) = some 7 := by rfl
  have hbx : Brief (.numberDouble 0x3ff8000000000000) (3 / 2) :=
    fun _ => ⟨15, -1, by decide, by norm_num⟩
  have hby : Brief (.numberInt 7) 7 := fun h => by cases h
  obtain ⟨hiff, heq⟩ := bsonGetText_faithful_iff .timeless decimalDoc sevenDoc [] [] (ascii "a") _ _
    (3 / 2) 7 rfl hx rfl hy
  exact ⟨hx, hy, hiff.mpr hbx, fun h => absurd (heq hbx hby h) (by norm_num)⟩

theorem nextDoc_text_eq_oneDoc_text :
    (∃ x y, finiteNumber (.numberDouble 0x3ff0000000000000) = some x ∧
      finiteNumber (.numberDouble 0x3ff0000000000001) = some y ∧ x ≠ y) ∧
    bsonGetText .timeless oneDoc.bytes (ascii "a") = .ok (some (ascii "1")) ∧
    bsonGetText .timeless nextDoc.bytes (ascii "a") = .ok (some (ascii "1")) := by
  refine ⟨⟨_, _, rfl, rfl, ?_⟩, ?_, ?_⟩
  · decide +kernel
  · decide +kernel
  · decide +kernel

end PgBson.Access.NumberText
