import PgBson.Access.Congruence
import PgBson.Access.Get

/-! # The order of extracted integers

An index on `bson_get_bson` sorts by `bson_compare`. Two integers of the same width are compared as
they are, and integers of different widths as doubles. A `NumberInt` is far from the end of the
range in which doubles hold every integer, so that rounding a `NumberLong` never carries it across,
and the comparison agrees with the order of the integers (`bsonCompare_integers`). -/

namespace PgBson.Access.Integers

open PgBson.Lib.Sign PgBson.Lib.Memory PgBson.Lib.Binary64
open PgBson.Bson.Types PgBson.Bson.Document
open PgBson.Compare.WoCompare PgBson.Compare.Cmp PgBson.Compare.Leaf PgBson.Compare.Same
open PgBson.Access.Lookup PgBson.Access.Get PgBson.Access.Congruence

/-- Rounding does not carry an integer across a small one. -/
theorem order_ofInt_exact {a b : ℤ} (hb : b.natAbs + 1 < 2 ^ 53) :
    order (Dbl.ofInt a).key (Dbl.exact b).key = order a b := by
  have hexact : Dbl.ofInt b = Dbl.exact b := Dbl.ofInt_eq_exact (by omega)
  rcases lt_trichotomy a b with h | rfl | h
  · have hle : (Dbl.ofInt a).key ≤ (Dbl.exact b).key := hexact ▸ Dbl.ofInt_mono h.le
    have hne : (Dbl.ofInt a).key ≠ (Dbl.exact b).key := fun he =>
      h.ne ((ofInt_eq_exact_iff hb).mp (Dbl.key_inj.mp he))
    rw [order_of_lt h, order_of_lt (lt_of_le_of_ne hle hne)]
  · rw [hexact, order_self, order_self]
  · have hle : (Dbl.exact b).key ≤ (Dbl.ofInt a).key := hexact ▸ Dbl.ofInt_mono h.le
    have hne : (Dbl.ofInt a).key ≠ (Dbl.exact b).key := fun he =>
      h.ne' ((ofInt_eq_exact_iff hb).mp (Dbl.key_inj.mp he))
    rw [order_of_gt h, order_of_gt (lt_of_le_of_ne hle hne.symm)]

theorem order_exact_ofInt {a b : ℤ} (ha : a.natAbs + 1 < 2 ^ 53) :
    order (Dbl.exact a).key (Dbl.ofInt b).key = order a b := by
  rw [order_swap, order_ofInt_exact ha, ← order_swap a b]

/-- Only the integer types are converted to `int8`. -/
theorem bigintOf_eq_ok {v : Value} {z : ℤ} (h : bigintOf v = .ok z) :
    (∃ a, v = .numberInt a ∧ a.toInt = z) ∨ (∃ a, v = .numberLong a ∧ a.toInt = z) := by
  cases v with
  | numberInt a => exact Or.inl ⟨a, rfl, Except.ok.inj h⟩
  | numberLong a => exact Or.inr ⟨a, rfl, Except.ok.inj h⟩
  | _ => cases h

/-- **Integers are compared in their order**, whatever their widths. -/
theorem cmpLeaf_integers {v w : Value} {y z : ℤ} (hv : bigintOf v = .ok y)
    (hw : bigintOf w = .ok z) : cmpLeaf v w = .ok (order y z) := by
  have hint : ∀ a : BitVec 32, Dbl.ofInt a.toInt = Dbl.exact a.toInt := fun a =>
    Dbl.ofInt_eq_exact (natAbs_toInt_lt a)
  rcases bigintOf_eq_ok hv with ⟨a, rfl, rfl⟩ | ⟨a, rfl, rfl⟩ <;>
    rcases bigintOf_eq_ok hw with ⟨b, rfl, rfl⟩ | ⟨b, rfl, rfl⟩
  · rfl
  · have hmixed : cmpLeaf (.numberInt a) (.numberLong b) =
        .ok (order (Dbl.ofInt a.toInt).key (Dbl.ofInt b.toInt).key) := rfl
    rw [hmixed, hint, order_exact_ofInt (natAbs_toInt_succ_lt a)]
  · have hmixed : cmpLeaf (.numberLong a) (.numberInt b) =
        .ok (order (Dbl.ofInt a.toInt).key (Dbl.ofInt b.toInt).key) := rfl
    rw [hmixed, hint, order_ofInt_exact (natAbs_toInt_succ_lt b)]
  · rfl

theorem isNum_of_bigintOf {v : Value} {z : ℤ} (h : bigintOf v = .ok z) : isNum v := by
  rcases bigintOf_eq_ok h with ⟨a, rfl, -⟩ | ⟨a, rfl, -⟩ <;> rfl

/-- Wrapped integers are compared in their order. -/
theorem cmpDoc_integers {v w : Value} {y z : ℤ} (hv : bigintOf v = .ok y)
    (hw : bigintOf w = .ok z) : cmpDoc (asDoc v) (asDoc w) = .ok (order y z) := by
  have hnv := isNum_of_bigintOf hv
  have hnw := isNum_of_bigintOf hw
  have hleaf := cmpValue_leaf (isLeaf_of_isNum hnv) w
  rw [asDoc_of_isLeaf (isLeaf_of_isNum hnv), asDoc_of_isLeaf (isLeaf_of_isNum hnw), cmpDoc]
  simp only [sortClass_eq_of_isNum hnv hnw, order_self, hleaf, cmpLeaf_integers hv hw, ne_eq,
    not_true_eq_false, if_false, bind, Except.bind, pure, Except.pure]
  split_ifs with h
  · rw [cmpDoc, h]
  · rfl

theorem sign_order (y z : ℤ) : (order y z).sign = (y - z).sign := by
  rcases lt_trichotomy y z with h | rfl | h
  · rw [order_of_lt h, Int.sign_eq_neg_one_of_neg (by omega : y - z < 0)]
    rfl
  · simp
  · rw [order_of_gt h, Int.sign_eq_one_of_pos (by omega : 0 < y - z)]
    rfl

/-- **The index order of an extracted integer field is the order of the integers.** -/
theorem bsonCompare_integers (a b : Stored) (r r' path : Bytes) (y z : ℤ)
    (ha : bsonGetBigint (a.bytes ++ r) path = .ok (some y))
    (hb : bsonGetBigint (b.bytes ++ r') path = .ok (some z)) :
    ∃ u w, bsonGetBson (a.bytes ++ r) path = .ok (some u) ∧
      bsonGetBson (b.bytes ++ r') path = .ok (some w) ∧
      ∀ s s', ∃ m, bsonCompare (u ++ s) (w ++ s') = .ok m ∧ m.sign = (y - z).sign := by
  obtain ⟨v₁, hv₁, hy⟩ := (bsonGet_eq_some converts_bigint a).mp ha
  obtain ⟨v₂, hv₂, hz⟩ := (bsonGet_eq_some converts_bigint b).mp hb
  refine ⟨(storedAt a hv₁).bytes, (storedAt b hv₂).bytes, ?_, ?_, fun s s' => ?_⟩
  · rw [bsonGetBson_bytes, hv₁]
    rfl
  · rw [bsonGetBson_bytes, hv₂]
    rfl
  · refine ⟨order y z, ?_, sign_order y z⟩
    rw [bsonCompare_bytes]
    exact cmpDoc_integers hy hz

/-- `{"a": 2147483647}`, as a `NumberInt`. -/
def intDoc : Stored where
  doc := .cons (ascii "a") (.numberInt 0x7fffffff) .nil
  valid := by decide
  size := by decide

/-- `{"a": 9223372036854775807}`, as a `NumberLong`. -/
def longDoc : Stored where
  doc := .cons (ascii "a") (.numberLong 0x7fffffffffffffff) .nil
  valid := by decide
  size := by decide

theorem bsonCompare_integers_largest :
    bsonGetBigint (intDoc.bytes ++ []) (ascii "a") = .ok (some 2147483647) ∧
    bsonGetBigint (longDoc.bytes ++ []) (ascii "a") = .ok (some 9223372036854775807) ∧
    ∃ u w, bsonGetBson (intDoc.bytes ++ []) (ascii "a") = .ok (some u) ∧
      bsonGetBson (longDoc.bytes ++ []) (ascii "a") = .ok (some w) ∧
      ∀ s s', ∃ m, bsonCompare (u ++ s) (w ++ s') = .ok m ∧
        m.sign = (2147483647 - 9223372036854775807 : ℤ).sign := by
  have ha : bsonGetBigint (intDoc.bytes ++ []) (ascii "a") = .ok (some 2147483647) := by rfl
  have hb : bsonGetBigint (longDoc.bytes ++ []) (ascii "a") =
      .ok (some 9223372036854775807) := by rfl
  exact ⟨ha, hb, bsonCompare_integers intDoc longDoc [] [] (ascii "a") _ _ ha hb⟩

end PgBson.Access.Integers
