import PgBson.Compare.Cmp

/-! # Comparison of values without embedded documents

The values of most sort classes are compared by a key, in the lexicographic order of its parts
(`cmpLeaf_keyed`). Two classes have no key of their own. Numbers are compared exactly if both are
`NumberLong` and as doubles otherwise (`cmpLeaf_numbers`). Dates are compared as signed and
timestamps as unsigned words, by the type on the left. -/

namespace PgBson.Compare.Leaf

open PgBson.Lib.Sign PgBson.Lib.Memory PgBson.Lib.Binary64
open PgBson.Bson.Types PgBson.Bson.Document PgBson.Bson.Element
open PgBson.Compare.WoCompare PgBson.Compare.Cmp

/-- Neither an object nor an array. -/
def isLeaf : Value → Bool
  | .object _ | .array _ => false
  | _ => true

theorem cmpValue_leaf {v : Value} (h : isLeaf v) (w : Value) : cmpValue v w = cmpLeaf v w := by
  cases v <;> first | rfl | simp [isLeaf] at h

/-! ### Classes with a key -/

/-- The class is compared by `key`. -/
def isKeyed : Value → Bool
  | .object _ | .array _ | .numberDouble _ | .numberInt _ | .numberLong _ | .date _
  | .timestamp _ => false
  | _ => true

/-- The parts of a value in the order in which they decide. -/
def key : Value → List (List ℕ)
  | .bool b => [[(schar b + 128).toNat]]
  | .jstOID i => [nats i.data]
  | .string s | .symbol s | .code s => [nats s]
  | .dbRef ns i => [[ns.length], nats (Value.dbRef ns i).bytes]
  | .binData t x => [[x.length], nats (t :: x)]
  | .regEx x f => [nats x, nats f]
  | .codeWScope c d => [nats (cstr (codeAndScope c d)), nats (cstr (afterCstr (codeAndScope c d)))]
  | _ => []

theorem cmpLeaf_keyed {v w : Value} (h : Matched v w) (hk : isKeyed v) :
    ∃ m, cmpLeaf v w = .ok m ∧ SameSign m (order (key v) (key w)) := by
  cases h
  case minKey | maxKey | undefined | jstNULL => exact ⟨0, rfl, by simp [key, SameSign]⟩
  case bool a b =>
    refine ⟨_, rfl, ?_⟩
    have ha := a.toNat_lt
    have hb := b.toNat_lt
    rw [key, key, order_singleton, order_singleton]
    unfold SameSign order schar
    split_ifs <;> omega
  case jstOID i j =>
    refine ⟨_, rfl, SameSign.of_eq ?_⟩
    rw [memcmp_eq_order i.size.ge j.size.ge, ← i.size, List.take_length, i.size, ← j.size,
      List.take_length, key, key, order_singleton]
  case strings s t | stringSymbol s t | symbolString s t | symbols s t | code s t =>
    refine ⟨_, rfl, ?_⟩
    rw [key, key, order_singleton]
    exact sameSign_stringCompare s t
  case dbRef ns i ms j =>
    refine ⟨_, rfl, ?_⟩
    rw [key, key, order_cons, order_singleton, order_singleton]
    refine SameSign.first (sameSign_sub_order _ _) fun h => SameSign.of_eq ?_
    have hl : (Value.dbRef ns i).bytes.length = (Value.dbRef ms j).bytes.length := by
      simp [Value.bytes, i.size, j.size]
      omega
    rw [memcmp_eq_order le_rfl hl.le, List.take_length, hl, List.take_length]
  case binData t x u y =>
    refine ⟨_, rfl, ?_⟩
    rw [key, key, order_cons, order_singleton, order_singleton]
    refine SameSign.first (sameSign_sub_order _ _) fun h => SameSign.of_eq ?_
    have hl : x.length = y.length := by omega
    rw [memcmp_eq_order (by simp) (by simp [hl]), List.take_of_length_le (by simp),
      List.take_of_length_le (by simp [hl])]
  case regEx x f y g =>
    exact ⟨_, rfl, SameSign.of_eq (by rw [key, key, order_cons, order_singleton])⟩
  case codeWScope c d b e =>
    exact ⟨_, rfl, SameSign.of_eq (by rw [key, key, order_cons, order_singleton])⟩
  case timestamps | timestampDate | dates | dateTimestamp | object | array => simp [isKeyed] at hk
  case numbers hv hw => cases v <;> simp_all [isNum, isKeyed]

/-! ### Numbers -/

/-- The integer of a `NumberLong`. -/
def longOf : Value → Option ℤ
  | .numberLong a => some a.toInt
  | _ => none

theorem isLeaf_of_isNum {v : Value} (h : isNum v) : isLeaf v := by
  cases v <;> simp_all [isNum, isLeaf]

theorem natAbs_toInt_lt (a : BitVec 32) : a.toInt.natAbs < 2 ^ 53 := by
  have h1 := a.toInt_lt
  have h2 := a.le_toInt
  omega

theorem order_exact (a b : ℤ) : order (Dbl.exact a).key (Dbl.exact b).key = order a b := by
  rw [Dbl.exact, Dbl.exact, Dbl.order_key_fin]
  have hp : (0 : ℤ) < 2 ^ unitExp := by positivity
  rcases lt_trichotomy a b with h | rfl | h
  · rw [order_of_lt h, order_of_lt (Int.mul_lt_mul_of_pos_right h hp)]
  · simp
  · rw [order_of_gt h, order_of_gt (Int.mul_lt_mul_of_pos_right h hp)]

/-- **Numbers are compared as doubles, except two `NumberLong`s.** -/
theorem cmpLeaf_numbers {v w : Value} (hv : isNum v) (hw : isNum w) :
    cmpLeaf v w = .ok (match longOf v, longOf w with
      | some a, some b => order a b
      | _, _ => cmpNumbers v w) := by
  have hint : ∀ a b : BitVec 32,
      order a.toInt b.toInt = cmpNumbers (.numberInt a) (.numberInt b) := by
    intro a b
    rw [cmpNumbers, numberOf, numberOf, Dbl.ofInt_eq_exact (natAbs_toInt_lt a),
      Dbl.ofInt_eq_exact (natAbs_toInt_lt b), order_exact]
  cases v <;> simp [isNum] at hv <;> cases w <;> simp [isNum] at hw <;>
    simp [cmpLeaf, longOf, hint]

end PgBson.Compare.Leaf
