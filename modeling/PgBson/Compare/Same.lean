import PgBson.Compare.Leaf

/-! # Equality of documents

`SameDoc` says when two documents are the same value: the same names in the same order, with equal
values. The comparison returns zero on the same values and on some others: a `NumberLong` and the
double it is rounded to, a `Timestamp` and a `Date` with the same bits, two `CodeWScope`s that agree
up to the second NUL. `ConfusedDoc` are the documents that differ only in such places.

`cmpDoc_eq_zero`: the comparison returns zero exactly on the same and on the confused. -/

namespace PgBson.Compare.Same

open PgBson.Lib.Sign PgBson.Lib.Memory PgBson.Lib.Binary64
open PgBson.Bson.Types PgBson.Bson.Document
open PgBson.Compare.WoCompare PgBson.Compare.Cmp PgBson.Compare.Leaf

/-- The exact value of a number. -/
def exactOf : Value → Dbl
  | .numberDouble b => Dbl.ofBits b
  | .numberInt a => Dbl.exact a.toInt
  | .numberLong a => Dbl.exact a.toInt
  | _ => .fin 0

/-- A string or a symbol. -/
def isText : Value → Bool
  | .string _ | .symbol _ => true
  | _ => false

/-- The same value, for values without embedded documents. -/
def SameLeaf (v w : Value) : Prop :=
  if isNum v ∧ isNum w then exactOf v = exactOf w
  else if isText v ∧ isText w then v.bytes = w.bytes
  else v.type = w.type ∧ v.bytes = w.bytes

/-- Different values that the comparison takes for equal. -/
def ConfusedLeaf : Value → Value → Prop
  | .numberLong a, .numberDouble b =>
    Dbl.ofInt a.toInt = Dbl.ofBits b ∧ Dbl.exact a.toInt ≠ Dbl.ofBits b
  | .numberDouble b, .numberLong a =>
    Dbl.ofInt a.toInt = Dbl.ofBits b ∧ Dbl.exact a.toInt ≠ Dbl.ofBits b
  | .timestamp a, .date b => a = b
  | .codeWScope c d, .codeWScope b e =>
    cstr (codeAndScope c d) = cstr (codeAndScope b e) ∧
    cstr (afterCstr (codeAndScope c d)) = cstr (afterCstr (codeAndScope b e)) ∧
    (Value.codeWScope c d).bytes ≠ (Value.codeWScope b e).bytes
  | _, _ => False

mutual

/-- The same value. -/
def SameValue : Value → Value → Prop
  | .object d, w =>
    match w with
    | .object e => SameDoc d e
    | _ => False
  | .array d, w =>
    match w with
    | .array e => SameDoc d e
    | _ => False
  | v, w => SameLeaf v w

/-- The same fields in the same order. -/
def SameDoc : Doc → Doc → Prop
  | .nil, e => e = .nil
  | .cons n v d, e =>
    match e with
    | .nil => False
    | .cons m w e => n = m ∧ SameValue v w ∧ SameDoc d e

end

mutual

/-- Different values that the comparison takes for equal, at any depth. -/
def ConfusedValue : Value → Value → Prop
  | .object d, w =>
    match w with
    | .object e => ConfusedDoc d e
    | _ => False
  | .array d, w =>
    match w with
    | .array e => ConfusedDoc d e
    | _ => False
  | v, w => ConfusedLeaf v w

/-- The same names in the same order, with equal or confused values, at least one confused. -/
def ConfusedDoc : Doc → Doc → Prop
  | .nil, _ => False
  | .cons n v d, e =>
    match e with
    | .nil => False
    | .cons m w e =>
      n = m ∧
        (ConfusedValue v w ∧ (SameDoc d e ∨ ConfusedDoc d e) ∨ SameValue v w ∧ ConfusedDoc d e)

end

/-- The values that cannot be told apart by the comparison. -/
def AlikeValue (v w : Value) : Prop := SameValue v w ∨ ConfusedValue v w

/-- The documents that cannot be told apart by the comparison. -/
def Alike (d e : Doc) : Prop := SameDoc d e ∨ ConfusedDoc d e

theorem alike_cons {n m : Bytes} {v w : Value} {d e : Doc} :
    Alike (.cons n v d) (.cons m w e) ↔ n = m ∧ AlikeValue v w ∧ Alike d e := by
  simp only [Alike, AlikeValue, SameDoc, ConfusedDoc]
  tauto

/-! ### Values without embedded documents -/

theorem le_toNat_inj {k w : ℕ} (hk : 256 ^ k = 2 ^ w) {a b : BitVec w} :
    le k a.toNat = le k b.toNat ↔ a = b := by
  refine ⟨fun h => ?_, fun h => by rw [h]⟩
  have hn := congrArg leNat h
  rw [leNat_le, leNat_le, hk, Nat.mod_eq_of_lt a.isLt, Nat.mod_eq_of_lt b.isLt] at hn
  exact BitVec.eq_of_toNat_eq hn

theorem counted_inj {s t : Bytes} : le 4 s.length ++ s = le 4 t.length ++ t ↔ s = t := by
  refine ⟨fun h => ?_, fun h => by rw [h]⟩
  exact (List.append_inj h (by simp)).2

theorem cstr_pair_inj {x f y g : Bytes} (hx : 0 ∉ x) (hf : 0 ∉ f) (hy : 0 ∉ y) (hg : 0 ∉ g) :
    x ++ 0 :: (f ++ [0]) = y ++ 0 :: (g ++ [0]) ↔ x = y ∧ f = g := by
  refine ⟨fun h => ?_, fun h => by rw [h.1, h.2]⟩
  have h1 := congrArg cstr h
  have h2 := congrArg cstr (congrArg afterCstr h)
  rw [cstr_append _ hx, cstr_append _ hy] at h1
  rw [afterCstr_append _ hx, afterCstr_append _ hy, cstr_append _ hf, cstr_append _ hg] at h2
  exact ⟨h1, h2⟩

theorem nats_eq_of_schar {a b : UInt8} : (schar a + 128).toNat = (schar b + 128).toNat ↔ a = b := by
  have ha := a.toNat_lt
  have hb := b.toNat_lt
  rw [← UInt8.toNat_inj]
  unfold schar
  split_ifs <;> omega

/-- Equal keys are equal values, but for the scope of a `CodeWScope`. -/
theorem key_eq_iff {v w : Value} (h : Matched v w) (hk : isKeyed v) (hv : v.Valid) (hw : w.Valid) :
    key v = key w ↔ SameLeaf v w ∨ ConfusedLeaf v w := by
  cases h
  case minKey | maxKey | undefined | jstNULL => simp [key, SameLeaf, isNum, isText]
  case bool a b =>
    simp [key, SameLeaf, ConfusedLeaf, isNum, isText, Value.type, Value.bytes, nats_eq_of_schar]
  case jstOID i j =>
    simp [key, SameLeaf, ConfusedLeaf, isNum, isText, Value.type, Value.bytes, nats_inj]
  case strings s t | stringSymbol s t | symbolString s t | symbols s t | code s t =>
    simp [key, SameLeaf, ConfusedLeaf, isNum, isText, Value.type, Value.bytes, nats_inj,
      counted_inj]
  case dbRef ns i ms j =>
    have hl : (Value.dbRef ns i).bytes = (Value.dbRef ms j).bytes → ns.length = ms.length := by
      intro h
      have := congrArg List.length h
      simp [Value.bytes, i.size, j.size] at this
      omega
    simp only [key, SameLeaf, ConfusedLeaf, isNum, isText, Value.type, List.cons.injEq, nats_inj,
      and_true, true_and, or_false, Bool.false_eq_true, false_and, if_false]
    exact ⟨fun h => h.2, fun h => ⟨hl h, h⟩⟩
  case binData t x u y =>
    have hl : le 4 x.length ++ t :: x = le 4 y.length ++ u :: y ↔ t :: x = u :: y :=
      ⟨fun h => (List.append_inj h (by simp)).2, fun h => by
        have := congrArg List.length h
        simp only [List.length_cons, Nat.add_right_cancel_iff] at this
        rw [h, this]⟩
    simp only [key, SameLeaf, ConfusedLeaf, isNum, isText, Value.type, Value.bytes, List.cons.injEq,
      nats_inj, hl, and_true, true_and, or_false, Bool.false_eq_true, false_and, if_false]
    exact ⟨fun h => h.2, fun h => ⟨congrArg List.length h.2, h⟩⟩
  case regEx x f y g =>
    simp [key, SameLeaf, ConfusedLeaf, isNum, isText, Value.type, Value.bytes, nats_inj,
      cstr_pair_inj hv.1 hv.2 hw.1 hw.2]
  case codeWScope c d b e =>
    have hb : (Value.codeWScope c d).bytes = (Value.codeWScope b e).bytes →
        codeAndScope c d = codeAndScope b e := by
      intro h
      have h1 := drop_codeWScope c d []
      rw [h, drop_codeWScope b e [], List.append_nil, List.append_nil] at h1
      exact h1.symm
    simp only [key, SameLeaf, ConfusedLeaf, isNum, isText, Value.type, List.cons.injEq, nats_inj,
      and_true, true_and, Bool.false_eq_true, false_and, if_false]
    constructor
    · rintro ⟨h1, h2⟩
      by_cases h : (Value.codeWScope c d).bytes = (Value.codeWScope b e).bytes
      · exact Or.inl h
      · exact Or.inr ⟨h1, h2, h⟩
    · rintro (h | ⟨h1, h2, -⟩)
      · rw [hb h]
        exact ⟨rfl, rfl⟩
      · exact ⟨h1, h2⟩
  case timestamps | timestampDate | dates | dateTimestamp | object | array => simp [isKeyed] at hk
  case numbers hv hw => cases v <;> simp_all [isNum, isKeyed]

theorem exact_inj {a b : ℤ} : Dbl.exact a = Dbl.exact b ↔ a = b := by
  rw [← Dbl.key_inj, ← order_eq_zero, order_exact, order_eq_zero]

/-- A rounded integer that is small is not rounded at all. -/
theorem ofInt_eq_exact_iff {a b : ℤ} (hb : b.natAbs + 1 < 2 ^ 53) :
    Dbl.ofInt a = Dbl.exact b ↔ a = b := by
  refine ⟨fun h => ?_, fun h => by rw [h, Dbl.ofInt_eq_exact (by omega)]⟩
  rcases lt_trichotomy a b with hlt | heq | hgt
  · exfalso
    -- Rounding cannot cross `b - 1`, which is exact.
    have hm := Dbl.ofInt_mono (show a ≤ b - 1 by omega)
    rw [h, Dbl.ofInt_eq_exact (n := b - 1) (by omega), ← order_nonpos, order_exact,
      order_nonpos] at hm
    omega
  · exact heq
  · exfalso
    have hm := Dbl.ofInt_mono (show b + 1 ≤ a by omega)
    rw [h, Dbl.ofInt_eq_exact (n := b + 1) (by omega), ← order_nonpos, order_exact,
      order_nonpos] at hm
    omega

theorem natAbs_toInt_succ_lt (a : BitVec 32) : a.toInt.natAbs + 1 < 2 ^ 53 := by
  have h1 := a.toInt_lt
  have h2 := a.le_toInt
  omega

theorem cmpNumbers_eq_zero {v w : Value} : cmpNumbers v w = 0 ↔ numberOf v = numberOf w := by
  rw [cmpNumbers, order_eq_zero, Dbl.key_inj]

/-- Numbers compare equal when they are, or when a `NumberLong` is rounded to the other one. -/
theorem cmpLeaf_numbers_eq_zero {v w : Value} (hv : isNum v) (hw : isNum w) :
    cmpLeaf v w = .ok 0 ↔ SameLeaf v w ∨ ConfusedLeaf v w := by
  rw [cmpLeaf_numbers hv hw]
  have hint : ∀ a : BitVec 32, Dbl.ofInt a.toInt = Dbl.exact a.toInt := fun a =>
    Dbl.ofInt_eq_exact (natAbs_toInt_lt a)
  have hround : ∀ (a : ℤ) (b : BitVec 32), Dbl.ofInt a = Dbl.exact b.toInt ↔ a = b.toInt :=
    fun a b => ofInt_eq_exact_iff (natAbs_toInt_succ_lt b)
  have hdouble : ∀ (a : ℤ) (b : BitVec 64), Dbl.ofInt a = Dbl.ofBits b ↔
      Dbl.exact a = Dbl.ofBits b ∨ Dbl.ofInt a = Dbl.ofBits b ∧ Dbl.exact a ≠ Dbl.ofBits b := by
    intro a b
    constructor
    · intro h
      by_cases he : Dbl.exact a = Dbl.ofBits b
      · exact Or.inl he
      · exact Or.inr ⟨h, he⟩
    · rintro (h | ⟨h, -⟩)
      · exact Dbl.ofInt_of_exact h
      · exact h
  cases v <;> simp [isNum] at hv <;> cases w <;> simp [isNum] at hw
  case numberLong.numberDouble a b =>
    simpa [longOf, cmpNumbers_eq_zero, numberOf, SameLeaf, isNum, exactOf, ConfusedLeaf] using
      hdouble a.toInt b
  case numberDouble.numberLong b a =>
    have hcomm : Dbl.ofBits b = Dbl.exact a.toInt ↔ Dbl.exact a.toInt = Dbl.ofBits b := eq_comm
    have hcomm' : Dbl.ofBits b = Dbl.ofInt a.toInt ↔ Dbl.ofInt a.toInt = Dbl.ofBits b := eq_comm
    simpa [longOf, cmpNumbers_eq_zero, numberOf, SameLeaf, isNum, exactOf, ConfusedLeaf, hcomm,
      hcomm'] using hdouble a.toInt b
  case numberInt.numberLong b a =>
    have hcomm : Dbl.exact b.toInt = Dbl.ofInt a.toInt ↔ b.toInt = a.toInt := by
      rw [eq_comm, hround, eq_comm]
    simp [longOf, cmpNumbers_eq_zero, numberOf, SameLeaf, isNum, exactOf, ConfusedLeaf, hint,
      hcomm, exact_inj]
  all_goals
    simp [longOf, cmpNumbers_eq_zero, numberOf, SameLeaf, isNum, exactOf, ConfusedLeaf, hint,
      hround, exact_inj, order_eq_zero]

/-- **Values without embedded documents compare equal when they are the same or confused.** -/
theorem cmpLeaf_eq_zero {v w : Value} (h : Matched v w) (hl : isLeaf v) (hv : v.Valid)
    (hw : w.Valid) : cmpLeaf v w = .ok 0 ↔ SameLeaf v w ∨ ConfusedLeaf v w := by
  by_cases hk : isKeyed v
  · obtain ⟨m, hm, hs⟩ := cmpLeaf_keyed h hk
    rw [hm, Except.ok.injEq, hs.zero_iff, order_eq_zero, key_eq_iff h hk hv hw]
  · cases h
    case timestamps a b | dates a b =>
      simp [cmpLeaf, SameLeaf, ConfusedLeaf, isNum, isText, Value.type, Value.bytes, order_eq_zero,
        le_toNat_inj (k := 8) (w := 64) (by decide), BitVec.toNat_inj, BitVec.toInt_inj]
    case timestampDate a b =>
      simp [cmpLeaf, SameLeaf, ConfusedLeaf, isNum, isText, Value.type, order_eq_zero,
        BitVec.toNat_inj]
    case dateTimestamp a b => simp [cmpLeaf, SameLeaf, ConfusedLeaf, isNum, isText, Value.type]
    case numbers hv hw => exact cmpLeaf_numbers_eq_zero hv hw
    case object | array => simp [isLeaf] at hl
    all_goals simp [isKeyed] at hk

theorem SameLeaf.sortClass_eq {v w : Value} (h : SameLeaf v w) : sortClass v = sortClass w := by
  unfold SameLeaf at h
  split_ifs at h with h1 h2
  · exact sortClass_eq_of_isNum h1.1 h1.2
  · obtain ⟨hv, hw⟩ := h2
    cases v <;> simp [isText] at hv <;> cases w <;> simp [isText] at hw <;> rfl
  · exact congrArg canonicalizeBSONType h.1

theorem ConfusedLeaf.sortClass_eq {v w : Value} (h : ConfusedLeaf v w) :
    sortClass v = sortClass w := by
  unfold ConfusedLeaf at h
  split at h <;> first | rfl | exact h.elim

/-! ### Documents -/

theorem sameValue_leaf {v : Value} (h : isLeaf v) (w : Value) : SameValue v w = SameLeaf v w := by
  cases v <;> first | rfl | simp [isLeaf] at h

theorem confusedValue_leaf {v : Value} (h : isLeaf v) (w : Value) :
    ConfusedValue v w = ConfusedLeaf v w := by
  cases v <;> first | rfl | simp [isLeaf] at h

theorem AlikeValue.matched {v w : Value} (h : AlikeValue v w) : Matched v w := by
  by_cases hl : isLeaf v
  · rw [AlikeValue, sameValue_leaf hl, confusedValue_leaf hl] at h
    exact matched_of_sortClass (h.elim SameLeaf.sortClass_eq ConfusedLeaf.sortClass_eq)
  · cases v <;> simp [isLeaf] at hl
    case object d => cases w <;> simp [AlikeValue, SameValue, ConfusedValue] at h; constructor
    case array d => cases w <;> simp [AlikeValue, SameValue, ConfusedValue] at h; constructor

theorem cmpDoc_cons_eq_zero {n m : Bytes} {v w : Value} {d e : Doc} :
    cmpDoc (.cons n v d) (.cons m w e) = .ok 0 ↔
      sortClass v = sortClass w ∧ n = m ∧ cmpValue v w = .ok 0 ∧ cmpDoc d e = .ok 0 := by
  rw [cmpDoc]
  by_cases hc : sortClass v = sortClass w
  · by_cases ho : order (nats n) (nats m) = 0
    · have hn : n = m := nats_inj.mp (order_eq_zero.mp ho)
      cases hx : cmpValue v w with
      | error x => simp [hc, ho, bind, Except.bind]
      | ok x =>
        by_cases h0 : x = 0
        · simp [hc, hn, h0, bind, Except.bind]
        · simp [hc, ho, h0, bind, Except.bind, pure, Except.pure]
    · have hn : n ≠ m := fun h => ho (by simp [h])
      simp [hc, ho, hn]
  · simp [hc, sub_ne_zero.mpr hc]

mutual

/-- Values compare equal when they are the same or confused. -/
theorem cmpValue_eq_zero {v w : Value} (h : Matched v w) (hv : v.Valid) (hw : w.Valid) :
    cmpValue v w = .ok 0 ↔ AlikeValue v w := by
  by_cases hl : isLeaf v
  · rw [cmpValue_leaf hl, cmpLeaf_eq_zero h hl hv hw, AlikeValue, sameValue_leaf hl,
      confusedValue_leaf hl]
  · match v, hl with
    | .object d, _ =>
      obtain ⟨e, rfl⟩ := h.exists_object
      exact cmpDoc_eq_zero (d := d) (e := e) hv hw
    | .array d, _ =>
      obtain ⟨e, rfl⟩ := h.exists_array
      exact cmpDoc_eq_zero (d := d) (e := e) hv hw

/-- **Documents compare equal exactly when they are the same or confused.** -/
theorem cmpDoc_eq_zero {d e : Doc} (hd : d.Valid) (he : e.Valid) :
    cmpDoc d e = .ok 0 ↔ Alike d e := by
  match d, e, hd, he with
  | .nil, .nil, _, _ => simp [cmpDoc, Alike, SameDoc]
  | .nil, .cons m w e, _, _ => simp [cmpDoc, Alike, SameDoc, ConfusedDoc]
  | .cons n v d, .nil, _, _ => simp [cmpDoc, Alike, SameDoc, ConfusedDoc]
  | .cons n v d, .cons m w e, hd, he =>
    rw [cmpDoc_cons_eq_zero, alike_cons, cmpDoc_eq_zero hd.2.2 he.2.2]
    constructor
    · rintro ⟨hc, hn, hv, ht⟩
      exact ⟨hn, (cmpValue_eq_zero (matched_of_sortClass hc) hd.2.1 he.2.1).mp hv, ht⟩
    · rintro ⟨hn, hv, ht⟩
      have hm := hv.matched
      exact ⟨hm.sortClass_eq, hn, (cmpValue_eq_zero hm hd.2.1 he.2.1).mpr hv, ht⟩

end

theorem ConfusedLeaf.not_same {v w : Value} (h : ConfusedLeaf v w) : ¬ SameLeaf v w := by
  unfold ConfusedLeaf at h
  split at h
  · simpa [SameLeaf, isNum, exactOf] using h.2
  · simpa [SameLeaf, isNum, exactOf, eq_comm] using h.2
  · simp [SameLeaf, isNum, isText, Value.type]
  · simpa [SameLeaf, isNum, isText, Value.type] using h.2.2
  · exact h.elim

mutual

theorem ConfusedValue.not_same {v w : Value} (h : ConfusedValue v w) : ¬ SameValue v w := by
  by_cases hl : isLeaf v
  · rw [confusedValue_leaf hl] at h
    rw [sameValue_leaf hl]
    exact h.not_same
  · match v, w, h, hl with
    | .object d, .object e, h, _ => exact ConfusedDoc.not_same (d := d) (e := e) h
    | .array d, .array e, h, _ => exact ConfusedDoc.not_same (d := d) (e := e) h

theorem ConfusedDoc.not_same {d e : Doc} (h : ConfusedDoc d e) : ¬ SameDoc d e := by
  match d, e, h with
  | .cons n v d, .cons m w e, h =>
    rintro ⟨-, hv, hd⟩
    rcases h.2 with ⟨hc, -⟩ | ⟨-, hc⟩
    · exact hc.not_same hv
    · exact hc.not_same hd

end

/-! ### The equality operator -/

/-- **The comparison of two well-formed documents returns zero exactly when they are the same value,
unless they are confused.** -/
theorem bsonCompare_zero_iff_same (a b : Stored) (r r' : Bytes) :
    (∀ m, bsonCompare (a.bytes ++ r) (b.bytes ++ r') = .ok m → (m = 0 ↔ SameDoc a.doc b.doc)) ↔
      ¬ ConfusedDoc a.doc b.doc := by
  rw [bsonCompare_bytes]
  have hz : cmpDoc a.doc b.doc = .ok 0 ↔ SameDoc a.doc b.doc ∨ ConfusedDoc a.doc b.doc :=
    cmpDoc_eq_zero a.valid b.valid
  constructor
  · intro h hc
    exact hc.not_same ((h 0 (hz.mpr (Or.inr hc))).mp rfl)
  · intro hc m hm
    constructor
    · rintro rfl
      exact (hz.mp hm).resolve_right hc
    · intro hs
      have h0 := hz.mpr (Or.inl hs)
      rw [hm] at h0
      exact Except.ok.inj h0

/-- `{"a": 9007199254740993}`, a number that is no double. -/
def oddLong : Stored where
  doc := .cons (ascii "a") (.numberLong 9007199254740993) .nil
  valid := by decide
  size := by decide

/-- `{"a": 9007199254740992.0}`. -/
def evenDouble : Stored where
  doc := .cons (ascii "a") (.numberDouble 0x4340000000000000) .nil
  valid := by decide
  size := by decide

theorem oddLong_compares_equal_evenDouble :
    ¬ ∀ m, bsonCompare oddLong.bytes evenDouble.bytes = .ok m →
      (m = 0 ↔ SameDoc oddLong.doc evenDouble.doc) := by
  intro h
  have h0 : bsonCompare oddLong.bytes evenDouble.bytes = .ok 0 := by decide +kernel
  have hs := (h 0 h0).mp rfl
  revert hs
  simp [SameDoc, SameValue, SameLeaf, oddLong, evenDouble, isNum, exactOf]
  decide +kernel

end PgBson.Compare.Same
