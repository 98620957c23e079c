import PgBson.Access.Lookup
import PgBson.Compare.Order

/-! # Key patterns

`BSONObj::woCompare` with a key pattern such as `{a: 1, b: -1}`, which gives each field a direction,
or with the bits that `Ordering` computes from the pattern once. The bits stand for the pattern
(`woCompareIdxKey_eq_ordering`), but for objects that agree on more fields than the pattern has:
there the iterator over the pattern is moved behind its end. -/

namespace PgBson.Compare.KeyPattern

open PgBson.Lib.Sign PgBson.Lib.Memory PgBson.Lib.Binary64
open PgBson.Bson.Types PgBson.Bson.Document PgBson.Bson.Element
open PgBson.Access.Lookup (count)
open PgBson.Compare.WoCompare PgBson.Compare.Cmp

/-! ### The code -/

/-- `BSONElement::woCompare`, where the field names may be left out. -/
def woCompareElement (sub : Bytes → Bytes → Except Exc ℤ) (considerFieldName : Bool)
    (l r : Bytes) : Except Exc ℤ := do
  let x := (← canonicalType l) - (← canonicalType r)
  if x ≠ 0 ∧ (!isNumber l ∨ !isNumber r) then return x
  else if considerFieldName ∧ strcmp (fieldName l) (fieldName r) ≠ 0 then
    return strcmp (fieldName l) (fieldName r)
  else compareElementValues sub l r

/-- `Ordering`: a bit for each field of a key pattern, set if its order is descending. -/
structure Ordering where
  bits : BitVec 32
  deriving DecidableEq

def Ordering.descending (o : Ordering) (mask : BitVec 32) : BitVec 32 := o.bits &&& mask

/-- The loop of `Ordering::make` from the field with number `n` on. -/
def makeLoop : ℕ → BSONObjIterator → ℕ → BitVec 32 → Except Exc Ordering
  | 0, _, _, _ => .error .undefinedBehaviour
  | fuel + 1, k, n, b => do
    let (e, k) ← k.next
    if eoo e then return ⟨b⟩
    else if 31 < n then .error (.msgasserted 13103)
    else makeLoop fuel k (n + 1) (if (number e).lt (.fin 0) then b ||| 1#32 <<< n else b)

/-- `Ordering::make`. -/
def Ordering.make (obj : Bytes) : Except Exc Ordering :=
  makeLoop (objsize obj).toNat (begin obj) 0 0

section loop
variable {σ : Type} (sub : Bytes → Bytes → Except Exc ℤ) (considerFieldName : Bool)
  (advance : σ → Except Exc (Bool × σ))

/-- The loop of `BSONObj::woCompare`; `advance` says whether the order of the next field is
descending. -/
def directedLoop : ℕ → BSONObjIterator → BSONObjIterator → σ → Except Exc ℤ
  | 0, _, _, _ => .error .undefinedBehaviour
  | fuel + 1, i, j, s => do
    let (l, i) ← i.next
    let (r, j) ← j.next
    let (descending, s) ← advance s
    if eoo l then return if eoo r then 0 else -1
    else if eoo r then return 1
    else
      let x ← woCompareElement sub considerFieldName l r
      let x := if descending then -x else x
      if x ≠ 0 then return x else directedLoop fuel i j s

/-- The objects that have no elements are below all others. -/
def directedCompare (s : σ) (l r : Bytes) : Except Exc ℤ :=
  if isEmpty l then .ok (if isEmpty r then 0 else -1)
  else if isEmpty r then .ok 1
  else directedLoop sub considerFieldName advance (objsize l).toNat (begin l) (begin r) s

end loop

/-- The next bit of an ordering. -/
def Ordering.advance (o : Ordering) (mask : BitVec 32) : Except Exc (Bool × BitVec 32) :=
  .ok (o.descending mask ≠ 0, mask <<< 1)

/-- `BSONObj::woCompare` with an `Ordering`. -/
def woCompareOrdering (o : Ordering) (considerFieldName : Bool) (l r : Bytes) : Except Exc ℤ :=
  directedCompare (woCompare l.length) considerFieldName o.advance 1 l r

/-- The next field of a key pattern, if there is one at all. -/
def keyAdvance (ordered : Bool) (k : BSONObjIterator) : Except Exc (Bool × BSONObjIterator) :=
  if ordered then do
    let (o, k) ← k.next
    return ((number o).lt (.fin 0), k)
  else .ok (false, k)

/-- `BSONObj::woCompare` with a key pattern. -/
def woCompareIdxKey (idxKey : Bytes) (considerFieldName : Bool) (l r : Bytes) : Except Exc ℤ :=
  directedCompare (woCompare l.length) considerFieldName (keyAdvance !isEmpty idxKey) (begin idxKey)
    l r

/-! ### On documents -/

/-- The comparison of two fields. -/
def cmpElement (considerFieldName : Bool) (n : Bytes) (v : Value) (m : Bytes) (w : Value) :
    Except Exc ℤ :=
  if sortClass v ≠ sortClass w then .ok (sortClass v - sortClass w)
  else if considerFieldName ∧ order (nats n) (nats m) ≠ 0 then .ok (order (nats n) (nats m))
  else cmpValue v w

/-- An answer in the direction of a field. -/
def directed (descending : Bool) (x : ℤ) : ℤ := if descending then -x else x

/-- The comparison of two documents in the directions that `advance` gives. -/
def cmpDirected {σ : Type} (considerFieldName : Bool) (advance : σ → Except Exc (Bool × σ)) :
    Doc → Doc → σ → Except Exc ℤ
  | .nil, e, s => do
    let _ ← advance s
    return if e = .nil then 0 else -1
  | .cons n v d, e, s => do
    let (descending, s) ← advance s
    match e with
    | .nil => return 1
    | .cons m w e =>
      let x ← cmpElement considerFieldName n v m w
      if directed descending x ≠ 0 then return directed descending x
      else cmpDirected considerFieldName advance d e s

/-- The order of a field of a key pattern is descending. -/
def descends (v : Value) : Bool := (numberOf v).lt (.fin 0)

/-- The order of the field with this number is descending; behind the pattern none is. -/
def descendsAt : Doc → ℕ → Bool
  | .nil, _ => false
  | .cons _ v _, 0 => descends v
  | .cons _ _ k, i + 1 => descendsAt k i

/-- The two documents have that many fields, and the comparison cannot tell them apart. -/
def agreeOn (considerFieldName : Bool) : ℕ → Doc → Doc → Bool
  | 0, _, _ => true
  | i + 1, .cons n v d, .cons m w e =>
    match cmpElement considerFieldName n v m w with
    | .ok x => x = 0 && agreeOn considerFieldName i d e
    | .error _ => false
  | _ + 1, _, _ => false

/-! ### The code computes them -/

theorem woCompareElement_elem {sub : Bytes → Bytes → Except Exc ℤ} {k : ℕ} (hsub : Compares k sub)
    (considerFieldName : Bool) {n m : Bytes} {v w : Value} (hn : 0 ∉ n) (hm : 0 ∉ m)
    (hv : v.Valid) (hw : w.Valid) (hk : v.bytes.length ≤ k)
    (hsv : v.bytes.length ≤ BSONObjMaxInternalSize) (hsw : w.bytes.length ≤ BSONObjMaxInternalSize)
    (r r' : Bytes) :
    woCompareElement sub considerFieldName (elem n v r) (elem m w r') =
      cmpElement considerFieldName n v m w := by
  simp only [woCompareElement, cmpElement, canonicalType_elem, isNumber_elem, fieldName_elem,
    strcmp_eq_order _ _ hn hm, bind, Except.bind, pure, Except.pure]
  by_cases hc : sortClass v = sortClass w
  · rw [if_neg (by simp [hc]), if_neg (not_not.mpr hc)]
    split_ifs with ho
    · rfl
    · exact compareElementValues_elem sub hn hm hv hw hsv hsw (matched_of_sortClass hc) r r'
        fun d e hd he hld hle => hsub d e r r' hd he (by omega) (by omega) (by omega)
  · have hnum : !isNum v ∨ !isNum w := by
      by_contra h
      simp only [Bool.not_eq_true', not_or, Bool.not_eq_false] at h
      exact hc (sortClass_eq_of_isNum h.1 h.2)
    rw [if_pos ⟨sub_ne_zero.mpr hc, hnum⟩, if_pos hc]

/-- **The loop compares documents in the given directions.** -/
theorem directedLoop_iter {σ : Type} {sub : Bytes → Bytes → Except Exc ℤ} {k : ℕ}
    (hsub : Compares k sub) (c : Bool) (advance : σ → Except Exc (Bool × σ)) (r r' : Bytes) :
    ∀ {fuel : ℕ} {d e : Doc} (s : σ), d.Valid → e.Valid → d.elems.length < fuel →
    d.elems.length ≤ k → d.elems.length ≤ BSONObjMaxInternalSize →
    e.elems.length ≤ BSONObjMaxInternalSize →
    directedLoop sub c advance fuel (iter d r) (iter e r') s = cmpDirected c advance d e s
  | 0, _, _, _, _, _, hf, _, _, _ => by omega
  | fuel + 1, .nil, .nil, s, _, _, _, _, _, _ => by
    simp only [directedLoop, next_nil, cmpDirected, bind, Except.bind]
    rfl
  | fuel + 1, .nil, .cons m w e, s, _, he, _, _, _, hse => by
    rw [length_elems_cons] at hse
    have hw := lt_of_le_maxSize (show w.bytes.length ≤ _ by omega)
    simp only [directedLoop, next_nil, next_cons he.1 he.2.1.framed hw, eoo_elem, cmpDirected, bind,
      Except.bind]
    rfl
  | fuel + 1, .cons n v d, .nil, s, hd, _, _, _, hsd, _ => by
    rw [length_elems_cons] at hsd
    have hv := lt_of_le_maxSize (show v.bytes.length ≤ _ by omega)
    simp only [directedLoop, next_nil, next_cons hd.1 hd.2.1.framed hv, eoo_elem, cmpDirected, bind,
      Except.bind]
    rfl
  | fuel + 1, .cons n v d, .cons m w e, s, hd, he, hf, hk, hsd, hse => by
    rw [length_elems_cons] at hsd hf hk hse
    have hv := lt_of_le_maxSize (show v.bytes.length ≤ _ by omega)
    have hw := lt_of_le_maxSize (show w.bytes.length ≤ _ by omega)
    have ih := fun s => directedLoop_iter hsub c advance r r' s hd.2.2 he.2.2
      (show _ < fuel by omega) (by omega) (by omega) (by omega)
    have hx := woCompareElement_elem hsub c hd.1 he.1 hd.2.1 he.2.1 (by omega) (by omega) (by omega)
      (body d r) (body e r')
    simp only [directedLoop, next_cons hd.1 hd.2.1.framed hv, next_cons he.1 he.2.1.framed hw,
      eoo_elem, hx, ih, cmpDirected, directed, bind, Except.bind, pure, Except.pure]
    rfl

theorem directedCompare_bytes {σ : Type} (a b : Stored) (r r' : Bytes) (c : Bool)
    (advance : σ → Except Exc (Bool × σ)) (s : σ) :
    directedCompare (woCompare (a.bytes ++ r).length) c advance s (a.bytes ++ r) (b.bytes ++ r') =
      if a.doc = .nil then .ok (if b.doc = .nil then 0 else -1)
      else if b.doc = .nil then .ok 1
      else cmpDirected c advance a.doc b.doc s := by
  have hla := lt_of_le_maxSize a.size
  have hlb := lt_of_le_maxSize b.size
  have hsa := a.size
  have hsb := b.size
  have hk : a.doc.elems.length ≤ (a.bytes ++ r).length := by
    simp [Stored.bytes]
    omega
  rw [length_bytes] at hsa hsb
  have hloop := directedLoop_iter (woCompare_bytes (a.bytes ++ r).length) c advance r r' s a.valid
    b.valid (show _ < a.doc.bytes.length by simp) hk (by omega) (by omega)
  simp only [directedCompare, Stored.bytes, isEmpty_bytes hla, isEmpty_bytes hlb, objsize_bytes hla,
    begin_bytes hla, begin_bytes hlb, Int.toNat_natCast, decide_eq_true_eq] at hloop ⊢
  rw [hloop]

/-! ### The bits of a pattern -/

/-- One bit of a mask. -/
theorem and_twoPow_ne_zero (b : BitVec 32) (n : ℕ) :
    (decide (b &&& 1#32 <<< n ≠ 0)) = b.getLsbD n := by
  rw [← BitVec.twoPow_eq, BitVec.and_twoPow]
  by_cases hn : n < 32
  · have hne : BitVec.twoPow 32 n ≠ 0#32 := by
      intro h
      have hbit := congrArg (fun x => x.getLsbD n) h
      simp [hn] at hbit
    cases b.getLsbD n <;> simp [hne]
  · simp [BitVec.getLsbD_of_ge _ _ (not_lt.mp hn)]

theorem advance_mask (o : Ordering) (n : ℕ) :
    o.advance (1#32 <<< n) = .ok (o.bits.getLsbD n, 1#32 <<< (n + 1)) := by
  rw [Ordering.advance, Ordering.descending, and_twoPow_ne_zero, ← BitVec.shiftLeft_add]

theorem getLsbD_setBit (b : BitVec 32) {n : ℕ} (hn : n < 32) (set : Bool) (i : ℕ) :
    (if set then b ||| 1#32 <<< n else b).getLsbD i = (b.getLsbD i || decide (i = n) && set) := by
  cases set with
  | false => simp
  | true =>
    rw [if_pos rfl, ← BitVec.twoPow_eq]
    simp [hn, eq_comm]

/-- **The loop of `Ordering::make` sets the bits of the fields that descend**, as long as there are
bits. -/
theorem makeLoop_iter (r : Bytes) : ∀ {fuel : ℕ} {k : Doc} (n : ℕ) (b : BitVec 32), k.Valid →
    k.elems.length < fuel → k.elems.length ≤ BSONObjMaxInternalSize → ∀ {o : Ordering},
    makeLoop fuel (iter k r) n b = .ok o →
    ∀ i, o.bits.getLsbD i = (b.getLsbD i || decide (n ≤ i) && descendsAt k (i - n))
  | 0, _, _, _, _, hf, _, _, _, _ => by omega
  | fuel + 1, .nil, n, b, _, _, _, o, h, i => by
    simp only [makeLoop, next_nil, bind, Except.bind] at h
    obtain rfl : ⟨b⟩ = o := Except.ok.inj h
    simp [descendsAt]
  | fuel + 1, .cons m v k, n, b, hk, hf, hs, o, h, i => by
    rw [length_elems_cons] at hf hs
    have hv := lt_of_le_maxSize (show v.bytes.length ≤ _ by omega)
    simp only [makeLoop, next_cons hk.1 hk.2.1.framed hv, eoo_elem, number_elem hk.1, bind,
      Except.bind, Bool.false_eq_true, if_false] at h
    by_cases hn : 31 < n
    · rw [if_pos hn] at h
      cases h
    rw [if_neg hn] at h
    have hbit := getLsbD_setBit b (show n < 32 by omega) (descends v) i
    rw [makeLoop_iter r (n + 1) _ hk.2.2 (by omega) (by omega) h i, ← descends, hbit]
    rcases lt_trichotomy i n with hi | rfl | hi
    · simp [show ¬ n + 1 ≤ i by omega, show ¬ n ≤ i by omega, show i ≠ n by omega]
    · simp [descendsAt]
    · obtain ⟨j, rfl⟩ : ∃ j, i = n + 1 + j := ⟨i - (n + 1), by omega⟩
      simp [show n + 1 + j - n = j + 1 by omega, show n ≤ n + 1 + j by omega,
        show n + 1 + j ≠ n by omega, descendsAt]

theorem make_bytes (key : Stored) (r : Bytes) {o : Ordering}
    (h : Ordering.make (key.bytes ++ r) = .ok o) (i : ℕ) :
    o.bits.getLsbD i = descendsAt key.doc i := by
  have hl := lt_of_le_maxSize key.size
  have hs := key.size
  rw [Ordering.make, Stored.bytes, objsize_bytes hl, begin_bytes hl, Int.toNat_natCast] at h
  rw [length_bytes] at hs
  simpa using makeLoop_iter r 0 0 key.valid (by simp) (by omega) h i

theorem keyAdvance_cons {n : Bytes} {v : Value} {k : Doc} (r : Bytes) (hk : (Doc.cons n v k).Valid)
    (hs : (Doc.cons n v k).elems.length ≤ BSONObjMaxInternalSize) :
    keyAdvance true (iter (.cons n v k) r) = .ok (descends v, iter k r) := by
  rw [length_elems_cons] at hs
  have hv := lt_of_le_maxSize (show v.bytes.length ≤ _ by omega)
  simp only [keyAdvance, next_cons hk.1 hk.2.1.framed hv, number_elem hk.1, bind, Except.bind]
  rfl

theorem keyAdvance_nil (r : Bytes) : keyAdvance true (iter .nil r) = .ok (false, ⟨r, -1⟩) := by
  simp only [keyAdvance, next_nil, bind, Except.bind]
  rfl

/-- Behind the `EOO` of the pattern the iterator refuses. -/
theorem keyAdvance_end (r : Bytes) : keyAdvance true ⟨r, -1⟩ = .error .verifyFailed := rfl

theorem directed_eq_zero {b : Bool} {x : ℤ} : directed b x = 0 ↔ x = 0 := by
  cases b <;> simp [directed]

theorem cmpDirected_end (c : Bool) (r : Bytes) (d e : Doc) :
    cmpDirected c (keyAdvance true) d e ⟨r, -1⟩ = .error .verifyFailed := by
  cases d <;> rw [cmpDirected, keyAdvance_end] <;> rfl

/-- **Following the pattern is following the bits**, until the pattern ends. -/
theorem cmpDirected_keyAdvance (c : Bool) (o : Ordering) (r : Bytes) :
    ∀ (d e k : Doc) (n : ℕ), k.Valid → k.elems.length ≤ BSONObjMaxInternalSize →
    (∀ i, o.bits.getLsbD (n + i) = descendsAt k i) →
    cmpDirected c (keyAdvance true) d e (iter k r) =
      if agreeOn c (count k + 1) d e then .error .verifyFailed
      else cmpDirected c o.advance d e (1#32 <<< n)
  | .nil, e, .nil, n, _, _, _ => by
    rw [cmpDirected, keyAdvance_nil, cmpDirected, advance_mask]
    rfl
  | .nil, e, .cons m v k, n, hk, hs, _ => by
    rw [cmpDirected, keyAdvance_cons r hk hs, cmpDirected, advance_mask]
    rfl
  | .cons _ _ d, .nil, .nil, n, _, _, _ => by
    rw [cmpDirected, keyAdvance_nil, cmpDirected, advance_mask]
    rfl
  | .cons _ _ d, .nil, .cons m v k, n, hk, hs, _ => by
    rw [cmpDirected, keyAdvance_cons r hk hs, cmpDirected, advance_mask]
    rfl
  | .cons a x d, .cons b y e, .nil, n, _, _, ho => by
    have hn : o.bits.getLsbD n = false := ho 0
    simp only [cmpDirected, keyAdvance_nil, advance_mask, hn, count, agreeOn, directed,
      cmpDirected_end, bind, Except.bind, Bool.false_eq_true, if_false]
    rcases cmpElement c a x b y with _ | z
    · rfl
    · by_cases hz : z = 0 <;> simp [hz]
  | .cons a x d, .cons b y e, .cons m v k, n, hk, hs, ho => by
    have hn : o.bits.getLsbD n = descends v := ho 0
    have hs' := hs
    rw [length_elems_cons] at hs'
    have ih := cmpDirected_keyAdvance c o r d e k (n + 1) hk.2.2 (by omega) fun i => by
      rw [Nat.add_right_comm]
      exact ho (i + 1)
    simp only [cmpDirected, keyAdvance_cons r hk hs, advance_mask, hn, count, agreeOn, ih, bind,
      Except.bind]
    rcases cmpElement c a x b y with _ | z
    · rfl
    · by_cases hz : z = 0
      · simp [hz, directed]
      · simp [hz, directed_eq_zero]

theorem cmpDirected_unordered (c : Bool) (o : Ordering) (i : BSONObjIterator)
    (ho : ∀ n, o.bits.getLsbD n = false) : ∀ (d e : Doc) (n : ℕ),
    cmpDirected c (keyAdvance false) d e i = cmpDirected c o.advance d e (1#32 <<< n)
  | .nil, e, n => by
    rw [cmpDirected, cmpDirected, advance_mask]
    rfl
  | .cons _ _ d, .nil, n => by
    rw [cmpDirected, cmpDirected, advance_mask]
    rfl
  | .cons a x d, .cons b y e, n => by
    have ih := cmpDirected_unordered c o i ho d e (n + 1)
    have hk : keyAdvance false i = .ok (false, i) := rfl
    simp only [cmpDirected, hk, advance_mask, ho, ih, bind, Except.bind]

/-- **The bits that `Ordering` computes once stand for the key pattern in every comparison.** Only
objects that agree on one field more than the pattern has are compared by the bits alone: with the
pattern, the comparison fails there. -/
theorem woCompareIdxKey_eq_ordering (key a b : Stored) (rk r r' : Bytes) (c : Bool) {o : Ordering}
    (h : Ordering.make (key.bytes ++ rk) = .ok o) :
    woCompareIdxKey (key.bytes ++ rk) c (a.bytes ++ r) (b.bytes ++ r') =
      if key.doc ≠ .nil ∧ agreeOn c (count key.doc + 1) a.doc b.doc then .error .verifyFailed
      else woCompareOrdering o c (a.bytes ++ r) (b.bytes ++ r') := by
  have hbits := make_bytes key rk h
  have hl := lt_of_le_maxSize key.size
  have hs := key.size
  rw [length_bytes] at hs
  have hempty : isEmpty (key.bytes ++ rk) = decide (key.doc = .nil) := isEmpty_bytes hl rk
  have hbegin : begin (key.bytes ++ rk) = iter key.doc rk := begin_bytes hl rk
  rw [woCompareIdxKey, woCompareOrdering, directedCompare_bytes, directedCompare_bytes, hempty,
    hbegin]
  by_cases hk : key.doc = .nil
  · have hrest := cmpDirected_unordered c o (iter key.doc rk)
      (fun n => (hbits n).trans (by rw [hk, descendsAt])) a.doc b.doc 0
    have hno : ¬ (key.doc ≠ .nil ∧ agreeOn c (count key.doc + 1) a.doc b.doc) := fun hne => hne.1 hk
    rw [if_neg hno, decide_eq_true hk, Bool.not_true, hrest]
    rfl
  · have hrest := cmpDirected_keyAdvance c o rk a.doc b.doc key.doc 0 key.valid (by omega) fun i =>
      (Nat.zero_add i).symm ▸ hbits i
    rw [decide_eq_false hk, Bool.not_false, hrest]
    rcases ha : a.doc with _ | ⟨n, v, d⟩
    · simp [agreeOn]
    · rcases hb : b.doc with _ | ⟨m, w, e⟩
      · simp [agreeOn]
      · simp only [hk, ne_eq, not_false_eq_true, true_and, reduceCtorEq, if_false]
        rfl

/-- A pattern with an ascending and a descending field. -/
def pattern : Stored where
  doc := .cons (ascii "a") (.numberDouble 0x3FF0000000000000)
    (.cons (ascii "b") (.numberDouble 0xBFF0000000000000) .nil)
  valid := by decide
  size := by decide

/-- A document with two flags, the first of which is not set. -/
def flags (b : UInt8) : Stored where
  doc := .cons (ascii "a") (.bool 0) (.cons (ascii "b") (.bool b) .nil)
  valid := ⟨by decide, trivial, by decide, trivial, trivial⟩
  size := show 13 ≤ BSONObjMaxInternalSize by decide

/-- The documents differ in the field whose order is descending. -/
theorem woCompareIdxKey_eq_ordering_flags :
    woCompareIdxKey pattern.bytes true (flags 0).bytes (flags 1).bytes =
      woCompareOrdering ⟨2⟩ true (flags 0).bytes (flags 1).bytes ∧
    woCompareOrdering ⟨2⟩ true (flags 0).bytes (flags 1).bytes = .ok 1 := by
  have h := woCompareIdxKey_eq_ordering pattern (flags 0) (flags 1) [] [] [] true (o := ⟨2⟩)
    (by decide +kernel)
  simp only [List.append_nil] at h
  rw [h, if_neg (by decide +kernel)]
  exact ⟨rfl, by decide +kernel⟩

end PgBson.Compare.KeyPattern
