import PgBson.Compare.WoCompare

/-! # What the comparison computes

`cmpDoc` is the comparison on documents instead of on their bytes: position by position the sort
class, the field name, the value. It keeps what the code does inside a class, where the rule is
that of the left value's type, a `Date` on the left refuses a `Timestamp` on the right, and the
scope of a `CodeWScope` is the C string behind the first NUL of the code.

`bsonCompare_bytes`: on the bytes of well-formed documents, with any memory behind them,
`bsonCompare` returns what `cmpDoc` does; in particular its recursion ends. -/

namespace PgBson.Compare.Cmp

open PgBson.Lib.Sign PgBson.Lib.Memory PgBson.Lib.Binary64
open PgBson.Bson.Types PgBson.Bson.Document PgBson.Bson.Element
open PgBson.Compare.WoCompare

/-- The sort class of a value. -/
def sortClass (v : Value) : ℤ := canonicalizeBSONType v.type

/-- The value of a number as a double. -/
def numberOf : Value → Dbl
  | .numberDouble b => Dbl.ofBits b
  | .numberInt a => Dbl.ofInt a.toInt
  | .numberLong a => Dbl.ofInt a.toInt
  | _ => .fin 0

/-- Numbers of different types are compared as doubles. -/
def cmpNumbers (v w : Value) : ℤ := order (numberOf v).key (numberOf w).key

/-- The code and the scope of a `CodeWScope`, one after the other. -/
def codeAndScope (c : Bytes) (d : Doc) : Bytes := c ++ frame d.elems

/-- Values of different sort classes never get as far as a comparison of values. -/
def unreached : Except Exc ℤ := .error .verifyFailed

/-- The comparison of two values of one sort class without embedded documents. -/
def cmpLeaf (v w : Value) : Except Exc ℤ :=
  match v with
  | .minKey | .maxKey | .undefined | .jstNULL => .ok 0
  | .bool a =>
    match w with
    | .bool b => .ok (schar a - schar b)
    | _ => unreached
  | .timestamp a =>
    match w with
    | .timestamp b | .date b => .ok (order a.toNat b.toNat)
    | _ => unreached
  | .date a =>
    match w with
    | .date b => .ok (order a.toInt b.toInt)
    | .timestamp _ => .error (.msgasserted 13111)
    | _ => unreached
  | .numberLong a =>
    match w with
    | .numberLong b => .ok (order a.toInt b.toInt)
    | w => .ok (cmpNumbers (.numberLong a) w)
  | .numberInt a =>
    match w with
    | .numberInt b => .ok (order a.toInt b.toInt)
    | w => .ok (cmpNumbers (.numberInt a) w)
  | .numberDouble a => .ok (cmpNumbers (.numberDouble a) w)
  | .jstOID i =>
    match w with
    | .jstOID j => .ok (memcmp 12 i.data j.data)
    | _ => unreached
  | .string s | .symbol s =>
    match w with
    | .string t | .symbol t => .ok (stringCompare s t)
    | _ => unreached
  | .code s =>
    match w with
    | .code t => .ok (stringCompare s t)
    | _ => unreached
  | .dbRef ns i =>
    match w with
    | .dbRef ms j =>
      .ok (first ((ns.length : ℤ) - ms.length)
        (memcmp (Value.dbRef ns i).bytes.length (Value.dbRef ns i).bytes (Value.dbRef ms j).bytes))
    | _ => unreached
  | .binData t x =>
    match w with
    | .binData u y =>
      .ok (first ((x.length : ℤ) - y.length) (memcmp (x.length + 1) (t :: x) (u :: y)))
    | _ => unreached
  | .regEx x f =>
    match w with
    | .regEx y g => .ok (first (order (nats x) (nats y)) (order (nats f) (nats g)))
    | _ => unreached
  | .codeWScope c d =>
    match w with
    | .codeWScope b e =>
      let p := codeAndScope c d
      let q := codeAndScope b e
      .ok (first (order (nats (cstr p)) (nats (cstr q)))
        (order (nats (cstr (afterCstr p))) (nats (cstr (afterCstr q)))))
    | _ => unreached
  | .object _ | .array _ => unreached

mutual

/-- The comparison of two values of one sort class. -/
def cmpValue : Value → Value → Except Exc ℤ
  | .object d, w =>
    match w with
    | .object e => cmpDoc d e
    | _ => unreached
  | .array d, w =>
    match w with
    | .array e => cmpDoc d e
    | _ => unreached
  | v, w => cmpLeaf v w

/-- The comparison of two documents. -/
def cmpDoc : Doc → Doc → Except Exc ℤ
  | .nil, e =>
    match e with
    | .nil => .ok 0
    | .cons _ _ _ => .ok (-1)
  | .cons n v d, e =>
    match e with
    | .nil => .ok 1
    | .cons m w e =>
      if sortClass v ≠ sortClass w then .ok (sortClass v - sortClass w)
      else if order (nats n) (nats m) ≠ 0 then .ok (order (nats n) (nats m))
      else do
        let x ← cmpValue v w
        if x ≠ 0 then return x else cmpDoc d e

end

/-! ### Values of one sort class -/

/-- The value is a number. -/
def isNum : Value → Bool
  | .numberDouble _ | .numberInt _ | .numberLong _ => true
  | _ => false

/-- The pairs of values that are in one sort class. -/
inductive Matched : Value → Value → Prop
  | minKey : Matched .minKey .minKey
  | maxKey : Matched .maxKey .maxKey
  | undefined : Matched .undefined .undefined
  | jstNULL : Matched .jstNULL .jstNULL
  | bool (a b) : Matched (.bool a) (.bool b)
  | timestamps (a b) : Matched (.timestamp a) (.timestamp b)
  | timestampDate (a b) : Matched (.timestamp a) (.date b)
  | dates (a b) : Matched (.date a) (.date b)
  | dateTimestamp (a b) : Matched (.date a) (.timestamp b)
  | jstOID (i j) : Matched (.jstOID i) (.jstOID j)
  | strings (s t) : Matched (.string s) (.string t)
  | stringSymbol (s t) : Matched (.string s) (.symbol t)
  | symbolString (s t) : Matched (.symbol s) (.string t)
  | symbols (s t) : Matched (.symbol s) (.symbol t)
  | code (s t) : Matched (.code s) (.code t)
  | dbRef (n i m j) : Matched (.dbRef n i) (.dbRef m j)
  | binData (t x u y) : Matched (.binData t x) (.binData u y)
  | regEx (x f y g) : Matched (.regEx x f) (.regEx y g)
  | codeWScope (c d b e) : Matched (.codeWScope c d) (.codeWScope b e)
  | object (d e) : Matched (.object d) (.object e)
  | array (d e) : Matched (.array d) (.array e)
  | numbers (v w) : isNum v → isNum w → Matched v w

theorem matched_of_sortClass {v w : Value} (h : sortClass v = sortClass w) : Matched v w := by
  cases v <;> cases w <;>
    first
    | (exfalso; simp [sortClass, Value.type, canonicalizeBSONType] at h; done)
    | exact .numbers _ _ rfl rfl
    | constructor

theorem Matched.sortClass_eq {v w : Value} (h : Matched v w) : sortClass v = sortClass w := by
  cases h
  case numbers hv hw =>
    cases v <;> simp [isNum] at hv <;> cases w <;> simp [isNum] at hw <;> rfl
  all_goals rfl

theorem Matched.exists_object {d : Doc} {w : Value} (h : Matched (.object d) w) :
    ∃ e, w = .object e := by
  cases h
  case object e => exact ⟨e, rfl⟩
  case numbers h _ => simp [isNum] at h

theorem Matched.exists_array {d : Doc} {w : Value} (h : Matched (.array d) w) :
    ∃ e, w = .array e := by
  cases h
  case array e => exact ⟨e, rfl⟩
  case numbers h _ => simp [isNum] at h

theorem Matched.symm {v w : Value} (h : Matched v w) : Matched w v :=
  matched_of_sortClass h.sortClass_eq.symm

theorem Matched.trans {u v w : Value} (h : Matched u v) (h' : Matched v w) : Matched u w :=
  matched_of_sortClass (h.sortClass_eq.trans h'.sortClass_eq)

/-! ### The bytes of elements -/

theorem number_elem {n : Bytes} (hn : 0 ∉ n) (v : Value) (r : Bytes) :
    number (elem n v r) = numberOf v := by
  unfold number
  rw [type_elem, value_elem hn]
  cases v <;> simp [Value.type, Value.bytes, numberOf, bits64_toNat, int32_toNat]

theorem dodouble_elem {n m : Bytes} (hn : 0 ∉ n) (hm : 0 ∉ m) (v w : Value) (r r' : Bytes) :
    dodouble (elem n v r) (elem m w r') = cmpNumbers v w := by
  simp only [dodouble, number_elem hn, number_elem hm, cmpNumbers, Dbl.order_key]

theorem canonicalType_elem (n : Bytes) (v : Value) (r : Bytes) :
    canonicalType (elem n v r) = .ok (sortClass v) := by
  rw [canonicalType, type_elem]; rfl

theorem drop_codeWScope (c : Bytes) (d : Doc) (r : Bytes) :
    ((Value.codeWScope c d).bytes ++ r).drop 8 = codeAndScope c d ++ r := by
  have hb : ∀ a b : Bytes,
      (a ++ (b ++ c ++ frame d.elems)) ++ r = (a ++ b) ++ (codeAndScope c d ++ r) :=
    by intro a b; simp [codeAndScope]
  rw [Value.bytes, hb, List.drop_left' (by simp)]

theorem zero_mem_codeAndScope {c : Bytes} (d : Doc) (h : Terminated c) :
    0 ∈ codeAndScope c d := by simp [codeAndScope, h.zero_mem]

theorem zero_mem_afterCstr_codeAndScope {c : Bytes} (d : Doc) (h : Terminated c) :
    0 ∈ afterCstr (codeAndScope c d) := by
  rw [codeAndScope, afterCstr_append_of_mem _ h.zero_mem]
  simp [frame]

theorem strcmp_codeAndScope {c b : Bytes} (d e : Doc) (hc : Terminated c) (hb : Terminated b)
    (r r' : Bytes) :
    strcmp (codeAndScope c d ++ r) (codeAndScope b e ++ r') =
      order (nats (cstr (codeAndScope c d))) (nats (cstr (codeAndScope b e))) := by
  have h1 := zero_mem_codeAndScope d hc
  have h2 := zero_mem_codeAndScope e hb
  rw [strcmp_of_mem (List.mem_append_left _ h1) (List.mem_append_left _ h2),
    cstr_append_of_mem _ h1, cstr_append_of_mem _ h2]

theorem strcmp_afterCstr_codeAndScope {c b : Bytes} (d e : Doc) (hc : Terminated c)
    (hb : Terminated b) (r r' : Bytes) :
    strcmp (afterCstr (codeAndScope c d ++ r)) (afterCstr (codeAndScope b e ++ r')) =
      order (nats (cstr (afterCstr (codeAndScope c d))))
        (nats (cstr (afterCstr (codeAndScope b e)))) := by
  have h1 := zero_mem_afterCstr_codeAndScope d hc
  have h2 := zero_mem_afterCstr_codeAndScope e hb
  rw [afterCstr_append_of_mem _ (zero_mem_codeAndScope d hc),
    afterCstr_append_of_mem _ (zero_mem_codeAndScope e hb),
    strcmp_of_mem (List.mem_append_left _ h1) (List.mem_append_left _ h2),
    cstr_append_of_mem _ h1, cstr_append_of_mem _ h2]

theorem stringCompare_bytes {s t : Bytes} (hs : s.length < 2 ^ 31) (ht : t.length < 2 ^ 31)
    (r r' : Bytes) :
    first (memcmp (min (int32 (le 4 s.length ++ s ++ r)) (int32 (le 4 t.length ++ t ++ r'))).toNat
      ((le 4 s.length ++ s ++ r).drop 4) ((le 4 t.length ++ t ++ r').drop 4))
      (int32 (le 4 s.length ++ s ++ r) - int32 (le 4 t.length ++ t ++ r')) = stringCompare s t := by
  have hmin : (min (s.length : ℤ) t.length).toNat = min s.length t.length := by omega
  rw [List.append_assoc, List.append_assoc, int32_of_lt hs, int32_of_lt ht,
    List.drop_left' (length_le _ _), List.drop_left' (length_le _ _), hmin,
    memcmp_append _ _ (by omega) (by omega), stringCompare]

/-- **The values of two elements of one class in memory are compared as `cmpValue` says**, if
the documents embedded in them are. -/
theorem compareElementValues_elem (sub : Bytes → Bytes → Except Exc ℤ) {n m : Bytes} {v w : Value}
    (hn : 0 ∉ n) (hm : 0 ∉ m) (hv : v.Valid) (hw : w.Valid)
    (hsv : v.bytes.length ≤ BSONObjMaxInternalSize)
    (hsw : w.bytes.length ≤ BSONObjMaxInternalSize)
    (hc : Matched v w) (r r' : Bytes)
    (hsub : ∀ d e : Doc, d.Valid → e.Valid → d.bytes.length ≤ v.bytes.length →
      e.bytes.length ≤ w.bytes.length → sub (d.bytes ++ r) (e.bytes ++ r') = cmpDoc d e) :
    compareElementValues sub (elem n v r) (elem m w r') = cmpValue v w := by
  have hlv := lt_of_le_maxSize hsv
  have hlw := lt_of_le_maxSize hsw
  unfold compareElementValues
  simp only [type_elem, value_elem hn, value_elem hm, dodouble_elem hn hm, canonicalType_elem,
    date, Date, valuestrsize, valuestr, regexFlags, regex, codeWScopeScopeDataUnsafe,
    codeWScopeCode, bind, Except.bind, pure, Except.pure]
  cases hc
  case minKey | maxKey | undefined | jstNULL => rfl
  case bool a b => rfl
  case timestamps a b | timestampDate a b | dates a b =>
    simp [Value.type, Value.bytes, bits64_toNat, cmpValue, cmpLeaf]
  case dateTimestamp a b => rfl
  case jstOID i j =>
    simp only [Value.type, Value.bytes, cmpValue, cmpLeaf]
    rw [memcmp_append _ _ i.size.ge j.size.ge]
  case strings s t | stringSymbol s t | symbolString s t | symbols s t | code s t =>
    simp only [Value.bytes, List.length_append, length_le] at hlv hlw
    simp only [Value.type, Value.bytes, cmpValue, cmpLeaf]
    rw [stringCompare_bytes (by omega) (by omega)]
  case dbRef ns i ms j =>
    simp only [valuesize_elem hn hv.framed hlv, valuesize_elem hm hw.framed hlw, Value.type,
      cmpValue, cmpLeaf]
    have hd : ((Value.dbRef ns i).bytes.length : ℤ) - (Value.dbRef ms j).bytes.length =
        ns.length - ms.length := by
      simp [Value.bytes, i.size, j.size]
    rw [hd, Int.toNat_natCast]
    unfold first
    split_ifs with h
    · rfl
    · rw [memcmp_append _ _ le_rfl (by omega)]
  case binData t x u y =>
    simp only [Value.bytes, List.length_append, List.length_cons, length_le] at hlv hlw
    simp only [Value.type, Value.bytes, cmpValue, cmpLeaf]
    rw [List.append_assoc, List.append_assoc, int32_of_lt (by omega), int32_of_lt (by omega),
      List.drop_left' (length_le _ _), List.drop_left' (length_le _ _)]
    have hd : ((x.length : ℤ) + 1).toNat = x.length + 1 := by omega
    rw [hd]
    unfold first
    split_ifs with h
    · rfl
    · rw [memcmp_append _ _ (by simp) (by simp; omega)]
  case regEx x f y g =>
    simp only [Value.type, Value.bytes, cmpValue, cmpLeaf, if_true, List.append_assoc,
      List.cons_append, List.nil_append, strcmp_eq_order _ _ hv.1 hw.1, afterCstr_append _ hv.1,
      afterCstr_append _ hw.1, strcmp_eq_order _ _ hv.2 hw.2]
    exact ite_first Except.ok _ _
  case codeWScope c d b e =>
    have hk : sortClass (.codeWScope c d) - sortClass (.codeWScope b e) = 0 := rfl
    simp only [Value.type, cmpValue, cmpLeaf, if_true, drop_codeWScope,
      strcmp_codeAndScope _ _ hv.1 hw.1, strcmp_afterCstr_codeAndScope _ _ hv.1 hw.1]
    rw [if_neg (not_not.mpr hk)]
    exact ite_first Except.ok _ _
  case object d e =>
    have hd : d.bytes.length ≤ BSONObjMaxInternalSize := hsv
    have he : e.bytes.length ≤ BSONObjMaxInternalSize := hsw
    simp only [Value.type, embeddedObject_object hn hd, embeddedObject_object hm he, cmpValue]
    exact hsub d e hv hw le_rfl le_rfl
  case array d e =>
    have hd : d.bytes.length ≤ BSONObjMaxInternalSize := hsv
    have he : e.bytes.length ≤ BSONObjMaxInternalSize := hsw
    simp only [Value.type, embeddedObject_array hn hd, embeddedObject_array hm he, cmpValue]
    exact hsub d e hv hw le_rfl le_rfl
  case numbers hv' hw' =>
    cases v <;> simp [isNum] at hv' <;> cases w <;> simp [isNum] at hw' <;>
      simp [Value.type, Value.bytes, cmpValue, cmpLeaf, bits64_toNat, int32_toNat]

/-! ### The loop and the recursion -/

theorem isNumber_elem (n : Bytes) (v : Value) (r : Bytes) : isNumber (elem n v r) = isNum v := by
  rw [isNumber, type_elem]
  cases v <;> rfl

theorem sortClass_eq_of_isNum {v w : Value} (hv : isNum v) (hw : isNum w) :
    sortClass v = sortClass w := (Matched.numbers v w hv hw).sortClass_eq

/-- The embedded documents of up to `k` bytes are compared as `cmpDoc` says. -/
def Compares (k : ℕ) (sub : Bytes → Bytes → Except Exc ℤ) : Prop :=
  ∀ (d e : Doc) (r r' : Bytes), d.Valid → e.Valid → d.bytes.length ≤ k →
    d.bytes.length ≤ BSONObjMaxInternalSize → e.bytes.length ≤ BSONObjMaxInternalSize →
    sub (d.bytes ++ r) (e.bytes ++ r') = cmpDoc d e

theorem elementWoCompare_elem {sub : Bytes → Bytes → Except Exc ℤ} {k : ℕ} (hsub : Compares k sub)
    {n m : Bytes} {v w : Value} (hn : 0 ∉ n) (hm : 0 ∉ m) (hv : v.Valid) (hw : w.Valid)
    (hk : v.bytes.length ≤ k) (hsv : v.bytes.length ≤ BSONObjMaxInternalSize)
    (hsw : w.bytes.length ≤ BSONObjMaxInternalSize) (r r' : Bytes) :
    elementWoCompare sub (elem n v r) (elem m w r') =
      if sortClass v ≠ sortClass w then .ok (sortClass v - sortClass w)
      else if order (nats n) (nats m) ≠ 0 then .ok (order (nats n) (nats m))
      else cmpValue v w := by
  simp only [elementWoCompare, canonicalType_elem, isNumber_elem, fieldName_elem,
    strcmp_eq_order _ _ hn hm, bind, Except.bind, pure, Except.pure]
  by_cases hc : sortClass v = sortClass w
  · rw [if_neg (by simp [hc]), if_neg (not_not.mpr hc)]
    split_ifs with ho
    · rfl
    · exact compareElementValues_elem sub hn hm hv hw hsv hsw (matched_of_sortClass hc) r r'
        fun d e hd he hld hle => hsub d e r r' hd he (by omega) (by omega) (by omega)
  · have hnum : !isNum v ∨ !isNum w := by
      by_contra h
      simp only [Bool.not_eq_true', not_or, Bool.not_eq_false] at h
      exact hc (sortClass_eq_of_isNum h.1 h.2)
    rw [if_pos ⟨sub_ne_zero.mpr hc, hnum⟩, if_pos hc]

/-- **The loop compares documents as `cmpDoc` says** when the fuel covers the left one. -/
theorem compareLoop_iter {sub : Bytes → Bytes → Except Exc ℤ} {k : ℕ} (hsub : Compares k sub)
    (r r' : Bytes) : ∀ {fuel : ℕ} {d e : Doc}, d.Valid → e.Valid → d.elems.length < fuel →
    d.elems.length ≤ k → d.elems.length ≤ BSONObjMaxInternalSize →
    e.elems.length ≤ BSONObjMaxInternalSize →
    compareLoop sub fuel (iter d r) (iter e r') = cmpDoc d e
  | 0, _, _, _, _, hf, _, _, _ => by omega
  | fuel + 1, .nil, .nil, _, _, _, _, _, _ => by
    simp only [compareLoop, next_nil, bind, Except.bind]
    rfl
  | fuel + 1, .nil, .cons m w e, _, he, _, _, _, hse => by
    rw [length_elems_cons] at hse
    have hw := lt_of_le_maxSize (show w.bytes.length ≤ _ by omega)
    simp only [compareLoop, next_nil, next_cons he.1 he.2.1.framed hw, eoo_elem, bind, Except.bind]
    rfl
  | fuel + 1, .cons n v d, .nil, hd, _, _, _, hsd, _ => by
    rw [length_elems_cons] at hsd
    have hv := lt_of_le_maxSize (show v.bytes.length ≤ _ by omega)
    simp only [compareLoop, next_nil, next_cons hd.1 hd.2.1.framed hv, eoo_elem, bind, Except.bind]
    rfl
  | fuel + 1, .cons n v d, .cons m w e, hd, he, hf, hk, hsd, hse => by
    rw [length_elems_cons] at hsd hf hk hse
    have hv := lt_of_le_maxSize (show v.bytes.length ≤ _ by omega)
    have hw := lt_of_le_maxSize (show w.bytes.length ≤ _ by omega)
    have ih := compareLoop_iter hsub r r' hd.2.2 he.2.2 (show _ < fuel by omega) (by omega)
      (by omega) (by omega)
    simp only [compareLoop, next_cons hd.1 hd.2.1.framed hv, next_cons he.1 he.2.1.framed hw,
      eoo_elem, bind, Except.bind,
      elementWoCompare_elem hsub hd.1 he.1 hd.2.1 he.2.1 (by omega) (by omega) (by omega), ih,
      cmpDoc, pure, Except.pure]
    by_cases hc : sortClass v = sortClass w
    · by_cases ho : order (nats n) (nats m) = 0
      · simp [hc, ho]
      · simp [hc, ho]
    · simp [hc, sub_ne_zero]

/-- **`woCompare` on the bytes of two documents is `cmpDoc`** when the fuel covers the left one. -/
theorem woCompare_bytes : ∀ (fuel : ℕ), Compares fuel (woCompare fuel)
  | 0, d, _, _, _, _, _, hk, _, _ => by simp at hk
  | fuel + 1, d, e, r, r', hd, he, hk, hsd, hse => by
    have hld := lt_of_le_maxSize hsd
    have hle := lt_of_le_maxSize hse
    rw [woCompare, isEmpty_bytes hld, isEmpty_bytes hle, objsize_bytes hld, begin_bytes hld,
      begin_bytes hle, Int.toNat_natCast]
    rw [length_bytes] at hk hsd hse hld hle
    cases d with
    | nil => cases e <;> rfl
    | cons n v d =>
      cases e with
      | nil => rfl
      | cons m w e =>
        exact compareLoop_iter (woCompare_bytes fuel) r r' hd he (by simp) (by omega) (by omega)
          (by omega)

/-- **On well-formed documents `bsonCompare` computes `cmpDoc`**, whatever the memory behind
them. -/
theorem bsonCompare_bytes (a b : Stored) (r r' : Bytes) :
    bsonCompare (a.bytes ++ r) (b.bytes ++ r') = cmpDoc a.doc b.doc := by
  have h := woCompare_bytes (a.bytes ++ r).length a.doc b.doc r r' a.valid b.valid
    (by simp [Stored.bytes]) a.size b.size
  simp only [bsonCompare, Stored.bytes, bsonObj_bytes a.size, bsonObj_bytes b.size, bind,
    Except.bind]
  exact h

end PgBson.Compare.Cmp
