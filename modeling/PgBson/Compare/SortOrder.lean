import PgBson.Bson.Builder
import PgBson.Compare.KeyPattern

/-! # Sorting documents by a key

`woSortOrder` orders two documents by the fields of a key pattern, which it looks up in both;
`extractFields` makes a key of its own out of a document, to be compared later. Sorting documents is
comparing their extracted keys, with the pattern and with its bits (`woSortOrder_extractFields`),
and the order has opposite signs in the two directions (`woSortOrder_antisymmetric`). -/

namespace PgBson.Compare.SortOrder

open PgBson.Lib.Sign PgBson.Lib.Memory PgBson.Lib.Binary64
open PgBson.Bson.Types PgBson.Bson.Document
open PgBson.Bson.Element hiding obj
open PgBson.Bson.Builder (objBytes objBytes_elems)
open PgBson.Access.Lookup hiding obj
open PgBson.Compare.WoCompare PgBson.Compare.Cmp PgBson.Compare.Order PgBson.Compare.KeyPattern

/-! ### The code -/

/-- `staticNull.firstElement()`. -/
def staticNull : Bytes := elem [] .jstNULL [0]

/-- The lookup of a field of the key. -/
def lookup (useDotted : Bool) (o name : Bytes) : Except Exc Bytes :=
  if useDotted then fieldAt o name else getField o name

/-- A field of the key in one of the documents. -/
def sortField (useDotted : Bool) (o name : Bytes) : Except Exc Bytes := do
  let e ← lookup useDotted o name
  return if eoo e then staticNull else e

/-- The loop of `woSortOrder` over the fields of the key. -/
def sortOrderLoop (sub : Bytes → Bytes → Except Exc ℤ) (useDotted : Bool) (this other : Bytes) :
    ℕ → BSONObjIterator → Except Exc ℤ
  | 0, _ => .error .undefinedBehaviour
  | fuel + 1, i => do
    let (f, i) ← i.next
    if eoo f then return 0
    else
      let l ← sortField useDotted this (cstr (fieldName f))
      let r ← sortField useDotted other (cstr (fieldName f))
      let x ← woCompareElement sub false l r
      let x := if (number f).lt (.fin 0) then -x else x
      if x ≠ 0 then return x else sortOrderLoop sub useDotted this other fuel i

/-- `BSONObj::woSortOrder`. -/
def woSortOrder (useDotted : Bool) (sortKey this other : Bytes) : Except Exc ℤ :=
  if isEmpty this then .ok (if isEmpty other then 0 else -1)
  else if isEmpty other then .ok 1
  else if isEmpty sortKey then .error (.msgasserted 10060)
  else sortOrderLoop (woCompare this.length) useDotted this other (objsize sortKey).toNat
    (begin sortKey)

/-- The loop of `extractFields`: the elements that are appended. -/
def extractLoop (fillWithNull : Bool) (this : Bytes) : ℕ → BSONObjIterator → Except Exc Bytes
  | 0, _ => .error .undefinedBehaviour
  | fuel + 1, i =>
    if i.moreWithEOO then do
      let (e, i) ← i.next
      if eoo e then return []
      else
        let name := cstr (fieldName e)
        let x ← fieldAt this name
        let b ←
          if eoo x then .ok (if fillWithNull then BSONType.jstNULL.byte :: (name ++ [0]) else [])
          else appendAs x name
        return b ++ (← extractLoop fillWithNull this fuel i)
    else return []

/-- `BSONObj::extractFields`. -/
def extractFields (this pattern : Bytes) (fillWithNull : Bool) : Except Exc Bytes := do
  let elems ← extractLoop fillWithNull this (objsize pattern).toNat (begin pattern)
  objBytes elems

/-! ### On documents -/

/-- The value under a field of the key. -/
def sought (useDotted : Bool) (d : Doc) (name : Bytes) : Option Value :=
  if useDotted then valueAt d name else find d name

/-- The value that stands for a field of the key. -/
def sortValue (useDotted : Bool) (d : Doc) (name : Bytes) : Value :=
  (sought useDotted d name).getD .jstNULL

/-- The order of two documents by the fields of a key. -/
def cmpSort (useDotted : Bool) (d e : Doc) : Doc → Except Exc ℤ
  | .nil => .ok 0
  | .cons n v k => do
    let x ← cmpElement false [] (sortValue useDotted d n) [] (sortValue useDotted e n)
    if directed (descends v) x ≠ 0 then return directed (descends v) x
    else cmpSort useDotted d e k

/-- The fields of a pattern in a document. -/
def extracted (fillWithNull : Bool) (d : Doc) : Doc → Doc
  | .nil => .nil
  | .cons n _ k =>
    match valueAt d n with
    | some v => .cons n v (extracted fillWithNull d k)
    | none =>
      if fillWithNull then .cons n .jstNULL (extracted fillWithNull d k)
      else extracted fillWithNull d k

/-! ### The code computes them -/

theorem lookup_bytes (useDotted : Bool) (a : Stored) (r name : Bytes) :
    ∃ e, lookup useDotted (a.bytes ++ r) name = .ok e ∧ Points e (sought useDotted a.doc name) := by
  cases useDotted with
  | true => exact fieldAt_bytes a r name
  | false => exact getField_bytes a.valid.framed a.size r name

theorem sought_fits {useDotted : Bool} {a : Stored} {name : Bytes} {v : Value}
    (h : sought useDotted a.doc name = some v) : Fits a.doc.bytes.length v := by
  cases useDotted with
  | true => exact findDotted_fits a.valid h
  | false => exact find_fits a.valid h

theorem sortField_bytes (useDotted : Bool) (a : Stored) (r name : Bytes) :
    ∃ n r', 0 ∉ n ∧ sortField useDotted (a.bytes ++ r) name =
      .ok (elem n (sortValue useDotted a.doc name) r') := by
  obtain ⟨e, he, hp⟩ := lookup_bytes useDotted a r name
  simp only [sortField, he, sortValue, points_eoo hp, bind, Except.bind, pure, Except.pure]
  cases hv : sought useDotted a.doc name with
  | none => exact ⟨[], [0], by simp, rfl⟩
  | some v =>
    rw [hv] at hp
    obtain ⟨n, r', hn, rfl⟩ := hp
    exact ⟨n, r', hn, rfl⟩

theorem sortValue_fits (useDotted : Bool) (a : Stored) (name : Bytes) :
    (sortValue useDotted a.doc name).Valid ∧
      (sortValue useDotted a.doc name).bytes.length ≤ a.doc.bytes.length := by
  rw [sortValue]
  cases hv : sought useDotted a.doc name with
  | none => exact ⟨trivial, Nat.zero_le _⟩
  | some v => exact ⟨(sought_fits hv).valid, (Nat.le_add_right _ 7).trans (sought_fits hv).size⟩

/-- **The loop over the key orders the documents by its fields.** -/
theorem sortOrderLoop_iter (useDotted : Bool) (a b : Stored) (r r' r'' : Bytes) :
    ∀ {fuel : ℕ} {k : Doc}, k.Valid → k.elems.length < fuel →
    k.elems.length ≤ BSONObjMaxInternalSize →
    sortOrderLoop (woCompare (a.bytes ++ r).length) useDotted (a.bytes ++ r) (b.bytes ++ r') fuel
      (iter k r'') = cmpSort useDotted a.doc b.doc k
  | 0, _, _, hf, _ => by omega
  | fuel + 1, .nil, _, _, _ => by
    simp only [sortOrderLoop, next_nil, bind, Except.bind]
    rfl
  | fuel + 1, .cons n v k, hk, hf, hs => by
    rw [length_elems_cons] at hf hs
    have hv := lt_of_le_maxSize (show v.bytes.length ≤ _ by omega)
    have ih := sortOrderLoop_iter useDotted a b r r' r'' hk.2.2 (show _ < fuel by omega) (by omega)
    obtain ⟨l, rl, hl, hfl⟩ := sortField_bytes useDotted a r n
    obtain ⟨m, rm, hm, hfm⟩ := sortField_bytes useDotted b r' n
    obtain ⟨hval, hlen⟩ := sortValue_fits useDotted a n
    obtain ⟨hval', hlen'⟩ := sortValue_fits useDotted b n
    have hx := woCompareElement_elem (woCompare_bytes (a.bytes ++ r).length) false hl hm hval hval'
      (by simp [Stored.bytes] at hlen ⊢; omega) (hlen.trans a.size) (hlen'.trans b.size) rl rm
    have hname : ∀ v w, cmpElement false l v m w = cmpElement false [] v [] w := fun _ _ => rfl
    simp only [sortOrderLoop, next_cons hk.1 hk.2.1.framed hv, eoo_elem, cstr_fieldName_elem hk.1,
      hfl, hfm, hx, number_elem hk.1, ih, cmpSort, directed, descends, bind, Except.bind,
      Bool.false_eq_true, if_false, hname]
    rfl

theorem woSortOrder_bytes (useDotted : Bool) (key a b : Stored) (rk r r' : Bytes)
    (hkey : key.doc ≠ .nil) (ha : a.doc ≠ .nil) (hb : b.doc ≠ .nil) :
    woSortOrder useDotted (key.bytes ++ rk) (a.bytes ++ r) (b.bytes ++ r') =
      cmpSort useDotted a.doc b.doc key.doc := by
  have hlk := lt_of_le_maxSize key.size
  have hs := key.size
  rw [length_bytes] at hs
  have hempty : ∀ (s : Stored) (r : Bytes), isEmpty (s.bytes ++ r) = decide (s.doc = .nil) :=
    fun s r => isEmpty_bytes (lt_of_le_maxSize s.size) r
  have hsize : objsize (key.bytes ++ rk) = key.doc.bytes.length := objsize_bytes hlk rk
  have hbegin : begin (key.bytes ++ rk) = iter key.doc rk := begin_bytes hlk rk
  rw [woSortOrder, hempty, hempty, hempty, decide_eq_false hkey, decide_eq_false ha,
    decide_eq_false hb, hsize, hbegin, Int.toNat_natCast]
  exact sortOrderLoop_iter useDotted a b r r' rk key.valid (by simp) (by omega)

/-! ### Extracted keys -/

theorem extractLoop_iter (fillWithNull : Bool) (a : Stored) (r r' : Bytes) :
    ∀ {fuel : ℕ} {k : Doc}, k.Valid → k.elems.length < fuel →
    k.elems.length ≤ BSONObjMaxInternalSize →
    extractLoop fillWithNull (a.bytes ++ r) fuel (iter k r') =
      .ok (extracted fillWithNull a.doc k).elems
  | 0, _, _, hf, _ => by omega
  | fuel + 1, .nil, _, _, _ => by
    simp only [extractLoop, next_nil, moreWithEOO_iter, bind, Except.bind]
    rfl
  | fuel + 1, .cons n v k, hk, hf, hs => by
    rw [length_elems_cons] at hf hs
    have hv := lt_of_le_maxSize (show v.bytes.length ≤ _ by omega)
    have ih := extractLoop_iter fillWithNull a r r' hk.2.2 (show _ < fuel by omega) (by omega)
    obtain ⟨e, he, hp⟩ := fieldAt_bytes a r n
    simp only [extractLoop, next_cons hk.1 hk.2.1.framed hv, moreWithEOO_iter, eoo_elem,
      cstr_fieldName_elem hk.1, he, points_eoo hp, ih, extracted, bind, Except.bind, pure,
      Except.pure, if_true, Bool.false_eq_true, if_false]
    cases hw : valueAt a.doc n with
    | none => cases fillWithNull <;> simp [Doc.elems, Value.bytes, Value.type]
    | some w =>
      rw [hw] at hp
      obtain ⟨m, r'', hm, rfl⟩ := hp
      have hfit : Fits a.doc.bytes.length w := findDotted_fits a.valid hw
      have hsize := hfit.size.trans a.size
      have happ := appendAs_elem hm hfit.valid.framed
        (lt_of_le_maxSize (show w.bytes.length ≤ _ by omega)) r'' n
      simp [happ, Doc.elems]

/-- **`extractFields` returns the bytes of the extracted fields**, if it returns. -/
theorem extractFields_bytes (fillWithNull : Bool) (key a : Stored) (rk r : Bytes) {o : Bytes}
    (h : extractFields (a.bytes ++ r) (key.bytes ++ rk) fillWithNull = .ok o) :
    o = (extracted fillWithNull a.doc key.doc).bytes ∧
      (extracted fillWithNull a.doc key.doc).bytes.length ≤ BSONObjMaxInternalSize := by
  have hlk := lt_of_le_maxSize key.size
  have hs := key.size
  rw [length_bytes] at hs
  have hsize : objsize (key.bytes ++ rk) = key.doc.bytes.length := objsize_bytes hlk rk
  have hbegin : begin (key.bytes ++ rk) = iter key.doc rk := begin_bytes hlk rk
  rw [extractFields, hsize, hbegin, Int.toNat_natCast,
    extractLoop_iter fillWithNull a r rk key.valid (by simp) (by omega)] at h
  change objBytes _ = _ at h
  rw [objBytes_elems] at h
  rcases hobj : Bson.Element.obj (extracted fillWithNull a.doc key.doc) with e | d
  · rw [hobj] at h
    cases h
  · rw [hobj] at h
    obtain ⟨rfl, hle⟩ := size_of_obj hobj
    exact ⟨(Except.ok.inj h).symm, hle⟩

theorem extracted_valid (fillWithNull : Bool) (a : Stored) (k : Doc) (hk : k.Valid) :
    (extracted fillWithNull a.doc k).Valid := by
  cases k with
  | nil => trivial
  | cons n v k =>
    have ih := extracted_valid fillWithNull a k hk.2.2
    rw [extracted]
    cases hw : valueAt a.doc n with
    | none =>
      cases fillWithNull with
      | true => exact ⟨hk.1, trivial, ih⟩
      | false => exact ih
    | some w => exact ⟨hk.1, (findDotted_fits a.valid hw).valid, ih⟩

/-- With nulls for the fields that are missing, an extracted key has a field for each of the
pattern. -/
theorem extracted_true (d : Doc) (n : Bytes) (v : Value) (k : Doc) :
    extracted true d (.cons n v k) = .cons n (sortValue true d n) (extracted true d k) := by
  rw [extracted, sortValue, sought, if_pos rfl]
  cases valueAt d n <;> rfl

/-- Fields of one name are compared as if they had none. -/
theorem cmpElement_same_name (c : Bool) (n : Bytes) (v w : Value) :
    cmpElement c n v n w = cmpElement false [] v [] w := by
  simp [cmpElement]

/-- **Comparing extracted keys along their pattern is sorting by it.** -/
theorem cmpDirected_extracted (c : Bool) (d e : Doc) (r : Bytes) : ∀ (k : Doc), k.Valid →
    k.elems.length ≤ BSONObjMaxInternalSize →
    cmpDirected c (keyAdvance true) (extracted true d k) (extracted true e k) (iter k r) =
      cmpSort true d e k
  | .nil, _, _ => by
    rw [extracted, cmpDirected, keyAdvance_nil]
    rfl
  | .cons n v k, hk, hs => by
    have hs' := hs
    rw [length_elems_cons] at hs'
    have ih := cmpDirected_extracted c d e r k hk.2.2 (by omega)
    rw [extracted_true, extracted_true, cmpDirected, keyAdvance_cons r hk hs, cmpSort]
    simp only [ih, cmpElement_same_name, bind, Except.bind]

theorem agreeOn_extracted (c : Bool) (d e : Doc) : ∀ (k : Doc),
    agreeOn c (count k + 1) (extracted true d k) (extracted true e k) = false
  | .nil => rfl
  | .cons n v k => by
    rw [extracted_true, extracted_true, count, agreeOn]
    split
    · rw [agreeOn_extracted c d e k, Bool.and_false]
    · rfl

/-- **Sorting documents by a key is comparing the keys that are extracted from them**, with the
pattern and with its bits, whether names are considered or not. -/
theorem woSortOrder_extractFields (c : Bool) (key a b : Stored) (rk r r' : Bytes)
    (hkey : key.doc ≠ .nil)
    (ha : a.doc ≠ .nil) (hb : b.doc ≠ .nil) {ka kb : Bytes}
    (hka : extractFields (a.bytes ++ r) (key.bytes ++ rk) true = .ok ka)
    (hkb : extractFields (b.bytes ++ r') (key.bytes ++ rk) true = .ok kb) :
    woCompareIdxKey (key.bytes ++ rk) c ka kb =
        woSortOrder true (key.bytes ++ rk) (a.bytes ++ r) (b.bytes ++ r') ∧
      ∀ o, Ordering.make (key.bytes ++ rk) = .ok o →
        woCompareOrdering o c ka kb =
          woSortOrder true (key.bytes ++ rk) (a.bytes ++ r) (b.bytes ++ r') := by
  obtain ⟨rfl, hsa⟩ := extractFields_bytes true key a rk r hka
  obtain ⟨rfl, hsb⟩ := extractFields_bytes true key b rk r' hkb
  let ea : Stored := ⟨extracted true a.doc key.doc, extracted_valid true a key.doc key.valid, hsa⟩
  let eb : Stored := ⟨extracted true b.doc key.doc, extracted_valid true b key.doc key.valid, hsb⟩
  have hs := key.size
  rw [length_bytes] at hs
  have hlk := lt_of_le_maxSize key.size
  have hempty : isEmpty (key.bytes ++ rk) = decide (key.doc = .nil) := isEmpty_bytes hlk rk
  have hbegin : begin (key.bytes ++ rk) = iter key.doc rk := begin_bytes hlk rk
  have hne : ∀ d : Doc, extracted true d key.doc ≠ .nil := by
    intro d
    cases hk : key.doc with
    | nil => exact (hkey hk).elim
    | cons n v k => simp [extracted_true]
  have hidx : woCompareIdxKey (key.bytes ++ rk) c (ea.bytes ++ []) (eb.bytes ++ []) =
      woSortOrder true (key.bytes ++ rk) (a.bytes ++ r) (b.bytes ++ r') := by
    rw [woCompareIdxKey, directedCompare_bytes, if_neg (hne _), if_neg (hne _), hempty, hbegin,
      decide_eq_false hkey, woSortOrder_bytes true key a b rk r r' hkey ha hb]
    exact cmpDirected_extracted c a.doc b.doc rk key.doc key.valid (by omega)
  rw [List.append_nil, List.append_nil] at hidx
  refine ⟨hidx, fun o ho => ?_⟩
  have hbits := make_bytes key rk ho
  have hfollow := cmpDirected_keyAdvance c o rk ea.doc eb.doc key.doc 0 key.valid (by omega)
    fun i => (Nat.zero_add i).symm ▸ hbits i
  have hord : woCompareOrdering o c (ea.bytes ++ []) (eb.bytes ++ []) =
      cmpDirected c o.advance ea.doc eb.doc (1#32 <<< 0) := by
    rw [woCompareOrdering, directedCompare_bytes, if_neg (hne _), if_neg (hne _)]
    rfl
  rw [agreeOn_extracted, if_neg (by simp), cmpDirected_extracted c a.doc b.doc rk key.doc key.valid
    (by omega), ← woSortOrder_bytes true key a b rk r r' hkey ha hb] at hfollow
  rw [List.append_nil, List.append_nil] at hord
  exact hord.trans hfollow.symm

/-- A document with one flag. -/
def flag (b : UInt8) : Stored where
  doc := .cons (ascii "b") (.bool b) .nil
  valid := ⟨by decide, trivial, trivial⟩
  size := show 9 ≤ BSONObjMaxInternalSize by decide

theorem woSortOrder_extractFields_flag : ∃ ka kb,
    extractFields (flag 0).bytes pattern.bytes true = .ok ka ∧
      extractFields (flag 1).bytes pattern.bytes true = .ok kb ∧
      woCompareOrdering ⟨2⟩ true ka kb = .ok 1 := by
  have hka : extractFields ((flag 0).bytes ++ []) (pattern.bytes ++ []) true = .ok
      (Doc.cons (ascii "a") .jstNULL (flag 0).doc).bytes := by decide +kernel
  have hkb : extractFields ((flag 1).bytes ++ []) (pattern.bytes ++ []) true = .ok
      (Doc.cons (ascii "a") .jstNULL (flag 1).doc).bytes := by decide +kernel
  refine ⟨_, _, by simpa using hka, by simpa using hkb, ?_⟩
  rw [(woSortOrder_extractFields true pattern (flag 0) (flag 1) [] [] [] (by decide) (by decide)
    (by decide) hka hkb).2 ⟨2⟩ (by decide +kernel)]
  decide +kernel

/-! ### Both directions -/

theorem opposed_directed {x y : ℤ} (h : Opposed x y) (b : Bool) :
    Opposed (directed b x) (directed b y) := by
  unfold Opposed directed at *
  cases b <;> simp <;> omega

theorem cmpElement_opposed {v w : Value} {x y : ℤ} (hx : cmpElement false [] v [] w = .ok x)
    (hy : cmpElement false [] w [] v = .ok y) : Opposed x y := by
  simp only [cmpElement, Bool.false_eq_true, false_and, if_false] at hx hy
  by_cases hc : sortClass v = sortClass w
  · rw [if_neg (not_not.mpr hc)] at hx
    rw [if_neg (not_not.mpr hc.symm)] at hy
    exact cmpValue_opposed (matched_of_sortClass hc) hx hy
  · rw [if_pos hc] at hx
    rw [if_pos (Ne.symm hc)] at hy
    cases hx
    cases hy
    exact opposed_sub _ _

theorem cmpSort_opposed (useDotted : Bool) (d e : Doc) : ∀ (k : Doc) {x y : ℤ},
    cmpSort useDotted d e k = .ok x → cmpSort useDotted e d k = .ok y → Opposed x y
  | .nil, x, y, hx, hy => by
    cases hx
    cases hy
    simp [Opposed]
  | .cons n v k, x, y, hx, hy => by
    rw [cmpSort] at hx hy
    rcases hv : cmpElement false [] (sortValue useDotted d n) []
        (sortValue useDotted e n) with _ | p
    · rw [hv] at hx
      cases hx
    rcases hw : cmpElement false [] (sortValue useDotted e n) []
        (sortValue useDotted d n) with _ | q
    · rw [hw] at hy
      cases hy
    have hpq := opposed_directed (cmpElement_opposed hv hw) (descends v)
    simp only [hv, hw, bind, Except.bind, pure, Except.pure] at hx hy
    by_cases hp : directed (descends v) p = 0
    · rw [if_neg (not_not.mpr hp)] at hx
      rw [if_neg (not_not.mpr (hpq.zero_iff.mp hp))] at hy
      exact cmpSort_opposed useDotted d e k hx hy
    · rw [if_pos hp, Except.ok.injEq] at hx
      rw [if_pos (mt hpq.zero_iff.mpr hp), Except.ok.injEq] at hy
      exact hx ▸ hy ▸ hpq

/-- **The order of two documents is the opposite in the other direction**, descending fields
included. -/
theorem woSortOrder_antisymmetric (useDotted : Bool) (key a b : Stored) (rk r r' : Bytes) {x y : ℤ}
    (hx : woSortOrder useDotted (key.bytes ++ rk) (a.bytes ++ r) (b.bytes ++ r') = .ok x)
    (hy : woSortOrder useDotted (key.bytes ++ rk) (b.bytes ++ r') (a.bytes ++ r) = .ok y) :
    Opposed x y := by
  have hempty : ∀ (s : Stored) (r : Bytes), isEmpty (s.bytes ++ r) = decide (s.doc = .nil) :=
    fun s r => isEmpty_bytes (lt_of_le_maxSize s.size) r
  by_cases ha : a.doc = .nil
  · by_cases hb : b.doc = .nil
    · simp only [woSortOrder, hempty, ha, hb, decide_true, if_true, Except.ok.injEq] at hx hy
      subst hx hy
      simp [Opposed]
    · simp only [woSortOrder, hempty, ha, hb, decide_true, decide_false, if_true,
        Bool.false_eq_true, if_false, Except.ok.injEq] at hx hy
      subst hx hy
      simp [Opposed]
  · by_cases hb : b.doc = .nil
    · simp only [woSortOrder, hempty, ha, hb, decide_true, decide_false, if_true,
        Bool.false_eq_true, if_false, Except.ok.injEq] at hx hy
      subst hx hy
      simp [Opposed]
    · by_cases hk : key.doc = .nil
      · simp [woSortOrder, hempty, ha, hb, hk] at hx
      · rw [woSortOrder_bytes useDotted key _ _ rk _ _ hk ha hb] at hx
        rw [woSortOrder_bytes useDotted key _ _ rk _ _ hk hb ha] at hy
        exact cmpSort_opposed useDotted a.doc b.doc key.doc hx hy

theorem woSortOrder_antisymmetric_flag :
    woSortOrder true pattern.bytes (flag 0).bytes (flag 1).bytes = .ok 1 ∧ Opposed 1 (-1) := by
  have hx : woSortOrder true (pattern.bytes ++ []) ((flag 0).bytes ++ []) ((flag 1).bytes ++ []) =
      .ok 1 := by decide +kernel
  have hy : woSortOrder true (pattern.bytes ++ []) ((flag 1).bytes ++ []) ((flag 0).bytes ++ []) =
      .ok (-1) := by decide +kernel
  exact ⟨by simpa using hx, woSortOrder_antisymmetric true pattern (flag 0) (flag 1) [] [] [] hx hy⟩

end PgBson.Compare.SortOrder
