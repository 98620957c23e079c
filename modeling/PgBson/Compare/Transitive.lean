import PgBson.Compare.Order

/-! # Transitivity of the comparison

Inside a sort class different pairs of types are compared by different rules, and some triples do
not chain. These are the collisions: two different `NumberLong`s and the double that both are
rounded to, or a `Timestamp` between the bits of a `Date` before and one after 1970. Where three
documents have no collision in a place the comparison gets to, it is transitive on them
(`bsonCompare_transitive`), and every collision breaks it for documents that agree with them up to
the collision (`exists_not_transitiveOn`).

The law carried through documents is `Chained`, which also keeps track of equalities: a collision
may do no harm in its own field but let the following fields decide for one pair and not for
another. -/

namespace PgBson.Compare.Transitive

open PgBson.Lib.Sign PgBson.Lib.Memory PgBson.Lib.Binary64
open PgBson.Bson.Types PgBson.Bson.Document
open PgBson.Compare.WoCompare PgBson.Compare.Cmp PgBson.Compare.Leaf PgBson.Compare.Same
open PgBson.Compare.Order

/-- Three values that do not chain. -/
def CollideLeaf : Value → Value → Value → Prop
  | .numberLong a, .numberDouble b, .numberLong c =>
    Dbl.ofInt a.toInt = Dbl.ofBits b ∧ Dbl.ofInt c.toInt = Dbl.ofBits b ∧ c.toInt < a.toInt
  | .numberLong a, .numberLong b, .numberDouble c =>
    Dbl.ofInt a.toInt = Dbl.ofBits c ∧ Dbl.ofInt b.toInt = Dbl.ofBits c ∧ a.toInt < b.toInt
  | .numberDouble a, .numberLong b, .numberLong c =>
    Dbl.ofInt b.toInt = Dbl.ofBits a ∧ Dbl.ofInt c.toInt = Dbl.ofBits a ∧ b.toInt < c.toInt
  | .timestamp a, .date b, .date c =>
    b.toInt < 0 ∧ 0 ≤ c.toInt ∧ c.toNat ≤ a.toNat ∧ a.toNat ≤ b.toNat
  | _, _, _ => False

mutual

/-- A collision, at any depth. -/
def CollideValue : Value → Value → Value → Prop
  | .object d, v, w =>
    match v, w with
    | .object e, .object f => Collide d e f
    | _, _ => False
  | .array d, v, w =>
    match v, w with
    | .array e, .array f => Collide d e f
    | _, _ => False
  | u, v, w => CollideLeaf u v w

/-- Under the same name, behind fields that cannot be told apart, there is a collision. -/
def Collide : Doc → Doc → Doc → Prop
  | .nil, _, _ => False
  | .cons n u d, e, f =>
    match e, f with
    | .cons m v e, .cons k w f =>
      n = m ∧ m = k ∧ (CollideValue u v w ∨
        AlikeValue u v ∧ AlikeValue v w ∧ AlikeValue u w ∧ Collide d e f)
    | _, _ => False

end

theorem collideValue_leaf {u : Value} (h : isLeaf u) (v w : Value) :
    CollideValue u v w = CollideLeaf u v w := by
  cases u <;> first | rfl | simp [isLeaf] at h

/-! ### Values without embedded documents -/

theorem numberOf_of_longOf {v : Value} {a : ℤ} (h : longOf v = some a) :
    numberOf v = Dbl.ofInt a := by
  cases v <;> simp [longOf] at h
  case numberLong => rw [numberOf, h]

/-- Two `NumberLong`s rounded to the same other number are equal, unless this is a double. -/
theorem isDouble_of_rounded {v : Value} {a b : ℤ} (hv : isNum v) (hl : longOf v = none)
    (ha : (Dbl.ofInt a).key = (numberOf v).key) (hb : (Dbl.ofInt b).key = (numberOf v).key)
    (hne : a ≠ b) : ∃ c, v = .numberDouble c ∧ Dbl.ofInt a = Dbl.ofBits c ∧
      Dbl.ofInt b = Dbl.ofBits c := by
  rw [Dbl.key_inj] at ha hb
  cases v <;> simp [isNum] at hv
  case numberDouble c => exact ⟨c, rfl, ha, hb⟩
  case numberInt c =>
    rw [numberOf, Dbl.ofInt_eq_exact (natAbs_toInt_lt c),
      ofInt_eq_exact_iff (natAbs_toInt_succ_lt c)] at ha hb
    exact (hne (ha.trans hb.symm)).elim
  case numberLong c => simp [longOf] at hl

theorem longOf_eq_some {v : Value} {a : ℤ} (h : longOf v = some a) :
    ∃ b, v = .numberLong b ∧ b.toInt = a := by
  cases v <;> simp [longOf] at h
  case numberLong b => exact ⟨b, rfl, h⟩

/-- **Three numbers chain unless they collide.** -/
theorem numbers_chained {u v w : Value} (hu : isNum u) (hv : isNum v) (hw : isNum w)
    (hc : ¬ CollideLeaf u v w) {x y z : ℤ} (hx : cmpLeaf u v = .ok x) (hy : cmpLeaf v w = .ok y)
    (hz : cmpLeaf u w = .ok z) : Chained x y z := by
  rw [cmpLeaf_numbers hu hv, Except.ok.injEq] at hx
  rw [cmpLeaf_numbers hv hw, Except.ok.injEq] at hy
  rw [cmpLeaf_numbers hu hw, Except.ok.injEq] at hz
  subst hx hy hz
  -- Only with exactly two `NumberLong`s are there two rules.
  rcases hlu : longOf u with _ | a <;> rcases hlv : longOf v with _ | b <;>
    rcases hlw : longOf w with _ | c
  case some.none.some =>
    simp only [cmpNumbers, numberOf_of_longOf hlu, numberOf_of_longOf hlw]
    refine chained_map_mid (R := fun a => (Dbl.ofInt a).key) (fun _ _ => Dbl.ofInt_mono) ?_
    rintro ⟨h1, h2, hlt⟩
    obtain ⟨d, rfl, e1, e2⟩ := isDouble_of_rounded hv hlv h1 h2 hlt.ne'
    obtain ⟨a, rfl, rfl⟩ := longOf_eq_some hlu
    obtain ⟨c, rfl, rfl⟩ := longOf_eq_some hlw
    exact hc ⟨e1, e2, hlt⟩
  case some.some.none =>
    simp only [cmpNumbers, numberOf_of_longOf hlu, numberOf_of_longOf hlv]
    refine chained_map_right (R := fun a => (Dbl.ofInt a).key) (fun _ _ => Dbl.ofInt_mono) ?_
    rintro ⟨h1, h2, hlt⟩
    obtain ⟨d, rfl, e1, e2⟩ := isDouble_of_rounded hw hlw h1 h2 hlt.ne
    obtain ⟨a, rfl, rfl⟩ := longOf_eq_some hlu
    obtain ⟨b, rfl, rfl⟩ := longOf_eq_some hlv
    exact hc ⟨e1, e2, hlt⟩
  case none.some.some =>
    simp only [cmpNumbers, numberOf_of_longOf hlv, numberOf_of_longOf hlw]
    refine chained_map_left (R := fun a => (Dbl.ofInt a).key) (fun _ _ => Dbl.ofInt_mono) ?_
    rintro ⟨h1, h2, hlt⟩
    obtain ⟨d, rfl, e1, e2⟩ := isDouble_of_rounded hu hlu h1 h2 hlt.ne
    obtain ⟨b, rfl, rfl⟩ := longOf_eq_some hlv
    obtain ⟨c, rfl, rfl⟩ := longOf_eq_some hlw
    exact hc ⟨e1, e2, hlt⟩
  all_goals exact chained_order

theorem dates_chained {a b c : BitVec 64}
    (hc : ¬ CollideLeaf (.timestamp a) (.date b) (.date c)) :
    Chained (order a.toNat b.toNat) (order b.toInt c.toInt) (order a.toNat c.toNat) := by
  simp only [CollideLeaf] at hc
  intro h1 h2
  rw [order_nonpos] at h1 h2 ⊢
  rw [order_eq_zero, order_eq_zero, order_eq_zero]
  have ha := a.isLt
  have hb := b.isLt
  have hc' := c.isLt
  rw [BitVec.toInt_eq_toNat_cond, BitVec.toInt_eq_toNat_cond] at *
  split_ifs at * <;> omega

/-- **Values without embedded documents chain unless they collide.** -/
theorem cmpLeaf_chained {u v w : Value} (huv : Matched u v) (hvw : Matched v w) (hl : isLeaf u)
    (hc : ¬ CollideLeaf u v w) {x y z : ℤ} (hx : cmpLeaf u v = .ok x) (hy : cmpLeaf v w = .ok y)
    (hz : cmpLeaf u w = .ok z) : Chained x y z := by
  by_cases hk : isKeyed u
  · obtain ⟨x', hx', hsx⟩ := cmpLeaf_keyed huv hk
    obtain ⟨y', hy', hsy⟩ := cmpLeaf_keyed hvw (isKeyed_of_matched huv hk)
    obtain ⟨z', hz', hsz⟩ := cmpLeaf_keyed (huv.trans hvw) hk
    rw [hx, Except.ok.injEq] at hx'
    rw [hy, Except.ok.injEq] at hy'
    rw [hz, Except.ok.injEq] at hz'
    subst hx' hy' hz'
    exact chained_order.congr hsx hsy hsz
  · cases huv
    case numbers hu hv =>
      have hw : isNum w := by
        cases hvw
        case numbers _ hw => exact hw
        all_goals simp [isNum] at hv
      exact numbers_chained hu hv hw hc hx hy hz
    case timestamps a b =>
      cases hvw <;> simp_all [isNum]
      case timestamps c | timestampDate c =>
        simp only [cmpLeaf, Except.ok.injEq] at hx hy hz
        subst hx hy hz
        exact chained_order
    case timestampDate a b =>
      cases hvw
      case dates c =>
        simp only [cmpLeaf, Except.ok.injEq] at hx hy hz
        subst hx hy hz
        exact dates_chained hc
      case dateTimestamp c => simp [cmpLeaf] at hy
      case numbers hv _ => simp [isNum] at hv
    case dates a b =>
      cases hvw
      case dates c =>
        simp only [cmpLeaf, Except.ok.injEq] at hx hy hz
        subst hx hy hz
        exact chained_order
      case dateTimestamp c => simp [cmpLeaf] at hy
      case numbers hv _ => simp [isNum] at hv
    case dateTimestamp a b => simp [cmpLeaf] at hx
    case object | array => simp [isLeaf] at hl
    all_goals simp [isKeyed] at hk

/-! ### Documents -/

mutual

theorem cmpValue_chained {u v w : Value} (huv : Matched u v) (hvw : Matched v w)
    (hu : u.Valid) (hv : v.Valid) (hw : w.Valid) (hc : ¬ CollideValue u v w) {x y z : ℤ}
    (hx : cmpValue u v = .ok x) (hy : cmpValue v w = .ok y) (hz : cmpValue u w = .ok z) :
    Chained x y z := by
  by_cases hl : isLeaf u
  · rw [cmpValue_leaf hl] at hx hz
    rw [cmpValue_leaf (isLeaf_of_matched huv hl)] at hy
    rw [collideValue_leaf hl] at hc
    exact cmpLeaf_chained huv hvw hl hc hx hy hz
  · match u, hl with
    | .object d, _ =>
      obtain ⟨e, rfl⟩ := huv.exists_object
      obtain ⟨f, rfl⟩ := hvw.exists_object
      exact cmpDoc_chained (d := d) (e := e) (f := f) hu hv hw hc hx hy hz
    | .array d, _ =>
      obtain ⟨e, rfl⟩ := huv.exists_array
      obtain ⟨f, rfl⟩ := hvw.exists_array
      exact cmpDoc_chained (d := d) (e := e) (f := f) hu hv hw hc hx hy hz

/-- **Documents chain unless they collide.** -/
theorem cmpDoc_chained {d e f : Doc} (hd : d.Valid) (he : e.Valid) (hf : f.Valid)
    (hc : ¬ Collide d e f) {x y z : ℤ} (hx : cmpDoc d e = .ok x) (hy : cmpDoc e f = .ok y)
    (hz : cmpDoc d f = .ok z) : Chained x y z := by
  match d, e, f, hd, he, hf, hc, hx, hy, hz with
  | .nil, .nil, f, _, _, _, _, hx, hy, hz =>
    rw [hy, Except.ok.injEq] at hz
    subst hz
    simp only [cmpDoc, Except.ok.injEq] at hx
    intro _ h2
    exact ⟨h2, fun h0 => ⟨hx.symm, h0⟩⟩
  | .nil, .cons _ _ _, .nil, _, _, _, _, _, hy, _ =>
    simp only [cmpDoc, Except.ok.injEq] at hy
    intro _ h2
    omega
  | .nil, .cons _ _ _, .cons _ _ _, _, _, _, _, _, _, hz =>
    simp only [cmpDoc, Except.ok.injEq] at hz
    intro _ _
    omega
  | .cons _ _ _, .nil, _, _, _, _, _, hx, _, _ =>
    simp only [cmpDoc, Except.ok.injEq] at hx
    intro h1 _
    omega
  | .cons _ _ _, .cons _ _ _, .nil, _, _, _, _, _, hy, _ =>
    simp only [cmpDoc, Except.ok.injEq] at hy
    intro _ h2
    omega
  | .cons n u d, .cons m v e, .cons k w f, hd, he, hf, hc, hx, hy, hz =>
    obtain ⟨xv, xt, rfl, hxr⟩ := cmpDoc_cons_ok hx
    obtain ⟨yv, yt, rfl, hyr⟩ := cmpDoc_cons_ok hy
    obtain ⟨zv, zt, rfl, hzr⟩ := cmpDoc_cons_ok hz
    refine (chained_sub _ _ _).first fun hc1 hc2 _ => chained_order.first fun hn1 hn2 _ => ?_
    have hc1 : sortClass u = sortClass v := sub_eq_zero.mp hc1
    have hc2 : sortClass v = sortClass w := sub_eq_zero.mp hc2
    have hn1 : n = m := nats_inj.mp (order_eq_zero.mp hn1)
    have hn2 : m = k := nats_inj.mp (order_eq_zero.mp hn2)
    have hm1 := matched_of_sortClass hc1
    have hm2 := matched_of_sortClass hc2
    obtain ⟨hxv, hxt⟩ := hxr hc1 hn1
    obtain ⟨hyv, hyt⟩ := hyr hc2 hn2
    obtain ⟨hzv, hzt⟩ := hzr (hc1.trans hc2) (hn1.trans hn2)
    have hcv : ¬ CollideValue u v w := fun h => hc ⟨hn1, hn2, Or.inl h⟩
    refine (cmpValue_chained hm1 hm2 hd.2.1 he.2.1 hf.2.1 hcv hxv hyv hzv).first
      fun hx0 hy0 hz0 => ?_
    subst hx0 hy0 hz0
    have hct : ¬ Collide d e f := fun h => hc ⟨hn1, hn2, Or.inr
      ⟨(cmpValue_eq_zero hm1 hd.2.1 he.2.1).mp hxv, (cmpValue_eq_zero hm2 he.2.1 hf.2.1).mp hyv,
        (cmpValue_eq_zero (hm1.trans hm2) hd.2.1 hf.2.1).mp hzv, h⟩⟩
    exact cmpDoc_chained hd.2.2 he.2.2 hf.2.2 hct (hxt rfl) (hyt rfl) (hzt rfl)

end

/-! ### The order of an index -/

/-- The comparison is transitive on three documents in memory, where it returns. -/
def TransitiveOn (a b c : Bytes) : Prop :=
  ∀ x y z, bsonCompare a b = .ok x → bsonCompare b c = .ok y → bsonCompare a c = .ok z →
    x ≤ 0 → y ≤ 0 → z ≤ 0

theorem transitiveOn_of_not_collide {a b c : Stored} (r s t : Bytes)
    (hc : ¬ Collide a.doc b.doc c.doc) :
    TransitiveOn (a.bytes ++ r) (b.bytes ++ s) (c.bytes ++ t) := by
  intro x y z hx hy hz h1 h2
  rw [bsonCompare_bytes] at hx hy hz
  exact (cmpDoc_chained a.valid b.valid c.valid hc hx hy hz h1 h2).1

theorem not_transitiveOn {a b c : Stored} {x y z : ℤ} (hx : cmpDoc a.doc b.doc = .ok x)
    (hy : cmpDoc b.doc c.doc = .ok y) (hz : cmpDoc a.doc c.doc = .ok z) (h1 : x ≤ 0) (h2 : y ≤ 0)
    (h3 : 0 < z) : ¬ TransitiveOn a.bytes b.bytes c.bytes := by
  intro h
  have hb : ∀ s t : Stored, bsonCompare s.bytes t.bytes = cmpDoc s.doc t.doc := fun s t => by
    simpa using bsonCompare_bytes s t [] []
  have := h x y z (by rw [hb, hx]) (by rw [hb, hy]) (by rw [hb, hz]) h1 h2
  omega

/-! ### Every collision does harm -/

/-- The second three documents are the first three up to a collision, with other fields
behind it. -/
inductive Varied : Doc → Doc → Doc → Doc → Doc → Doc → Prop
  | leaf {n u v w d e f d' e' f'} (h : CollideLeaf u v w) :
    Varied (.cons n u d) (.cons n v e) (.cons n w f) (.cons n u d') (.cons n v e') (.cons n w f')
  | object {n d e f d' e' f' x y z x' y' z'} (h : Varied d e f d' e' f') :
    Varied (.cons n (.object d) x) (.cons n (.object e) y) (.cons n (.object f) z)
      (.cons n (.object d') x') (.cons n (.object e') y') (.cons n (.object f') z')
  | array {n d e f d' e' f' x y z x' y' z'} (h : Varied d e f d' e' f') :
    Varied (.cons n (.array d) x) (.cons n (.array e) y) (.cons n (.array f) z)
      (.cons n (.array d') x') (.cons n (.array e') y') (.cons n (.array f') z')
  | behind {n u v w d e f d' e' f'} (huv : AlikeValue u v) (hvw : AlikeValue v w)
      (huw : AlikeValue u w) (h : Varied d e f d' e' f') :
    Varied (.cons n u d) (.cons n v e) (.cons n w f) (.cons n u d') (.cons n v e') (.cons n w f')

/-- The three documents do not chain. -/
def Breaks (d e f : Doc) : Prop :=
  ∃ x y z, cmpDoc d e = .ok x ∧ cmpDoc e f = .ok y ∧ cmpDoc d f = .ok z ∧ x ≤ 0 ∧ y ≤ 0 ∧ 0 < z

/-- A valid document that is larger by a null at most. -/
structure Near (d d' : Doc) : Prop where
  valid : d'.Valid
  size : d'.elems.length ≤ d.elems.length + 2

/-- A collision does harm with some fields behind it. -/
def Harmful (d e f : Doc) : Prop :=
  ∃ d' e' f', Varied d e f d' e' f' ∧ Near d d' ∧ Near e e' ∧ Near f f' ∧ Breaks d' e' f'

theorem cmpDoc_same_name {n : Bytes} {v w : Value} {d e : Doc} {x y : ℤ}
    (hv : cmpValue v w = .ok x) (hc : sortClass v = sortClass w) (hd : cmpDoc d e = .ok y) :
    cmpDoc (.cons n v d) (.cons n w e) = .ok (first x y) := by
  rw [cmpDoc, if_neg (not_not.mpr hc), if_neg (by simp), hv, hd]
  exact ite_first Except.ok x y

/-- The rest of a document: a null or nothing. -/
def nullTail (null : Bool) : Doc := if null then .cons [] .jstNULL .nil else .nil

theorem near_nullTail {n : Bytes} {v : Value} (hn : 0 ∉ n) (hv : v.Valid) (d : Doc) (null : Bool) :
    Near (.cons n v d) (.cons n v (nullTail null)) where
  valid := ⟨hn, hv, by cases null <;> simp [nullTail, Doc.Valid, Value.Valid]⟩
  size := by
    have ht : (nullTail null).elems.length ≤ 2 := by
      cases null <;> simp [nullTail, Doc.elems, Value.bytes]
    rw [length_elems_cons, length_elems_cons]
    omega

theorem cmpDoc_nullTail (p q : Bool) : cmpDoc (nullTail p) (nullTail q) = .ok (order p q) := by
  cases p <;> cases q <;> rfl

/-- Three values that are followed by nulls or by nothing. -/
theorem breaks_nullTail {n : Bytes} {u v w : Value} (p q s : Bool) (hlu : isLeaf u) (hlv : isLeaf v)
    (hc : sortClass u = sortClass v) (hc' : sortClass v = sortClass w) {x y z : ℤ}
    (hx : cmpLeaf u v = .ok x) (hy : cmpLeaf v w = .ok y) (hz : cmpLeaf u w = .ok z)
    (h1 : first x (order p q) ≤ 0) (h2 : first y (order q s) ≤ 0) (h3 : 0 < first z (order p s)) :
    Breaks (.cons n u (nullTail p)) (.cons n v (nullTail q)) (.cons n w (nullTail s)) := by
  rw [← cmpValue_leaf hlu] at hx hz
  rw [← cmpValue_leaf hlv] at hy
  exact ⟨_, _, _, cmpDoc_same_name hx hc (cmpDoc_nullTail p q),
    cmpDoc_same_name hy hc' (cmpDoc_nullTail q s),
    cmpDoc_same_name hz (hc.trans hc') (cmpDoc_nullTail p s), h1, h2, h3⟩

theorem exists_breaks_leaf (n : Bytes) {u v w : Value} (h : CollideLeaf u v w) : ∃ p q s,
    Breaks (.cons n u (nullTail p)) (.cons n v (nullTail q)) (.cons n w (nullTail s)) := by
  unfold CollideLeaf at h
  split at h
  · next a b c =>
    obtain ⟨ha, hc, hlt⟩ := h
    have hx : cmpLeaf (.numberLong a) (.numberDouble b) = .ok 0 := by
      simp [cmpLeaf, cmpNumbers, numberOf, ha]
    have hy : cmpLeaf (.numberDouble b) (.numberLong c) = .ok 0 := by
      simp [cmpLeaf, cmpNumbers, numberOf, hc]
    have hz : cmpLeaf (.numberLong a) (.numberLong c) = .ok 1 := by rw [cmpLeaf, order_of_gt hlt]
    exact ⟨false, false, false, breaks_nullTail _ _ _ rfl rfl rfl rfl hx hy hz (by decide)
      (by decide) (by decide)⟩
  · -- The first is below the second, both equal the third, where the rest decides.
    next a b c =>
    obtain ⟨ha, hb, hlt⟩ := h
    have hx : cmpLeaf (.numberLong a) (.numberLong b) = .ok (-1) := by rw [cmpLeaf, order_of_lt hlt]
    have hy : cmpLeaf (.numberLong b) (.numberDouble c) = .ok 0 := by
      simp [cmpLeaf, cmpNumbers, numberOf, hb]
    have hz : cmpLeaf (.numberLong a) (.numberDouble c) = .ok 0 := by
      simp [cmpLeaf, cmpNumbers, numberOf, ha]
    exact ⟨true, false, false, breaks_nullTail _ _ _ rfl rfl rfl rfl hx hy hz (by decide)
      (by decide) (by decide)⟩
  · next a b c =>
    obtain ⟨hb, hc, hlt⟩ := h
    have hx : cmpLeaf (.numberDouble a) (.numberLong b) = .ok 0 := by
      simp [cmpLeaf, cmpNumbers, numberOf, hb]
    have hy : cmpLeaf (.numberLong b) (.numberLong c) = .ok (-1) := by rw [cmpLeaf, order_of_lt hlt]
    have hz : cmpLeaf (.numberDouble a) (.numberLong c) = .ok 0 := by
      simp [cmpLeaf, cmpNumbers, numberOf, hc]
    exact ⟨true, true, false, breaks_nullTail _ _ _ rfl rfl rfl rfl hx hy hz (by decide)
      (by decide) (by decide)⟩
  · next a b c =>
    obtain ⟨hb, hc, hca, hab⟩ := h
    have hy : cmpLeaf (.date b) (.date c) = .ok (-1) := by
      rw [cmpLeaf, order_of_lt (hb.trans_le hc)]
    have h1 : first (order a.toNat b.toNat) 0 ≤ 0 := by simpa [order_nonpos] using hab
    have h3 : 0 < first (order a.toNat c.toNat) 1 := by
      unfold first order
      split_ifs <;> omega
    exact ⟨true, true, false, breaks_nullTail _ _ _ rfl rfl rfl rfl rfl hy rfl h1 (by decide) h3⟩
  · exact h.elim

/-- Documents that break transitivity do so inside of values of one class, too. -/
theorem breaks_nested {n : Bytes} {d e f : Doc} {g : Doc → Value}
    (hcmp : ∀ d e, cmpValue (g d) (g e) = cmpDoc d e)
    (hc : ∀ d e, sortClass (g d) = sortClass (g e)) (h : Breaks d e f) :
    Breaks (.cons n (g d) .nil) (.cons n (g e) .nil) (.cons n (g f) .nil) := by
  obtain ⟨x, y, z, hx, hy, hz, h1, h2, h3⟩ := h
  have hnil : cmpDoc .nil .nil = .ok 0 := rfl
  refine ⟨x, y, z, ?_, ?_, ?_, h1, h2, h3⟩
  · rw [cmpDoc_same_name ((hcmp d e).trans hx) (hc d e) hnil, first_zero_right]
  · rw [cmpDoc_same_name ((hcmp e f).trans hy) (hc e f) hnil, first_zero_right]
  · rw [cmpDoc_same_name ((hcmp d f).trans hz) (hc d f) hnil, first_zero_right]

theorem near_nested {n : Bytes} {d d' : Doc} (g : Doc → Value)
    (hvalid : ∀ d : Doc, d.Valid → (g d).Valid) (hbytes : ∀ d, (g d).bytes = d.bytes)
    (hn : 0 ∉ n) (h : Near d d') (x : Doc) :
    Near (.cons n (g d) x) (.cons n (g d') .nil) where
  valid := ⟨hn, hvalid d' h.valid, trivial⟩
  size := by
    have hs := h.size
    rw [length_elems_cons, length_elems_cons, hbytes, hbytes, length_bytes, length_bytes, Doc.elems,
      List.length_nil]
    omega

theorem near_behind {n : Bytes} {v : Value} {d d' : Doc} (hd : (Doc.cons n v d).Valid)
    (h : Near d d') : Near (.cons n v d) (.cons n v d') where
  valid := ⟨hd.1, hd.2.1, h.valid⟩
  size := by
    have hs := h.size
    rw [length_elems_cons, length_elems_cons]
    omega

theorem AlikeValue.sortClass_eq {v w : Value} (h : AlikeValue v w) : sortClass v = sortClass w :=
  h.matched.sortClass_eq

theorem breaks_behind {n : Bytes} {u v w : Value} {d e f : Doc} (hu : u.Valid) (hv : v.Valid)
    (hw : w.Valid) (huv : AlikeValue u v) (hvw : AlikeValue v w) (huw : AlikeValue u w)
    (h : Breaks d e f) : Breaks (.cons n u d) (.cons n v e) (.cons n w f) := by
  obtain ⟨x, y, z, hx, hy, hz, h1, h2, h3⟩ := h
  have hx0 := (cmpValue_eq_zero huv.matched hu hv).mpr huv
  have hy0 := (cmpValue_eq_zero hvw.matched hv hw).mpr hvw
  have hz0 := (cmpValue_eq_zero huw.matched hu hw).mpr huw
  refine ⟨x, y, z, ?_, ?_, ?_, h1, h2, h3⟩
  · rw [cmpDoc_same_name hx0 (AlikeValue.sortClass_eq huv) hx, first_zero_left]
  · rw [cmpDoc_same_name hy0 (AlikeValue.sortClass_eq hvw) hy, first_zero_left]
  · rw [cmpDoc_same_name hz0 (AlikeValue.sortClass_eq huw) hz, first_zero_left]

theorem harmful_leaf {n : Bytes} {u v w : Value} {d e f : Doc} (hd : (Doc.cons n u d).Valid)
    (he : (Doc.cons n v e).Valid) (hf : (Doc.cons n w f).Valid) (h : CollideLeaf u v w) :
    Harmful (.cons n u d) (.cons n v e) (.cons n w f) := by
  obtain ⟨p, q, s, hb⟩ := exists_breaks_leaf n h
  exact ⟨_, _, _, .leaf h, near_nullTail hd.1 hd.2.1 d p, near_nullTail he.1 he.2.1 e q,
    near_nullTail hf.1 hf.2.1 f s, hb⟩

theorem exists_object_of_collide {d : Doc} {v w : Value} (h : CollideValue (.object d) v w) :
    ∃ e f, v = .object e ∧ w = .object f ∧ Collide d e f := by
  cases v <;> cases w <;> first | exact ⟨_, _, rfl, rfl, h⟩ | exact False.elim h

theorem exists_array_of_collide {d : Doc} {v w : Value} (h : CollideValue (.array d) v w) :
    ∃ e f, v = .array e ∧ w = .array f ∧ Collide d e f := by
  cases v <;> cases w <;> first | exact ⟨_, _, rfl, rfl, h⟩ | exact False.elim h

mutual

theorem harmful_of_collideValue {n : Bytes} {u v w : Value} {d e f : Doc}
    (hd : (Doc.cons n u d).Valid) (he : (Doc.cons n v e).Valid) (hf : (Doc.cons n w f).Valid)
    (h : CollideValue u v w) : Harmful (.cons n u d) (.cons n v e) (.cons n w f) := by
  by_cases hl : isLeaf u
  · rw [collideValue_leaf hl] at h
    exact harmful_leaf hd he hf h
  · match u, hl with
    | .object d₁, _ =>
      obtain ⟨e₁, f₁, rfl, rfl, h⟩ := exists_object_of_collide h
      obtain ⟨d', e', f', hvar, hnd, hne, hnf, hb⟩ :=
        harmful_of_collide (d := d₁) (e := e₁) (f := f₁) hd.2.1 he.2.1 hf.2.1 h
      exact ⟨_, _, _, .object hvar, near_nested .object (fun _ h => h) (fun _ => rfl) hd.1 hnd d,
        near_nested .object (fun _ h => h) (fun _ => rfl) he.1 hne e,
        near_nested .object (fun _ h => h) (fun _ => rfl) hf.1 hnf f,
        breaks_nested (g := .object) (fun _ _ => rfl) (fun _ _ => rfl) hb⟩
    | .array d₁, _ =>
      obtain ⟨e₁, f₁, rfl, rfl, h⟩ := exists_array_of_collide h
      obtain ⟨d', e', f', hvar, hnd, hne, hnf, hb⟩ :=
        harmful_of_collide (d := d₁) (e := e₁) (f := f₁) hd.2.1 he.2.1 hf.2.1 h
      exact ⟨_, _, _, .array hvar, near_nested .array (fun _ h => h) (fun _ => rfl) hd.1 hnd d,
        near_nested .array (fun _ h => h) (fun _ => rfl) he.1 hne e,
        near_nested .array (fun _ h => h) (fun _ => rfl) hf.1 hnf f,
        breaks_nested (g := .array) (fun _ _ => rfl) (fun _ _ => rfl) hb⟩

/-- **Every collision, at any depth, does harm with some fields behind it.** -/
theorem harmful_of_collide {d e f : Doc} (hd : d.Valid) (he : e.Valid) (hf : f.Valid)
    (h : Collide d e f) : Harmful d e f := by
  match d, e, f, hd, he, hf, h with
  | .cons n u d, .cons m v e, .cons k w f, hd, he, hf, h =>
    obtain ⟨rfl, rfl, h | ⟨huv, hvw, huw, h⟩⟩ := h
    · exact harmful_of_collideValue hd he hf h
    · obtain ⟨d', e', f', hvar, hnd, hne, hnf, hb⟩ := harmful_of_collide hd.2.2 he.2.2 hf.2.2 h
      exact ⟨_, _, _, .behind huv hvw huw hvar, near_behind hd hnd, near_behind he hne,
        near_behind hf hnf, breaks_behind hd.2.1 he.2.1 hf.2.1 huv hvw huw hb⟩

end

/-- There is room for a null. -/
def Roomy (a : Stored) : Prop := a.bytes.length + 2 ≤ BSONObjMaxInternalSize

theorem Near.size_le {a : Stored} {d : Doc} (h : Near a.doc d) (ha : Roomy a) :
    d.bytes.length ≤ BSONObjMaxInternalSize := by
  have hs := h.size
  rw [Roomy, Stored.bytes, length_bytes] at ha
  rw [length_bytes]
  omega

/-- **Where three documents collide, transitivity is lost for documents that agree with them up to
the collision.** -/
theorem exists_not_transitiveOn {a b c : Stored} (ha : Roomy a) (hb : Roomy b) (hc : Roomy c)
    (h : Collide a.doc b.doc c.doc) : ∃ a' b' c' : Stored,
    Varied a.doc b.doc c.doc a'.doc b'.doc c'.doc ∧ ¬ TransitiveOn a'.bytes b'.bytes c'.bytes := by
  obtain ⟨d, e, f, hvar, hd, he, hf, x, y, z, hx, hy, hz, h1, h2, h3⟩ :=
    harmful_of_collide a.valid b.valid c.valid h
  exact ⟨⟨d, hd.valid, hd.size_le ha⟩, ⟨e, he.valid, he.size_le hb⟩, ⟨f, hf.valid, hf.size_le hc⟩,
    hvar, not_transitiveOn hx hy hz h1 h2 h3⟩

/-- **The comparison is transitive on documents that do not collide**, and with other fields behind
a collision it is not. -/
theorem bsonCompare_transitive (a b c : Stored) (r s t : Bytes) :
    (¬ Collide a.doc b.doc c.doc →
      TransitiveOn (a.bytes ++ r) (b.bytes ++ s) (c.bytes ++ t)) ∧
    (Collide a.doc b.doc c.doc → Roomy a → Roomy b → Roomy c →
      ∃ a' b' c' : Stored, Varied a.doc b.doc c.doc a'.doc b'.doc c'.doc ∧
        ¬ TransitiveOn a'.bytes b'.bytes c'.bytes) :=
  ⟨transitiveOn_of_not_collide r s t, fun h ha hb hc => exists_not_transitiveOn ha hb hc h⟩

/-- `{"": n}` for a `NumberLong`. -/
def longDoc (n : BitVec 64) : Stored where
  doc := .cons [] (.numberLong n) .nil
  valid := ⟨by decide, trivial, trivial⟩
  size := show 15 ≤ BSONObjMaxInternalSize by decide

/-- `{"": 9007199254740992.0}`. -/
def doubleDoc : Stored where
  doc := .cons [] (.numberDouble 0x4340000000000000) .nil
  valid := by decide
  size := by decide

theorem bsonCompare_transitive_small :
    TransitiveOn (longDoc 1).bytes doubleDoc.bytes (longDoc 9007199254740993).bytes ∧
    ∃ a' b' c' : Stored, Varied (longDoc 9007199254740993).doc doubleDoc.doc
        (longDoc 9007199254740992).doc a'.doc b'.doc c'.doc ∧
      ¬ TransitiveOn a'.bytes b'.bytes c'.bytes := by
  have hc : ¬ Collide (longDoc 1).doc doubleDoc.doc (longDoc 9007199254740993).doc := by
    simp [Collide, longDoc, doubleDoc, CollideValue, CollideLeaf]
  have hc' : Collide (longDoc 9007199254740993).doc doubleDoc.doc (longDoc 9007199254740992).doc :=
    ⟨rfl, rfl, .inl ⟨by decide +kernel, by decide +kernel, by decide⟩⟩
  have h := (bsonCompare_transitive (longDoc 1) doubleDoc (longDoc 9007199254740993) [] [] []).1 hc
  simp only [List.append_nil] at h
  exact ⟨h, (bsonCompare_transitive _ _ _ [] [] []).2 hc' (by unfold Roomy; decide)
    (by unfold Roomy; decide) (by unfold Roomy; decide)⟩

theorem bsonCompare_not_transitive_large :
    ¬ TransitiveOn (longDoc 9007199254740993).bytes doubleDoc.bytes
      (longDoc 9007199254740992).bytes := by
  intro h
  have := h 0 0 1 (by decide +kernel) (by decide +kernel) (by decide +kernel) le_rfl le_rfl
  omega

end PgBson.Compare.Transitive
