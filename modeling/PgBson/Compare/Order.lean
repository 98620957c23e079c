import PgBson.Compare.Same

/-! # Antisymmetry of the comparison

A B-tree needs its comparison to return, and to answer with opposite signs in the two directions.
The law is carried through documents by `Opposed.first`. What breaks it is a `Clash`: a `Date` meets
a `Timestamp`, which the `Date` refuses if it stands on the left. The two documents are compared in
both directions, with opposite signs, exactly when they do not clash
(`bsonCompare_antisymmetric_iff`). -/

namespace PgBson.Compare.Order

open PgBson.Lib.Sign PgBson.Lib.Memory PgBson.Lib.Binary64
open PgBson.Bson.Types PgBson.Bson.Document
open PgBson.Compare.WoCompare PgBson.Compare.Cmp PgBson.Compare.Leaf PgBson.Compare.Same

/-! ### Steps of the comparison -/

/-- What the answer for two nonempty documents is made of. -/
theorem cmpDoc_cons_ok {n m : Bytes} {v w : Value} {d e : Doc} {x : ℤ}
    (h : cmpDoc (.cons n v d) (.cons m w e) = .ok x) :
    ∃ xv xt, x = first (sortClass v - sortClass w)
        (first (order (nats n) (nats m)) (first xv xt)) ∧
      (sortClass v = sortClass w → n = m →
        cmpValue v w = .ok xv ∧ (xv = 0 → cmpDoc d e = .ok xt)) := by
  rw [cmpDoc] at h
  by_cases hc : sortClass v = sortClass w
  · rw [if_neg (not_not.mpr hc)] at h
    by_cases ho : order (nats n) (nats m) = 0
    · rw [if_neg (not_not.mpr ho)] at h
      cases hv : cmpValue v w with
      | error y => simp [hv, bind, Except.bind] at h
      | ok y =>
        simp only [hv, bind, Except.bind, pure, Except.pure] at h
        by_cases hy : y = 0
        · rw [if_neg (not_not.mpr hy)] at h
          exact ⟨y, x, by simp [hc, ho, hy], fun _ _ => ⟨rfl, fun _ => h⟩⟩
        · rw [if_pos hy, Except.ok.injEq] at h
          exact ⟨y, 0, by simp [hc, ho, h], fun _ _ => ⟨rfl, fun h0 => (hy h0).elim⟩⟩
    · rw [if_pos ho, Except.ok.injEq] at h
      refine ⟨0, 0, by simp [hc, h], fun _ hn => (ho ?_).elim⟩
      rw [hn, order_self]
  · rw [if_pos hc, Except.ok.injEq] at h
    refine ⟨0, 0, ?_, fun hc' => (hc hc').elim⟩
    rw [← h, first, if_pos (sub_ne_zero.mpr hc)]

/-- The comparison has returned. -/
def Returns (x : Except Exc ℤ) : Prop := ∃ m, x = .ok m

theorem returns_ok (m : ℤ) : Returns (.ok m) := ⟨m, rfl⟩

theorem returns_cons {n m : Bytes} {v w : Value} {d e : Doc} :
    Returns (cmpDoc (.cons n v d) (.cons m w e)) ↔
      (sortClass v = sortClass w → n = m →
        ∃ x, cmpValue v w = .ok x ∧ (x = 0 → Returns (cmpDoc d e))) := by
  constructor
  · rintro ⟨x, h⟩ hc hn
    obtain ⟨xv, xt, -, hrest⟩ := cmpDoc_cons_ok h
    exact ⟨xv, (hrest hc hn).1, fun h0 => ⟨xt, (hrest hc hn).2 h0⟩⟩
  · intro h
    rw [cmpDoc]
    by_cases hc : sortClass v = sortClass w
    · rw [if_neg (not_not.mpr hc)]
      by_cases ho : order (nats n) (nats m) = 0
      · obtain ⟨x, hx, ht⟩ := h hc (nats_inj.mp (order_eq_zero.mp ho))
        simp only [ho, hx, bind, Except.bind, pure, Except.pure, ne_eq, not_true_eq_false, if_false]
        split_ifs with h0
        · exact ht h0
        · exact returns_ok x
      · rw [if_pos ho]
        exact returns_ok _
    · rw [if_pos hc]
      exact returns_ok _

/-! ### Antisymmetry -/

theorem isKeyed_of_matched {v w : Value} (h : Matched v w) (hk : isKeyed v) : isKeyed w := by
  cases h
  case numbers hv hw => cases v <;> simp [isNum] at hv <;> simp [isKeyed] at hk
  all_goals first | rfl | simp [isKeyed] at hk

theorem isLeaf_of_matched {v w : Value} (h : Matched v w) (hl : isLeaf v) : isLeaf w := by
  cases h
  case numbers hv hw => exact isLeaf_of_isNum hw
  all_goals first | rfl | simp [isLeaf] at hl

theorem cmpLeaf_opposed {v w : Value} (h : Matched v w) (hl : isLeaf v) {x y : ℤ}
    (hx : cmpLeaf v w = .ok x) (hy : cmpLeaf w v = .ok y) : Opposed x y := by
  by_cases hk : isKeyed v
  · obtain ⟨x', hx', hsx⟩ := cmpLeaf_keyed h hk
    obtain ⟨y', hy', hsy⟩ := cmpLeaf_keyed h.symm (isKeyed_of_matched h hk)
    rw [hx, Except.ok.injEq] at hx'
    rw [hy, Except.ok.injEq] at hy'
    subst hx' hy'
    exact opposed_order.congr hsx hsy
  · cases h
    case numbers hv hw =>
      rw [cmpLeaf_numbers hv hw, Except.ok.injEq] at hx
      rw [cmpLeaf_numbers hw hv, Except.ok.injEq] at hy
      subst hx hy
      cases longOf v <;> cases longOf w <;> exact opposed_order
    case timestamps a b | dates a b =>
      simp only [cmpLeaf, Except.ok.injEq] at hx hy
      subst hx hy
      exact opposed_order
    case timestampDate a b => simp [cmpLeaf] at hy
    case dateTimestamp a b => simp [cmpLeaf] at hx
    case object | array => simp [isLeaf] at hl
    all_goals simp [isKeyed] at hk

mutual

theorem cmpValue_opposed {v w : Value} (h : Matched v w) {x y : ℤ}
    (hx : cmpValue v w = .ok x) (hy : cmpValue w v = .ok y) : Opposed x y := by
  by_cases hl : isLeaf v
  · rw [cmpValue_leaf hl] at hx
    rw [cmpValue_leaf (isLeaf_of_matched h hl)] at hy
    exact cmpLeaf_opposed h hl hx hy
  · match v, hl with
    | .object d, _ =>
      obtain ⟨e, rfl⟩ := h.exists_object
      exact cmpDoc_opposed (d := d) (e := e) hx hy
    | .array d, _ =>
      obtain ⟨e, rfl⟩ := h.exists_array
      exact cmpDoc_opposed (d := d) (e := e) hx hy

/-- **The answers in the two directions have opposite signs**, when both are given. -/
theorem cmpDoc_opposed {d e : Doc} {x y : ℤ} (hx : cmpDoc d e = .ok x) (hy : cmpDoc e d = .ok y) :
    Opposed x y := by
  match d, e, hx, hy with
  | .nil, .nil, hx, hy | .nil, .cons _ _ _, hx, hy | .cons _ _ _, .nil, hx, hy =>
    simp only [cmpDoc, Except.ok.injEq] at hx hy
    subst hx hy
    simp [Opposed]
  | .cons n v d, .cons m w e, hx, hy =>
    obtain ⟨xv, xt, rfl, hxr⟩ := cmpDoc_cons_ok hx
    obtain ⟨yv, yt, rfl, hyr⟩ := cmpDoc_cons_ok hy
    refine (opposed_sub _ _).first fun hc => opposed_order.first fun hn => ?_
    have hc : sortClass v = sortClass w := sub_eq_zero.mp hc
    have hn : n = m := nats_inj.mp (order_eq_zero.mp hn)
    have hxv := hxr hc hn
    have hyv := hyr hc.symm hn.symm
    have ho := cmpValue_opposed (matched_of_sortClass hc) hxv.1 hyv.1
    exact ho.first fun h0 => cmpDoc_opposed (hxv.2 h0) (hyv.2 (ho.zero_iff.mp h0))

end

/-- A date and a timestamp. -/
def ClashLeaf : Value → Value → Prop
  | .date _, .timestamp _ | .timestamp _, .date _ => True
  | _, _ => False

mutual

/-- A comparison of the two values comes upon a date and a timestamp. -/
def ClashValue : Value → Value → Prop
  | .object d, w =>
    match w with
    | .object e => Clash d e
    | _ => False
  | .array d, w =>
    match w with
    | .array e => Clash d e
    | _ => False
  | v, w => ClashLeaf v w

/-- Under the same name, behind fields that cannot be told apart, a date stands in one document and
a timestamp in the other. -/
def Clash : Doc → Doc → Prop
  | .nil, _ => False
  | .cons n v d, e =>
    match e with
    | .nil => False
    | .cons m w e =>
      sortClass v = sortClass w ∧ n = m ∧ (ClashValue v w ∨ AlikeValue v w ∧ Clash d e)

end

theorem clashValue_leaf {v : Value} (h : isLeaf v) (w : Value) :
    ClashValue v w = ClashLeaf v w := by
  cases v <;> first | rfl | simp [isLeaf] at h

theorem returns_leaf {v w : Value} (h : Matched v w) (hl : isLeaf v) :
    Returns (cmpLeaf v w) ∧ Returns (cmpLeaf w v) ↔ ¬ ClashLeaf v w := by
  by_cases hk : isKeyed v
  · obtain ⟨x, hx, -⟩ := cmpLeaf_keyed h hk
    obtain ⟨y, hy, -⟩ := cmpLeaf_keyed h.symm (isKeyed_of_matched h hk)
    have hc : ¬ ClashLeaf v w := by
      unfold ClashLeaf
      split <;> simp_all [isKeyed]
    rw [hx, hy]
    exact iff_of_true ⟨returns_ok x, returns_ok y⟩ hc
  · cases h
    case numbers hv hw =>
      have hc : ¬ ClashLeaf v w := by
        unfold ClashLeaf
        split <;> simp_all [isNum]
      rw [cmpLeaf_numbers hv hw, cmpLeaf_numbers hw hv]
      exact iff_of_true ⟨returns_ok _, returns_ok _⟩ hc
    case timestamps a b | dates a b => simp [cmpLeaf, ClashLeaf, returns_ok]
    case timestampDate a b | dateTimestamp a b => simp [cmpLeaf, ClashLeaf, Returns]
    case object | array => simp [isLeaf] at hl
    all_goals simp [isKeyed] at hk

mutual

theorem returns_value {v w : Value} (h : Matched v w) (hv : v.Valid) (hw : w.Valid) :
    Returns (cmpValue v w) ∧ Returns (cmpValue w v) ↔ ¬ ClashValue v w := by
  by_cases hl : isLeaf v
  · rw [cmpValue_leaf hl, cmpValue_leaf (isLeaf_of_matched h hl), clashValue_leaf hl]
    exact returns_leaf h hl
  · match v, hl with
    | .object d, _ =>
      obtain ⟨e, rfl⟩ := h.exists_object
      exact returns_doc (d := d) (e := e) hv hw
    | .array d, _ =>
      obtain ⟨e, rfl⟩ := h.exists_array
      exact returns_doc (d := d) (e := e) hv hw

/-- **The comparison returns in both directions exactly when there is no clash.** -/
theorem returns_doc {d e : Doc} (hd : d.Valid) (he : e.Valid) :
    Returns (cmpDoc d e) ∧ Returns (cmpDoc e d) ↔ ¬ Clash d e := by
  match d, e, hd, he with
  | .nil, .nil, _, _ | .nil, .cons _ _ _, _, _ | .cons _ _ _, .nil, _, _ =>
    simp [cmpDoc, Clash, returns_ok]
  | .cons n v d, .cons m w e, hd, he =>
    rw [returns_cons, returns_cons, Clash]
    by_cases hc : sortClass v = sortClass w
    · by_cases hn : n = m
      · -- Both values come to the same decision, so both directions go on or none does.
        have hmat := matched_of_sortClass hc
        have hv := returns_value hmat hd.2.1 he.2.1
        have ht := returns_doc hd.2.2 he.2.2
        simp only [hc, hn, true_and, forall_const, not_or, not_and]
        constructor
        · rintro ⟨⟨x, hx, hxt⟩, ⟨y, hy, hyt⟩⟩
          refine ⟨hv.mp ⟨⟨x, hx⟩, ⟨y, hy⟩⟩, fun ha => ht.mp ?_⟩
          have h0 : x = 0 := by
            have := (cmpValue_eq_zero hmat hd.2.1 he.2.1).mpr ha
            rw [hx] at this
            exact Except.ok.inj this
          exact ⟨hxt h0, hyt ((cmpValue_opposed hmat hx hy).zero_iff.mp h0)⟩
        · rintro ⟨hcv, hct⟩
          obtain ⟨⟨x, hx⟩, ⟨y, hy⟩⟩ := hv.mpr hcv
          have hz := (cmpValue_opposed hmat hx hy).zero_iff
          have hr : x = 0 → Returns (cmpDoc d e) ∧ Returns (cmpDoc e d) := by
            rintro rfl
            exact ht.mpr (hct ((cmpValue_eq_zero hmat hd.2.1 he.2.1).mp hx))
          exact ⟨⟨x, hx, fun h0 => (hr h0).1⟩, ⟨y, hy, fun h0 => (hr (hz.mpr h0)).2⟩⟩
      · simp [hn, Ne.symm hn]
    · simp [hc, Ne.symm hc]

end

/-- **The comparison of two well-formed documents returns in both directions, with opposite signs,
exactly when they do not clash.** -/
theorem bsonCompare_antisymmetric_iff (a b : Stored) (r r' : Bytes) :
    (∃ m n, bsonCompare (a.bytes ++ r) (b.bytes ++ r') = .ok m ∧
      bsonCompare (b.bytes ++ r') (a.bytes ++ r) = .ok n ∧ m.sign = -n.sign) ↔
    ¬ Clash a.doc b.doc := by
  rw [bsonCompare_bytes, bsonCompare_bytes, ← returns_doc a.valid b.valid]
  constructor
  · rintro ⟨m, n, hm, hn, -⟩
    exact ⟨⟨m, hm⟩, ⟨n, hn⟩⟩
  · rintro ⟨⟨m, hm⟩, ⟨n, hn⟩⟩
    exact ⟨m, n, hm, hn, opposed_iff_sign.mp (cmpDoc_opposed hm hn)⟩

/-- `{"a": Date(0)}`. -/
def dateDoc : Stored where
  doc := .cons (ascii "a") (.date 0) .nil
  valid := by decide
  size := by decide

/-- `{"a": Timestamp(0, 0)}`. -/
def timestampDoc : Stored where
  doc := .cons (ascii "a") (.timestamp 0) .nil
  valid := by decide
  size := by decide

theorem dateDoc_timestampDoc_not_antisymmetric :
    ¬ ∃ m n, bsonCompare dateDoc.bytes timestampDoc.bytes = .ok m ∧
      bsonCompare timestampDoc.bytes dateDoc.bytes = .ok n ∧ m.sign = -n.sign := by
  have h : bsonCompare dateDoc.bytes timestampDoc.bytes = .error (.msgasserted 13111) := by decide
  simp [h]

end PgBson.Compare.Order
