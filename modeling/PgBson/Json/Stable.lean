import PgBson.Json.Dump
import PgBson.Lib.Rerounding

/-! # Dump and restore, again and again

One dump and restore may change the numbers of a document (`Restore.lean`). What comes back is not
changed again: however often the document is dumped and restored after that, it stays as the first
restore left it (`reloads_eq`). For integers this is the choice of their type; for doubles it is a
property of sixteen digits (`Lib/Rerounding.lean`). -/

namespace PgBson.Json.Stable

open PgBson.Lib.Memory PgBson.Lib.Binary64 PgBson.Lib.General PgBson.Lib.Strtod
open PgBson.Lib.Rerounding
open PgBson.Bson.Types PgBson.Bson.Document
open PgBson.Json.Parse PgBson.Json.Print PgBson.Json.Text PgBson.Json.Leaves PgBson.Json.Restore
open PgBson.Json.Dump

section values
variable {rt : Runtime}

/-! ### Numbers -/

/-- An integer is read as itself. -/
theorem restore_integer {z : ℤ} (hl : -2 ^ 63 ≤ z) (hu : z < 2 ^ 63) :
    restore rt (integer z) = some (integer z) := by
  unfold integer
  split_ifs with h
  · rfl
  · have hz : (BitVec.ofInt 64 z).toInt = z := by
      rw [BitVec.toInt_ofInt, Int.bmod_eq_of_le] <;> omega
    rw [restore, hz, integer, if_neg h]

theorem finiteBits_of_fin {b : BitVec 64} {n : ℤ} (h : Dbl.ofBits b = .fin n) : FiniteBits b := by
  intro he
  simp only [Dbl.ofBits, if_pos he] at h
  split_ifs at h

theorem isDouble_units {b : BitVec 64} (h : FiniteBits b) : IsDouble (units b) := by
  rw [units_eq h]
  split_ifs
  · exact ⟨_, 0, by omega, (Nat.mul_one _).symm⟩
  · exact ⟨_, _, by omega, rfl⟩

theorem exists_fin_of_units {b : BitVec 64} (h : 0 < units b) : ∃ n, Dbl.ofBits b = .fin n := by
  unfold units at h
  cases hb : Dbl.ofBits b with
  | fin n => exact ⟨n, rfl⟩
  | nan | inf => simp [hb] at h

theorem isDouble_ten_pow : IsDouble (10 ^ (15 + 1)) := ⟨5 ^ 16, 16, by decide, by decide⟩

theorem readDouble_fin {b : BitVec 64} {n : ℤ} (h : Dbl.ofBits b = .fin n) :
    readDouble rt b = readDecimal rt b.msb (rounded 15 (units b * unit)) := by
  rw [readDouble, h]

/-- The double that is read for sixteen digits is read as itself. -/
theorem readDouble_toBits {b : BitVec 64} {n : ℤ} (hb : Dbl.ofBits b = .fin n) {neg : Bool}
    {w : Value} (hr : ¬ RangeError rt (rounded 15 (units b * unit)))
    (hw : ¬ Whole 15 (rounded 15 (units b * unit)))
    (h : readDouble rt (toBits neg (nearestUnits (rounded 15 (units b * unit)))) = some w) :
    w = .numberDouble (toBits neg (nearestUnits (rounded 15 (units b * unit)))) := by
  have hdouble := isDouble_units (finiteBits_of_fin hb)
  have hpos : 0 < units b := by
    refine Nat.pos_of_ne_zero fun h0 => hw ?_
    rw [h0, Nat.cast_zero, zero_mul, rounded, if_pos rfl]
    exact ⟨0, rfl, by decide⟩
  obtain ⟨hy, hagain⟩ := nearestUnits_rounded (p := 15) (by decide) hdouble hpos rfl
  have hw' := mt (whole_of_whole_rounded (by decide) isDouble_ten_pow hdouble hpos rfl) hw
  generalize rounded 15 (units b * unit) = q at *
  have hlt : nearestUnits q < overflowUnits := not_le.mp fun hge => hr (Or.inl hge)
  have hunits := units_toBits_nearest neg hlt
  rw [← nearestUnits] at hunits
  generalize nearestUnits q = y at *
  generalize toBits neg y = c at *
  obtain ⟨m, hc⟩ := exists_fin_of_units (hy.trans_eq hunits.symm)
  have hbits := toBits_units (finiteBits_of_fin hc)
  rw [readDouble_fin hc, hunits] at h
  rw [hunits] at hbits
  generalize rounded 15 (y * unit) = q' at *
  by_cases he : RangeError rt q'
  · rw [readDecimal, if_pos he] at h
    cases h
  · rw [readDecimal, if_neg he, if_neg hw', hagain, hbits, Option.some.injEq] at h
    exact h.symm

theorem natAbs_lt_of_whole {q : ℚ} (h : Whole 15 q) : q.num.natAbs < 10 ^ 16 := (whole_iff.mp h).2

/-- **What is read for a double is read as itself.** -/
theorem restore_of_readDouble {b : BitVec 64} {w w' : Value} (h : readDouble rt b = some w)
    (h' : restore rt w = some w') : w' = w := by
  cases hb : Dbl.ofBits b with
  | nan =>
    simp only [readDouble, hb, Option.some.injEq] at h
    subst h
    have hq : Dbl.ofBits quietNaN = .nan := by decide
    simpa only [restore, readDouble, hq, Option.some.injEq, eq_comm] using h'
  | inf neg =>
    simp only [readDouble, hb, Option.some.injEq] at h
    subst h
    rw [toBits_overflowUnits hb] at h' ⊢
    simpa only [restore, readDouble, hb, toBits_overflowUnits hb, Option.some.injEq, eq_comm]
      using h'
  | fin n =>
    rw [readDouble_fin hb] at h
    by_cases hr : RangeError rt (rounded 15 (units b * unit))
    · rw [readDecimal, if_pos hr] at h
      cases h
    rw [readDecimal, if_neg hr] at h
    split_ifs at h with hw
    · have hz := natAbs_lt_of_whole hw
      rw [Option.some.injEq] at h
      subst h
      rw [restore_integer, Option.some.injEq] at h'
      · exact h'.symm
      · unfold signed
        split_ifs <;> omega
      · unfold signed
        split_ifs <;> omega
    · rw [Option.some.injEq] at h
      subst h
      exact readDouble_toBits hb hr hw h'

/-! ### Documents -/

mutual

theorem restore_restore : ∀ {v w w' : Value}, restore rt v = some w →
    restore rt w = some w' → w' = w
  | .numberLong v, w, w', h, h' => by
    rw [restore, Option.some.injEq] at h
    subst h
    rw [restore_integer (by have := v.le_toInt; omega) (by have := v.toInt_lt; omega),
      Option.some.injEq] at h'
    exact h'.symm
  | .numberDouble b, w, w', h, h' => restore_of_readDouble h h'
  | .object d, w, w', h, h' | .array d, w, w', h, h' => by
    rw [restore, Option.map_eq_some_iff] at h
    obtain ⟨d', hd, rfl⟩ := h
    rw [restore, Option.map_eq_some_iff] at h'
    obtain ⟨d'', hd', rfl⟩ := h'
    rw [restoreDoc_restoreDoc hd hd']
  | .bool _, _, _, h, h' | .regEx _ _, _, _, h, h' | .string _, _, _, h, h'
  | .binData _ _, _, _, h, h'
  | .undefined, _, _, h, h' | .jstOID _, _, _, h, h' | .date _, _, _, h, h' | .jstNULL, _, _, h, h'
  | .numberInt _, _, _, h, h' | .timestamp _, _, _, h, h' | .minKey, _, _, h, h'
  | .dbRef _ _, _, _, h, h' | .code _, _, _, h, h' | .symbol _, _, _, h, h'
  | .codeWScope _ _, _, _, h, h' | .maxKey, _, _, h, h' => by
    obtain rfl := Option.some.inj h
    exact (Option.some.inj h').symm

theorem restoreDoc_restoreDoc : ∀ {d d' d'' : Doc}, restoreDoc rt d = some d' →
    restoreDoc rt d' = some d'' → d'' = d'
  | .nil, d', d'', h, h' => by
    obtain rfl := Option.some.inj h
    exact (Option.some.inj h').symm
  | .cons n v d, e, e', h, h' => by
    simp only [restoreDoc, Option.bind_eq_some_iff, Option.map_eq_some_iff] at h
    obtain ⟨w, hw, d', hd, rfl⟩ := h
    simp only [restoreDoc, Option.bind_eq_some_iff, Option.map_eq_some_iff] at h'
    obtain ⟨w', hw', d'', hd', rfl⟩ := h'
    rw [restore_restore hw hw', restoreDoc_restoreDoc hd hd']

end

theorem keyed_restoreDoc : ∀ {i : ℕ} {d d' : Doc}, Keyed i d → restoreDoc rt d = some d' →
    Keyed i d'
  | _, .nil, _, _, h => by
    obtain rfl := Option.some.inj h
    trivial
  | i, .cons n v d, e, hk, h => by
    simp only [restoreDoc, Option.bind_eq_some_iff, Option.map_eq_some_iff] at h
    obtain ⟨w, -, d', hd, rfl⟩ := h
    exact ⟨hk.1, keyed_restoreDoc hk.2 hd⟩

theorem unreserved_restoreDoc {d d' : Doc} (hu : Unreserved d) (h : restoreDoc rt d = some d') :
    Unreserved d' := by
  cases d with
  | nil =>
    obtain rfl := Option.some.inj h
    trivial
  | cons n v d =>
    simp only [restoreDoc, Option.bind_eq_some_iff, Option.map_eq_some_iff] at h
    obtain ⟨w, -, d', -, rfl⟩ := h
    exact hu

theorem readable_integer (z : ℤ) : Readable (integer z) := by
  unfold integer
  split_ifs <;> trivial

mutual

/-- What is read back can be read back. -/
theorem readable_restore : ∀ {v w : Value}, Readable v → restore rt v = some w → Readable w
  | .numberLong v, w, _, h => by
    rw [restore, Option.some.injEq] at h
    exact h ▸ readable_integer _
  | .numberDouble b, w, _, h => by
    rw [restore] at h
    rcases readDouble_cases h with ⟨z, rfl⟩ | ⟨c, rfl⟩
    · exact readable_integer z
    · trivial
  | .object d, w, hr, h => by
    rw [restore, Option.map_eq_some_iff] at h
    obtain ⟨d', hd, rfl⟩ := h
    exact ⟨unreserved_restoreDoc hr.1 hd, docReadable_restoreDoc hr.2 hd⟩
  | .array d, w, hr, h => by
    rw [restore, Option.map_eq_some_iff] at h
    obtain ⟨d', hd, rfl⟩ := h
    exact ⟨keyed_restoreDoc hr.1 hd, docReadable_restoreDoc hr.2 hd⟩
  | .bool _, _, hr, h | .regEx _ _, _, hr, h | .string _, _, hr, h | .binData _ _, _, hr, h
  | .undefined, _, hr, h | .jstOID _, _, hr, h | .date _, _, hr, h | .jstNULL, _, hr, h
  | .numberInt _, _, hr, h | .timestamp _, _, hr, h => by
    obtain rfl := Option.some.inj h
    exact hr

theorem docReadable_restoreDoc : ∀ {d d' : Doc}, DocReadable d → restoreDoc rt d = some d' →
    DocReadable d'
  | .nil, _, _, h => by
    obtain rfl := Option.some.inj h
    trivial
  | .cons n v d, e, hr, h => by
    simp only [restoreDoc, Option.bind_eq_some_iff, Option.map_eq_some_iff] at h
    obtain ⟨w, hw, d', hd, rfl⟩ := h
    exact ⟨readable_restore hr.1 hw, docReadable_restoreDoc hr.2 hd⟩

end

/-! ### Texts -/

/-- A stored value is dumped as text and restored from it, if both succeed. -/
def reload (rt : Runtime) (bs : Bytes) : Option Bytes :=
  match bsonOut bs with
  | .ok t => (bsonIn rt t).toOption
  | .error _ => none

/-- The same several times. -/
def reloads (rt : Runtime) : ℕ → Bytes → Option Bytes
  | 0, bs => some bs
  | n + 1, bs => (reload rt bs).bind (reloads rt n)

theorem reload_eq (s : Stored) (h : Readable (.object s.doc)) : reload rt s.bytes =
    if BufferMaxSize < (docText s.doc).length then none
    else (restoreDoc rt s.doc).map Doc.bytes := by
  have hs : s.doc.elems.length + 5 ≤ BSONObjMaxInternalSize := by
    rw [← length_bytes]
    exact s.size
  have hout := bsonOut_bytes s (docInRange_of_readable h.2 (by omega)) []
  rw [List.append_nil] at hout
  by_cases hfit : BufferMaxSize < (docText s.doc).length
  · rw [str, if_pos hfit] at hout
    rw [reload, hout, if_pos hfit]
    rfl
  rw [str, if_neg hfit] at hout
  change bsonOut s.bytes = .ok (docText s.doc ++ [0]) at hout
  rw [reload, hout, if_neg hfit]
  dsimp only
  rw [bsonIn_docText rt s h]
  cases restoreDoc rt s.doc with
  | none => rfl
  | some d => rfl

theorem restoreDoc_of_reload (s : Stored) (h : Readable (.object s.doc)) {bs : Bytes}
    (hr : reload rt s.bytes = some bs) : ∃ d, restoreDoc rt s.doc = some d ∧ d.bytes = bs := by
  rw [reload_eq s h] at hr
  split_ifs at hr
  exact Option.map_eq_some_iff.mp hr

/-- What was restored once. -/
theorem exists_restored (s : Stored) (h : Readable (.object s.doc)) {bs : Bytes}
    (hr : reload rt s.bytes = some bs) : ∃ s' : Stored, bs = s'.bytes ∧ Readable (.object s'.doc) ∧
      ∀ d, restoreDoc rt s'.doc = some d → d = s'.doc := by
  obtain ⟨d, hd, rfl⟩ := restoreDoc_of_reload s h hr
  have hsize : d.bytes.length ≤ BSONObjMaxInternalSize := by
    have hlen := length_restoreDoc_le hd
    have hs := s.size
    rw [length_bytes] at hs ⊢
    omega
  refine ⟨⟨d, valid_restoreDoc s.valid hd, hsize⟩, rfl, ?_,
    fun d' hd' => restoreDoc_restoreDoc hd hd'⟩
  exact ⟨unreserved_restoreDoc h.1 hd, docReadable_restoreDoc h.2 hd⟩

/-- **After one dump and restore a document does not change any more**, however often it is dumped
and restored. -/
theorem reloads_eq (s : Stored) (h : Readable (.object s.doc)) {bs : Bytes}
    (hr : reload rt s.bytes = some bs) (n : ℕ) {bs' : Bytes} (hn : reloads rt n bs = some bs') :
    bs' = bs := by
  obtain ⟨s', rfl, h', hstable⟩ := exists_restored s h hr
  induction n with
  | zero => exact (Option.some.inj hn).symm
  | succ n ih =>
    obtain ⟨bs, hbs, hrest⟩ := Option.bind_eq_some_iff.mp hn
    obtain ⟨d, hd, rfl⟩ := restoreDoc_of_reload s' h' hbs
    rw [hstable d hd] at hrest
    exact ih hrest

end values

/-- `{"a": NumberLong(5), "b": 0.30000000000000004}`. -/
private def freshDoc : Stored where
  doc := .cons (ascii "a") (.numberLong 5)
    (.cons (ascii "b") (.numberDouble 0x3fd3333333333334) .nil)
  valid := by decide
  size := by decide

/-- `{"a": 5, "b": 0.3}`. -/
private def settledDoc : Stored where
  doc := .cons (ascii "a") (.numberInt 5)
    (.cons (ascii "b") (.numberDouble 0x3fd3333333333333) .nil)
  valid := by decide
  size := by decide

theorem reloads_eq_freshDoc : reload Runtime.common freshDoc.bytes = some settledDoc.bytes ∧
    ∃ bs, reloads Runtime.common 1 settledDoc.bytes = some bs ∧ bs = settledDoc.bytes := by
  have hname : ascii "a" ∉ reserved := by decide
  have hfresh : Readable (.object freshDoc.doc) := ⟨hname, trivial, trivial, trivial⟩
  have hsettled : Readable (.object settledDoc.doc) := ⟨hname, trivial, trivial, trivial⟩
  have hfirst : reload Runtime.common freshDoc.bytes = some settledDoc.bytes := by
    rw [reload_eq _ hfresh, if_neg (by decide +kernel)]
    decide +kernel
  have hsecond : reloads Runtime.common 1 settledDoc.bytes = some settledDoc.bytes := by
    rw [reloads, reload_eq _ hsettled, if_neg (by decide +kernel)]
    decide +kernel
  exact ⟨hfirst, _, hsecond, reloads_eq freshDoc hfresh hfirst 1 hsecond⟩

end PgBson.Json.Stable
