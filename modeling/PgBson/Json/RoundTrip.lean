import PgBson.Json.Restore

/-! # Reading the text of a document

The parser on the text of a value or a document ends behind it with what `restore` says, or fails
when that is nothing (`value_text`, `doc_text`). -/

namespace PgBson.Json.RoundTrip

open PgBson.Lib.Memory PgBson.Lib.Binary64 PgBson.Lib.Decimal PgBson.Lib.General
open PgBson.Lib.Strtod PgBson.Lib.ReadBack PgBson.Lib.Parsing
open PgBson.Bson.Types PgBson.Bson.Document
open PgBson.Bson.Element (done_ok)
open PgBson.Json.Encoding PgBson.Json.Parse PgBson.Json.Print PgBson.Json.Text PgBson.Json.Leaves
open PgBson.Json.Restore

/-! ### Behind and in front of a value -/

/-- What stands behind a value in a text. -/
def Follows (r : Bytes) : Prop := ∃ c s, r = c :: s ∧ (c = 44 ∨ c = 32)

theorem follows_blank (r : Bytes) : Follows (32 :: r) := ⟨32, r, rfl, .inr rfl⟩

theorem Follows.stops {r : Bytes} (h : Follows r) : Stops r := by
  obtain ⟨c, s, rfl, rfl | rfl⟩ := h <;> intro d hd <;>
    · rw [List.head?_cons, Option.mem_def, Option.some.injEq] at hd
      subst hd
      decide

theorem Follows.ne_nil {r : Bytes} (h : Follows r) : r ≠ [] := by
  obtain ⟨c, s, rfl, -⟩ := h
  simp

theorem follows_pairsText (d : Doc) {r : Bytes} (h : Follows r) : Follows (pairsText d ++ r) := by
  cases d with
  | nil => exact h
  | cons n v d => exact ⟨44, _, rfl, .inl rfl⟩

/-- The text of a value starts neither with a blank nor with a closing bracket. -/
theorem exists_valueText_eq_cons {v : Value} (h : Readable v) :
    ∃ c s, valueText v = c :: s ∧ isspace c = false ∧ c ≠ 93 := by
  have hnum : ∀ {neg : Bool} {a : ℕ} {f : Bytes} {x : Option ℤ},
      ∃ c s, signText neg ++ numberText a f x = c :: s ∧ isspace c = false ∧ c ≠ 93 := by
    intro neg a f x
    obtain ⟨c, s, hs, hc⟩ := numberText_head (a := a) (f := f) (x := x) (r := [])
    rw [List.append_nil] at hs
    rw [hs]
    cases neg with
    | true => exact ⟨45, c :: s, rfl, by decide, by decide⟩
    | false =>
      refine ⟨c, s, rfl, (not_space_of_isdigit hc).1, ?_⟩
      rintro rfl
      exact absurd hc (by decide)
  have hreal : ∀ {neg : Bool} {q : ℚ}, 0 ≤ q →
      ∃ c s, formatReal 15 neg q = c :: s ∧ isspace c = false ∧ c ≠ 93 := by
    intro neg q hq
    obtain ⟨a, f, x, hg, -⟩ := general_eq 15 hq
    rw [formatReal, hg]
    exact hnum
  cases v with
  | numberLong v =>
    rw [valueText, decimalInt_eq_text]
    exact hnum
  | numberInt v => exact hreal (by positivity)
  | numberDouble b =>
    rw [valueText, doubleText]
    split
    · exact ⟨78, _, rfl, by decide, by decide⟩
    · split_ifs
      · exact ⟨45, _, rfl, by decide, by decide⟩
      · exact ⟨73, _, rfl, by decide, by decide⟩
    · exact hreal (by unfold unit; positivity)
  | bool b =>
    rw [valueText]
    split_ifs
    · exact ⟨102, _, rfl, by decide, by decide⟩
    · exact ⟨116, _, rfl, by decide, by decide⟩
  | object d | array d => cases d <;> exact ⟨_, _, rfl, by decide, by decide⟩
  | string | binData | undefined | jstOID | date | jstNULL | regEx | timestamp =>
    exact ⟨_, _, rfl, by decide, by decide⟩
  | minKey | dbRef | code | symbol | codeWScope | maxKey => exact h.elim

theorem value_numberDouble {rt : Runtime} {fuel : ℕ} (b : BitVec 64) {r : Bytes} (hr : Follows r) :
    Yields (value rt (fuel + 1)) (32 :: (doubleText b ++ r)) ((readDouble rt b).map some) r := by
  unfold doubleText readDouble
  cases Dbl.ofBits b with
  | nan => exact rfl
  | inf neg => cases neg <;> exact rfl
  | fin n =>
    have hq : (0 : ℚ) ≤ units b * unit := by unfold unit; positivity
    exact value_formatReal hq hr.stops hr.ne_nil

theorem value_numberInt {rt : Runtime} {fuel : ℕ} (v : BitVec 32) {r : Bytes} (hr : Follows r) :
    value rt (fuel + 1) (32 :: (intText v.toInt ++ r)) = .ok (some (.numberInt v)) r := by
  have hl := v.le_toInt
  have hu := v.toInt_lt
  norm_num at hl hu
  rw [intText, formatReal_int (by omega), ← integer_of_bitVec]
  exact value_decimalInt (by omega) (by omega) hr.stops hr.ne_nil

theorem value_numberLong {rt : Runtime} {fuel : ℕ} (v : BitVec 64) {r : Bytes} (hr : Follows r) :
    value rt (fuel + 1) (32 :: (decimalInt v.toInt ++ r)) = .ok (some (integer v.toInt)) r := by
  have hl := v.le_toInt
  have hu := v.toInt_lt
  norm_num at hl hu
  exact value_decimalInt (by omega) (by omega) hr.stops hr.ne_nil

/-- The pairs of an object behind a comma. -/
theorem pairsText_append (n : Bytes) (v : Value) (d : Doc) (r : Bytes) :
    pairsText (.cons n v d) ++ r = 44 :: 32 :: (quote (escapeText n) ++ 32 :: 58 :: 32 ::
      (valueText v ++ (pairsText d ++ r))) := by
  simp only [pairsText, List.append_assoc]
  rfl

theorem docText_append (n : Bytes) (v : Value) (d : Doc) (r : Bytes) :
    docText (.cons n v d) ++ r = 123 :: 32 :: (quote (escapeText n) ++ 32 :: 58 :: 32 ::
      (valueText v ++ (pairsText d ++ 32 :: 125 :: r))) := by
  simp only [docText, List.append_assoc]
  rfl

theorem itemsText_append {i : ℕ} (hi : i < 2 ^ 31) (v : Value) (d : Doc) (r : Bytes) :
    itemsText i (.cons (decimal i) v d) ++ r =
      44 :: 32 :: (valueText v ++ (itemsText (i + 1 : ℕ) d ++ r)) := by
  simp only [itemsText, gap_decimal hi, next_decimal hi, fill, List.append_assoc]
  rfl

theorem length_itemsText {i : ℕ} (hi : i < 2 ^ 31) (v : Value) (d : Doc) :
    (itemsText i (.cons (decimal i) v d)).length =
      (valueText v).length + (itemsText (i + 1 : ℕ) d).length + 2 := by
  have h := congrArg List.length (itemsText_append hi v d [])
  simpa using h

theorem arrayText_append (v : Value) (d : Doc) (r : Bytes) :
    valueText (.array (.cons (decimal 0) v d)) ++ r =
      91 :: 32 :: (valueText v ++ (itemsText (0 + 1 : ℕ) d ++ 32 :: 93 :: r)) := by
  have hg := gap_decimal (i := 0) (by omega)
  have hn := next_decimal (i := 0) (by omega)
  rw [Nat.cast_zero] at hg hn
  simp only [valueText, hg, hn, fill, List.append_assoc]
  rfl

section containers
variable {value : JParse (Option Value)} {fuel : ℕ} {n : Bytes} {v : Value} {d : Doc}
  {ov : Option Value} {od : Option Doc} {r : Bytes}

/-- One more pair. -/
theorem pairs_cons
    (hv : Yields value (32 :: (valueText v ++ (pairsText d ++ r))) (ov.map some) (pairsText d ++ r))
    (hd : Yields (pairs value fuel) (pairsText d ++ r) od r) :
    Yields (pairs value (fuel + 1)) (pairsText (.cons n v d) ++ r)
      (ov.bind fun w => od.map (.cons n w)) r := by
  have hstep : pairs value (fuel + 1) (pairsText (.cons n v d) ++ r) =
      (do return append n (← value) (← pairs value fuel))
        (32 :: (valueText v ++ (pairsText d ++ r))) := by
    rw [pairsText_append, pairs, accept_bind rfl, ok_bind (field_text n _), ok_bind (expect_ok rfl)]
  have h : Yields (pairs value (fuel + 1)) (pairsText (.cons n v d) ++ r)
      ((ov.map some).bind fun v' => od.map (append n v')) r :=
    .of_eq (hv.bind fun _ _ => hd.map fun _ _ => rfl) hstep
  rwa [Option.bind_map] at h

/-- An object with a first pair. -/
theorem object_cons {sub : Bool} (hn : n ∉ reserved)
    (hv : Yields value (32 :: (valueText v ++ (pairsText d ++ 32 :: 125 :: r))) (ov.map some)
      (pairsText d ++ 32 :: 125 :: r))
    (hd : Yields (pairs value fuel) (pairsText d ++ 32 :: 125 :: r) od (32 :: 125 :: r)) :
    Yields (object value fuel sub) (docText (.cons n v d) ++ r)
      ((ov.bind fun w => od.map (.cons n w)).map .object) r := by
  have hstep : object value fuel sub (docText (.cons n v d) ++ r) = (do
      let v ← value
      let d ← pairs value fuel
      expect RBRACE "Expecting '\x7d' or ','"
      return Value.object (append n v d))
        (32 :: (valueText v ++ (pairsText d ++ 32 :: 125 :: r))) := by
    rw [docText_append, object, ok_bind (expect_ok rfl), not_accept_bind rfl,
      ok_bind (field_text n _), special_of_unreserved hn]
    exact ok_bind (expect_ok rfl)
  have h : Yields (object value fuel sub) (docText (.cons n v d) ++ r)
      ((ov.map some).bind fun v' => od.map fun d' => Value.object (append n v' d')) r :=
    .of_eq (hv.bind fun _ _ => hd.map fun _ _ => rfl) hstep
  cases ov with
  | none => exact h
  | some w => cases od <;> exact h

/-- The last element of an array. -/
theorem elements_last {i : ℕ}
    (hv : Yields value (32 :: (valueText v ++ 32 :: 93 :: r)) (ov.map some) (32 :: 93 :: r)) :
    Yields (elements value (fuel + 1) i) (32 :: (valueText v ++ 32 :: 93 :: r))
      (ov.map fun w => .cons (decimal i) w .nil) (32 :: 93 :: r) := by
  have h : Yields (elements value (fuel + 1) i) (32 :: (valueText v ++ 32 :: 93 :: r))
      ((ov.map some).map fun v' => append (decimal i) v' .nil) (32 :: 93 :: r) :=
    hv.map fun _ _ => rfl
  rwa [Option.map_map] at h

/-- An element of an array in front of others. -/
theorem elements_cons {i : ℕ} {j : Bytes}
    (hv : Yields value (32 :: (valueText v ++ 44 :: j)) (ov.map some) (44 :: j))
    (hd : Yields (elements value fuel (i + 1)) j od r) :
    Yields (elements value (fuel + 1) i) (32 :: (valueText v ++ 44 :: j))
      (ov.bind fun w => od.map (.cons (decimal i) w)) r := by
  have h : Yields (elements value (fuel + 1) i) (32 :: (valueText v ++ 44 :: j))
      ((ov.map some).bind fun v' => od.map (append (decimal i) v')) r :=
    hv.bind fun _ _ => .of_eq (hd.map fun _ _ => rfl) (accept_bind rfl)
  rwa [Option.bind_map] at h

/-- An array with elements, when what was read is within the size limit. -/
theorem array_cons {j : Bytes} (hj : peek RBRACKET (32 :: j) = .ok false (32 :: j))
    (hd : Yields (elements value fuel 0) (32 :: j) od (32 :: 93 :: r))
    (hs : ∀ d ∈ od, d.bytes.length ≤ BSONObjMaxInternalSize) :
    Yields (array value fuel) (32 :: 91 :: 32 :: j) (od.map .array) r := by
  refine .of_eq (hd.map fun d ho => ?_) ((ok_bind (expect_ok rfl)).trans (not_peek_bind hj))
  rw [done_ok (hs d ho)]
  rfl

end containers

mutual

/-- **The text of a value is read as `restore` says.** -/
theorem value_text (rt : Runtime) : ∀ (v : Value) {fuel : ℕ} {r : Bytes}, v.Valid → Readable v →
    v.bytes.length ≤ BSONObjMaxInternalSize → (valueText v).length < fuel → Follows r →
    Yields (value rt fuel) (32 :: (valueText v ++ r)) ((restore rt v).map some) r
  | _, 0, _, _, _, _, hf, _ => by omega
  | .string s, _ + 1, r, hv, _, _, _, _ => value_string hv r
  | .binData t data, _ + 1, r, _, _, _, _, _ => value_binData t data r
  | .undefined, _ + 1, r, _, _, _, _, _ => value_undefined r
  | .jstOID id, _ + 1, r, _, _, _, _, _ => value_jstOID id r
  | .date v, _ + 1, r, _, _, _, _, _ => value_date v r
  | .timestamp v, _ + 1, r, _, _, _, _, _ => value_timestamp v r
  | .regEx pat _, _ + 1, r, _, ho, _, _, _ => value_regEx pat ho r
  | .jstNULL, _ + 1, _, _, _, _, _, _ => rfl
  | .bool b, _ + 1, r, _, hb, _, _, _ => by rcases hb with rfl | rfl <;> exact rfl
  | .numberInt v, _ + 1, _, _, _, _, _, hr => value_numberInt v hr
  | .numberLong v, _ + 1, _, _, _, _, _, hr => value_numberLong v hr
  | .numberDouble b, _ + 1, _, _, _, _, _, hr => value_numberDouble b hr
  | .object d, fuel + 1, r, hv, h, hs, hf, _ => by
    have hs : d.bytes.length ≤ BSONObjMaxInternalSize := hs
    have hf : (docText d).length < fuel + 1 := hf
    rw [length_bytes] at hs
    have hd := doc_text rt d true (r := r) hv h.1 h.2 (by omega) (show _ ≤ fuel by omega)
    have hstep : value rt (fuel + 1) (32 :: (docText d ++ r)) =
        (do return some (← object (value rt fuel) fuel true)) (docText d ++ r) := by
      cases d <;> rfl
    rw [restore, Option.map_map, valueText, ← Option.map_map]
    exact .of_eq (hd.map fun _ _ => rfl) hstep
  | .array .nil, fuel + 1, r, _, _, _, _, _ => rfl
  | .array (.cons n v d), fuel + 1, r, hv, ⟨hk, h⟩, hs, hf, _ => by
    have hs : (Doc.cons n v d).bytes.length ≤ BSONObjMaxInternalSize := hs
    have hlt := lt_of_le_maxSize hs
    rw [length_bytes] at hs hlt
    have hn : n = decimal 0 := hk.1
    subst hn
    have htext := arrayText_append v d
    have hl : (itemsText (0 : ℕ) (.cons (decimal 0) v d)).length ≤ fuel := by
      have := congrArg List.length (htext [])
      simp only [List.append_nil, List.length_cons, List.length_append, List.length_nil] at this
      rw [length_itemsText (by omega)]
      omega
    have hd := elements_text rt (.cons (decimal 0) v d) (r := r) (by simp) hv hk h (by omega)
      (by omega) hl hl
    rw [itemsText_append (by omega), List.tail_cons] at hd
    obtain ⟨c, s, hc, hsp, hne⟩ := exists_valueText_eq_cons h.1
    have hpeek : peek RBRACKET (32 :: (valueText v ++ (itemsText (0 + 1 : ℕ) d ++ 32 :: 93 :: r))) =
        .ok false (32 :: (valueText v ++ (itemsText (0 + 1 : ℕ) d ++ 32 :: 93 :: r))) := by
      rw [hc]
      exact peek_ne [] _ hsp hne.symm
    have hsize : ∀ e ∈ restoreDoc rt (.cons (decimal 0) v d),
        e.bytes.length ≤ BSONObjMaxInternalSize := by
      intro e he
      have := length_restoreDoc_le he
      rw [length_bytes]
      omega
    rw [htext, restore, Option.map_map, ← Option.map_map]
    exact .of_eq ((array_cons hpeek hd hsize).map fun _ _ => rfl) rfl

theorem doc_text (rt : Runtime) : ∀ (d : Doc) (sub : Bool) {fuel : ℕ} {r : Bytes}, d.Valid →
    Unreserved d → DocReadable d → d.elems.length ≤ BSONObjMaxInternalSize →
    (docText d).length ≤ fuel →
    Yields (object (value rt fuel) fuel sub) (docText d ++ r) ((restoreDoc rt d).map .object) r
  | .nil, _, _, _, _, _, _, _, _ => rfl
  | .cons n v d, _, fuel, r, hd, hn, h, hs, hf => by
    rw [length_elems_cons] at hs
    have hl : (valueText v).length + (pairsText d).length < fuel := by
      simp [docText, quote] at hf
      omega
    exact object_cons hn
      (value_text rt v hd.2.1 h.1 (by omega) (by omega) (follows_pairsText d (follows_blank _)))
      (pairs_text rt d hd.2.2 h.2 (by omega) (by omega) (by omega))

theorem pairs_text (rt : Runtime) : ∀ (d : Doc) {k fuel : ℕ} {r : Bytes}, d.Valid →
    DocReadable d → d.elems.length ≤ BSONObjMaxInternalSize → (pairsText d).length < k →
    (pairsText d).length < fuel →
    Yields (pairs (value rt k) fuel) (pairsText d ++ 32 :: 125 :: r) (restoreDoc rt d)
      (32 :: 125 :: r)
  | _, _, 0, _, _, _, _, _, hf => by omega
  | .nil, _, _ + 1, _, _, _, _, _, _ => rfl
  | .cons n v d, k, fuel + 1, r, hd, h, hs, hk, hf => by
    rw [length_elems_cons] at hs
    have hl : (valueText v).length + (pairsText d).length + 2 ≤
        (pairsText (.cons n v d)).length := by
      simp [pairsText, quote]
      omega
    exact pairs_cons
      (value_text rt v hd.2.1 h.1 (by omega) (by omega) (follows_pairsText d (follows_blank _)))
      (pairs_text rt d hd.2.2 h.2 (by omega) (by omega) (by omega))

theorem elements_text (rt : Runtime) : ∀ (d : Doc) {k fuel i : ℕ} {r : Bytes}, d ≠ .nil → d.Valid →
    Keyed i d → DocReadable d → i + d.elems.length < 2 ^ 31 →
    d.elems.length ≤ BSONObjMaxInternalSize → (itemsText i d).length ≤ k →
    (itemsText i d).length ≤ fuel →
    Yields (elements (value rt k) fuel i) (itemsText i d ++ 32 :: 93 :: r).tail (restoreDoc rt d)
      (32 :: 93 :: r)
  | .nil, _, _, _, _, hne, _, _, _, _, _, _, _ => (hne rfl).elim
  | .cons n v .nil, k, fuel, i, r, _, hd, ⟨hn, _⟩, h, hi, hs, hk, hf => by
    subst hn
    rw [length_elems_cons] at hi hs
    rw [length_itemsText (by omega)] at hk hf
    obtain ⟨f, rfl⟩ : ∃ f, fuel = f + 1 := ⟨fuel - 1, by omega⟩
    have hv : Yields (elements (value rt k) (f + 1) i) _ _ _ := elements_last
      (value_text rt v hd.2.1 h.1 (by omega) (show _ < k by omega) (follows_blank (93 :: r)))
    rw [itemsText_append (by omega), List.tail_cons, itemsText, List.nil_append]
    cases hw : restore rt v <;> simpa [restoreDoc, hw] using hv
  | .cons n v (.cons m w d), k, fuel, i, r, _, hd, ⟨hn, hkey⟩, h, hi, hs, hk, hf => by
    subst hn
    rw [length_elems_cons] at hi hs
    rw [length_itemsText (by omega)] at hk hf
    obtain ⟨f, rfl⟩ : ∃ f, fuel = f + 1 := ⟨fuel - 1, by omega⟩
    have hd' := elements_text rt (.cons m w d) (r := r) (by simp) hd.2.2 hkey h.2 (by omega)
      (by omega) (show _ ≤ k by omega) (show _ ≤ f by omega)
    obtain ⟨rfl, -⟩ := hkey
    rw [length_elems_cons] at hi
    rw [itemsText_append (by omega), List.tail_cons] at hd'
    rw [itemsText_append (by omega), List.tail_cons, itemsText_append (by omega)]
    exact elements_cons
      (value_text rt v hd.2.1 h.1 (by omega) (by omega) ⟨44, _, rfl, .inl rfl⟩) hd'

end

end PgBson.Json.RoundTrip
