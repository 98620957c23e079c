import PgBson.Json.Runs

/-! # What the parser accepts

Every run of the parser ends, with the pointer moved forward (`meets_base`), and what it appends is
well formed but for one thing: the escape `\u0000` puts a NUL into a string, and field names,
patterns and options are written without a count. A text without that escape yields valid documents
(`fromjson_ok`). -/

namespace PgBson.Json.Accepts

open PgBson.Lib.Memory PgBson.Lib.Decimal PgBson.Lib.Strtod PgBson.Lib.Parsing
open PgBson.Bson.Types PgBson.Bson.Document PgBson.Json.Encoding PgBson.Json.Parse
open PgBson.Json.Runs
open PgBson.Bson.Element (done done_ok eq_of_done obj size_of_obj returnBson returnBson_bytes)

/-! ### Values with names and patterns -/

/-- What holds of a value that was read from a text: only a NUL in a name, a pattern or options can
spoil it, and there is none unless the text has its escape. -/
structure Good (i : Bytes) (v : Value) : Prop where
  valid : v.Framed → v.Valid
  framed : NulFree i → v.Framed

theorem Good.of_valid {i : Bytes} {v : Value} (h : v.Valid) : Good i v :=
  ⟨fun _ => h, fun _ => h.framed⟩

theorem Good.mono {i j : Bytes} {v : Value} (h : Good j v) (hj : j <:+ i) : Good i v :=
  ⟨h.valid, fun hi => h.framed (hi.suffix hj)⟩

/-- The same for elements that were appended. -/
structure GoodDoc (i : Bytes) (d : Doc) : Prop where
  valid : d.Framed → d.Valid
  framed : NulFree i → d.Framed

theorem GoodDoc.nil (i : Bytes) : GoodDoc i .nil := ⟨fun _ => trivial, fun _ => trivial⟩

theorem GoodDoc.mono {i j : Bytes} {d : Doc} (h : GoodDoc j d) (hj : j <:+ i) : GoodDoc i d :=
  ⟨h.valid, fun hi => h.framed (hi.suffix hj)⟩

theorem GoodDoc.append {i n : Bytes} {v : Option Value} {d : Doc} (hn : NulFree i → 0 ∉ n)
    (hv : ∀ w, v = some w → Good i w) (hd : GoodDoc i d) : GoodDoc i (append n v d) := by
  cases v with
  | none => exact hd
  | some w =>
    obtain ⟨hw, hw'⟩ := hv w rfl
    exact ⟨fun h => ⟨h.1, hw h.2.1, hd.valid h.2.2⟩, fun hi => ⟨hn hi, hw' hi, hd.framed hi⟩⟩

theorem GoodDoc.object {i : Bytes} {d : Doc} (h : GoodDoc i d) : Good i (.object d) :=
  ⟨h.valid, h.framed⟩

theorem GoodDoc.array {i : Bytes} {d : Doc} (h : GoodDoc i d) : Good i (.array d) :=
  ⟨h.valid, h.framed⟩

theorem good_regEx {i pat opt : Bytes} (hp : NulFree i → 0 ∉ pat) (ho : NulFree i → 0 ∉ opt) :
    Good i (.regEx pat opt) :=
  ⟨fun h => h, fun hi => ⟨hp hi, ho hi⟩⟩

theorem meets_regexOptCheck (opt i : Bytes) : Meets (regexOptCheck opt) i fun _ _ => True := by
  unfold regexOptCheck
  split
  · exact meets_pure trivial
  · exact meets_fail

theorem meets_regexObject (i : Bytes) : Meets regexObject i fun v _ => Good i v := by
  refine meets_expect (by decide) fun j hj _ => (meets_quotedString j).bind fun pat k hk hp => ?_
  have hp' : NulFree i → 0 ∉ pat := fun hi => hp.2 (hi.suffix hj)
  refine meets_ite_accept (by decide) (fun l hl _ => meets_expectField fun m hm => ?_)
    (meets_pure (good_regEx hp' fun _ => by simp))
  refine meets_expect (by decide) fun n hn _ => (meets_quotedString n).bind fun opt o _ ho => ?_
  refine (meets_regexOptCheck opt o).bind fun _ _ _ _ => meets_pure (good_regEx hp' fun hi => ?_)
  exact ho.2 (hi.suffix (hn.trans (hm.trans (hl.trans (hk.trans hj)))))

theorem meets_regex (i : Bytes) :
    Meets regex i fun v j => j.length < i.length ∧ Good i v := by
  refine meets_expect (by decide) fun j hj hlt => (meets_chars _ _ j).bind fun pat k hk hp => ?_
  refine meets_expect (by decide) fun l hl _ => (meets_chars _ _ l).bind fun opt m hm ho => ?_
  have hmj : m <:+ j := hm.trans (hl.trans hk)
  refine (meets_regexOptCheck opt m).bind fun _ o ho' _ => meets_pure ⟨?_, good_regEx ?_ ?_⟩
  · have := (ho'.trans hmj).length_le
    omega
  · exact fun hi => hp (hi.suffix hj)
  · exact fun hi => ho (hi.suffix (hl.trans (hk.trans hj)))

/-! ### Objects and arrays -/

/-- What a run of `value` promises: it consumes something, and what it appends is good. -/
def Consumes (i : Bytes) (v : Option Value) (j : Bytes) : Prop :=
  j.length < i.length ∧ ∀ w, v = some w → Good i w

theorem meets_refObject {ns i j : Bytes} {id : Option Value} (hid : ∀ w, id = some w → Good i w) :
    Meets (refObject ns id) j fun v _ => Good i v := by
  have hd : GoodDoc i (.cons (ascii "$ref") (.string (ns ++ [0])) (append (ascii "$id") id .nil)) :=
    GoodDoc.append (n := ascii "$ref") (v := some (.string (ns ++ [0]))) (fun _ => by decide)
      (fun w hw => Option.some.inj hw ▸ Good.of_valid (v := .string _) (terminated_append ns))
      (GoodDoc.append (n := ascii "$id") (fun _ => by decide) hid (GoodDoc.nil i))
  refine (meets_lift (Q := fun d _ => GoodDoc i d) fun d h => ?_).bind fun d _ _ h =>
    meets_pure h.object
  exact eq_of_done h ▸ hd

section containers
variable {value : JParse (Option Value)} {n : ℕ}
  (hvalue : ∀ i : Bytes, i.length < n → Meets value i (Consumes i))
include hvalue

theorem meets_dbRefObject {i : Bytes} (hi : i.length < n) :
    Meets (dbRefObject value) i fun v _ => Good i v := by
  refine meets_expect (by decide) fun j hj _ => (meets_quotedString j).bind fun ns k hk _ => ?_
  refine meets_expect (by decide) fun l hl _ => meets_expectField fun m hm => ?_
  refine meets_expect (by decide) fun o ho _ => ?_
  have hoi : o <:+ i := ho.trans (hm.trans (hl.trans (hk.trans hj)))
  refine (hvalue o (by have := hoi.length_le; omega)).bind fun id _ _ hid => ?_
  exact meets_refObject fun w hw => (hid.2 w hw).mono hoi

theorem meets_dbRef {i : Bytes} (hi : i.length < n) :
    Meets (dbRef value) i fun v _ => Good i v := by
  refine meets_expect (by decide) fun j hj _ => (meets_quotedString j).bind fun ns k hk _ => ?_
  refine meets_expect (by decide) fun l hl _ => ?_
  have hli : l <:+ i := hl.trans (hk.trans hj)
  refine (hvalue l (by have := hli.length_le; omega)).bind fun id m _ hid => ?_
  exact meets_expect (by decide) fun _ _ _ => meets_refObject fun w hw => (hid.2 w hw).mono hli

/-- The loop over the pairs: each round consumes a comma. -/
theorem meets_pairs : ∀ {k : ℕ} {i : Bytes}, i.length < k → i.length < n →
    Meets (pairs value k) i fun d _ => GoodDoc i d
  | 0, _, hk, _ => by omega
  | k + 1, i, hk, hn => by
    refine meets_ite_accept (by decide) (fun j hj hlt => ?_) (meets_pure (GoodDoc.nil i))
    refine (meets_field j).bind fun name l hl hname => meets_expect (by decide) fun m hm _ => ?_
    have hml : m.length ≤ l.length := hm.length_le
    have hlj : l.length ≤ j.length := hl.length_le
    have hmi : m <:+ i := hm.trans (hl.trans hj)
    refine (hvalue m (by omega)).bind fun v o ho hv => ?_
    refine (meets_pairs (i := o) (by have := hv.1; omega) (by have := hv.1; omega)).bind
      fun d _ _ hd => meets_pure ?_
    exact GoodDoc.append (fun hi => hname (hi.suffix hj)) (fun w hw => (hv.2 w hw).mono hmi)
      (hd.mono (ho.trans hmi))

theorem meets_special {firstField i : Bytes} {p : JParse Value} (hi : i.length < n)
    (hp : special value firstField = some p) : Meets p i fun v _ => Good i v := by
  unfold special at hp
  split_ifs at hp <;> injection hp with hp <;> subst hp
  · exact (meets_objectIdObject i).mono fun _ _ _ => Good.of_valid
  · exact (meets_binaryObject i).mono fun _ _ _ => Good.of_valid
  · exact (meets_dateObject i).mono fun _ _ _ => Good.of_valid
  · exact (meets_timestampObject i).mono fun _ _ _ => Good.of_valid
  · exact meets_regexObject i
  · exact meets_dbRefObject hvalue hi
  · exact (meets_undefinedObject i).mono fun _ _ _ => Good.of_valid

theorem meets_object {k : ℕ} (subObject : Bool) {i : Bytes} (hk : i.length ≤ k)
    (hn : i.length ≤ n) :
    Meets (object value k subObject) i fun v j => j.length < i.length ∧ Good i v := by
  refine meets_expect (by decide) fun j hj hlt => meets_ite_accept (by decide)
    (fun l hl hll => meets_pure ⟨by omega, (GoodDoc.nil i).object⟩) ?_
  refine (meets_field j).bind fun firstField l hl hname => ?_
  have hli : l <:+ i := hl.trans hj
  have hlj := hl.length_le
  cases hsp : special value firstField with
  | some p =>
    cases subObject with
    | false => exact meets_fail
    | true =>
      refine (meets_special hvalue (by omega) hsp).bind fun v m hm hv => ?_
      exact meets_expect (by decide) fun o ho _ => meets_pure
        ⟨by have := ho.length_le; have := hm.length_le; omega, hv.mono hli⟩
  | none =>
    refine meets_expect (by decide) fun m hm _ => ?_
    have hml := hm.length_le
    refine (hvalue m (by omega)).bind fun v o ho hv => ?_
    have hol := hv.1
    refine (meets_pairs hvalue (by omega) (by omega)).bind fun d q hq hd => ?_
    refine meets_expect (by decide) fun r hr _ => meets_pure ⟨?_, ?_⟩
    · have := hr.length_le
      have := hq.length_le
      omega
    · exact (GoodDoc.append (fun hi => hname (hi.suffix hj))
        (fun w hw => (hv.2 w hw).mono (hm.trans hli)) (hd.mono (ho.trans (hm.trans hli)))).object

/-- The loop over the elements of an array. -/
theorem meets_elements : ∀ {k : ℕ} (index : ℕ) {i : Bytes}, i.length < k → i.length < n →
    Meets (elements value k index) i fun d _ => GoodDoc i d
  | 0, _, _, hk, _ => by omega
  | k + 1, index, i, hk, hn => by
    refine (hvalue i hn).bind fun v j hj hv => ?_
    have hname : NulFree i → 0 ∉ decimal index := fun _ => zero_notMem_decimal index
    have hlt := hv.1
    refine meets_ite_accept (by decide) (fun l hl hlj => ?_)
      (meets_pure (GoodDoc.append hname hv.2 (GoodDoc.nil i)))
    refine (meets_elements (index + 1) (i := l) (by omega) (by omega)).bind fun d _ _ hd =>
      meets_pure (GoodDoc.append hname hv.2 (hd.mono (hl.trans hj)))

theorem meets_array {k : ℕ} {i : Bytes} (hk : i.length ≤ k) (hn : i.length ≤ n) :
    Meets (array value k) i fun v j => j.length < i.length ∧ Good i v := by
  have hend : ∀ {d : Doc} {j : Bytes}, GoodDoc i d → j.length < i.length →
      Meets (do let d ← lift (done d); expect RBRACKET "Expecting ']' or ','"; return .array d) j
        fun v l => l.length < i.length ∧ Good i v := by
    intro d j hd hj
    refine (meets_lift (Q := fun d _ => GoodDoc i d) fun d' h => ?_).bind fun d' l hl hd' => ?_
    · exact eq_of_done h ▸ hd
    · exact meets_expect (by decide) fun m _ hm => meets_pure
        ⟨by have := hl.length_le; omega, hd'.array⟩
  refine meets_expect (by decide) fun j hj hlt => meets_ite_peek (hend (GoodDoc.nil i) hlt) ?_
  refine (meets_elements hvalue 0 (i := j) (by omega) (by omega)).bind fun d l hl hd => ?_
  exact hend (hd.mono hj) (by have := hl.length_le; omega)

end containers

theorem Meets.some_of_good {p : JParse Value} {i j : Bytes} (hj : j <:+ i)
    (h : Meets p j fun v k => k.length < i.length ∧ Good j v) :
    Meets (do return some (← p)) j (Consumes i) :=
  h.bind fun _ _ _ hv => meets_pure ⟨hv.1, fun _ hw => Option.some.inj hw ▸ hv.2.mono hj⟩

/-- A value that follows a token. -/
theorem meets_after_token {p : JParse Value} {i j : Bytes} (hj : j <:+ i)
    (hlt : j.length < i.length)
    (h : Meets p j fun v _ => Good j v) : Meets (do return some (← p)) j (Consumes i) :=
  Meets.some_of_good hj (h.mono fun _ _ hk hv => ⟨hk.length_le.trans_lt hlt, hv⟩)

theorem meets_word {i j : Bytes} {v : Value} (hlt : j.length < i.length) (hv : v.Valid) :
    Meets (pure (some v) : JParse (Option Value)) j (Consumes i) :=
  meets_pure ⟨hlt, fun _ hw => Option.some.inj hw ▸ Good.of_valid hv⟩

/-- **Every run of `value` ends when the fuel exceeds the length of the text**, it consumes
something, and what it appends is good. -/
theorem meets_value (rt : Runtime) : ∀ {fuel : ℕ} {i : Bytes}, i.length < fuel →
    Meets (value rt fuel) i (Consumes i)
  | 0, _, h => by omega
  | fuel + 1, i, h => by
    have ih : ∀ j : Bytes, j.length < fuel → Meets (value rt fuel) j (Consumes j) :=
      fun j hj => meets_value rt hj
    have hstring : Meets (do return some (.string ((← quotedString) ++ [0]))) i (Consumes i) :=
      (meets_quotedString i).bind fun s j _ hs => meets_word hs.1 (terminated_append s)
    have hvalid : ∀ {p : JParse Value} {j : Bytes}, Meets p j (fun v _ => v.Valid) →
        Meets p j fun v _ => Good j v := fun hp => hp.mono fun _ _ _ => Good.of_valid
    refine meets_ite_peek
      (Meets.some_of_good (List.suffix_refl i) (meets_object ih true (by omega) (by omega))) ?_
    refine meets_ite_peek
      (Meets.some_of_good (List.suffix_refl i) (meets_array ih (by omega) (by omega))) ?_
    refine meets_ite_accept (by decide) (fun j hj hlt => (meets_constructor j).mono fun v k hk hv =>
      ⟨hk.length_le.trans_lt hlt, fun w hw => Good.of_valid (hv w hw)⟩) ?_
    refine meets_ite_accept (by decide)
      (fun j hj hlt => meets_after_token hj hlt (hvalid (meets_date j))) ?_
    refine meets_ite_accept (by decide)
      (fun j hj hlt => meets_after_token hj hlt (hvalid (meets_timestamp j))) ?_
    refine meets_ite_accept (by decide)
      (fun j hj hlt => meets_after_token hj hlt (hvalid (meets_objectId j))) ?_
    refine meets_ite_accept (by decide)
      (fun j hj hlt => meets_after_token hj hlt (meets_dbRef ih (by omega))) ?_
    refine meets_ite_accept (by decide)
      (fun j hj hlt => meets_after_token hj hlt (meets_dbRef ih (by omega))) ?_
    refine meets_ite_peek (Meets.some_of_good (List.suffix_refl i) (meets_regex i)) ?_
    refine meets_ite_peek hstring (meets_ite_peek hstring ?_)
    refine meets_ite_accept (by decide) (fun j _ hlt => meets_word hlt trivial) ?_
    refine meets_ite_accept (by decide) (fun j _ hlt => meets_word hlt trivial) ?_
    refine meets_ite_accept (by decide) (fun j _ hlt => meets_word hlt trivial) ?_
    refine meets_ite_accept (by decide) (fun j _ hlt => meets_word hlt trivial) ?_
    refine meets_ite_accept (by decide) (fun j _ hlt => meets_word hlt trivial) ?_
    refine meets_ite_accept (by decide) (fun j _ hlt => meets_word hlt trivial) ?_
    refine meets_ite_accept (by decide) (fun j _ hlt => meets_word hlt trivial) ?_
    exact Meets.some_of_good (List.suffix_refl i)
      ((meets_number rt i).mono fun _ _ _ hv => ⟨hv.1, Good.of_valid hv.2⟩)

/-! ### Documents -/

/-- The base object, with the fuel that `fromjson` gives it. -/
theorem meets_base (rt : Runtime) (s : Bytes) :
    Meets (object (value rt s.length) s.length false) s fun v j => j.length < s.length ∧ Good s v :=
  meets_object (fun _ hi => meets_value rt hi) false le_rfl le_rfl

theorem Good.basePairs {i : Bytes} {v : Value} (h : Good i v) : GoodDoc i (basePairs v) := by
  cases v
  case object d => exact ⟨h.valid, h.framed⟩
  all_goals exact GoodDoc.nil i

theorem fromjson_ok {rt : Runtime} {s : Bytes} {d : Doc} (h : fromjson rt s = .ok d) :
    GoodDoc s d ∧ d.bytes.length ≤ BSONObjMaxInternalSize := by
  unfold fromjson at h
  split_ifs at h
  · injection h with h
    subst h
    exact ⟨GoodDoc.nil s, by decide⟩
  · have hm := meets_base rt s
    cases ho : object (value rt s.length) s.length false s with
    | ok v j =>
      rw [ho] at h
      rcases hobj : obj (basePairs v) with e | d'
      · simp [hobj, Except.mapError] at h
      · simp only [hobj, Except.mapError, Except.ok.injEq] at h
        obtain ⟨rfl, hs⟩ := size_of_obj hobj
        exact h ▸ ⟨(hm.of_ok ho).2.2.basePairs, hs⟩
    | fail msg j => simp [ho] at h
    | throws e => simp [ho] at h
    | stuck => simp [ho] at h

/-- `bson_in` stores the bytes of the document that was parsed. -/
theorem bsonIn_ok {rt : Runtime} {s bs : Bytes} (h : bsonIn rt s = .ok bs) :
    ∃ d, fromjson rt (cstr s) = .ok d ∧ bs = d.bytes ∧ GoodDoc (cstr s) d ∧
      d.bytes.length ≤ BSONObjMaxInternalSize := by
  unfold bsonIn at h
  rcases hd : fromjson rt (cstr s) with e | d
  · simp [hd] at h
  · obtain ⟨hgood, hs⟩ := fromjson_ok hd
    have hb := returnBson_bytes hs []
    rw [List.append_nil] at hb
    simp only [hd, hb, Except.ok.injEq] at h
    exact ⟨d, rfl, h.symm, hgood, hs⟩

end PgBson.Json.Accepts
