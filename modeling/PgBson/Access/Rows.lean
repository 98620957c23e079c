import PgBson.Access.Unwind

/-! # Runs of `bson_unwind_array`

A run on an argument that keeps its contents ends, with the rows of the vector of the array
(`run_bytes`). From this follow what the rows are for arrays in the usual form
(`bsonUnwindArray_rows`), when a run is safe (`bsonUnwindArray_safe_iff`), and where the rows agree
with access by index (`bsonUnwindArray_indexed_iff`).

An argument whose contents change between the calls shows through in the rows, as the elements point
into it. Only a run that holds no element at all keeps to its own copy
(`bsonUnwindArray_determined_iff`). -/

namespace PgBson.Access.Rows

open PgBson.Lib.Memory PgBson.Lib.Decimal PgBson.Bson.Types PgBson.Bson.Document PgBson.Bson.Element
open PgBson.Bson.Decode PgBson.Compare.Hash PgBson.Access.Lookup PgBson.Access.ArrayVector
open PgBson.Access.Wrapper PgBson.Access.Walk PgBson.Access.Congruence PgBson.Access.Unwind
open PgBson.Json.Restore (Keyed)

/-! ### Rows -/

theorem rowDoc_valid {v : Value} (h : v.Valid) : (rowDoc v).Valid := by
  cases v <;> first | exact h | exact ⟨by simp, h, trivial⟩

theorem length_rowDoc_le (v : Value) : (rowDoc v).bytes.length ≤ v.bytes.length + 7 := by
  cases v <;> simp [rowDoc, descend, Value.bytes, Doc.elems]

/-- The memory under the pointer of a held element. -/
theorem deref_stands (toasted : Bool) {arg pre e : Bytes} (st : FuncCallContext)
    (hd : st.detoasted = arg) (ha : arg = pre ++ e) :
    st.deref arg (.into (if toasted then .detoasted else .argument) pre.length) = e := by
  have hdrop : (pre ++ e).drop pre.length = e := List.drop_left
  cases toasted
  · rw [if_neg (by simp), FuncCallContext.deref, ha, hdrop]
  · rw [if_pos rfl, FuncCallContext.deref, hd, ha, hdrop]

/-- **The row for a held element is the document of its value.** -/
theorem toReturn_elem {n : Bytes} {v : Value} (hn : 0 ∉ n) (hv : v.Valid)
    (hs : v.bytes.length + 7 ≤ BSONObjMaxInternalSize) (ref : Ref) (r : Bytes) :
    BSONElement.toReturn ⟨ref, n.length + 1, n.length + v.bytes.length + 2⟩ (elem n v r) =
      .ok (rowDoc v).bytes := by
  have hval : (elem n v r).drop (n.length + 1 + 1) = v.bytes ++ r := by
    rw [← value_elem hn, Bson.Element.value, fieldNameSize_elem hn]
  have hsize : (((n.length : ℤ) + v.bytes.length + 2) - ((n.length + 1 : ℕ) : ℤ) - 1).toNat =
      v.bytes.length := by
    push_cast
    omega
  have hrow := (length_rowDoc_le v).trans hs
  unfold BSONElement.toReturn
  simp only [hval, hsize, eoo_elem, Bool.false_eq_true, if_false, List.take_left']
  by_cases hobj : isABSONObj (elem n v r) = true
  · -- What is inside of an object or an array.
    have hb : v.bytes = (rowDoc v).bytes := by
      cases v <;> simp_all [isABSONObj, Value.type, rowDoc, descend, Value.bytes, Doc.bytes]
    rw [if_pos hobj, hb, bsonObj_bytes hrow]
    simp only [bind, Except.bind, pure, Except.pure, returnBson_bytes hrow]
  · have hd : rowDoc v = .cons [] v .nil := by
      cases v <;> first | rfl | exact (hobj (by simp [isABSONObj, Value.type])).elim
    have hf : frame ((elem n v r).take 1 ++ 0 :: v.bytes) = (rowDoc v).bytes ++ [] := by
      simp [hd, elem, Doc.bytes, Doc.elems]
    rw [if_neg hobj, Lookup.obj, hf, bsonObj_bytes hrow]
    simp only [bind, Except.bind, pure, Except.pure, returnBson_bytes hrow]

/-! ### Runs on an argument that keeps its contents -/

section run
variable (toasted : Bool) (path : Bytes) {arg : Bytes}

/-- One call on an element that is held. -/
theorem perCall_stands {st : FuncCallContext} {el : BSONElement} {v : Option Value}
    (hd : st.detoasted = arg) (hel : st.userFctx.array[st.callCntr]? = some el)
    (hst : Stands (if toasted then .detoasted else .argument) arg el v) :
    perCall arg st =
      match v with
      | none => .error .verifyFailed
      | some v => .ok (some ((rowDoc v).bytes, { st with callCntr := st.callCntr + 1 })) := by
  have hlt : st.callCntr < st.userFctx.array.length := (List.getElem?_eq_some_iff.mp hel).1
  rw [perCall, if_neg hlt.ne, hel]
  rcases v with _ | v
  · obtain rfl : el = .default := hst
    rfl
  · obtain ⟨pre, n, r, hn, hv, hs, ha, rfl⟩ := hst
    simp only [deref_stands toasted st hd ha, toReturn_elem hn hv hs, bind, Except.bind, pure,
      Except.pure]

/-- A run goes through the elements that are left. -/
theorem run_stands : ∀ {vs : List (Option Value)} {rest : List BSONElement} {st : FuncCallContext}
    {before : List BSONElement} {i : ℕ}, st.detoasted = arg →
    st.userFctx.array = before ++ rest → st.callCntr = before.length →
    List.Forall₂ (Stands (if toasted then .detoasted else .argument) arg) rest vs →
    run toasted path (fun _ => arg) (vs.length + 1) i (some st) = some (rowsOf vs)
  | [], [], st, before, i, _, ha, hc, _ => by
    have hend : perCall arg st = .ok none := by
      rw [perCall, if_pos (by rw [ha, hc, List.append_nil])]
    simp only [run, bsonUnwindArray, pure, Except.pure, bind, Except.bind, hend, rowsOf]
  | v :: vs, el :: rest, st, before, i, hd, ha, hc, .cons hst hsts => by
    have hel : st.userFctx.array[st.callCntr]? = some el := by
      rw [ha, hc, List.getElem?_append_right le_rfl, Nat.sub_self]
      rfl
    have hcall := perCall_stands toasted hd hel hst
    rw [run]
    simp only [bsonUnwindArray, pure, Except.pure, bind, Except.bind, hcall]
    rcases v with _ | v
    · rfl
    · have ih : run toasted path (fun _ => arg) (vs.length + 1) (i + 1)
          (some { st with callCntr := st.callCntr + 1 }) = some (rowsOf vs) :=
        run_stands hd (show _ = (before ++ [el]) ++ rest by simp [ha]) (by simp [hc]) hsts
      rw [List.length_cons]
      simp only [ih, Option.map_some, rowsOf]

end run

/-- **A run on an argument that keeps its contents ends, with the rows of the path.** -/
theorem run_bytes (toasted : Bool) (a : Stored) (r path : Bytes) :
    ∃ fuel, run toasted path (fun _ => a.bytes ++ r) fuel 0 none = some (rowsAt a.doc path) := by
  rw [rowsAt]
  rcases firstCall_bytes toasted a r path with ⟨x, hf, hs⟩ | ⟨els, vs, hf, hs, hst⟩
  · refine ⟨1, ?_⟩
    simp only [run, bsonUnwindArray, hf, hs, bind, Except.bind]
  · refine ⟨vs.length + 1, ?_⟩
    have hrun : run toasted path (fun _ => a.bytes ++ r) (vs.length + 1) 0
        (some ⟨0, ⟨els, a.bytes⟩, a.bytes ++ r⟩) = some (rowsOf vs) :=
      run_stands toasted path rfl (List.nil_append els).symm rfl hst
    rw [hs]
    simp only [bind, Except.bind]
    rw [← hrun, run, run]
    simp only [bsonUnwindArray, hf, bind, Except.bind, pure, Except.pure]

/-! ### Arrays in the usual form -/

mutual

/-- Arrays inside of the value are keyed `0`, `1`, … and have at most a million elements. -/
def ArraysKeyed : Value → Prop
  | .array d => Keyed 0 d ∧ count d ≤ 1000000 ∧ DocArraysKeyed d
  | .object d => DocArraysKeyed d
  | _ => True

/-- The same for the values of a document. -/
def DocArraysKeyed : Doc → Prop
  | .nil => True
  | .cons _ v d => ArraysKeyed v ∧ DocArraysKeyed d

end

theorem find_keyedArrays : ∀ {d : Doc} {name : Bytes} {v : Value}, DocArraysKeyed d →
    find d name = some v → ArraysKeyed v
  | .cons n w d, name, v, hd, h => by
    rw [find] at h
    split_ifs at h with hn
    · obtain rfl := Option.some.inj h
      exact hd.1
    · exact find_keyedArrays hd.2 h

theorem fields_keyedArrays {v : Value} (h : ArraysKeyed v) : DocArraysKeyed (fields v) := by
  cases v with
  | object d => exact h
  | array d => exact h.2.2
  | _ => trivial

theorem findDotted_keyedArrays {fuel : ℕ} {d : Doc} {name : Bytes} {v : Value}
    (hd : DocArraysKeyed d) (h : findDotted fuel d name = some v) : ArraysKeyed v :=
  findDotted_induct find_keyedArrays fields_keyedArrays hd h

theorem rowsOf_values : ∀ vs : List Value,
    rowsOf (vs.map some) = .ok (vs.map fun v => (rowDoc v).bytes)
  | [] => rfl
  | v :: vs => by simp [rowsOf, rowsOf_values vs, Except.map]

/-- The rows of an array in the usual form are its values in their order. -/
theorem rowsAt_keyed {d : Doc} {path : Bytes} {e : Doc} (h : valueAt d path = some (.array e))
    (hk : Keyed 0 e) (hc : count e ≤ 1000000) :
    rowsAt d path = .ok ((values e).map fun v => (rowDoc v).bytes) := by
  rw [rowsAt, slotsAt, h]
  simp only [slots_keyed hk hc, bind, Except.bind, rowsOf_values]

/-- Outside of arrays there is one row or none. -/
theorem rowsAt_of_ne_array {d : Doc} {path : Bytes} (h : ∀ e, valueAt d path ≠ some (.array e)) :
    rowsAt d path = .ok ((valueAt d path).toList.map fun v => (rowDoc v).bytes) := by
  rw [rowsAt, slotsAt]
  rcases hv : valueAt d path with _ | v
  · rfl
  · cases v <;> first | rfl | exact (h _ hv).elim

/-- **Unwinding loses, duplicates and reorders nothing**: on a document whose arrays are in the
usual form the run ends after as many rows as `bson_array_size` counts, and the rows of an array are
its elements in their order. -/
theorem bsonUnwindArray_rows (toasted : Bool) (a : Stored) (ha : DocArraysKeyed a.doc)
    (r path : Bytes) :
    ∃ fuel rows size, run toasted path (fun _ => a.bytes ++ r) fuel 0 none = some (.ok rows) ∧
      bsonArraySize (a.bytes ++ r) path = .ok size ∧ (rows.length : ℤ) = size.getD 0 ∧
      ∀ d, valueAt a.doc path = some (.array d) →
        rows = (values d).map fun v => (rowDoc v).bytes := by
  obtain ⟨fuel, hrun⟩ := run_bytes toasted a r path
  have hsize := bsonArraySize_bytes a r path
  by_cases harr : ∃ d, valueAt a.doc path = some (.array d)
  · obtain ⟨d, hd⟩ := harr
    obtain ⟨hk, hc, -⟩ : ArraysKeyed (.array d) := findDotted_keyedArrays ha hd
    rw [rowsAt_keyed hd hk hc] at hrun
    rw [hd] at hsize
    refine ⟨fuel, _, _, hrun, hsize, by simp [Lookup.sizeOf], fun d' hd' => ?_⟩
    obtain rfl := Value.array.inj (Option.some.inj (hd.symm.trans hd'))
    rfl
  · have hne : ∀ e, valueAt a.doc path ≠ some (.array e) := fun e he => harr ⟨e, he⟩
    rw [rowsAt_of_ne_array hne] at hrun
    refine ⟨fuel, _, _, hrun, hsize, ?_, fun d hd => (hne d hd).elim⟩
    rcases hv : valueAt a.doc path with _ | v
    · rfl
    · have h1 : Lookup.sizeOf v = 1 := by
        cases v <;> first | rfl | exact (hne _ hv).elim
      simp [h1]

/-- `{"a": [1, x]}`. -/
def pairDoc (x : BitVec 32) : Stored where
  doc := .cons (ascii "a")
    (.array (.cons (ascii "0") (.numberInt 1) (.cons (ascii "1") (.numberInt x) .nil))) .nil
  valid := ⟨by decide, ⟨by decide, trivial, by decide, trivial, trivial⟩, trivial⟩
  size := le_of_eq_of_le (show _ = 27 from rfl) (by decide)

/-- The elements of the array. -/
def pairValues (x : BitVec 32) : Doc :=
  .cons (ascii "0") (.numberInt 1) (.cons (ascii "1") (.numberInt x) .nil)

theorem keyed_pairValues (x : BitVec 32) : Keyed 0 (pairValues x) := ⟨rfl, rfl, trivial⟩

theorem valueAt_pairDoc (x : BitVec 32) :
    valueAt (pairDoc x).doc (ascii "a") = some (.array (pairValues x)) := rfl

theorem bsonUnwindArray_rows_pairDoc :
    DocArraysKeyed (pairDoc 2).doc ∧
    ∃ fuel rows, run false (ascii "a") (fun _ => (pairDoc 2).bytes ++ []) fuel 0 none =
        some (.ok rows) ∧
      bsonArraySize ((pairDoc 2).bytes ++ []) (ascii "a") = .ok (some 2) ∧ rows.length = 2 ∧
      rows =
        [Doc.bytes (.cons [] (.numberInt 1) .nil), Doc.bytes (.cons [] (.numberInt 2) .nil)] := by
  have h : DocArraysKeyed (pairDoc 2).doc :=
    ⟨⟨keyed_pairValues 2, by decide, trivial, trivial, trivial⟩, trivial⟩
  obtain ⟨fuel, rows, size, hrun, hsize, hlen, hrows⟩ :=
    bsonUnwindArray_rows false (pairDoc 2) h [] (ascii "a")
  have hrows := hrows _ (valueAt_pairDoc 2)
  have hsize2 : bsonArraySize ((pairDoc 2).bytes ++ []) (ascii "a") = .ok (some 2) := by
    rw [bsonArraySize_bytes]
    rfl
  exact ⟨h, fuel, rows, hrun, hsize2, by rw [hrows]; rfl, hrows⟩

/-! ### Any arrays -/

theorem rowsOf_ok_iff : ∀ {vs : List (Option Value)}, (∃ rows, rowsOf vs = .ok rows) ↔ none ∉ vs
  | [] => by simp [rowsOf]
  | none :: vs => by simp [rowsOf]
  | some v :: vs => by
    have ih : (∃ rows, rowsOf vs = .ok rows) ↔ none ∉ vs := rowsOf_ok_iff
    rw [List.mem_cons, not_or]
    simp only [reduceCtorEq, not_false_eq_true, true_and, ← ih, rowsOf]
    rcases rowsOf vs with x | rows <;> simp [Except.map]

theorem rowsOf_wellFormed : ∀ {vs : List (Option Value)} {rows : List Bytes},
    (∀ v ∈ vs, Sound v) → rowsOf vs = .ok rows → ∀ w ∈ rows, WellFormed w
  | [], rows, _, h => by
    obtain rfl := Except.ok.inj h
    simp
  | none :: vs, rows, _, h => by cases h
  | some v :: vs, rows, hv, h => by
    rw [rowsOf] at h
    rcases hr : rowsOf vs with x | rows'
    · rw [hr] at h
      cases h
    rw [hr] at h
    obtain rfl := Except.ok.inj h
    obtain ⟨hvalid, hsize⟩ := hv _ List.mem_cons_self v rfl
    have hrow := rowDoc_valid hvalid
    intro w hw
    rcases List.mem_cons.mp hw with rfl | hw
    · exact (wellFormed_bytes_iff hrow.framed).mpr ⟨(length_rowDoc_le v).trans hsize, hrow⟩
    · exact rowsOf_wellFormed (fun u hu => hv u (List.mem_cons_of_mem _ hu)) hr w hw

/-- **A run always ends. It ends without an exception, after well-formed rows, exactly when the path
does not lead to an array, or to one whose numeric names are below a million and leave no gap.** -/
theorem bsonUnwindArray_safe_iff (toasted : Bool) (a : Stored) (r path : Bytes) :
    ∃ fuel res, run toasted path (fun _ => a.bytes ++ r) fuel 0 none = some res ∧
      ((∃ rows, res = .ok rows ∧ ∀ w ∈ rows, WellFormed w) ↔
        ∀ d, valueAt a.doc path = some (.array d) →
          (∀ u ∈ positions d, u < 1000000) ∧ Gapless d) := by
  obtain ⟨fuel, hrun⟩ := run_bytes toasted a r path
  refine ⟨fuel, _, hrun, ?_⟩
  have hwf : ∀ rows, rowsAt a.doc path = .ok rows → ∀ w ∈ rows, WellFormed w := by
    intro rows hrows
    rw [rowsAt] at hrows
    rcases hs : slotsAt a.doc path with x | vs
    · rw [hs] at hrows
      cases hrows
    · rw [hs] at hrows
      exact rowsOf_wellFormed (slotsAt_sound a hs) hrows
  have hok : (∃ rows, rowsAt a.doc path = .ok rows ∧ ∀ w ∈ rows, WellFormed w) ↔
      ∃ rows, rowsAt a.doc path = .ok rows :=
    ⟨fun ⟨rows, h, _⟩ => ⟨rows, h⟩, fun ⟨rows, h⟩ => ⟨rows, h, hwf rows h⟩⟩
  rw [hok]
  by_cases harr : ∃ d, valueAt a.doc path = some (.array d)
  · obtain ⟨d, hd⟩ := harr
    have hslots : slotsAt a.doc path = slots d := by rw [slotsAt, hd]
    have hone : (∀ e, valueAt a.doc path = some (.array e) →
        (∀ u ∈ positions e, u < 1000000) ∧ Gapless e) ↔
        (∀ u ∈ positions d, u < 1000000) ∧ Gapless d := by
      constructor
      · exact fun h => h d hd
      · intro h e he
        obtain rfl := Value.array.inj (Option.some.inj (hd.symm.trans he))
        exact h
    rw [hone, ← slotsFrom_ok_iff (s := []), rowsAt, hslots, slots]
    rcases hs : slotsFrom d [] with x | vs
    · simp [bind, Except.bind]
    · simp only [bind, Except.bind, Except.ok.injEq, exists_eq', true_and]
      rw [rowsOf_ok_iff, slots_full_iff hs]
  · have hne : ∀ e, valueAt a.doc path ≠ some (.array e) := fun e he => harr ⟨e, he⟩
    rw [rowsAt_of_ne_array hne]
    exact iff_of_true ⟨_, rfl⟩ fun d hd => (hne d hd).elim

/-- `{"a": [...]}` with an array whose only element has the name `1`. -/
def gapDoc : Stored where
  doc := .cons (ascii "a") (.array (.cons (ascii "1") .jstNULL .nil)) .nil
  valid := by decide
  size := by decide

/-- The first row is the default element, which cannot be appended. -/
theorem bsonUnwindArray_gapDoc_fails :
    WellFormed gapDoc.bytes ∧
    run false (ascii "a") (fun _ => gapDoc.bytes) 1 0 none = some (.error .verifyFailed) :=
  ⟨by decide, rfl⟩

/-! ### Access by index -/

theorem rowDoc_of_ne_array {v : Value} (h : ∀ e, v ≠ .array e) : rowDoc v = asDoc v := by
  cases v <;> first | rfl | exact (h _ rfl).elim

/-- The row of a value is the document that `bson_get_bson` makes of it, unless it is an array. -/
theorem bytes_rowDoc_eq_iff (v : Value) :
    (rowDoc v).bytes = (asDoc v).bytes ↔ ∀ e, v ≠ .array e := by
  constructor
  · rintro h e rfl
    have hl := congrArg List.length h
    simp [rowDoc, descend, asDoc, Value.bytes, Doc.elems] at hl
  · intro h
    rw [rowDoc_of_ne_array h]

/-- The value under an index is the element of the array. -/
theorem valueAt_index {d e : Doc} (hd : Dotless d) {path : Bytes} (hp : 0 ∉ path)
    (h : valueAt d path = some (.array e)) (hk : Keyed 0 e) (i : ℕ) :
    valueAt d (path ++ 46 :: decimal i) = (values e)[i]? := by
  have hdot : 46 ∉ decimal i := fun hm => by
    have := isdigit_of_mem_decimal hm
    simp [isdigit] at this
  have hw : walk d (segments path) = some (.array e) := valueAt_eq_walk hd hp ▸ h
  have hde : Dotless e := descend_dotless (walk_dotless hd hw) rfl
  have hnul := zero_notMem_decimal i
  rw [valueAt_append hd hp hnul h rfl, valueAt_eq_walk hde hnul, segments_of_notMem hdot, walk,
    find_keyed hk (Nat.zero_le i), Nat.sub_zero]

/-- **The rows of an array agree with access by index exactly in the elements that are no
arrays.** -/
theorem bsonUnwindArray_indexed_iff (toasted : Bool) (a : Stored) (ha : Dotless a.doc)
    (r path : Bytes) (hp : 0 ∉ path) (d : Doc) (hd : valueAt a.doc path = some (.array d))
    (hk : Keyed 0 d) (hc : count d ≤ 1000000) (i : ℕ) (hi : i < count d) :
    ∃ fuel rows w u, run toasted path (fun _ => a.bytes ++ r) fuel 0 none = some (.ok rows) ∧
      rows[i]? = some w ∧ bsonGetBson (a.bytes ++ r) (path ++ 46 :: decimal i) = .ok (some u) ∧
      ((∀ s s', bsonBinaryEqual (w ++ s) (u ++ s') = .ok true) ↔
        ∀ e, (values d)[i]? ≠ some (.array e)) := by
  obtain ⟨fuel, hrun⟩ := run_bytes toasted a r path
  rw [rowsAt_keyed hd hk hc] at hrun
  obtain ⟨v, hv⟩ : ∃ v, (values d)[i]? = some v :=
    ⟨_, List.getElem?_eq_getElem (by rwa [length_values])⟩
  have hat : valueAt a.doc (path ++ 46 :: decimal i) = some v := by
    rw [valueAt_index ha hp hd hk, hv]
  have hfit : Fits a.doc.bytes.length v := findDotted_fits a.valid hat
  have hsv : v.bytes.length + 7 ≤ BSONObjMaxInternalSize := hfit.size.trans a.size
  refine ⟨fuel, _, (rowDoc v).bytes, (asDoc v).bytes, hrun, by simp [hv], ?_, ?_⟩
  · rw [bsonGetBson_bytes, hat]
    rfl
  · have heq := fun s s' => bsonBinaryEqual_docs ((length_rowDoc_le v).trans hsv)
      ((length_asDoc_le v).trans hsv) s s'
    simp only [heq, hv, Except.ok.injEq, decide_eq_true_eq, forall_const, bytes_rowDoc_eq_iff,
      ne_eq, Option.some.injEq]

theorem bsonUnwindArray_indexed_pairDoc :
    Dotless (pairDoc 2).doc ∧ Keyed 0 (pairValues 2) ∧
    rowsAt (pairDoc 2).doc (ascii "a") = .ok
      [Doc.bytes (.cons [] (.numberInt 1) .nil), Doc.bytes (.cons [] (.numberInt 2) .nil)] ∧
    ∃ fuel rows w u,
      run true (ascii "a") (fun _ => (pairDoc 2).bytes ++ []) fuel 0 none = some (.ok rows) ∧
      rows[1]? = some w ∧
      bsonGetBson ((pairDoc 2).bytes ++ []) (ascii "a" ++ 46 :: decimal 1) = .ok (some u) ∧
      ∀ s s', bsonBinaryEqual (w ++ s) (u ++ s') = .ok true := by
  have ha : Dotless (pairDoc 2).doc :=
    ⟨by decide, ⟨by decide, trivial, by decide, trivial, trivial⟩, trivial⟩
  obtain ⟨fuel, rows, w, u, hrun, hw, hu, hiff⟩ :=
    bsonUnwindArray_indexed_iff true (pairDoc 2) ha []
    (ascii "a") (by decide) _ (valueAt_pairDoc 2) (keyed_pairValues 2) (by decide) 1 (by decide)
  exact ⟨ha, keyed_pairValues 2, rfl, fuel, rows, w, u, hrun, hw, hu,
    hiff.mpr fun e h => by cases h⟩

/-- `{"a": [[]]}`. -/
def matrixDoc : Stored where
  doc := .cons (ascii "a") (.array (.cons (ascii "0") (.array .nil) .nil)) .nil
  valid := by decide
  size := by decide

/-- The row is an empty document, the element by index is an array in a wrapper. -/
theorem matrixDoc_row_ne_index :
    ∃ w u, run false (ascii "a") (fun _ => matrixDoc.bytes) 2 0 none = some (.ok [w]) ∧
      bsonGetBson matrixDoc.bytes (ascii "a.0") = .ok (some u) ∧
      bsonBinaryEqual w u = .ok false :=
  ⟨_, _, rfl, rfl, by decide⟩

/-! ### Arguments that change -/

/-- The states of a run in which the argument has the contents `args i` at call `i`: after the setup
of the first call, and behind each row. -/
inductive Reachable (toasted : Bool) (path : Bytes) (args : ℕ → Bytes) : ℕ → FuncCallContext → Prop
  | first {st : FuncCallContext} (h : firstCall toasted path (args 0) = .ok st) :
    Reachable toasted path args 0 st
  | next {i : ℕ} {st st' : FuncCallContext} {row : Bytes} (hr : Reachable toasted path args i st)
    (h : perCall (args i) st = .ok (some (row, st'))) : Reachable toasted path args (i + 1) st'

/-- Every element that is held points into the deep copy. -/
def OwnCopy (st : FuncCallContext) : Prop :=
  ∀ el ∈ st.userFctx.array, ∃ offset, el.data = .into .deepCopy offset

/-- The path leads nowhere, or to an array of which no element is held: none of its names is a
number, or one is too large. -/
def Unheld (d : Doc) (path : Bytes) : Prop :=
  ∀ v, valueAt d path = some v →
    ∃ e, v = .array e ∧ (positions e = [] ∨ ∃ u ∈ positions e, 1000000 ≤ u)

/-- A call does not touch the context. -/
theorem perCall_userFctx {arg row : Bytes} {st st' : FuncCallContext}
    (h : perCall arg st = .ok (some (row, st'))) : st'.userFctx = st.userFctx := by
  unfold perCall at h
  split_ifs at h with hc
  · cases h
  split at h
  · cases h
  · next el hel =>
    rcases hr : el.toReturn (st.deref arg el.data) with x | w
    · simp [hr, bind, Except.bind] at h
    · simp only [hr, bind, Except.bind, pure, Except.pure, Except.ok.injEq, Option.some.injEq,
        Prod.mk.injEq] at h
      rw [← h.2]

/-- **The context of a run is that of its first call.** -/
theorem Reachable.userFctx {toasted : Bool} {path : Bytes} {args : ℕ → Bytes} {i : ℕ}
    {st : FuncCallContext} (h : Reachable toasted path args i st) :
    ∃ st₀, firstCall toasted path (args 0) = .ok st₀ ∧ st.userFctx = st₀.userFctx := by
  induction h with
  | first h => exact ⟨_, h, rfl⟩
  | next _ h ih =>
    obtain ⟨st₀, h₀, hu⟩ := ih
    exact ⟨st₀, h₀, (perCall_userFctx h).trans hu⟩

/-- No held element points into the deep copy. -/
theorem not_deepCopy_of_stands {toasted : Bool} {arg : Bytes} {el : BSONElement} {v : Option Value}
    (h : Stands (if toasted then .detoasted else .argument) arg el v) (offset : ℕ) :
    el.data ≠ .into .deepCopy offset := by
  rcases v with _ | v
  · obtain rfl : el = .default := h
    exact Ref.noConfusion
  · obtain ⟨pre, n, r, -, -, -, -, rfl⟩ := h
    intro he
    have hb := (Ref.into.inj he).1
    cases toasted <;> cases hb

/-- Nothing is held exactly when the vector is empty or cannot be built. -/
theorem unheld_iff (a : Stored) (path : Bytes) :
    Unheld a.doc path ↔ ∀ vs, slotsAt a.doc path = .ok vs → vs = [] := by
  unfold Unheld slotsAt
  rcases valueAt a.doc path with _ | v
  · simp
  have hone : (∀ e, v ≠ .array e) → (¬ ∃ e, v = .array e ∧
      (positions e = [] ∨ ∃ u ∈ positions e, 1000000 ≤ u)) := fun h ⟨e, he, _⟩ => h e he
  simp only [Option.some.injEq, forall_eq']
  cases v with
  | array d =>
    simp only [Value.array.injEq, exists_eq_left']
    constructor
    · rintro (hp | ⟨u, hu, hle⟩) vs hvs
      · exact (slots_nil_iff hvs).mpr hp
      · exact absurd (slotsFrom_ok_iff.mp ⟨vs, hvs⟩ u hu) (by omega)
    · intro h
      by_cases hs : ∃ vs, slots d = .ok vs
      · obtain ⟨vs, hvs⟩ := hs
        exact Or.inl ((slots_nil_iff hvs).mp (h vs hvs))
      · right
        by_contra hc
        exact hs (slotsFrom_ok_iff.mpr fun u hu => not_le.mp fun hle => hc ⟨u, hu, hle⟩)
  | _ =>
    refine iff_of_false (hone (by intro e; exact Value.noConfusion)) fun h => ?_
    exact absurd (h _ rfl) (by simp)

/-- **A run keeps to its own copy, and returns the rows of the document of its first call whatever
happens to the argument, exactly when it holds no element at all.** -/
theorem bsonUnwindArray_determined_iff (toasted : Bool) (a : Stored) (r path : Bytes) :
    (∀ args : ℕ → Bytes, args 0 = a.bytes ++ r →
      (∀ i st, Reachable toasted path args i st → OwnCopy st) ∧
      ∃ fuel, run toasted path args fuel 0 none = some (rowsAt a.doc path)) ↔
    Unheld a.doc path := by
  rw [unheld_iff]
  rcases firstCall_bytes toasted a r path with ⟨x, hf, hs⟩ | ⟨els, vs, hf, hs, hst⟩
  · -- The first call ends in an exception, and there is no state.
    rw [rowsAt, hs]
    refine iff_of_true (fun args h0 => ⟨fun i st hr => ?_, 1, ?_⟩) fun vs h => by cases h
    · obtain ⟨st₀, h₀, -⟩ := hr.userFctx
      rw [h0, hf] at h₀
      cases h₀
    · simp only [run, bsonUnwindArray, h0, hf, bind, Except.bind]
  · rw [rowsAt, hs]
    constructor
    · intro h ws hws
      obtain rfl := Except.ok.inj hws
      have hown := (h (fun _ => a.bytes ++ r) rfl).1 0 _ (.first hf)
      cases hst with
      | nil => rfl
      | cons hel _ =>
        obtain ⟨offset, ho⟩ := hown _ List.mem_cons_self
        exact (not_deepCopy_of_stands hel offset ho).elim
    · intro h args h0
      obtain rfl := h vs rfl
      cases hst
      refine ⟨fun i st hr => ?_, 1, ?_⟩
      · obtain ⟨st₀, h₀, hu⟩ := hr.userFctx
        rw [h0, hf] at h₀
        obtain rfl := Except.ok.inj h₀
        rw [OwnCopy, hu]
        simp
      · simp only [run, bsonUnwindArray, h0, hf, bind, Except.bind, perCall, List.length_nil,
          if_true, rowsOf]

/-- The argument is overwritten after the first row, and the second row shows it. -/
theorem pairDoc_second_row_changes :
    run false (ascii "a") (fun i => if i = 0 then (pairDoc 2).bytes else (pairDoc 3).bytes)
        3 0 none =
      some (rowsAt (pairDoc 3).doc (ascii "a")) ∧
    rowsAt (pairDoc 3).doc (ascii "a") ≠ rowsAt (pairDoc 2).doc (ascii "a") :=
  ⟨rfl, by decide⟩

end PgBson.Access.Rows
