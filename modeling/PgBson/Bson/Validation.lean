import PgBson.Bson.Validate

/-! # What the validator accepts

Every valid document is accepted, whatever lies behind it (`valid_stored`). Where the counts that
the loop of `validateBSON` meets make sense (`Sensible`) it ends, and nothing else is accepted
(`valid_iff`). A count that leads back to its own element keeps the loop running for ever when the
byte in front of the element is zero (`valid_back`).

The stack of frames mirrors the nesting of the document, so both directions go along the document,
with the frames below left alone. -/

namespace PgBson.Bson.Validation

open PgBson.Lib.Memory PgBson.Lib.Machine PgBson.Bson.Types PgBson.Bson.Document
open PgBson.Bson.Element (objsize objsize_bytes)
open PgBson.Bson.Validate

/-! ### Rounds -/

/-- The frame that is pushed at a position. -/
def opened (b : Buffer) (n : ℕ) (isCodeWithScope : Bool) : Frame :=
  ⟨b.position % 2 ^ 31, isCodeWithScope, (BitVec.ofNat 32 n).toInt⟩

/-- The rounds of the loop. -/
inductive Round : Machine → Machine → Prop
  | begin {b c d fs n st} (hn : b.readNumber 4 = some (n, c))
      (hc : validateElementInfo c = .ok (d, st)) :
      Round ⟨b, fs, .beginObj⟩ ⟨d, opened b n false :: fs, st⟩
  | within {b c fs st} (hb : validateElementInfo b = .ok (c, st)) :
      Round ⟨b, fs, .withinObj⟩ ⟨c, fs, st⟩
  | last {b f} (h : actualLength b f = f.expectedSize) : Round ⟨b, [f], .endObj⟩ ⟨b, [], .done⟩
  | close {b f g fs} (h : actualLength b f = f.expectedSize) : Round ⟨b, f :: g :: fs, .endObj⟩
      ⟨b, g :: fs, if g.isCodeWithScope then .endCodeWScope else .withinObj⟩
  | beginCode {b c d fs n} (hn : b.readNumber 4 = some (n, c)) (hc : c.readUTF8String = .ok d) :
      Round ⟨b, fs, .beginCodeWScope⟩ ⟨d, opened b n true :: fs, .beginObj⟩
  | endCode {b f g fs} (h : actualLength b f = f.expectedSize) :
      Round ⟨b, f :: g :: fs, .endCodeWScope⟩ ⟨b, g :: fs, .withinObj⟩

section rounds
variable {b c : Buffer} {f : Frame} {fs : List Frame} {n : ℕ} {m m' : Machine}

theorem Round.step (h : Round m m') : step m = .inr m' := by
  cases h with
  | begin hn hc => simp [Validate.step, iteration, push, hn, Validate.within, hc, opened, bind,
      Except.bind, pure, Except.pure]
  | within hb =>
    simp [Validate.step, iteration, Validate.within, hb, bind, Except.bind, pure, Except.pure]
  | last h => simp [Validate.step, iteration, h]
  | close h => simp [Validate.step, iteration, h]
  | beginCode hn hc =>
    simp [Validate.step, iteration, push, hn, hc, opened, bind, Except.bind, pure, Except.pure]
  | endCode h => simp [Validate.step, iteration, h]

theorem exists_within (h : within b fs = .ok m) :
    ∃ c st, validateElementInfo b = .ok (c, st) ∧ m = ⟨c, fs, st⟩ := by
  obtain ⟨⟨c, st⟩, hc, hm⟩ := exists_ok_of_bind h
  exact ⟨c, st, hc, (Except.ok.inj hm).symm⟩

theorem exists_push {code : Bool} (h : push b code = some (f, c)) :
    ∃ n, b.readNumber 4 = some (n, c) ∧ f = opened b n code := by
  simp only [push, Option.map_eq_some_iff, Prod.mk.injEq, Prod.exists] at h
  obtain ⟨n, _, hn, rfl, rfl⟩ := h
  exact ⟨n, hn, rfl⟩

/-- The loop does nothing else. -/
theorem round_of_step (h : step m = .inr m') : Round m m' := by
  obtain ⟨b, fs, st⟩ := m
  have hround : st ≠ .done ∧ iteration ⟨b, fs, st⟩ = .ok m' := by
    simp only [step] at h
    split_ifs at h with hst
    refine ⟨hst, ?_⟩
    split at h
    · cases h
    · rename_i heq
      rw [heq, Sum.inr.inj h]
  obtain ⟨hst, h⟩ := hround
  cases st with
  | done => exact absurd rfl hst
  | beginObj =>
    simp only [iteration] at h
    cases hp : push b false with
    | none => simp only [hp, reduceCtorEq] at h
    | some p =>
      simp only [hp] at h
      obtain ⟨n, hn, hf⟩ := exists_push hp
      obtain ⟨c, st, hc, rfl⟩ := exists_within h
      rw [hf]
      exact .begin hn hc
  | withinObj =>
    obtain ⟨c, st, hc, rfl⟩ := exists_within h
    exact .within hc
  | endObj =>
    match fs, h with
    | [f], h =>
      simp only [iteration] at h
      split_ifs at h with hlen
      rw [← Except.ok.inj h]
      exact .last (not_not.mp hlen)
    | f :: g :: fs, h =>
      simp only [iteration] at h
      split_ifs at h with hlen hg
      all_goals
        rw [← Except.ok.inj h]
        have : Round ⟨b, f :: g :: fs, .endObj⟩ _ := .close (not_not.mp hlen)
        simpa [hg] using this
  | beginCodeWScope =>
    simp only [iteration] at h
    cases hp : push b true with
    | none => simp only [hp, reduceCtorEq] at h
    | some p =>
      simp only [hp] at h
      obtain ⟨n, hn, hf⟩ := exists_push hp
      obtain ⟨d, hd, hm⟩ := exists_ok_of_bind h
      rw [← Except.ok.inj hm, hf]
      exact .beginCode hn hd
  | endCodeWScope =>
    match fs, h with
    | [f], h =>
      simp only [iteration] at h
      split_ifs at h
    | f :: g :: fs, h =>
      simp only [iteration] at h
      split_ifs at h with hlen
      rw [← Except.ok.inj h]
      exact .endCode (not_not.mp hlen)

/-- The case `BeginObj` falls through to `WithinObj`. -/
theorem step_begin (h : b.readNumber 4 = some (n, c)) :
    step ⟨b, fs, .beginObj⟩ = step ⟨c, opened b n false :: fs, .withinObj⟩ := by
  simp [step, iteration, push, h, opened]

theorem actualLength_opened {k : ℕ} (h : b.position + k < 2 ^ 31) (code : Bool) :
    actualLength (b.advance k) (opened b n code) = k := by
  have hp : ((b.position + k : ℕ) : ℤ) - (b.position % 2 ^ 31 : ℕ) = (k : ℤ) := by omega
  rw [actualLength, opened, Buffer.advance]
  dsimp only
  rw [hp, BitVec.ofInt_natCast, toInt_count (by omega)]

/-- A length word that fits is the number of bytes since its frame was opened. -/
theorem eq_of_actualLength {k : ℕ} {code : Bool} (hn : n < 256 ^ 4) (hk : b.position + k < 2 ^ 31)
    (h : actualLength (b.advance k) (opened b n code) = (opened b n code).expectedSize) :
    n = k := by
  rw [actualLength_opened hk, opened] at h
  dsimp only at h
  rw [BitVec.toInt_eq_toNat_cond, BitVec.toNat_ofNat] at h
  split_ifs at h <;> omega

end rounds

/-! ### Valid documents are accepted -/

/-- The loop passes over the elements of a document. -/
def Passes (d : Doc) : Prop :=
  ∀ (b : Buffer) (f : Frame) (fs : List Frame) (s : Bytes), b.Small → f.isCodeWithScope = false →
    b.rest = d.elems ++ 0 :: s → b.position + (d.elems.length + 1) ≤ b.maxLength →
    Reaches step ⟨b, f :: fs, .withinObj⟩ ⟨b.advance (d.elems.length + 1), f :: fs, .endObj⟩

theorem reaches_endObj {d : Doc} {b : Buffer} (fs : List Frame) {s : Bytes} (hd : Passes d)
    (h : b.Small) (hb : b.rest = d.bytes ++ s) (hl : b.position + d.bytes.length ≤ b.maxLength) :
    Reaches step ⟨b, fs, .beginObj⟩
      ⟨b.advance d.bytes.length, opened b d.bytes.length false :: fs, .endObj⟩ := by
  have hr := h.range
  rw [length_bytes] at hl ⊢
  rw [Doc.bytes, frame, List.append_assoc, List.append_assoc] at hb
  have h4 := rest_advance hb
  rw [length_le] at h4
  have hgo := hd (b.advance 4) (opened b (d.elems.length + 5) false) fs s (h.advance (by omega)) rfl
    h4 (by simp only [Buffer.advance]; omega)
  rw [Buffer.advance_advance, show 4 + (d.elems.length + 1) = d.elems.length + 5 by omega] at hgo
  exact hgo.of_step_eq (step_begin (readNumber_le h (by omega) (by omega) hb (by omega)))
    (by simp)

/-- Over a whole document, back to the frame it stands in. -/
theorem reaches_document {d : Doc} {b : Buffer} (g : Frame) (fs : List Frame) {s : Bytes}
    (hd : Passes d) (h : b.Small) (hb : b.rest = d.bytes ++ s)
    (hl : b.position + d.bytes.length ≤ b.maxLength) : Reaches step ⟨b, g :: fs, .beginObj⟩
      ⟨b.advance d.bytes.length, g :: fs,
        if g.isCodeWithScope then .endCodeWScope else .withinObj⟩ := by
  have hr := h.range
  refine (reaches_endObj _ hd h hb hl).tail (Round.close ?_).step
  rw [actualLength_opened (by omega), opened, toInt_count (by omega)]

/-- The loop passes over an element with this value. -/
def PassesValue (v : Value) : Prop :=
  ∀ (b : Buffer) (f : Frame) (fs : List Frame) (name s : Bytes), b.Small →
    f.isCodeWithScope = false → 0 ∉ name → b.rest = v.type.byte :: (name ++ 0 :: (v.bytes ++ s)) →
    b.position + (name.length + 2) + v.bytes.length < b.maxLength →
    Reaches step ⟨b, f :: fs, .withinObj⟩
      ⟨(b.advance (name.length + 2)).advance v.bytes.length, f :: fs, .withinObj⟩

/-- It is enough to look at the buffer behind the name. -/
theorem passesValue_of_rest {v : Value}
    (h : ∀ (b : Buffer) (f : Frame) (fs : List Frame) (s : Bytes),
    b.Small → f.isCodeWithScope = false → b.rest = v.bytes ++ s →
    b.position + v.bytes.length < b.maxLength → ∃ c st, validateValue b v.type = .ok (c, st) ∧
      Reaches step ⟨c, f :: fs, st⟩ ⟨b.advance v.bytes.length, f :: fs, .withinObj⟩) :
    PassesValue v := by
  intro b f fs name s hb hf hname hrest hl
  have hlen : (v.type.byte :: (name ++ [0])).length = name.length + 2 := by simp
  have hrest' := rest_advance (s := v.type.byte :: (name ++ [0])) (t := v.bytes ++ s)
    (hrest.trans (by simp))
  rw [hlen] at hrest'
  obtain ⟨c, st, hc, hgo⟩ :=
    h _ f fs s (hb.advance (k := name.length + 2) (by omega)) hf hrest' hl
  refine Relation.ReflTransGen.head (Round.within ?_).step hgo
  rw [validateElementInfo_eq hb v.type_ne_eoo hname hrest (by omega), hc]

theorem passesValue_leaf {v : Value} (hv : v.Valid) (hleaf : after v.type = .withinObj) :
    PassesValue v :=
  passesValue_of_rest fun _ _ _ _ hb _ hrest hl =>
    ⟨_, _, validateValue_eq hb hv hleaf hrest hl, .refl⟩

theorem passesValue_nested {v : Value} {d : Doc} (hd : Passes d) (ht : after v.type = .beginObj)
    (hbytes : v.bytes = d.bytes) : PassesValue v :=
  passesValue_of_rest fun b f fs s hb hf hrest hl => by
    rw [hbytes] at hrest hl ⊢
    refine ⟨b, .beginObj, by rw [validateValue_nested (by rw [ht]; decide), ht], ?_⟩
    have := reaches_document f fs hd hb hrest (by omega)
    rwa [hf] at this

theorem passesValue_codeWScope {c : Bytes} {d : Doc} (hc : Terminated c) (hd : Passes d) :
    PassesValue (.codeWScope c d) :=
  passesValue_of_rest fun b f fs s hb hf hrest hl => by
    have hr := hb.range
    have hlen : (Value.codeWScope c d).bytes.length = 4 + (4 + c.length) + d.bytes.length := by
      simp only [Value.bytes, List.length_append, length_le, Doc.bytes]
      omega
    rw [hlen] at hl ⊢
    simp only [Value.bytes, List.append_assoc] at hrest
    have h4 := rest_advance hrest
    rw [length_le] at h4
    have hscope : ((b.advance 4).advance (4 + c.length)).rest = d.bytes ++ s := by
      have := rest_advance (h4.trans (List.append_assoc (le 4 c.length) c _).symm)
      rwa [List.length_append, length_le] at this
    have hstring := readUTF8String_eq (hb.advance (k := 4) (by omega)) hc h4
      (by simp only [Buffer.advance]; omega)
    rw [Buffer.advance_advance] at hstring hscope
    have hword := readNumber_le hb (by omega) (by simp only [Doc.bytes] at hl; omega) hrest
      (by omega)
    refine ⟨b, .beginCodeWScope, rfl, .head (Round.beginCode hword hstring).step ?_⟩
    have hgo := reaches_document
      (opened b (4 + 4 + c.length + (frame d.elems).length) true) (f :: fs) hd
      (hb.advance (k := 4 + (4 + c.length)) (by omega)) hscope
      (by simp only [Buffer.advance]; omega)
    rw [Buffer.advance_advance] at hgo
    refine hgo.tail (Round.endCode ?_).step
    rw [actualLength_opened (by omega), opened, toInt_count (by simp only [Doc.bytes] at hl; omega)]
    simp only [Doc.bytes]
    omega

theorem passes_nil : Passes .nil := by
  intro b f fs s hb hf hrest hl
  exact .single (Round.within (validateElementInfo_eoo hb hrest hl)).step

theorem passes_cons {name : Bytes} {v : Value} {d : Doc} (hname : 0 ∉ name) (hv : PassesValue v)
    (hd : Passes d) : Passes (.cons name v d) := by
  intro b f fs s hb hf hrest hl
  rw [length_elems_cons] at hl ⊢
  rw [Doc.elems, List.cons_append, List.append_assoc, List.cons_append, List.append_assoc] at hrest
  have hlen : (v.type.byte :: (name ++ 0 :: v.bytes)).length =
      name.length + 2 + v.bytes.length := by
    simp only [List.length_cons, List.length_append]
    omega
  have hrest' := rest_advance (s := v.type.byte :: (name ++ 0 :: v.bytes)) (t := d.elems ++ 0 :: s)
    (hrest.trans (by simp))
  rw [hlen, ← Buffer.advance_advance] at hrest'
  have hgo := hd _ f fs s ((hb.advance (k := name.length + 2) (by omega)).advance
    (k := v.bytes.length) (by simp only [Buffer.advance]; omega)) hf hrest'
    (by simp only [Buffer.advance]; omega)
  have hadv : ((b.advance (name.length + 2)).advance v.bytes.length).advance (d.elems.length + 1) =
      b.advance (name.length + v.bytes.length + d.elems.length + 2 + 1) := by
    rw [Buffer.advance_advance, Buffer.advance_advance]
    congr 1
    omega
  rw [hadv] at hgo
  exact (hv b f fs name (d.elems ++ 0 :: s) hb hf hname hrest (by omega)).trans hgo

mutual

theorem passesValue_of_valid : ∀ {v : Value}, v.Valid → PassesValue v
  | .object _, h => passesValue_nested (passes_of_valid h) rfl rfl
  | .array _, h => passesValue_nested (passes_of_valid h) rfl rfl
  | .codeWScope _ _, h => passesValue_codeWScope h.1 (passes_of_valid h.2)
  | .regEx _ _, h | .string _, h | .code _, h | .symbol _, h | .dbRef _ _, h | .minKey, h
  | .numberDouble _, h | .binData _ _, h | .undefined, h | .jstOID _, h | .bool _, h | .date _, h
  | .jstNULL, h | .numberInt _, h | .timestamp _, h | .numberLong _, h | .maxKey, h =>
    passesValue_leaf h rfl

theorem passes_of_valid : ∀ {d : Doc}, d.Valid → Passes d
  | .nil, _ => passes_nil
  | .cons _ _ _, h => passes_cons h.1 (passesValue_of_valid h.2.1) (passes_of_valid h.2.2)

end

theorem ends_bytes {d : Doc} (hd : d.Valid) (s : Bytes) {maxLength : ℕ} (hr : maxLength < 2 ^ 31)
    (hm : maxLength ≤ (d.bytes ++ s).length) (hl : d.bytes.length ≤ maxLength) :
    Ends step (start (d.bytes ++ s) maxLength) (.ok ()) := by
  have hb : Buffer.Small ⟨d.bytes ++ s, 0, maxLength⟩ := ⟨hr, hm, by simp⟩
  have hgo : Reaches step (start (d.bytes ++ s) maxLength) _ :=
    reaches_endObj [] (s := s) (passes_of_valid hd) hb rfl (by simpa using hl)
  refine (Reaches.ends_iff (hgo.tail (Round.last ?_).step)).mpr (ends_of_inl rfl)
  rw [actualLength_opened (by dsimp only; omega), opened, toInt_count (by omega)]

/-- **A valid document is accepted**, whatever lies behind it. -/
theorem validateBSON_bytes {d : Doc} (hd : d.Valid) (s : Bytes) {maxLength : ℕ}
    (hr : maxLength < 2 ^ 31) (hm : maxLength ≤ (d.bytes ++ s).length)
    (hl : d.bytes.length ≤ maxLength) :
    ∃ fuel, validateBSON fuel (d.bytes ++ s) maxLength = some (.ok ()) := by
  obtain ⟨n, hn⟩ := ends_bytes hd s hr hm hl
  rw [length_bytes] at hl
  exact ⟨n, by rw [validateBSON, if_neg (by omega), hn]⟩

/-! ### Nothing else is accepted -/

/-- The counts that are read next make sense. -/
def Sensible (m : Machine) : Prop :=
  match m.state with
  | .withinObj => ∀ t d, elementAt m.buffer = some (t, d) → CountOk t d
  | .beginObj => ∀ t d, elementAt (m.buffer.advance 4) = some (t, d) → CountOk t d
  | .beginCodeWScope => Counted 1 (m.buffer.advance 4)
  | _ => True

/-- All counts that the loop will read make sense. -/
def Sound (m : Machine) : Prop := ∀ m', Reaches step m m' → Sensible m'

section sound
variable {b c : Buffer} {f : Frame} {fs : List Frame} {m m' : Machine} {n : ℕ}

theorem Sound.here (h : Sound m) : Sensible m := h m .refl

theorem Sound.reaches (h : Sound m) (hm : Reaches step m m') : Sound m' :=
  fun _ hr => h _ (hm.trans hr)

theorem Sound.round (h : Sound m) (hm : Round m m') : Sound m' := h.reaches (.single hm.step)

/-- Behind the length word of an object. -/
theorem Sound.begin (h : Sound ⟨b, fs, .beginObj⟩) (hn : b.readNumber 4 = some (n, b.advance 4)) :
    Sound ⟨b.advance 4, opened b n false :: fs, .withinObj⟩ := by
  intro m' hm
  rcases Relation.ReflTransGen.cases_head hm with rfl | ⟨m₁, h₁, hrest⟩
  · exact h.here
  · exact h _ (.head ((step_begin hn).trans h₁) hrest)

/-- A run to the end goes round by round. -/
theorem exists_round (hst : m.state ≠ .done) (h : run step n m = some (.ok ())) :
    ∃ k m', n = k + 1 ∧ Round m m' ∧ run step k m' = some (.ok ()) := by
  cases n with
  | zero => cases h
  | succ k =>
    rw [run] at h
    cases hs : step m with
    | inl r =>
      rw [hs] at h
      simp only [step, if_neg hst] at hs
      split at hs
      · cases hs
        cases h
      · cases hs
    | inr m' =>
      rw [hs] at h
      exact ⟨k, m', rfl, round_of_step hs, h⟩

/-- Runs of this length to the end start at the elements of a valid document. -/
def Finds (n : ℕ) : Prop :=
  ∀ (b : Buffer) (f : Frame) (fs : List Frame), b.Small → f.isCodeWithScope = false →
    Sound ⟨b, f :: fs, .withinObj⟩ → run step n ⟨b, f :: fs, .withinObj⟩ = some (.ok ()) →
    ∃ d s, d.Valid ∧ b.rest = Doc.elems d ++ 0 :: s ∧
      b.position + (d.elems.length + 1) ≤ b.maxLength

/-- A run that starts in front of an object starts at the bytes of a valid document. -/
theorem exists_bytes (ih : Finds n) (h : b.Small) (hs : Sound ⟨b, fs, .beginObj⟩)
    (hrun : run step n ⟨b, fs, .beginObj⟩ = some (.ok ())) :
    ∃ d s, d.Valid ∧ b.rest = Doc.bytes d ++ s ∧ b.position + d.bytes.length ≤ b.maxLength := by
  obtain ⟨k, m', rfl, hm, -⟩ := exists_round (by simp) hrun
  obtain @⟨_, c, _, _, w, _, hn, -⟩ := hm
  obtain ⟨rfl, hw, hrest, hle⟩ := readNumber_ok h (by omega) hn
  have hr := h.range
  simp only [Buffer.advance] at hle
  rw [run, step_begin hn, ← run] at hrun
  obtain ⟨d, s, hd, hd', hl⟩ :=
    ih _ _ _ (h.advance (by omega)) rfl (hs.begin hn) hrun
  simp only [Buffer.advance] at hl
  -- The run goes on behind the elements, where the length word is compared.
  obtain ⟨j, -, hj⟩ := (passes_of_valid hd _ _ fs s (h.advance (k := 4) (by omega)) rfl hd'
    (by simp only [Buffer.advance]; omega)).run_eq hrun
  rw [Buffer.advance_advance] at hj
  obtain ⟨_, _, -, hend, -⟩ := exists_round (by simp) hj
  have hlen : actualLength (b.advance (4 + (d.elems.length + 1))) (opened b w false) =
      (opened b w false).expectedSize := by
    cases hend <;> assumption
  have hword := eq_of_actualLength hw (by omega) hlen
  refine ⟨d, s, hd, ?_, by rw [length_bytes]; omega⟩
  rw [hrest, hd', hword, Doc.bytes, frame, List.append_assoc, List.append_assoc,
    show 4 + (d.elems.length + 1) = d.elems.length + 5 by omega]
  rfl

/-- A run of this length starts at a value and goes on behind it. -/
structure Crosses (n : ℕ) (b : Buffer) (fs : List Frame) (v : Value) : Prop where
  valid : v.Valid
  rest : ∃ s, b.rest = v.bytes ++ s
  inside : b.position + v.bytes.length ≤ b.maxLength
  sound : Sound ⟨b.advance v.bytes.length, fs, .withinObj⟩
  goes : ∃ k ≤ n, run step k ⟨b.advance v.bytes.length, fs, .withinObj⟩ = some (.ok ())

theorem Crosses.of_reaches {v : Value} {s : Bytes} (hs : Sound m)
    (hrun : run step n m = some (.ok ()))
    (hv : v.Valid) (hrest : b.rest = v.bytes ++ s)
    (hin : b.position + v.bytes.length ≤ b.maxLength)
    (hm : Reaches step m ⟨b.advance v.bytes.length, fs, .withinObj⟩) : Crosses n b fs v :=
  ⟨hv, ⟨s, hrest⟩, hin, hs.reaches hm, hm.run_eq hrun⟩

theorem exists_crosses_leaf {t : BSONType} (ih : Finds n) (h : b.Small)
    (hf : f.isCodeWithScope = false) (hs : Sound ⟨c, f :: fs, .withinObj⟩)
    (hrun : run step n ⟨c, f :: fs, .withinObj⟩ = some (.ok ()))
    {j : ℕ} (hspan : Spans t b c j) : ∃ v : Value, v.type = t ∧ Crosses n b (f :: fs) v := by
  obtain ⟨rfl, hnear, hvalue⟩ := hspan
  obtain ⟨d, s, -, -, hl⟩ := ih _ f fs (h.advance hnear) hf hs hrun
  simp only [Buffer.advance] at hl
  obtain ⟨v, ht, hv, rfl, hrest⟩ := hvalue (by simp only [Buffer.advance]; omega)
  exact ⟨v, ht, .of_reaches hs hrun hv hrest (by omega) .refl⟩

theorem exists_crosses_object {t : BSONType} (ht : after t = .beginObj) (ih : Finds n) (h : b.Small)
    (hf : f.isCodeWithScope = false) (hs : Sound ⟨b, f :: fs, .beginObj⟩)
    (hrun : run step n ⟨b, f :: fs, .beginObj⟩ = some (.ok ())) :
    ∃ v : Value, v.type = t ∧ Crosses n b (f :: fs) v := by
  obtain ⟨d, s, hd, hrest, hin⟩ := exists_bytes ih h hs hrun
  have hgo := reaches_document f fs (passes_of_valid hd) h hrest hin
  rw [hf] at hgo
  have hcross : ∀ v : Value, v.bytes = d.bytes → v.Valid → Crosses n b (f :: fs) v := by
    intro v hb hv
    rw [← hb] at hrest hin hgo
    exact .of_reaches hs hrun hv hrest hin hgo
  cases t
  case object => exact ⟨.object d, rfl, hcross _ rfl hd⟩
  case array => exact ⟨.array d, rfl, hcross _ rfl hd⟩
  all_goals cases ht

theorem exists_crosses_codeWScope (ih : ∀ k < n, Finds k) (h : b.Small)
    (hs : Sound ⟨b, f :: fs, .beginCodeWScope⟩)
    (hrun : run step n ⟨b, f :: fs, .beginCodeWScope⟩ = some (.ok ())) :
    ∃ v : Value, v.type = .codeWScope ∧ Crosses n b (f :: fs) v := by
  have hr := h.range
  obtain ⟨k, m', rfl, hround, hk⟩ := exists_round (by simp) hrun
  have hs' := hs.round hround
  have hstep := hround.step
  cases hround with | @beginCode _ c e _ w hn he =>
  obtain ⟨rfl, hw, hrest, hle⟩ := readNumber_ok h (by omega) hn
  simp only [Buffer.advance] at hle
  obtain ⟨s, hterm, hrest', hadv, hle'⟩ :=
    readUTF8String_ok (h.advance (k := 4) (by omega)) hs.here he
  rw [Buffer.advance_advance] at hadv
  subst hadv
  simp only [Buffer.advance] at hle'
  have hsmall : (b.advance (4 + (4 + s.length))).Small := h.advance (by omega)
  obtain ⟨d, r, hd, hrestd, hin⟩ := exists_bytes (ih k (by omega)) hsmall hs' hk
  simp only [Buffer.advance] at hin
  have hgo := reaches_document (opened b w true) (f :: fs) (passes_of_valid hd) hsmall
    hrestd (by simp only [Buffer.advance]; omega)
  -- The length of the whole is compared behind the scope.
  obtain ⟨j, -, hj⟩ := hgo.run_eq hk
  obtain ⟨_, _, -, hend, -⟩ := exists_round (by simp [opened]) hj
  have hlen : actualLength ((b.advance (4 + (4 + s.length))).advance d.bytes.length)
      (opened b w true) = (opened b w true).expectedSize := by
    cases hend with | endCode h => exact h
  have hword := eq_of_actualLength hw (by omega) (Buffer.advance_advance (b := b) _ ▸ hlen)
  have hbytes : (Value.codeWScope s d).bytes.length = 4 + (4 + s.length) + d.bytes.length := by
    simp only [Value.bytes, List.length_append, length_le, Doc.bytes]
    omega
  refine ⟨.codeWScope s d, rfl, .of_reaches (s := r) hs hrun ⟨hterm, hd⟩ ?_ (by omega) ?_⟩
  · rw [hrest, hrest', hrestd, hword, Value.bytes, Doc.bytes]
    simp only [List.append_assoc, Nat.add_assoc]
  · rw [hbytes, ← Buffer.advance_advance]
    exact .head hstep (hgo.tail (Round.endCode hlen).step)

/-- Every accepted element is an element. -/
theorem exists_crosses {t : BSONType} {st : State} {name : Bytes} {e : Buffer}
    (ih : ∀ k ≤ n, Finds k) (h : b.Small) (hf : f.isCodeWithScope = false)
    (hcount : Sensible ⟨b, f :: fs, .withinObj⟩) (hh : Heads b t name e)
    (hv : validateValue e t = .ok (c, st)) (hs : Sound ⟨c, f :: fs, st⟩)
    (hrun : run step n ⟨c, f :: fs, st⟩ = some (.ok ())) :
    ∃ v : Value, v.type = t ∧ Crosses n e (f :: fs) v := by
  have hin := hh.inside
  have hsmall : e.Small := by
    rw [hh.advance] at hin ⊢
    exact h.advance (by simp only [Buffer.advance] at hin; omega)
  by_cases hleaf : after t = .withinObj
  · obtain ⟨rfl, j, hspan⟩ := validateValue_ok hsmall (by rw [hh.advance] at hin ⊢; exact hin)
      (hcount t e hh.element) hh.ne_eoo hleaf hv
    exact exists_crosses_leaf (ih n le_rfl) hsmall hf hs hrun hspan
  · rw [validateValue_nested hleaf] at hv
    obtain ⟨rfl, rfl⟩ := Prod.mk.inj (Except.ok.inj hv)
    by_cases hobj : after t = .beginObj
    · rw [hobj] at hs hrun
      exact exists_crosses_object hobj (ih n le_rfl) hsmall hf hs hrun
    · have ht : t = .codeWScope := by
        cases t <;> simp_all [after]
      subst ht
      exact exists_crosses_codeWScope (fun k hk => ih k hk.le) hsmall hs hrun

theorem finds (n : ℕ) : Finds n := by
  induction n using Nat.strongRecOn with
  | _ n ih =>
    intro b f fs h hf hs hrun
    obtain ⟨k, m', rfl, hround, hk⟩ := exists_round (by simp) hrun
    have hs' := hs.round hround
    cases hround with
    | within hc =>
      rcases validateElementInfo_ok h hc with ⟨hrest, hadv, hle, -⟩ | ⟨t, name, e, hh, hv⟩
      · rw [hadv] at hle
        exact ⟨.nil, _, trivial, hrest, hle⟩
      · obtain ⟨v, rfl, hx⟩ :=
          exists_crosses (fun j hj => ih j (by omega)) h hf hs.here hh hv hs' hk
        obtain ⟨j, hj, hgo⟩ := hx.goes
        obtain ⟨s, hrest⟩ := hx.rest
        have hin := hx.inside
        have hadv := hh.advance
        have hb := hh.rest
        subst hadv
        simp only [Buffer.advance] at hin
        obtain ⟨d, r, hd, hrestd, hl⟩ := ih j (by omega) _ f fs
          ((h.advance (k := name.length + 2) (by omega)).advance
            (by simp only [Buffer.advance]; omega)) hf hx.sound hgo
        simp only [Buffer.advance] at hl
        rw [rest_advance hrest] at hrestd
        refine ⟨.cons name v d, r, ⟨hh.nul, hx.valid, hd⟩, ?_, by rw [length_elems_cons]; omega⟩
        rw [hb, hrest, hrestd, Doc.elems]
        simp

end sound

/-! ### The loop ends -/

section termination
variable {b c : Buffer} {st : State}

theorem forward_of_element (h : b.Small) (hcount : ∀ t d, elementAt b = some (t, d) → CountOk t d)
    (hc : validateElementInfo b = .ok (c, st)) :
    ∃ j, c = b.advance (j + 1) ∧ b.position < b.maxLength ∧ c.position ≤ b.maxLength + 12 := by
  rcases validateElementInfo_ok h hc with ⟨-, rfl, hle, -⟩ | ⟨t, name, e, hh, hv⟩
  · exact ⟨0, rfl, by simp only [Buffer.advance] at hle; omega, by omega⟩
  · have hin := hh.inside
    have hadv := hh.advance
    have hcount := hcount t e hh.element
    subst hadv
    simp only [Buffer.advance] at hin
    have hsmall := h.advance (k := name.length + 2) (by omega)
    by_cases hleaf : after t = .withinObj
    · obtain ⟨-, j, hspan⟩ := validateValue_ok hsmall hin hcount hh.ne_eoo hleaf hv
      refine ⟨name.length + 1 + j, ?_, by omega, hspan.near⟩
      rw [hspan.advance, Buffer.advance_advance]
      congr 1
      omega
    · rw [validateValue_nested hleaf] at hv
      obtain ⟨rfl, -⟩ := Prod.mk.inj (Except.ok.inj hv)
      exact ⟨name.length + 1, rfl, by omega, by simp only [Buffer.advance]; omega⟩

/-- What is left to do: bytes count more than frames. -/
def remaining (m : Machine) : ℕ :=
  3 * (m.buffer.maxLength - m.buffer.position) + 2 * m.frames.length

theorem remaining_lt {m m' : Machine} (h : m.buffer.Small) (hs : Sensible m) (hm : Round m m') :
    m'.buffer.Small ∧ remaining m' < remaining m := by
  cases hm with
  | @begin b c d fs n st hn hc =>
    change b.Small at h
    obtain ⟨rfl, -, -, hle⟩ := readNumber_ok h (by omega) hn
    simp only [Buffer.advance] at hle
    obtain ⟨j, rfl, hlt, hnear⟩ := forward_of_element (h.advance (k := 4) (by omega)) hs hc
    simp only [Buffer.advance] at hlt hnear
    refine ⟨(h.advance (k := 4) (by omega)).advance hnear, ?_⟩
    simp only [remaining, Buffer.advance, List.length_cons]
    omega
  | within hb =>
    obtain ⟨j, rfl, hlt, hnear⟩ := forward_of_element h hs hb
    simp only [Buffer.advance] at hlt hnear
    refine ⟨h.advance hnear, ?_⟩
    simp only [remaining, Buffer.advance]
    omega
  | @beginCode b c d fs n hn hc =>
    change b.Small at h
    obtain ⟨rfl, -, -, hle⟩ := readNumber_ok h (by omega) hn
    simp only [Buffer.advance] at hle
    obtain ⟨s, -, -, rfl, hle'⟩ := readUTF8String_ok (h.advance (k := 4) (by omega)) hs hc
    simp only [Buffer.advance] at hle'
    refine ⟨(h.advance (k := 4) (by omega)).advance (by simp only [Buffer.advance]; omega), ?_⟩
    simp only [remaining, Buffer.advance, List.length_cons]
    omega
  | last _ | close _ | endCode _ => exact ⟨h, by simp [remaining]⟩

theorem Sound.exists_ends {m : Machine} (h : m.buffer.Small) (hs : Sound m) :
    ∃ r, Ends step m r := by
  refine PgBson.Lib.Machine.exists_ends remaining (fun m => m.buffer.Small ∧ Sound m) ?_ ⟨h, hs⟩
  rintro m m' ⟨hm, hs⟩ hstep
  have hround := round_of_step hstep
  obtain ⟨hm', hlt⟩ := remaining_lt hm hs.here hround
  exact ⟨⟨hm', hs.round hround⟩, hlt⟩

end termination

/-! ### The validator -/

/-- **The validator ends, and accepts the memory that begins with a valid document**, if the counts
it meets make sense. -/
theorem validateBSON_iff {buf : Bytes} {maxLength : ℕ} (hr : maxLength < 2 ^ 31)
    (hm : maxLength ≤ buf.length) (hs : Sound (start buf maxLength)) :
    ∃ fuel r, validateBSON fuel buf maxLength = some r ∧
      (r = .ok () ↔ ∃ d : Doc, d.Valid ∧ d.bytes <+: buf.take maxLength) := by
  by_cases h5 : maxLength < 5
  · refine ⟨0, _, if_pos h5, iff_of_false (by simp) ?_⟩
    rintro ⟨d, -, hd⟩
    have := hd.length_le
    rw [length_bytes, List.length_take] at this
    omega
  have hsmall : Buffer.Small ⟨buf, 0, maxLength⟩ := ⟨hr, hm, by simp⟩
  obtain ⟨r, n, hn⟩ := hs.exists_ends hsmall
  refine ⟨n, r, by rw [validateBSON, if_neg h5, hn], ?_, ?_⟩
  · rintro rfl
    obtain ⟨d, s, hd, hrest, hl⟩ := exists_bytes (finds n) hsmall hs hn
    refine ⟨d, hd, ?_⟩
    have hbuf : buf = d.bytes ++ s := hrest
    dsimp only at hl
    exact List.prefix_take_iff.mpr ⟨⟨s, hbuf.symm⟩, by omega⟩
  · rintro ⟨d, hd, s, hs'⟩
    have hbuf : buf = d.bytes ++ (s ++ buf.drop maxLength) := by
      rw [← List.append_assoc, hs', List.take_append_drop]
    have hl : d.bytes.length ≤ maxLength := by
      have := congrArg List.length hs'
      rw [List.length_append, List.length_take] at this
      omega
    rw [hbuf] at hm hn
    exact Ends.unique ⟨n, hn⟩ (ends_bytes hd _ hr hm hl)

theorem lt_of_objsize {o : Bytes} {l : ℕ} (hl : objsize o = l) : l < 2 ^ 31 := by
  have hlt := BitVec.toInt_lt (x := BitVec.ofNat 32 (word 4 o))
  rw [objsize, int32] at hl
  omega

/-- **`valid` tells whether the bytes of an object are a valid document**, if its length word stays
in the memory and the counts in it make sense. -/
theorem valid_iff {o : Bytes} {l : ℕ} (hl : objsize o = l) (hm : l ≤ o.length)
    (hs : Sound (start o l)) :
    ∃ fuel r, valid fuel o = some r ∧ (r = true ↔ ∃ d : Doc, d.Valid ∧ d.bytes = o.take l) := by
  have hr : l < 2 ^ 31 := lt_of_objsize hl
  obtain ⟨n, r, hn, hiff⟩ := validateBSON_iff hr hm hs
  refine ⟨n, r.isOk, ?_, ?_⟩
  · have hmod : ((l : ℤ) % 2 ^ 64).toNat = l := by omega
    rw [valid, hl, hmod, hn]
    rfl
  · rw [show r.isOk = true ↔ r = .ok () by cases r <;> simp [Except.isOk, Except.toBool], hiff]
    refine exists_congr fun d => and_congr_right fun _ => ⟨?_, fun h => h ▸ List.prefix_rfl⟩
    intro hd
    obtain ⟨⟨s, rfl⟩, hlen⟩ := List.prefix_take_iff.mp hd
    -- The document brings its own length word.
    rw [objsize_bytes (by omega)] at hl
    rw [List.take_left' (by omega)]

theorem sound_of_step {m : Machine} (h : Sensible m) (hm : ∀ m', step m = .inr m' → Sound m') :
    Sound m := by
  intro m' hr
  rcases Relation.ReflTransGen.cases_head hr with rfl | ⟨m₁, h₁, hrest⟩
  · exact h
  · exact hm m₁ h₁ m' hrest

/-- The document `a: "b"`. -/
private def oneString : Bytes := [14, 0, 0, 0, 2, 97, 0, 2, 0, 0, 0, 98, 0, 0]

private theorem sound_oneString : Sound (start oneString 14) := by
  have hlast : ∀ m', step ⟨⟨oneString, 14, 14⟩, [⟨0, false, 14⟩], .endObj⟩ = .inr m' →
      Sound m' := by
    rintro m' h
    obtain rfl := Sum.inr.inj h
    exact sound_of_step trivial fun _ h => by cases h
  refine sound_of_step ?_ fun m' h => ?_
  · rintro t d h
    obtain ⟨rfl, rfl⟩ := Prod.mk.inj (Option.some.inj h)
    rintro n c hn
    obtain ⟨rfl, rfl⟩ := Prod.mk.inj (Option.some.inj hn)
    decide
  · obtain rfl := Sum.inr.inj h
    refine sound_of_step (fun _ _ h => by cases h) fun m' h => ?_
    obtain rfl := Sum.inr.inj h
    exact sound_of_step trivial hlast

theorem valid_iff_oneString : ∃ fuel r, valid fuel oneString = some r ∧
    (r = true ↔ ∃ d : Doc, d.Valid ∧ d.bytes = oneString.take 14) :=
  valid_iff (l := 14) rfl (by decide) sound_oneString

/-- **`valid` accepts every well-formed document.** -/
theorem valid_stored (a : Stored) (s : Bytes) : ∃ fuel, valid fuel (a.bytes ++ s) = some true := by
  have hsize := lt_of_le_maxSize a.size
  obtain ⟨n, hn⟩ := validateBSON_bytes a.valid s hsize (by simp) le_rfl
  refine ⟨n, ?_⟩
  have hlen : ((a.doc.bytes.length : ℤ) % 2 ^ 64).toNat = a.doc.bytes.length := by omega
  rw [valid, Stored.bytes, objsize_bytes hsize, hlen, hn]
  rfl

/-! ### A count that leads back -/

/-- The memory of an element whose string has a count that leads back to the element itself, with
the byte in front of it. -/
def backElement (z : UInt8) (t : BSONType) (name s : Bytes) : Bytes :=
  z :: t.byte :: (name ++ 0 :: (le 4 (2 ^ 32 - (name.length + 6)) ++ s))

/-- The string ends in the byte in front of its own element. -/
theorem readUTF8String_back {c : Buffer} {z : UInt8} {t : BSONType} {name s : Bytes} (h : c.Small)
    (hc : c.rest = backElement z t name s) (hl : c.position + (name.length + 7) ≤ c.maxLength) :
    (c.advance (name.length + 3)).readUTF8String =
      if z = 0 then .ok (c.advance 1) else .error (.invalidBSON "not null terminate string") := by
  have hr := h.range
  have hcount : (c.advance (name.length + 3)).rest = le 4 (2 ^ 32 - (name.length + 6)) ++ s := by
    have := rest_advance (s := z :: t.byte :: (name ++ [0]))
      (t := le 4 (2 ^ 32 - (name.length + 6)) ++ s) (hc.trans (by simp [backElement]))
    rwa [show (z :: t.byte :: (name ++ [0])).length = name.length + 3 by simp] at this
  have hread := readNumber_le (k := 4) (h.advance (k := name.length + 3) (by omega)) (by omega)
    (by omega) hcount (by simp only [Buffer.advance]; omega)
  have hint : (BitVec.ofNat 32 (2 ^ 32 - (name.length + 6))).toInt = -((name.length : ℤ) + 6) := by
    rw [BitVec.toInt_eq_toNat_cond, BitVec.toNat_ofNat]
    split_ifs <;> omega
  have hskip : ((c.advance (name.length + 3)).advance 4).skip (-((name.length : ℤ) + 6) - 1) =
      (true, c) := by
    have hp : ((((c.position + (name.length + 3) + 4 : ℕ) : ℤ) +
        (-((name.length : ℤ) + 6) - 1)) % 2 ^ 64).toNat = c.position := by omega
    simp only [Buffer.skip, Buffer.advance, hp]
    rw [show decide (c.position < c.maxLength) = true by simp; omega]
  have hone : c.rest = le 1 z.toNat ++ (t.byte :: (name ++ 0 :: (le 4 (2 ^ 32 - (name.length + 6))
      ++ s))) := by
    rw [hc, le_one, UInt8.ofNat_toNat]
    rfl
  rw [Buffer.readUTF8String, hread]
  simp only [hint, hskip]
  rw [if_neg (by omega), readNumber_le h (by omega) (by simpa using z.toNat_lt) hone (by omega)]
  by_cases hz : z = 0
  · subst hz
    rfl
  · have hne : z.toNat ≠ 0 := fun h0 => hz (UInt8.toNat_inj.mp h0)
    simp [hz, hne]

/-- An element whose string ends in front of it is read again, or refused. -/
theorem validateElementInfo_back {c : Buffer} {z : UInt8} {t : BSONType} {name s : Bytes}
    (h : c.Small) (ht : t = .string ∨ t = .code ∨ t = .symbol) (hname : 0 ∉ name)
    (hc : c.rest = backElement z t name s) (hl : c.position + (name.length + 7) ≤ c.maxLength) :
    validateElementInfo (c.advance 1) =
      if z = 0 then .ok (c.advance 1, .withinObj)
      else .error (.invalidBSON "not null terminate string") := by
  have hrest := rest_advance (s := [z]) hc
  rw [List.length_singleton] at hrest
  rw [validateElementInfo_eq (h.advance (by omega)) (by rcases ht with rfl | rfl | rfl <;> decide)
    hname hrest (by simp only [Buffer.advance]; omega), Buffer.advance_advance,
    show 1 + (name.length + 2) = name.length + 3 by omega]
  have hstring := readUTF8String_back h hc hl
  rcases ht with rfl | rfl | rfl <;>
  · rw [validateValue, hstring]
    split <;> rfl

/-- The loop is about to read an element. -/
inductive AtElement : Machine → Buffer → Prop
  | within {b fs} : AtElement ⟨b, fs, .withinObj⟩ b
  | begin {b c fs n} (hn : b.readNumber 4 = some (n, c)) : AtElement ⟨b, fs, .beginObj⟩ c

/-- It goes on as in the state `WithinObj`. -/
theorem AtElement.step_eq {m : Machine} {b : Buffer} (h : AtElement m b) :
    ∃ fs, step m = step ⟨b, fs, .withinObj⟩ := by
  cases h with
  | within => exact ⟨_, rfl⟩
  | begin hn => exact ⟨_, step_begin hn⟩

/-- The element is read again and again. -/
theorem not_ends_back {m : Machine} {b : Buffer} (h : AtElement m b)
    (hb : validateElementInfo b = .ok (b, .withinObj)) (r : Except Stop Unit) :
    ¬ Ends step m r := by
  obtain ⟨fs, hstep⟩ := h.step_eq
  have hround : step ⟨b, fs, .withinObj⟩ = .inr ⟨b, fs, .withinObj⟩ := (Round.within hb).step
  rw [ends_inr_iff (hstep.trans hround)]
  exact not_ends_of_cycle hround .refl

/-- The error of an element ends the loop. -/
theorem ends_error {m : Machine} {b : Buffer} {e : Stop} (h : AtElement m b)
    (hb : validateElementInfo b = .error e) : Ends step m (.error e) := by
  obtain ⟨fs, hstep⟩ := h.step_eq
  refine ends_of_inl (hstep.trans ?_)
  simp only [Validate.step, iteration, Validate.within, hb]
  rfl

/-- **A string whose count leads back to its own element keeps the validator running for ever, if
the byte in front of the element is zero**, and makes it answer no if it is not. -/
theorem valid_back {o pre name s : Bytes} {z : UInt8} {t : BSONType} {l : ℕ} {m : Machine}
    (hl : objsize o = l) (hm : l ≤ o.length) (ho : o = pre ++ backElement z t name s)
    (hreach : Reaches step (start o l) m) (hat : AtElement m ⟨o, pre.length + 1, l⟩)
    (ht : t = .string ∨ t = .code ∨ t = .symbol) (hname : 0 ∉ name)
    (hin : pre.length + (name.length + 7) ≤ l) :
    (z = 0 → ∀ fuel, valid fuel o = none) ∧ (z ≠ 0 → ∃ fuel, valid fuel o = some false) := by
  have hr : l < 2 ^ 31 := lt_of_objsize hl
  have hsmall : Buffer.Small ⟨o, pre.length, l⟩ := ⟨hr, hm, by dsimp only; omega⟩
  have hback := validateElementInfo_back hsmall ht hname
    (by rw [Buffer.rest, ho, List.drop_left]) hin
  have hvalid (fuel : ℕ) : valid fuel o = (run step fuel (start o l)).map (·.isOk) := by
    have hmod : ((l : ℤ) % 2 ^ 64).toNat = l := by omega
    rw [valid, hl, hmod, validateBSON, if_neg (by omega)]
  constructor
  · rintro rfl fuel
    rw [hvalid, Option.map_eq_none_iff, Option.eq_none_iff_forall_ne_some]
    exact fun r hfuel => not_ends_back hat hback r (hreach.ends_iff.mp ⟨fuel, hfuel⟩)
  · intro hz
    rw [if_neg hz] at hback
    obtain ⟨fuel, hfuel⟩ := hreach.ends_iff.mpr (ends_error hat hback)
    exact ⟨fuel, by rw [hvalid, hfuel]; rfl⟩

/-- An integer, and a string whose count leads back. -/
private def backDoc (z : UInt8) : Bytes :=
  [19, 0, 0, 0, 16, 97, 0, 1, 0, 0] ++ backElement z .string [98] [0]

private theorem reaches_backDoc (z : UInt8) : Reaches step (start (backDoc z) 19)
    ⟨⟨backDoc z, 11, 19⟩, [⟨0, false, 19⟩], .withinObj⟩ := .single rfl

theorem valid_back_backDoc :
    (∀ fuel, valid fuel (backDoc 0) = none) ∧ ∃ fuel, valid fuel (backDoc 1) = some false :=
  ⟨(valid_back rfl (by decide) rfl (reaches_backDoc 0) .within (.inl rfl) (by decide)
      (by decide)).1 rfl,
    (valid_back rfl (by decide) rfl (reaches_backDoc 1) .within (.inl rfl) (by decide)
      (by decide)).2 (by decide)⟩

end PgBson.Bson.Validation
