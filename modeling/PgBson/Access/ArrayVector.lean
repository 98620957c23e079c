import PgBson.Access.Lookup
import PgBson.Json.Restore

/-! # Arrays as vectors

`BSONElement::Array` turns the elements of an array into a vector. The position of an element is its
field name, read as an unsigned number in the base that its prefix tells; elements with other names
are skipped, and positions without an element hold the default element. A position of a million or
more ends in an assertion.

The vector of a document is `slots` (`array_elem`). It has no default element exactly when the
positions leave no gap (`slots_full_iff`), and for the names `0`, `1`, … in their order it is the
list of the values (`slots_keyed`). -/

namespace PgBson.Access.ArrayVector

open PgBson.Lib.Memory PgBson.Lib.Decimal PgBson.Bson.Types PgBson.Bson.Document PgBson.Bson.Element
open PgBson.Access.Lookup
open PgBson.Json.Restore (Keyed)

/-! ### Numbers in field names -/

/-- The value of a digit in a base of up to 36; 36 for other characters. -/
def digitValue (c : UInt8) : ℕ :=
  if 48 ≤ c ∧ c ≤ 57 then c.toNat - 48
  else if 97 ≤ c ∧ c ≤ 122 then c.toNat - 97 + 10
  else if 65 ≤ c ∧ c ≤ 90 then c.toNat - 65 + 10
  else 36

/-- The sign, and what follows it. -/
def extractSign : Bytes → Bool × Bytes
  | 45 :: s => (true, s)
  | 43 :: s => (false, s)
  | s => (false, s)

/-- The base, and the digits. -/
def extractBase (s : Bytes) : ℕ × Bytes :=
  if 2 < s.length ∧ (s.take 2 = ascii "0x" ∨ s.take 2 = ascii "0X") then (16, s.drop 2)
  else if 1 < s.length ∧ s.head? = some 48 then (8, s)
  else (10, s)

/-- The largest `unsigned`. -/
def unsignedMax : ℕ := 2 ^ 32 - 1

/-- The loop over the digits of an `unsigned`; `none` for a bad digit or an overflow. -/
def parseDigits (base : ℕ) : Bytes → ℕ → Option ℕ
  | [], n => some n
  | c :: s, n =>
    if base ≤ digitValue c then none
    else if unsignedMax / base < n ∨ unsignedMax - n * base < digitValue c then none
    else parseDigits base s (n * base + digitValue c)

/-- `parseNumberFromString<unsigned>`. -/
def parseNumberFromString (f : Bytes) : Option ℕ :=
  let (isNegative, s) := extractSign f
  let (base, s) := extractBase s
  if s = [] then none else if isNegative then none else parseDigits base s 0

/-! ### The vector -/

/-- `v.resize(u + 1)` if the vector is shorter, then `v[u] = e`; `none` is the default element. -/
def put {α : Type} (e : α) : ℕ → List (Option α) → List (Option α)
  | 0, [] => [some e]
  | 0, _ :: v => some e :: v
  | u + 1, [] => none :: put e u []
  | u + 1, x :: v => x :: put e u v

/-- The loop of `Array`. -/
def arrayLoop : ℕ → BSONObjIterator → List (Option Bytes) → Except Exc (List (Option Bytes))
  | 0, _, _ => .error .undefinedBehaviour
  | fuel + 1, i, v =>
    if i.more then do
      let (e, i) ← i.next
      match parseNumberFromString (cstr (fieldName e)) with
      | some u => if u < 1000000 then arrayLoop fuel i (put e u v) else .error .verifyFailed
      | none => arrayLoop fuel i v
    else return v

/-- `BSONElement::Array`. -/
def array (e : Bytes) : Except Exc (List (Option Bytes)) :=
  if type e = some .array then do
    let o ← bsonObj (value e)
    arrayLoop (objsize o).toNat (begin o) []
  else .error (.msgasserted 13111)

/-! ### The vector of a document -/

/-- The names and values of a document. -/
def entries : Doc → List (Bytes × Value)
  | .nil => []
  | .cons n v d => (n, v) :: entries d

/-- The vector for the elements that are left. -/
def slotsFrom : Doc → List (Option Value) → Except Exc (List (Option Value))
  | .nil, s => .ok s
  | .cons n v d, s =>
    match parseNumberFromString n with
    | some u => if u < 1000000 then slotsFrom d (put v u s) else .error .verifyFailed
    | none => slotsFrom d s

/-- The vector for the elements of an array. -/
def slots (d : Doc) : Except Exc (List (Option Value)) := slotsFrom d []

/-- An element in the vector stands for a value, the default element for none. -/
def Holds : Option Bytes → Option Value → Prop
  | none, none => True
  | some e, some v => ∃ n r, 0 ∉ n ∧ e = elem n v r
  | _, _ => False

theorem put_holds {e : Bytes} {v : Value} (h : Holds (some e) (some v)) : ∀ (u : ℕ)
    {es : List (Option Bytes)} {vs : List (Option Value)}, List.Forall₂ Holds es vs →
    List.Forall₂ Holds (put e u es) (put v u vs)
  | 0, [], [], _ => .cons h .nil
  | 0, _ :: _, _ :: _, .cons _ hs => .cons h hs
  | u + 1, [], [], _ => .cons trivial (put_holds h u .nil)
  | u + 1, _ :: _, _ :: _, .cons hx hs => .cons hx (put_holds h u hs)

theorem arrayLoop_iter (r : Bytes) : ∀ {fuel : ℕ} {d : Doc} {es : List (Option Bytes)}
    {vs : List (Option Value)}, d.Framed → d.elems.length < fuel → d.elems.length < 2 ^ 31 →
    List.Forall₂ Holds es vs →
    (∃ x, arrayLoop fuel (iter d r) es = .error x ∧ slotsFrom d vs = .error x) ∨
    ∃ es' vs', arrayLoop fuel (iter d r) es = .ok es' ∧ slotsFrom d vs = .ok vs' ∧
      List.Forall₂ Holds es' vs'
  | 0, _, _, _, _, hf, _, _ => by omega
  | fuel + 1, .nil, es, vs, _, _, _, h => Or.inr ⟨es, vs, rfl, rfl, h⟩
  | fuel + 1, .cons n v d, es, vs, hd, hf, hs, h => by
    rw [length_elems_cons] at hf hs
    have hv : v.bytes.length < 2 ^ 31 := by omega
    have hold : Holds (some (elem n v (body d r))) (some v) := ⟨n, body d r, hd.1, rfl⟩
    simp only [arrayLoop, more_cons, if_true, next_cons hd.1 hd.2.1 hv, bind, Except.bind,
      cstr_fieldName_elem hd.1, slotsFrom]
    rcases parseNumberFromString n with _ | u
    · exact arrayLoop_iter r hd.2.2 (by omega) (by omega) h
    · by_cases hu : u < 1000000
      · simp only [if_pos hu]
        exact arrayLoop_iter r hd.2.2 (by omega) (by omega) (put_holds hold u h)
      · simp only [if_neg hu]
        exact Or.inl ⟨_, rfl, rfl⟩

/-- **`Array` computes the vector of the document.** -/
theorem array_elem {n : Bytes} (hn : 0 ∉ n) {d : Doc} (hd : d.Framed)
    (hs : d.bytes.length ≤ BSONObjMaxInternalSize) (r : Bytes) :
    (∃ x, array (elem n (.array d) r) = .error x ∧ slots d = .error x) ∨
    ∃ es vs, array (elem n (.array d) r) = .ok es ∧ slots d = .ok vs ∧
      List.Forall₂ Holds es vs := by
  have hl := lt_of_le_maxSize hs
  have hval : value (elem n (.array d) r) = d.bytes ++ r := by
    rw [value_elem hn]
    rfl
  have ht : type (elem n (.array d) r) = some .array := type_elem
  rw [array, if_pos ht, hval, bsonObj_bytes hs]
  simp only [bind, Except.bind, objsize_bytes hl, begin_bytes hl, Int.toNat_natCast]
  rw [length_bytes] at hl ⊢
  exact arrayLoop_iter r hd (by omega) (by omega) .nil

/-! ### Positions -/

/-- The positions of the elements of a document. -/
def positions (d : Doc) : List ℕ := (entries d).filterMap fun a => parseNumberFromString a.1

theorem length_put {α : Type} (e : α) : ∀ (u : ℕ) (v : List (Option α)),
    (put e u v).length = max v.length (u + 1)
  | 0, [] => rfl
  | 0, _ :: v => by simp [put]
  | u + 1, [] => by simp [put, length_put e u]
  | u + 1, _ :: v => by simp [put, length_put e u v]

/-- Position `u` is filled; behind the old end there are default elements up to it. -/
theorem getElem?_put {α : Type} (e : α) : ∀ (u : ℕ) (v : List (Option α)) (k : ℕ),
    (put e u v)[k]? = if k = u then some (some e) else if k < u ∧ v.length ≤ k then some none
      else v[k]?
  | 0, [], 0 | 0, _ :: _, 0 => by simp [put]
  | 0, [], k + 1 => by simp [put]
  | 0, _ :: _, k + 1 => by simp [put]
  | u + 1, [], 0 => by simp [put]
  | u + 1, _ :: _, 0 => by simp [put]
  | u + 1, [], k + 1 => by simp [put, getElem?_put e u [] k]
  | u + 1, x :: v, k + 1 => by simp [put, getElem?_put e u v k]

/-- The vector is built exactly when every position is below a million. -/
theorem slotsFrom_ok_iff : ∀ {d : Doc} {s : List (Option Value)},
    (∃ vs, slotsFrom d s = .ok vs) ↔ ∀ u ∈ positions d, u < 1000000
  | .nil, s => by simp [slotsFrom, positions, entries]
  | .cons n v d, s => by
    rw [slotsFrom, positions, entries, List.filterMap_cons]
    rcases parseNumberFromString n with _ | u
    · exact slotsFrom_ok_iff
    · simp only [List.forall_mem_cons]
      by_cases hu : u < 1000000
      · simp only [hu, true_and]
        exact slotsFrom_ok_iff
      · simp [hu]

/-- What the vector holds in a position. -/
theorem slotsFrom_spec : ∀ {d : Doc} {s vs : List (Option Value)}, slotsFrom d s = .ok vs →
    (∀ k, k < vs.length ↔ k < s.length ∨ ∃ u ∈ positions d, k ≤ u) ∧
    ∀ k, vs[k]? = some none ↔ k < vs.length ∧ k ∉ positions d ∧ ∀ v, s[k]? ≠ some (some v)
  | .nil, s, vs, h => by
    obtain rfl := Except.ok.inj h
    refine ⟨fun k => by simp [positions, entries], fun k => ?_⟩
    simp only [positions, entries, List.filterMap_nil, List.not_mem_nil, not_false_eq_true,
      true_and]
    rcases hk : s[k]? with _ | _ | v
    · simp [List.getElem?_eq_none_iff.mp hk]
    · simp [(List.getElem?_eq_some_iff.mp hk).1]
    · simp
  | .cons n v d, s, vs, h => by
    rw [slotsFrom] at h
    rw [positions, entries, List.filterMap_cons]
    rcases hp : parseNumberFromString n with _ | u
    · simp only [hp] at h ⊢
      exact slotsFrom_spec h
    · simp only [hp] at h ⊢
      split_ifs at h with hu
      obtain ⟨hlen, hget⟩ := slotsFrom_spec h
      have hpos : positions d = (entries d).filterMap fun a => parseNumberFromString a.1 := rfl
      refine ⟨fun k => ?_, fun k => ?_⟩
      · rw [hlen, length_put, ← hpos]
        simp only [List.mem_cons, exists_eq_or_imp]
        constructor
        · rintro (h1 | h2)
          · rcases lt_max_iff.mp h1 with h1 | h1
            · exact Or.inl h1
            · exact Or.inr (Or.inl (by omega))
          · exact Or.inr (Or.inr h2)
        · rintro (h1 | h1 | h2)
          · exact Or.inl (lt_max_of_lt_left h1)
          · exact Or.inl (lt_max_of_lt_right (by omega))
          · exact Or.inr h2
      · rw [hget, ← hpos, List.mem_cons, getElem?_put]
        by_cases hk : k = u
        · simp [hk]
        · simp only [hk, if_false, false_or]
          by_cases hb : k < u ∧ s.length ≤ k
          · simp [hb]
          · simp [hb]

/-- The positions start at zero and leave no gap. -/
def Gapless (d : Doc) : Prop := ∀ u ∈ positions d, ∀ k < u, k ∈ positions d

/-- **The vector has no default element exactly when the positions leave no gap.** -/
theorem slots_full_iff {d : Doc} {vs : List (Option Value)} (h : slots d = .ok vs) :
    none ∉ vs ↔ Gapless d := by
  obtain ⟨hlen, hget⟩ := slotsFrom_spec h
  have hiff : ∀ k, vs[k]? = some none ↔ (∃ u ∈ positions d, k ≤ u) ∧ k ∉ positions d := by
    intro k
    rw [hget, hlen]
    simp
  constructor
  · intro hfull u hu k hk
    by_contra hc
    exact hfull (List.mem_of_getElem? ((hiff k).mpr ⟨⟨u, hu, hk.le⟩, hc⟩))
  · intro hg hmem
    obtain ⟨k, hk⟩ := List.mem_iff_getElem?.mp hmem
    obtain ⟨⟨u, hu, hle⟩, hnot⟩ := (hiff k).mp hk
    rcases hle.lt_or_eq with hlt | rfl
    · exact hnot (hg u hu k hlt)
    · exact hnot hu

/-- The vector is empty exactly when no name is a number. -/
theorem slots_nil_iff {d : Doc} {vs : List (Option Value)} (h : slots d = .ok vs) :
    vs = [] ↔ positions d = [] := by
  have hlen : ∀ k, k < vs.length ↔ ∃ u ∈ positions d, k ≤ u := by
    intro k
    rw [(slotsFrom_spec h).1]
    simp
  constructor
  · rintro rfl
    rw [List.eq_nil_iff_forall_not_mem]
    intro u hu
    exact absurd ((hlen 0).mpr ⟨u, hu, Nat.zero_le _⟩) (by simp)
  · intro hp
    rw [← List.length_eq_zero_iff]
    by_contra hc
    obtain ⟨u, hu, -⟩ := (hlen 0).mp (Nat.pos_of_ne_zero hc)
    simp [hp] at hu

/-- The values in the vector are those of the document. -/
theorem mem_slotsFrom : ∀ {d : Doc} {s vs : List (Option Value)} {v : Value},
    slotsFrom d s = .ok vs → some v ∈ vs → some v ∈ s ∨ ∃ n, (n, v) ∈ entries d
  | .nil, s, vs, v, h, hv => by
    obtain rfl := Except.ok.inj h
    exact Or.inl hv
  | .cons n w d, s, vs, v, h, hv => by
    rw [slotsFrom] at h
    rcases hp : parseNumberFromString n with _ | u
    · simp only [hp] at h
      rcases mem_slotsFrom h hv with hs | ⟨m, hm⟩
      · exact Or.inl hs
      · exact Or.inr ⟨m, List.mem_cons_of_mem _ hm⟩
    · simp only [hp] at h
      split_ifs at h with hu
      rcases mem_slotsFrom h hv with hs | ⟨m, hm⟩
      · obtain ⟨k, hk⟩ := List.mem_iff_getElem?.mp hs
        rw [getElem?_put] at hk
        split_ifs at hk with h1 h2
        · obtain rfl := Option.some.inj (Option.some.inj hk)
          exact Or.inr ⟨n, List.mem_cons_self⟩
        · cases Option.some.inj hk
        · exact Or.inl (List.mem_of_getElem? hk)
      · exact Or.inr ⟨m, List.mem_cons_of_mem _ hm⟩

/-! ### Names that count -/

theorem digitValue_of_isdigit {c : UInt8} (h : isdigit c = true) :
    digitValue c = c.toNat - 48 ∧ digitValue c < 10 := by
  simp only [isdigit, Bool.and_eq_true, decide_eq_true_eq] at h
  rw [digitValue, if_pos h]
  have hle := UInt8.le_iff_toNat_le.mp h.2
  have h57 : (57 : UInt8).toNat = 57 := rfl
  exact ⟨rfl, by omega⟩

theorem le_foldl_digits : ∀ (s : Bytes) (n : ℕ),
    n ≤ s.foldl (fun n c => 10 * n + (c.toNat - 48)) n
  | [], _ => le_rfl
  | c :: s, n => by
    have ih := le_foldl_digits s (10 * n + (c.toNat - 48))
    rw [List.foldl_cons]
    omega

/-- Decimal digits are read as their number while it fits. -/
theorem parseDigits_digits : ∀ (s : Bytes) (n : ℕ), (∀ c ∈ s, isdigit c = true) →
    s.foldl (fun n c => 10 * n + (c.toNat - 48)) n ≤ unsignedMax →
    parseDigits 10 s n = some (s.foldl (fun n c => 10 * n + (c.toNat - 48)) n)
  | [], _, _, _ => rfl
  | c :: s, n, hs, hmax => by
    obtain ⟨hd, hlt⟩ := digitValue_of_isdigit (hs c List.mem_cons_self)
    rw [List.foldl_cons] at hmax ⊢
    have hle := (le_foldl_digits s (10 * n + (c.toNat - 48))).trans hmax
    have hfit : ¬ (unsignedMax / 10 < n ∨ unsignedMax - n * 10 < digitValue c) := by
      rw [hd]
      omega
    rw [parseDigits, if_neg (by omega), if_neg hfit, hd, Nat.mul_comm n 10]
    exact parseDigits_digits s _ (fun x hx => hs x (List.mem_cons_of_mem _ hx)) hmax

theorem extractBase_decimal (n : ℕ) : extractBase (decimal n) = (10, decimal n) := by
  by_cases h0 : n = 0
  · subst h0
    rfl
  · have hh := head?_decimal_ne h0
    have hx : ∀ t : Bytes, (48 :: t) ≠ (decimal n).take 2 := by
      intro t ht
      have := congrArg List.head? ht
      rw [List.head?_take, if_neg (by omega)] at this
      exact hh this.symm
    rw [extractBase, if_neg, if_neg]
    · exact fun h => hh h.2
    · rintro ⟨-, h | h⟩
      · exact hx _ h.symm
      · exact hx _ h.symm

/-- **A number in decimal is read as itself.** -/
theorem parseNumberFromString_decimal {n : ℕ} (h : n ≤ unsignedMax) :
    parseNumberFromString (decimal n) = some n := by
  obtain ⟨c, s, hs, hc⟩ := exists_decimal_eq_cons n
  have hsign : extractSign (decimal n) = (false, decimal n) := by
    have h1 : c ≠ 45 := by
      rintro rfl
      cases hc
    have h2 : c ≠ 43 := by
      rintro rfl
      cases hc
    rw [hs]
    unfold extractSign
    split <;> simp_all
  have hnum : (decimal n).foldl (fun n c => 10 * n + (c.toNat - 48)) 0 = n := numeral_decimal n
  have hd := parseDigits_digits (decimal n) 0 (fun c => isdigit_of_mem_decimal)
    (by rw [hnum]; exact h)
  simp only [parseNumberFromString, hsign, extractBase_decimal, decimal_ne_nil, if_false,
    Bool.false_eq_true, hd, hnum]

/-- The values of a document in their order. -/
def values : Doc → List Value
  | .nil => []
  | .cons _ v d => v :: values d

@[simp] theorem length_values (d : Doc) : (values d).length = count d := by
  fun_induction values d with
  | case1 => rfl
  | case2 n v d ih => rw [List.length_cons, ih, count]

theorem put_length {α : Type} (e : α) : ∀ v : List (Option α), put e v.length v = v ++ [some e]
  | [] => rfl
  | x :: v => by simp [put, put_length e v]

theorem slotsFrom_keyed : ∀ {d : Doc} {s : List (Option Value)}, Keyed s.length d →
    s.length + count d ≤ 1000000 → slotsFrom d s = .ok (s ++ (values d).map some)
  | .nil, s, _, _ => by simp [slotsFrom, values]
  | .cons n v d, s, hk, hc => by
    obtain ⟨rfl, hk⟩ := hk
    rw [count] at hc
    have hu : s.length ≤ unsignedMax := by
      unfold unsignedMax
      omega
    have hlt : s.length < 1000000 := by omega
    have hlen : (s ++ [some v]).length = s.length + 1 := by simp
    rw [slotsFrom, parseNumberFromString_decimal hu]
    simp only [if_pos hlt, put_length]
    rw [slotsFrom_keyed (hlen ▸ hk) (by omega), values]
    simp

/-- **The vector of an array in the usual form is the list of its values.** -/
theorem slots_keyed {d : Doc} (hk : Keyed 0 d) (hc : count d ≤ 1000000) :
    slots d = .ok ((values d).map some) := by
  have h := slotsFrom_keyed (d := d) (s := []) hk (by simpa using hc)
  rwa [List.nil_append] at h

theorem decimal_inj {m n : ℕ} (h : decimal m = decimal n) : m = n := by
  rw [← numeral_decimal m, h, numeral_decimal]

/-- The value under the name `i` is the value in position `i`. -/
theorem find_keyed : ∀ {d : Doc} {k i : ℕ}, Keyed k d → k ≤ i →
    find d (decimal i) = (values d)[i - k]?
  | .nil, _, _, _, _ => by simp [find, values]
  | .cons n v d, k, i, hk, hi => by
    obtain ⟨rfl, hk⟩ := hk
    rw [find, values]
    by_cases h : k = i
    · subst h
      simp
    · rw [if_neg fun he => h (decimal_inj he), find_keyed hk (by omega),
        show i - k = (i - (k + 1)) + 1 by omega, List.getElem?_cons_succ]

end PgBson.Access.ArrayVector
