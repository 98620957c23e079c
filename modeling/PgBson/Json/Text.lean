import PgBson.Bson.Decode
import PgBson.Json.Print

/-! # The text along the document

The text of a document by recursion on the document, and the proof that `jsonString` computes it
from the bytes, whatever lies behind them, or fails at the limit of the string builder
(`bsonOut_bytes`). -/

namespace PgBson.Json.Text

open PgBson.Lib.Memory PgBson.Lib.Decimal
open PgBson.Bson.Types PgBson.Bson.Document PgBson.Bson.Element PgBson.Json.Encoding
open PgBson.Json.Print

/-- The text of a string, without the limit. -/
def escapeText (s : Bytes) : Bytes := s.flatMap escapeChar

/-- The positions left out before an element of an array. -/
def gap (name : Bytes) (count : ℤ) : ℕ := (index name - count).toNat

/-- The number of positions up to an element of an array. -/
def next (name : Bytes) (count : ℤ) : ℤ := count + gap name count + 1

mutual

/-- The text of a value. -/
def valueText : Value → Bytes
  | .string s | .symbol s => quote (escapeText s.dropLast)
  | .numberLong v => decimalInt v.toInt
  | .numberInt v => intText v.toInt
  | .numberDouble b => doubleText b
  | .bool b => if b = 0 then ascii "false" else ascii "true"
  | .jstNULL => ascii "null"
  | .undefined => ascii "\x7b \"$undefined\" : true \x7d"
  | .object d => docText d
  | .array .nil => ascii "[]"
  | .array (.cons n v d) =>
    ascii "[ " ++ (fill (gap n 0) ++ valueText v ++ itemsText (next n 0) d) ++ ascii " ]"
  | .dbRef ns id =>
    ascii "\x7b \"$ref\" : \"" ++ cstr ns ++ ascii "\", \"$id\" : \"" ++ toHexLower id.data ++
      ascii "\" \x7d"
  | .jstOID id => ascii "\x7b \"$oid\" : \"" ++ toHexLower id.data ++ ascii "\" \x7d"
  | .binData t data =>
    ascii "\x7b \"$binary\" : \"" ++ encode data ++ ascii "\", \"$type\" : \"" ++ hexByte t ++
      ascii "\" \x7d"
  | .date v => ascii "\x7b \"$date\" : " ++ decimalInt v.toInt ++ ascii " \x7d"
  | .regEx pat opt =>
    ascii "\x7b \"$regex\" : \"" ++ escapeText pat ++ ascii "\", \"$options\" : \"" ++ opt ++
      ascii "\" \x7d"
  | .codeWScope c .nil => c.dropLast
  | .codeWScope c (.cons n v d) =>
    ascii "\x7b \"$code\" : " ++ c.dropLast ++ ascii " ,  \"$scope\" : " ++
      (ascii "\x7b " ++ (quote (escapeText n) ++ ascii " : " ++ valueText v ++ pairsText d) ++
        ascii " \x7d") ++ ascii " \x7d"
  | .code s => s.dropLast
  | .timestamp v =>
    ascii "\x7b \"$timestamp\" : \x7b \"t\" : " ++ decimal (v.toNat / 2 ^ 32) ++
      ascii ", \"i\" : " ++ decimal (v.toNat % 2 ^ 32) ++ ascii " \x7d \x7d"
  | .minKey => ascii "\x7b \"$minKey\" : 1 \x7d"
  | .maxKey => ascii "\x7b \"$maxKey\" : 1 \x7d"

/-- The text of a document. -/
def docText : Doc → Bytes
  | .nil => ascii "\x7b\x7d"
  | .cons n v d =>
    ascii "\x7b " ++ (quote (escapeText n) ++ ascii " : " ++ valueText v ++ pairsText d) ++
      ascii " \x7d"

/-- The text of the pairs after the first. -/
def pairsText : Doc → Bytes
  | .nil => []
  | .cons n v d =>
    ascii ", " ++ (quote (escapeText n) ++ ascii " : " ++ valueText v ++ pairsText d)

/-- The text of the elements of an array after the first. -/
def itemsText (count : ℤ) : Doc → Bytes
  | .nil => []
  | .cons n v d =>
    ascii ", " ++ (fill (gap n count) ++ valueText v ++ itemsText (next n count) d)

end

mutual

/-- The positions of every array fit the `int` that counts them. -/
def InRange : Value → Prop
  | .object d | .codeWScope _ d => DocInRange d
  | .array d => ItemsInRange 0 d
  | _ => True

def DocInRange : Doc → Prop
  | .nil => True
  | .cons _ v d => InRange v ∧ DocInRange d

def ItemsInRange (count : ℤ) : Doc → Prop
  | .nil => True
  | .cons n v d => InRange v ∧ next n count < 2 ^ 31 ∧ ItemsInRange (next n count) d

end

/-! ### Printing within the limit -/

/-- A text is computed, or it is too long and the limit of a string builder was hit. -/
def Prints (x : Except Exc Bytes) (t : Bytes) : Prop :=
  x = .ok t ∨ x = .error (.msgasserted 13548) ∧ BufferMaxSize < t.length

theorem prints_ok (t : Bytes) : Prints (.ok t) t := Or.inl rfl

theorem prints_str (t : Bytes) : Prints (str t) t := by
  unfold str
  split_ifs with h
  · exact Or.inr ⟨rfl, h⟩
  · exact Or.inl rfl

/-- A part of a text is computed before the whole. -/
theorem Prints.bind {x : Except Exc Bytes} {f : Bytes → Except Exc Bytes} {t u : Bytes}
    (hx : Prints x t) (hf : Prints (f t) u) (hle : t.length ≤ u.length) : Prints (x >>= f) u := by
  rcases hx with rfl | ⟨rfl, hlt⟩
  · exact hf
  · exact Or.inr ⟨rfl, by omega⟩

theorem prints_escape (s : Bytes) : Prints (escape s) (escapeText s) := prints_str _

/-! ### Elements without parts -/

section elem
variable {n : Bytes} {r : Bytes}

/-- A counted string without its terminator. -/
theorem take_counted {s : Bytes} (hs : s.length < 2 ^ 31) (hne : s ≠ []) (r : Bytes) :
    ¬ int32 (le 4 s.length ++ s ++ r) < 1 ∧
      ((le 4 s.length ++ s ++ r).drop 4).take (int32 (le 4 s.length ++ s ++ r) - 1).toNat =
        s.dropLast := by
  have hi : int32 (le 4 s.length ++ s ++ r) = s.length := by rw [List.append_assoc, int32_of_lt hs]
  have hpos : 0 < s.length := List.length_pos_of_ne_nil hne
  refine ⟨by rw [hi]; omega, ?_⟩
  rw [hi, List.append_assoc, List.drop_left' (length_le _ _), List.dropLast_eq_take,
    show ((s.length : ℤ) - 1).toNat = s.length - 1 by omega,
    List.take_append_of_le_length (by omega)]

theorem counted_elem {v : Value} {s : Bytes} (hn : 0 ∉ n) (hv : v.bytes = le 4 s.length ++ s)
    (hs : s.length < 2 ^ 31) (hne : s ≠ []) : counted (elem n v r) = .ok s.dropLast := by
  obtain ⟨h1, h2⟩ := take_counted hs hne r
  rw [counted, valuestrsize, valuestr, value_elem hn, hv, if_neg h1, h2]

end elem

/-! ### Objects and arrays -/

/-- A text is printed or, where `p` fails, the `int` that counts the positions of an array
overflows. It has counted `c` positions before the text, so the text is again too long. -/
def Settles (p : Prop) (c : ℕ) (x : Except Exc Bytes) (t : Bytes) : Prop :=
  Prints x t ∨ (x = .error .undefinedBehaviour ∧ ¬ p) ∧ BufferMaxSize < c + t.length

theorem Settles.bind_counted {p q : Prop} {a c : ℕ} {x : Except Exc Bytes}
    {f : Bytes → Except Exc Bytes} {t u : Bytes} (hx : Settles p a x t) (hf : Settles q c (f t) u)
    (hpq : q → p) (hle : t.length ≤ u.length) (hac : a + t.length ≤ c + u.length) :
    Settles q c (x >>= f) u := by
  rcases hx with (rfl | ⟨rfl, hlt⟩) | ⟨⟨rfl, hp⟩, hlt⟩
  · exact hf
  · exact Or.inl (Or.inr ⟨rfl, by omega⟩)
  · exact Or.inr ⟨⟨rfl, fun hq => hp (hpq hq)⟩, by omega⟩

/-- A part of a text is computed before the whole. -/
theorem Settles.bind {p q : Prop} {c : ℕ} {x : Except Exc Bytes}
    {f : Bytes → Except Exc Bytes} {t u : Bytes} (hx : Settles p 0 x t) (hf : Settles q c (f t) u)
    (hpq : q → p) (hle : t.length ≤ u.length) : Settles q c (x >>= f) u :=
  hx.bind_counted hf hpq hle (by omega)

theorem settles_ok (p : Prop) (c : ℕ) (t : Bytes) : Settles p c (.ok t) t := Or.inl (prints_ok t)

/-- The text of an object, which a string builder holds, or the overflow. -/
def Builds (p : Prop) (x : Except Exc Bytes) (t : Bytes) : Prop :=
  x = str t ∨ (x = .error .undefinedBehaviour ∧ ¬ p) ∧ BufferMaxSize < t.length

theorem Builds.settles {p : Prop} {x : Except Exc Bytes} {t : Bytes} (h : Builds p x t) :
    Settles p 0 x t := by
  rcases h with rfl | ⟨hx, hlt⟩
  · exact Or.inl (prints_str t)
  · exact Or.inr ⟨hx, by omega⟩

theorem Settles.builds {p q : Prop} {x : Except Exc Bytes} {f : Bytes → Except Exc Bytes}
    {t u : Bytes} (hx : Settles p 0 x t) (hf : f t = str u) (hpq : q → p)
    (hle : t.length ≤ u.length) : Builds q (x >>= f) u := by
  rcases hx with (rfl | ⟨rfl, hlt⟩) | ⟨⟨rfl, hp⟩, hlt⟩
  · exact Or.inl hf
  · refine Or.inl ?_
    rw [str, if_pos (by omega)]
    rfl
  · exact Or.inr ⟨⟨rfl, fun hq => hp (hpq hq)⟩, by omega⟩

/-- The function settles every value of up to `k` bytes. -/
def SettlesValues (k : ℕ) (json : Bytes → Except Exc Bytes) : Prop :=
  ∀ (n : Bytes) (v : Value) (r : Bytes), 0 ∉ n → v.Valid → v.bytes.length < k →
    v.bytes.length ≤ BSONObjMaxInternalSize →
    Settles (InRange v) 0 (json (elem n v r)) (valueText v)

theorem length_fill (g : ℕ) : (fill g).length = 11 * g := by
  rw [fill, List.length_flatten, List.map_replicate, List.sum_replicate_nat, mul_comm]
  rfl

section containers
variable {json : Bytes → Except Exc Bytes} {k : ℕ} (hjson : SettlesValues k json) (r : Bytes)
include hjson

theorem elementJson_elem {n : Bytes} {v : Value} (r : Bytes) (hn : 0 ∉ n) (hv : v.Valid)
    (hk : v.bytes.length < k) (hs : v.bytes.length ≤ BSONObjMaxInternalSize) :
    Settles (InRange v) 0 (elementJson json (elem n v r))
      (quote (escapeText n) ++ ascii " : " ++ valueText v) := by
  rw [elementJson, cstr_fieldName_elem hn]
  have hname : Settles True 0 (escape n) (escapeText n) := Or.inl (prints_escape n)
  refine hname.bind ?_ (fun _ => trivial) (by simp [quote]; omega)
  exact (hjson n v r hn hv hk hs).bind (settles_ok _ _ _) id (by simp; omega)

/-- The loop over an object. -/
theorem objectLoop_iter : ∀ {fuel : ℕ} {n : Bytes} {v : Value} {d : Doc}, 0 ∉ n → v.Valid →
    d.Valid → v.bytes.length + d.elems.length < fuel → v.bytes.length + d.elems.length < k →
    v.bytes.length + d.elems.length ≤ BSONObjMaxInternalSize →
    Settles (InRange v ∧ DocInRange d) 0 (objectLoop json fuel (elem n v (body d r)) (iter d r))
      (quote (escapeText n) ++ ascii " : " ++ valueText v ++ pairsText d)
  | 0, _, _, _, _, _, _, hf, _, _ => by omega
  | fuel + 1, n, v, .nil, hn, hv, _, _, hk, hs => by
    have he := elementJson_elem hjson (body .nil r) hn hv (by omega) (by omega)
    refine he.bind ?_ And.left (by simp [pairsText])
    simp only [next_nil, bind, Except.bind, pairsText, List.append_nil]
    exact settles_ok _ _ _
  | fuel + 1, n, v, .cons m w d, hn, hv, hd, hf, hk, hs => by
    rw [length_elems_cons] at hf hk hs
    have he := elementJson_elem hjson (body (.cons m w d) r) hn hv (by omega) (by omega)
    refine he.bind ?_ And.left (by simp)
    have hw := lt_of_le_maxSize (show w.bytes.length ≤ _ by omega)
    have ih := objectLoop_iter hd.1 hd.2.1 hd.2.2 (show _ < fuel by omega) (by omega) (by omega)
    simp only [next_cons hd.1 hd.2.1.framed hw, bind, Except.bind, eoo_elem]
    exact ih.bind (by simp only [pairsText, List.append_assoc]; exact settles_ok _ _ _) And.right
      (by simp [pairsText]; omega)

/-- **`BSONObj::jsonString` on the bytes of a document computes its text.** -/
theorem objectJson_bytes {d : Doc} (hd : d.Valid) (hk : d.elems.length < k)
    (hs : d.bytes.length ≤ BSONObjMaxInternalSize) :
    Builds (DocInRange d) (objectJson json (d.bytes ++ r)) (docText d) := by
  have hlt := lt_of_le_maxSize hs
  rw [objectJson, isEmpty_bytes hlt, begin_bytes hlt, objsize_bytes hlt, Int.toNat_natCast]
  cases d with
  | nil => exact Or.inl rfl
  | cons n v d =>
    rw [length_bytes, length_elems_cons] at hs
    rw [length_elems_cons] at hk
    have hv := lt_of_le_maxSize (show v.bytes.length ≤ _ by omega)
    have hloop := objectLoop_iter hjson r hd.1 hd.2.1 hd.2.2
      (show _ < (Doc.cons n v d).bytes.length by rw [length_bytes, length_elems_cons]; omega)
      (by omega) (by omega)
    simp only [reduceCtorEq, decide_false, Bool.false_eq_true, if_false,
      next_cons hd.1 hd.2.1.framed hv, bind, Except.bind, eoo_elem]
    generalize objectLoop json _ _ _ = pairs at hloop ⊢
    exact hloop.builds rfl id (by simp [docText]; omega)

omit hjson in
/-- The `int` overflows only behind a text that is too long. -/
theorem settles_overflow {n t : Bytes} {count : ℤ} {q : Prop}
    (hcount : 2 ^ 31 ≤ count + gap n count + 1) (hq : q → next n count < 2 ^ 31)
    (ht : (fill (gap n count)).length ≤ t.length) :
    Settles q count.toNat (.error .undefinedBehaviour) t := by
  rw [length_fill] at ht
  refine Or.inr ⟨⟨rfl, fun h => not_le.mpr (hq h) hcount⟩, ?_⟩
  simp only [BufferMaxSize]
  omega

/-- The loop over an array. -/
theorem arrayLoop_iter : ∀ {fuel : ℕ} {n : Bytes} {v : Value} {d : Doc} (count : ℤ), 0 ≤ count →
    0 ∉ n → v.Valid → d.Valid → v.bytes.length + d.elems.length < fuel →
    v.bytes.length + d.elems.length < k →
    v.bytes.length + d.elems.length ≤ BSONObjMaxInternalSize →
    Settles (ItemsInRange count (.cons n v d)) count.toNat
      (arrayLoop json fuel (elem n v (body d r)) (iter d r) count)
      (fill (gap n count) ++ valueText v ++ itemsText (next n count) d)
  | 0, _, _, _, _, _, _, _, _, hf, _, _ => by omega
  | fuel + 1, n, v, .nil, count, _, hn, hv, _, _, hk, hs => by
    refine (hjson n v (body .nil r) hn hv (by omega) (by omega)).bind ?_ And.left (by simp; omega)
    simp only [next_nil, bind, Except.bind, cstr_fieldName_elem hn, itemsText, List.append_nil]
    rw [← gap]
    by_cases hcount : 2 ^ 31 ≤ count + gap n count + 1
    · rw [if_pos hcount]
      exact settles_overflow hcount (fun h => h.2.1) (by simp)
    · rw [if_neg hcount]
      exact settles_ok _ _ _
  | fuel + 1, n, v, .cons m w d, count, hpos, hn, hv, hd, hf, hk, hs => by
    rw [length_elems_cons] at hf hk hs
    refine (hjson n v (body (.cons m w d) r) hn hv (by omega) (by omega)).bind ?_ And.left
      (by simp; omega)
    have hw := lt_of_le_maxSize (show w.bytes.length ≤ _ by omega)
    have ih := arrayLoop_iter (next n count) (by rw [next]; omega) hd.1 hd.2.1 hd.2.2
      (show _ < fuel by omega) (by omega) (by omega)
    simp only [next_cons hd.1 hd.2.1.framed hw, bind, Except.bind, cstr_fieldName_elem hn, eoo_elem]
    rw [← gap]
    by_cases hcount : 2 ^ 31 ≤ count + gap n count + 1
    · rw [if_pos hcount]
      exact settles_overflow hcount (fun h => h.2.1) (by simp)
    · rw [if_neg hcount]
      refine ih.bind_counted
        (by simp only [itemsText, List.append_assoc]; exact settles_ok _ _ _) (fun h => h.2.2)
        (by simp [itemsText]; omega) ?_
      have hcomma : (ascii ", ").length = 2 := rfl
      simp only [itemsText, List.length_append, length_fill, hcomma]
      rw [next]
      omega

theorem arrayJson_bytes {d : Doc} (hd : d.Valid) (hk : d.elems.length < k)
    (hs : d.bytes.length ≤ BSONObjMaxInternalSize) :
    Settles (ItemsInRange 0 d) 0 (arrayJson json (d.bytes ++ r)) (valueText (.array d)) := by
  have hlt := lt_of_le_maxSize hs
  rw [arrayJson, isEmpty_bytes hlt, begin_bytes hlt, objsize_bytes hlt, Int.toNat_natCast]
  cases d with
  | nil => exact settles_ok _ _ _
  | cons n v d =>
    rw [length_bytes, length_elems_cons] at hs
    rw [length_elems_cons] at hk
    have hv := lt_of_le_maxSize (show v.bytes.length ≤ _ by omega)
    have hloop := arrayLoop_iter hjson r 0 le_rfl hd.1 hd.2.1 hd.2.2
      (show _ < (Doc.cons n v d).bytes.length by rw [length_bytes, length_elems_cons]; omega)
      (by omega) (by omega)
    simp only [reduceCtorEq, decide_false, Bool.false_eq_true, if_false,
      next_cons hd.1 hd.2.1.framed hv, bind, Except.bind, eoo_elem]
    exact hloop.bind (settles_ok _ _ _) id (by simp [valueText]; omega)

end containers

/-! ### Every value -/

section leaves
variable {fuel : ℕ} {n : Bytes} (r : Bytes)

theorem valueJson_string {v : Value} {s : Bytes} (hn : 0 ∉ n) (hv : v.bytes = le 4 s.length ++ s)
    (ht : v.type = .string ∨ v.type = .symbol) (hs : s.length < 2 ^ 31) (hz : Terminated s) :
    Prints (valueJson (fuel + 1) (elem n v r)) (quote (escapeText s.dropLast)) := by
  have h : valueJson (fuel + 1) (elem n v r) =
      (counted (elem n v r) >>= fun t => escape t >>= fun t => .ok (quote t)) := by
    rcases ht with ht | ht <;> rw [valueJson, type_elem, ht] <;> rfl
  rw [h, counted_elem hn hv hs hz.ne_nil]
  exact (prints_escape _).bind (prints_ok _) (by simp [quote]; omega)

theorem valueJson_dbRef {ns : Bytes} {id : OID} (hn : 0 ∉ n) (hs : ns.length < 2 ^ 31)
    (hz : Terminated ns) :
    valueJson (fuel + 1) (elem n (.dbRef ns id) r) = .ok (valueText (.dbRef ns id)) := by
  have hi : valuestrsize (elem n (.dbRef ns id) r) = ns.length := by
    rw [valuestrsize, value_elem hn, Value.bytes, List.append_assoc, List.append_assoc,
      int32_of_lt hs]
  have hp : valuestr (elem n (.dbRef ns id) r) = ns ++ (id.data ++ r) := by
    rw [valuestr, value_elem hn, Value.bytes, List.append_assoc, List.append_assoc,
      List.drop_left' (length_le _ _)]
  simp only [valueJson, type_elem, Value.type, hi, hp, Int.toNat_natCast, List.drop_left,
    List.take_left' id.size, cstr_append_of_mem _ hz.zero_mem, valueText]

theorem valueJson_binData {t : UInt8} {data : Bytes} (hn : 0 ∉ n) (hs : data.length < 2 ^ 31) :
    valueJson (fuel + 1) (elem n (.binData t data) r) = .ok (valueText (.binData t data)) := by
  have hv : value (elem n (.binData t data) r) = le 4 data.length ++ (t :: (data ++ r)) := by
    rw [value_elem hn, Value.bytes, List.append_assoc, List.cons_append]
  have h4 : (le 4 data.length ++ (t :: (data ++ r))).drop 4 = t :: (data ++ r) :=
    List.drop_left' (length_le _ _)
  have h5 : (le 4 data.length ++ (t :: (data ++ r))).drop 5 = data ++ r := by
    rw [← List.tail_drop, h4, List.tail_cons]
  simp only [valueJson, type_elem, Value.type, hv, h4, h5, int32_of_lt hs, Int.toNat_natCast,
    List.take_left, List.headD_cons, valueText]

theorem valueJson_regEx {pat opt : Bytes} (hn : 0 ∉ n) (hp : 0 ∉ pat) (ho : 0 ∉ opt) :
    Prints (valueJson (fuel + 1) (elem n (.regEx pat opt) r)) (valueText (.regEx pat opt)) := by
  have hv : value (elem n (.regEx pat opt) r) = pat ++ 0 :: (opt ++ 0 :: r) := by
    rw [value_elem hn, Value.bytes, List.append_assoc, List.cons_append, List.append_assoc]
    rfl
  have hr : regex (elem n (.regEx pat opt) r) = .ok (pat ++ 0 :: (opt ++ 0 :: r)) := by
    rw [regex, type_elem, hv]
    rfl
  have hf : regexFlags (elem n (.regEx pat opt) r) = .ok (opt ++ 0 :: r) := by
    simp only [regexFlags, hr, bind, Except.bind, pure, Except.pure, afterCstr_append _ hp]
  simp only [valueJson, type_elem, Value.type, hr, hf]
  refine Prints.bind (x := escape (cstr (pat ++ 0 :: (opt ++ 0 :: r)))) (t := escapeText pat)
    (by rw [cstr_append _ hp]; exact prints_escape pat) ?_ (by simp [valueText]; omega)
  simp only [bind, Except.bind, pure, Except.pure, cstr_append _ ho, valueText]
  exact prints_ok _

theorem valueJson_timestamp {v : BitVec 64} (hn : 0 ∉ n) :
    valueJson (fuel + 1) (elem n (.timestamp v) r) = .ok (valueText (.timestamp v)) := by
  have hv : value (elem n (.timestamp v) r) = le 4 v.toNat ++ (le 4 (v.toNat / 2 ^ 32) ++ r) := by
    rw [value_elem hn, Value.bytes, le_add 4 4, List.append_assoc]
    rfl
  have hlow : word 4 (value (elem n (.timestamp v) r)) = v.toNat % 2 ^ 32 := by
    rw [hv, word_le_append]
    rfl
  have hhigh : word 4 ((value (elem n (.timestamp v) r)).drop 4) = v.toNat / 2 ^ 32 := by
    rw [hv, List.drop_left' (length_le _ _), word_le_append, Nat.mod_eq_of_lt (by omega)]
  simp only [valueJson, type_elem, Value.type, hlow, hhigh, valueText]

theorem valueJson_codeWScope {c : Bytes} {d : Doc} (hjson : SettlesValues fuel (valueJson fuel))
    (hn : 0 ∉ n) (hz : Terminated c) (hd : d.Valid)
    (hk : (Value.codeWScope c d).bytes.length < fuel + 1)
    (hs : (Value.codeWScope c d).bytes.length ≤ BSONObjMaxInternalSize) :
    Settles (DocInRange d) 0 (valueJson (fuel + 1) (elem n (.codeWScope c d) r))
      (valueText (.codeWScope c d)) := by
  have hlen : (Value.codeWScope c d).bytes.length = c.length + d.bytes.length + 8 := by
    simp [Value.bytes, Doc.bytes]; omega
  rw [hlen] at hk hs
  have hc := lt_of_le_maxSize (show c.length ≤ _ by omega)
  have hdl : d.bytes.length ≤ BSONObjMaxInternalSize := by omega
  obtain ⟨total, hv⟩ : ∃ w : ℕ, value (elem n (.codeWScope c d) r) =
      le 4 w ++ (le 4 c.length ++ (c ++ (d.bytes ++ r))) :=
    ⟨_, by rw [value_elem hn, Value.bytes]; simp only [List.append_assoc]; rfl⟩
  have h4 : (value (elem n (.codeWScope c d) r)).drop 4 =
      le 4 c.length ++ c ++ (d.bytes ++ r) := by
    rw [hv, List.drop_left' (length_le _ _), List.append_assoc]
  have h8 : (value (elem n (.codeWScope c d) r)).drop 8 = c ++ (d.bytes ++ r) := by
    rw [← List.drop_drop (i := 4) (j := 4), h4, List.append_assoc, List.drop_left' (length_le _ _)]
  obtain ⟨h1, h2⟩ := take_counted hc hz.ne_nil (d.bytes ++ r)
  have hcode : scopedCode (elem n (.codeWScope c d) r) = .ok c.dropLast := by
    rw [List.append_assoc, List.drop_left' (length_le _ _)] at h2
    rw [scopedCode, valuestr, h4, if_neg h1, h8, ← h2, List.append_assoc]
  have hscope : codeWScopeObject (elem n (.codeWScope c d) r) = .ok (d.bytes ++ r) := by
    rw [codeWScopeObject, h4, List.append_assoc, int32_of_lt hc, Int.toNat_natCast,
      ← List.drop_drop, h8, List.drop_left, bsonObj_bytes hdl]
  have hobj := (objectJson_bytes hjson r hd (by rw [length_bytes] at hk; omega) hdl).settles
  simp only [valueJson, type_elem, Value.type, hcode, hscope, bind, Except.bind,
    isEmpty_bytes (lt_of_le_maxSize hdl)]
  cases d with
  | nil =>
    simp only [decide_true, if_true, valueText]
    exact settles_ok _ _ _
  | cons m w d =>
    have htext : valueText (.codeWScope c (.cons m w d)) =
        ascii "\x7b \"$code\" : " ++ c.dropLast ++ ascii " ,  \"$scope\" : " ++
          docText (.cons m w d) ++ ascii " \x7d" := by
      simp only [valueText, docText]
    simp only [reduceCtorEq, decide_false, Bool.false_eq_true, if_false, htext]
    generalize objectJson (valueJson fuel) ((Doc.cons m w d).bytes ++ r) = scope at hobj ⊢
    exact hobj.bind (settles_ok _ _ _) id (by simp only [List.length_append]; omega)

end leaves

/-- **`jsonString` of an element computes the text of its value, or the text is too long.** -/
theorem settlesValues_valueJson : ∀ fuel : ℕ, SettlesValues fuel (valueJson fuel)
  | 0 => by
    intro _ _ _ _ _ hk
    omega
  | fuel + 1 => by
    intro n v r hn hv hk hs
    have hvs := lt_of_le_maxSize hs
    cases v with
    | object d =>
      have hobj := objectJson_bytes (settlesValues_valueJson fuel) r hv
        (by simp [Value.bytes] at hk; omega) hs
      simp only [valueJson, type_elem, Value.type, embeddedObject_object hn hs, bind, Except.bind,
        valueText]
      exact hobj.settles
    | array d =>
      have harr := arrayJson_bytes (settlesValues_valueJson fuel) r hv
        (by simp [Value.bytes] at hk; omega) hs
      simp only [valueJson, type_elem, Value.type, embeddedObject_array hn hs, bind, Except.bind]
      exact harr
    | codeWScope c d =>
      exact valueJson_codeWScope r (settlesValues_valueJson fuel) hn hv.1 hv.2 hk hs
    | string s =>
      refine Or.inl (valueJson_string r hn rfl (.inl rfl) ?_ hv)
      simp [Value.bytes] at hvs; omega
    | symbol s =>
      refine Or.inl (valueJson_string r hn rfl (.inr rfl) ?_ hv)
      simp [Value.bytes] at hvs; omega
    | code s =>
      simp only [valueJson, type_elem, Value.type, valueText]
      rw [counted_elem hn rfl (by simp [Value.bytes] at hvs; omega) hv.ne_nil]
      exact settles_ok _ _ _
    | dbRef ns id =>
      rw [valueJson_dbRef r hn (by simp [Value.bytes] at hvs; omega) hv]
      exact settles_ok _ _ _
    | binData t data =>
      rw [valueJson_binData r hn (by simp [Value.bytes] at hvs; omega)]
      exact settles_ok _ _ _
    | regEx pat opt => exact Or.inl (valueJson_regEx r hn hv.1 hv.2)
    | timestamp v =>
      rw [valueJson_timestamp r hn]
      exact settles_ok _ _ _
    | jstOID id =>
      simp only [valueJson, type_elem, Value.type, value_elem hn, Value.bytes,
        List.take_left' id.size, valueText]
      exact settles_ok _ _ _
    | numberInt v =>
      simp only [valueJson, type_elem, Value.type, value_elem hn, Value.bytes, int32_toNat,
        valueText]
      exact settles_ok _ _ _
    | numberDouble v | numberLong v | date v =>
      simp only [valueJson, type_elem, Value.type, date, value_elem hn, Value.bytes, bits64_toNat,
        valueText]
      exact settles_ok _ _ _
    | bool b =>
      simp only [valueJson, type_elem, Value.type, value_elem hn, Value.bytes, List.cons_append,
        List.headD_cons, valueText]
      exact settles_ok _ _ _
    | minKey | undefined | jstNULL | maxKey =>
      simp only [valueJson, type_elem, Value.type, valueText]
      exact settles_ok _ _ _

theorem bsonOut_builds (s : Stored) (r : Bytes) :
    ∃ x, Builds (DocInRange s.doc) x (docText s.doc) ∧
      bsonOut (s.bytes ++ r) = x.map (· ++ [0]) := by
  have hj := objectJson_bytes (settlesValues_valueJson (s.doc.bytes ++ r).length) r s.valid
    (by rw [List.length_append, length_bytes]; omega) s.size
  refine ⟨_, hj, ?_⟩
  simp only [bsonOut, Stored.bytes, bsonObj_bytes s.size, bind, Except.bind]
  cases objectJson (valueJson (s.doc.bytes ++ r).length) (s.doc.bytes ++ r) <;> rfl

/-- **`bson_out` computes the text of a document, or fails at the limit of the string builder.** -/
theorem bsonOut_bytes (s : Stored) (hi : DocInRange s.doc) (r : Bytes) :
    bsonOut (s.bytes ++ r) = (str (docText s.doc)).map (· ++ [0]) := by
  obtain ⟨x, rfl | ⟨⟨-, hnot⟩, -⟩, hout⟩ := bsonOut_builds s r
  · exact hout
  · exact absurd hi hnot

/-- **`bson_out` returns a text if and only if the text fits the string builder.** -/
theorem bsonOut_ok_iff (s : Stored) (r : Bytes) :
    (∃ t, bsonOut (s.bytes ++ r) = .ok t) ↔ (docText s.doc).length ≤ BufferMaxSize := by
  obtain ⟨x, rfl | ⟨⟨rfl, -⟩, hlt⟩, hout⟩ := bsonOut_builds s r
  · rw [hout, str]
    split_ifs with h
    · simp [Except.map, not_le.mpr h]
    · simpa [Except.map] using h
  · simp [hout, Except.map, not_le.mpr hlt]

end PgBson.Json.Text
