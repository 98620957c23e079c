import PgBson.Bson.Element

/-! # Builders over one buffer

A `BSONObjBuilder` writes into a `BufBuilder`, which doubles its allocation when it is full. The
builder of an embedded object writes into the buffer of the outer one: it leaves room for its length
word, appends behind it, and fills the word in when it is done.

Elsewhere a builder is the document of the elements that were appended, and `Element.obj` looks
at the size once. `build_obj` says that this is what the buffer comes to: whatever is appended
and however the builders are nested, the buffer ends with the bytes of the document, or fails as
`obj` does. -/

namespace PgBson.Bson.Builder

open PgBson.Lib.Memory PgBson.Bson.Types PgBson.Bson.Document
open PgBson.Bson.Element (obj done bsonObj objsize_bytes)

/-! ### `BufBuilder` -/

/-- `_BufBuilder`: the allocation, of `size` bytes, and how many of them are written. -/
structure BufBuilder where
  data : Bytes
  l : ℕ

/-- Bytes written over others. -/
def overwrite (data : Bytes) (p : ℕ) (src : Bytes) : Bytes :=
  data.take p ++ src ++ data.drop (p + src.length)

/-- The loop `while (a < newLen) a = a * 2` on an `int`. -/
def doubled (newLen : ℕ) : ℕ → ℕ → Option ℕ
  | 0, _ => none
  | rounds + 1, a =>
    if newLen ≤ a then some a
    else if 2 ^ 31 ≤ a * 2 then none
    else doubled newLen rounds (a * 2)

section code
variable (heap : ℕ → UInt8)

/-- New memory has some contents. -/
def malloc (n : ℕ) : Bytes := (List.range n).map heap

/-- `Realloc`. -/
def realloc (data : Bytes) (a : ℕ) : Bytes := data.take a ++ (malloc heap a).drop data.length

/-- The constructor. -/
def BufBuilder.new (initsize : ℕ) : BufBuilder := ⟨malloc heap initsize, 0⟩

/-- `grow_reallocate`. -/
def BufBuilder.growReallocate (b : BufBuilder) (newLen : ℕ) : Except Exc BufBuilder :=
  match doubled newLen 32 64 with
  | none => .error .undefinedBehaviour
  | some a =>
    if BufferMaxSize < a then .error (.msgasserted 13548)
    else .ok { b with data := realloc heap b.data a }

/-- `grow`, and `skip`: the buffer with `n` more bytes, whatever they hold. -/
def BufBuilder.grow (b : BufBuilder) (n : ℕ) : Except Exc BufBuilder := do
  let newLen := b.l + n
  if 2 ^ 31 ≤ newLen then throw .undefinedBehaviour
  let c ← if b.data.length < newLen then b.growReallocate heap newLen else pure b
  return { c with l := newLen }

/-- `appendBuf`. -/
def BufBuilder.appendBuf (b : BufBuilder) (src : Bytes) : Except Exc BufBuilder := do
  let c ← b.grow heap src.length
  return { c with data := overwrite c.data b.l src }

/-- `appendNum`, for a number of `k` bytes. -/
def BufBuilder.appendNum (b : BufBuilder) (k n : ℕ) : Except Exc BufBuilder :=
  b.appendBuf heap (le k n)

/-- `appendStr`. -/
def BufBuilder.appendStr (b : BufBuilder) (str : Bytes) : Except Exc BufBuilder :=
  b.appendBuf heap (str ++ [0])

/-! ### `BSONObjBuilder` -/

/-- What is written behind the type and the name of an element, call by call. -/
def writes : Value → List Bytes
  | .numberDouble v | .date v | .timestamp v | .numberLong v => [le 8 v.toNat]
  | .numberInt v => [le 4 v.toNat]
  | .bool b => [[b]]
  | .jstOID id => [id.data]
  | .string s | .code s | .symbol s => [le 4 s.length, s]
  | .object d | .array d => [d.bytes]
  | .binData t data => [le 4 data.length, [t], data]
  | .regEx r f => [r ++ [0], f ++ [0]]
  | .dbRef ns id => [le 4 ns.length, ns, id.data]
  | .codeWScope c d => [le 4 (4 + 4 + c.length + d.bytes.length), le 4 c.length, c, d.bytes]
  | .minKey | .undefined | .jstNULL | .maxKey => []

/-- The type and the name, which every append writes first. -/
def header (t : BSONType) (name : Bytes) (b : BufBuilder) : Except Exc BufBuilder := do
  let b ← b.appendNum heap 1 t.byte.toNat
  b.appendStr heap name

/-- The appends of `BSONObjBuilder`. -/
def append (name : Bytes) (v : Value) (b : BufBuilder) : Except Exc BufBuilder := do
  let b ← header heap v.type name b
  (writes v).foldlM (fun b src => b.appendBuf heap src) b

/-- `_done` of the builder whose object starts at the offset. -/
def close (offset : ℕ) (b : BufBuilder) : Except Exc BufBuilder := do
  let b ← b.appendNum heap 1 BSONType.eoo.byte.toNat
  return { b with data := overwrite b.data offset (le 4 (b.l - offset)) }

/-- The life of a builder whose object starts at the offset: room is left for the length word, the
calls of its user follow, and it is done at the end. -/
def scope (offset : ℕ) (calls : BufBuilder → Except Exc BufBuilder) (b : BufBuilder) :
    Except Exc BufBuilder := do
  let b ← b.grow heap 4
  let b ← calls b
  close heap offset b

/-- The use of a builder: elements are appended to it, and embedded objects are written by a builder
of their own. -/
inductive Script
  | nil
  | append (name : Bytes) (v : Value) (rest : Script)
  | sub (isArray : Bool) (name : Bytes) (body rest : Script)

/-- The calls of a script. An embedded builder starts its object at the end of the buffer. -/
def Script.run : Script → BufBuilder → Except Exc BufBuilder
  | .nil, b => return b
  | .append name v rest, b => do
    let b ← Builder.append heap name v b
    rest.run b
  | .sub isArray name body rest, b => do
    let b ← header heap (if isArray then .array else .object) name b
    let b ← scope heap b.l body.run b
    rest.run b

/-- A builder with a buffer of its own, from its constructor to `obj`. The object is the memory
behind the reference count. -/
def build (s : Script) : Except Exc Bytes := do
  let b := BufBuilder.new heap (512 + 4)
  let b ← b.appendNum heap 4 0
  let b ← scope heap 4 (s.run heap) b
  bsonObj (b.data.drop 4)

end code

/-- `BSONObjBuilder::obj` with the bytes of all the elements that were appended. -/
def objBytes (elems : Bytes) : Except Exc Bytes :=
  if BufferMaxSize < 4 + (frame elems).length then .error (.msgasserted 13548)
  else bsonObj (frame elems)

theorem objBytes_elems (d : Doc) : objBytes d.elems = (obj d).map Doc.bytes := by
  rw [objBytes, obj, ← Doc.bytes]
  split_ifs
  · rfl
  · rw [done]
    unfold bsonObj
    split_ifs <;> rfl

/-- The document of a script. -/
def Script.doc : Script → Doc
  | .nil => .nil
  | .append name v rest => .cons name v rest.doc
  | .sub isArray name body rest =>
    .cons name (if isArray then .array body.doc else .object body.doc) rest.doc

/-! ### What is written -/

/-- What a buffer holds. -/
def BufBuilder.contents (b : BufBuilder) : Bytes := b.data.take b.l

/-- The written bytes are there, within the limit. -/
structure BufBuilder.Sane (b : BufBuilder) : Prop where
  inside : b.l ≤ b.data.length
  bounded : b.data.length ≤ BufferMaxSize

theorem BufBuilder.Sane.length {b : BufBuilder} (h : b.Sane) : b.contents.length = b.l := by
  rw [contents, List.length_take, Nat.min_eq_left h.inside]

/-- The loop stops at the first power of two. -/
theorem doubled_eq {newLen m : ℕ} (hm : newLen ≤ 2 ^ m) (h30 : m ≤ 30) :
    ∀ (rounds i : ℕ), i ≤ m → m < i + rounds →
      ∃ j ≤ m, newLen ≤ 2 ^ j ∧ doubled newLen rounds (2 ^ i) = some (2 ^ j)
  | 0, i, hi, hr => by omega
  | rounds + 1, i, hi, hr => by
    rw [doubled]
    split_ifs with hle hover
    · exact ⟨i, hi, hle, rfl⟩
    · have hlt : i < 30 := by
        by_contra hge
        obtain rfl : i = m := by omega
        exact hle hm
      have := Nat.pow_le_pow_right (n := 2) (by decide) (show i + 1 ≤ 30 by omega)
      rw [← pow_succ] at hover
      omega
    · have hlt : i < m := by
        by_contra hge
        obtain rfl : i = m := by omega
        exact hle hm
      rw [← pow_succ]
      exact doubled_eq hm h30 _ _ hlt (by omega)

section emits
variable (heap : ℕ → UInt8) {b c : BufBuilder}

theorem length_malloc (n : ℕ) : (malloc heap n).length = n := by simp [malloc]

theorem growReallocate_ok {n : ℕ} (hlt : b.data.length < n) (hn : n ≤ BufferMaxSize) :
    ∃ c, b.growReallocate heap n = .ok c ∧ b.data <+: c.data ∧ n ≤ c.data.length ∧
      c.data.length ≤ BufferMaxSize := by
  obtain ⟨j, hj, hle, heq⟩ := doubled_eq (m := 26) hn (by omega) 32 6 (by omega) (by omega)
  have hmax : 2 ^ j ≤ BufferMaxSize := Nat.pow_le_pow_right (n := 2) (by decide) hj
  have hcut : b.data.take (2 ^ j) = b.data := List.take_of_length_le (by omega)
  have hlen : (realloc heap b.data (2 ^ j)).length = 2 ^ j := by
    rw [realloc, hcut, List.length_append, List.length_drop, length_malloc]
    omega
  refine ⟨{ b with data := realloc heap b.data (2 ^ j) }, ?_, ?_, by rw [hlen]; exact hle, by
    rw [hlen]; exact hmax⟩
  · rw [BufBuilder.growReallocate, show 64 = 2 ^ 6 from rfl, heq]
    dsimp only
    rw [if_neg (by omega)]
  · dsimp only
    rw [realloc, hcut]
    exact List.prefix_append _ _

theorem growReallocate_error {n : ℕ} (hn : n ≤ 2 ^ 30) (hmax : BufferMaxSize < n) :
    b.growReallocate heap n = .error (.msgasserted 13548) := by
  obtain ⟨j, hj, hle, heq⟩ := doubled_eq (m := 30) hn (by omega) 32 6 (by omega) (by omega)
  rw [BufBuilder.growReallocate, show 64 = 2 ^ 6 from rfl, heq]
  dsimp only
  rw [if_pos (by omega)]

/-- The bytes of one call. More than these would overflow the loop of `grow_reallocate`. -/
def Moderate (n : ℕ) : Prop := n ≤ 2 ^ 29

theorem grow_ok {n : ℕ} (h : b.Sane) (hn : b.l + n ≤ BufferMaxSize) :
    ∃ c, b.grow heap n = .ok c ∧ c.Sane ∧ c.l = b.l + n ∧ c.data.take b.l = b.contents := by
  have hmax : b.l + n < 2 ^ 31 := by
    unfold BufferMaxSize at hn
    omega
  by_cases hlt : b.data.length < b.l + n
  · obtain ⟨c, hc, hpre, hle, hbound⟩ := growReallocate_ok heap hlt hn
    refine ⟨{ c with l := b.l + n }, ?_, ⟨hle, hbound⟩, rfl, ?_⟩
    · simp only [BufBuilder.grow, if_neg (show ¬ 2 ^ 31 ≤ b.l + n by omega), if_pos hlt, hc, bind,
        Except.bind, pure, Except.pure]
    · obtain ⟨r, hr⟩ := hpre
      rw [← hr, List.take_append_of_le_length h.inside]
      rfl
  · refine ⟨{ b with l := b.l + n }, ?_, ⟨by dsimp only; omega, h.bounded⟩, rfl, rfl⟩
    simp only [BufBuilder.grow, if_neg (show ¬ 2 ^ 31 ≤ b.l + n by omega), if_neg hlt, bind,
      Except.bind, pure, Except.pure]

theorem grow_error {n : ℕ} (h : b.Sane) (hn : Moderate n) (hmax : BufferMaxSize < b.l + n) :
    b.grow heap n = .error (.msgasserted 13548) := by
  have hb := h.bounded
  have hi := h.inside
  unfold Moderate at hn
  have hle : b.l + n ≤ 2 ^ 30 := by
    unfold BufferMaxSize at hb
    omega
  simp only [BufBuilder.grow, if_neg (show ¬ 2 ^ 31 ≤ b.l + n by omega),
    if_pos (show b.data.length < b.l + n by omega), growReallocate_error heap hle hmax, bind,
    Except.bind, pure, Except.pure]

/-- A call appends these bytes, or fails where they go beyond the limit. -/
def Emits (f : BufBuilder → Except Exc BufBuilder) (s : Bytes) : Prop :=
  ∀ b : BufBuilder, b.Sane →
    (b.l + s.length ≤ BufferMaxSize → ∃ c, f b = .ok c ∧ c.Sane ∧ c.contents = b.contents ++ s) ∧
    (BufferMaxSize < b.l + s.length → f b = .error (.msgasserted 13548))

theorem emits_pure : Emits pure [] :=
  fun b h => ⟨fun _ => ⟨b, rfl, h, (List.append_nil _).symm⟩, fun hlt => by
    have hi := h.inside
    have hb := h.bounded
    simp only [List.length_nil] at hlt
    omega⟩

theorem Emits.l_eq {s : Bytes} (hb : b.Sane) (hc : c.Sane) (h : c.contents = b.contents ++ s) :
    c.l = b.l + s.length := by
  rw [← hc.length, h, List.length_append, hb.length]

theorem Emits.bind {f g : BufBuilder → Except Exc BufBuilder} {s t : Bytes} (hf : Emits f s)
    (hg : Emits g t) : Emits (fun b => f b >>= g) (s ++ t) := by
  intro b h
  rw [List.length_append, ← Nat.add_assoc]
  by_cases hs : b.l + s.length ≤ BufferMaxSize
  · obtain ⟨c, hc, hsane, hcont⟩ := (hf b h).1 hs
    have hl := Emits.l_eq h hsane hcont
    refine ⟨fun ht => ?_, fun ht => ?_⟩
    · obtain ⟨d, hd, hsane', hcont'⟩ := (hg c hsane).1 (by omega)
      exact ⟨d, by simp only [hc, Except.bind, hd, Bind.bind], hsane', by
        rw [hcont', hcont, List.append_assoc]⟩
    · simp only [hc, Except.bind, Bind.bind, (hg c hsane).2 (by omega)]
  · refine ⟨fun ht => by omega, fun _ => ?_⟩
    simp only [(hf b h).2 (by omega), Except.bind, Bind.bind]

theorem length_overwrite {data src : Bytes} {p : ℕ} (h : p + src.length ≤ data.length) :
    (overwrite data p src).length = data.length := by
  simp only [overwrite, List.length_append, List.length_take, List.length_drop]
  omega

theorem emits_appendBuf {s : Bytes} (hn : Moderate s.length) :
    Emits (fun b => b.appendBuf heap s) s := by
  intro b h
  refine ⟨fun hle => ?_, fun hlt => ?_⟩
  · obtain ⟨c, hc, hsane, hl, htake⟩ := grow_ok heap h hle
    have hin := hsane.inside
    have hlen : (c.data.take b.l).length = b.l := by
      rw [List.length_take]
      omega
    refine ⟨{ c with data := overwrite c.data b.l s }, ?_, ⟨?_, ?_⟩, ?_⟩
    · simp only [BufBuilder.appendBuf, hc, Bind.bind, Except.bind, pure, Except.pure]
    · rw [length_overwrite (by omega)]
      exact hsane.inside
    · rw [length_overwrite (by omega)]
      exact hsane.bounded
    · rw [BufBuilder.contents]
      dsimp only
      rw [hl, overwrite, List.take_left' (by rw [List.length_append, hlen]), htake]
  · simp only [BufBuilder.appendBuf, grow_error heap h hn hlt, Bind.bind, Except.bind]

theorem emits_foldlM : ∀ {l : List Bytes}, (∀ s ∈ l, Moderate s.length) →
    Emits (fun b => l.foldlM (fun b src => b.appendBuf heap src) b) l.flatten
  | [], _ => emits_pure
  | s :: l, h => by
    simp only [List.foldlM_cons, List.flatten_cons]
    exact (emits_appendBuf heap (h s List.mem_cons_self)).bind
      (emits_foldlM fun t ht => h t (List.mem_cons_of_mem _ ht))

theorem emits_header {t : BSONType} {name : Bytes} (hn : Moderate (name.length + 1)) :
    Emits (header heap t name) (t.byte :: (name ++ [0])) := by
  have h1 : t.byte :: (name ++ [0]) = le 1 t.byte.toNat ++ (name ++ [0]) := by simp [le]
  rw [h1]
  exact (emits_appendBuf heap (by simp [Moderate])).bind
    (emits_appendBuf heap (by simpa using hn))

theorem flatten_writes (v : Value) : (writes v).flatten = v.bytes := by
  cases v <;> simp [writes, Value.bytes, Doc.bytes]

/-- The calls that append a value are moderate. -/
def ModerateValue (v : Value) : Prop := ∀ s ∈ writes v, Moderate s.length

theorem emits_append {name : Bytes} {v : Value} (hn : Moderate (name.length + 1))
    (hv : ModerateValue v) :
    Emits (append heap name v) (v.type.byte :: (name ++ 0 :: v.bytes)) := by
  have h1 : v.type.byte :: (name ++ 0 :: v.bytes) =
      v.type.byte :: (name ++ [0]) ++ (writes v).flatten := by
    simp [flatten_writes]
  rw [h1]
  exact (emits_header heap hn).bind (emits_foldlM heap hv)

/-! ### Length words -/

theorem overwrite_append {p h s r : Bytes} (src : Bytes) (hh : h.length = src.length) :
    overwrite (p ++ h ++ s ++ r) p.length src = p ++ src ++ s ++ r := by
  have htake : (p ++ h ++ s ++ r).take p.length = p := by simp [List.append_assoc]
  have hdrop : (p ++ h ++ s ++ r).drop (p.length + src.length) = s ++ r := by
    rw [← hh, ← List.length_append, List.append_assoc (p ++ h), List.drop_left]
  rw [overwrite, htake, hdrop, List.append_assoc (p ++ src)]

/-- The length word is written where room was left for it. -/
theorem close_ok {p h s : Bytes} (hb : b.Sane) (hh : h.length = 4) (hc : b.contents = p ++ h ++ s)
    (hle : b.l + 1 ≤ BufferMaxSize) : ∃ c, close heap p.length b = .ok c ∧ c.Sane ∧
      c.contents = p ++ (le 4 (s.length + 5) ++ (s ++ [0])) := by
  obtain ⟨c, hc', hsane, hcont⟩ := (emits_appendBuf heap (s := [0]) (by simp [Moderate]) b hb).1 hle
  have hlc : c.l = b.l + 1 := Emits.l_eq hb hsane hcont
  have hlb : b.l = p.length + 4 + s.length := by
    rw [← hb.length, hc]
    simp only [List.length_append, hh]
  have hin := hsane.inside
  have hdata : c.data = p ++ h ++ (s ++ [0]) ++ c.data.drop c.l := by
    conv_lhs => rw [← List.take_append_drop c.l c.data]
    rw [BufBuilder.contents] at hcont
    rw [hcont, hc]
    simp
  have hnew : overwrite c.data p.length (le 4 (c.l - p.length)) =
      p ++ le 4 (s.length + 5) ++ (s ++ [0]) ++ c.data.drop c.l := by
    rw [show c.l - p.length = s.length + 5 by omega]
    conv_lhs => rw [hdata]
    exact overwrite_append _ (by rw [hh, length_le])
  refine ⟨{ c with data := overwrite c.data p.length (le 4 (c.l - p.length)) }, ?_, ⟨?_, ?_⟩, ?_⟩
  · have : b.appendNum heap 1 BSONType.eoo.byte.toNat = .ok c := hc'
    simp only [close, this, Bind.bind, Except.bind, pure, Except.pure]
  · rw [length_overwrite (by rw [length_le]; omega)]
    exact hin
  · rw [length_overwrite (by rw [length_le]; omega)]
    exact hsane.bounded
  · rw [BufBuilder.contents]
    dsimp only
    rw [hnew, List.take_left' (by
      simp only [List.length_append, length_le, List.length_singleton]; omega)]
    simp

theorem close_error (hb : b.Sane) (hlt : BufferMaxSize < b.l + 1) (offset : ℕ) :
    close heap offset b = .error (.msgasserted 13548) := by
  have : b.appendNum heap 1 BSONType.eoo.byte.toNat = .error (.msgasserted 13548) :=
    (emits_appendBuf heap (s := [0]) (by simp [Moderate]) b hb).2 hlt
  simp only [close, this, Bind.bind, Except.bind]

/-- **An embedded builder writes the frame of what is appended to it.** -/
theorem emits_scope {f : BufBuilder → Except Exc BufBuilder} {s : Bytes} (hf : Emits f s) :
    Emits (fun b => scope heap b.l f b) (frame s) := by
  intro b hb
  rw [length_frame]
  simp only [scope]
  by_cases h4 : b.l + 4 ≤ BufferMaxSize
  · obtain ⟨c, hc, hsane, hl, htake⟩ := grow_ok heap hb h4
    have hin := hsane.inside
    obtain ⟨h, hh, hcont⟩ : ∃ h : Bytes, h.length = 4 ∧ c.contents = b.contents ++ h := by
      refine ⟨c.contents.drop b.l, by rw [List.length_drop, hsane.length]; omega, ?_⟩
      rw [← htake, BufBuilder.contents, hl]
      conv_lhs => rw [← List.take_append_drop b.l (c.data.take (b.l + 4))]
      rw [List.take_take, Nat.min_eq_left (by omega)]
    by_cases hs : c.l + s.length ≤ BufferMaxSize
    · obtain ⟨d, hd, hsane', hcont'⟩ := (hf c hsane).1 hs
      have hl' := Emits.l_eq hsane hsane' hcont'
      refine ⟨fun hle => ?_, fun hlt => ?_⟩
      · obtain ⟨e, he, hsane'', hcont''⟩ := close_ok heap hsane' hh
          (by rw [hcont', hcont]) (by omega)
        rw [hb.length] at he
        exact ⟨e, by simp only [hc, hd, he, Bind.bind, Except.bind], hsane'', hcont''⟩
      · have he := close_error heap hsane' (by omega) b.l
        simp only [hc, hd, he, Bind.bind, Except.bind]
    · refine ⟨fun hle => by omega, fun _ => ?_⟩
      simp only [hc, (hf c hsane).2 (by omega), Bind.bind, Except.bind]
  · refine ⟨fun hle => by omega, fun _ => ?_⟩
    simp only [grow_error heap hb (show Moderate 4 by simp [Moderate]) (by omega), Bind.bind,
      Except.bind]

/-! ### Scripts -/

/-- Every call of a script is moderate. -/
def Script.Moderate : Script → Prop
  | .nil => True
  | .append name v rest =>
    Builder.Moderate (name.length + 1) ∧ ModerateValue v ∧ rest.Moderate
  | .sub _ name body rest => Builder.Moderate (name.length + 1) ∧ body.Moderate ∧ rest.Moderate

theorem elems_sub (isArray : Bool) (name : Bytes) (body rest : Script) :
    (Script.sub isArray name body rest).doc.elems =
      (if isArray then BSONType.array else .object).byte :: (name ++ [0]) ++
        (frame body.doc.elems ++ rest.doc.elems) := by
  cases isArray <;> simp [Script.doc, Doc.elems, Value.type, Value.bytes]

/-- **A script appends the elements of its document.** -/
theorem emits_run : ∀ {s : Script}, s.Moderate → Emits (s.run heap) s.doc.elems
  | .nil, _ => emits_pure
  | .append name v rest, h => by
    have helems : (Script.append name v rest).doc.elems =
        v.type.byte :: (name ++ 0 :: v.bytes) ++ rest.doc.elems := by
      simp [Script.doc, Doc.elems]
    rw [helems]
    exact (emits_append heap h.1 h.2.1).bind (emits_run h.2.2)
  | .sub isArray name body rest, h => by
    rw [elems_sub]
    exact (emits_header heap h.1).bind ((emits_scope heap (emits_run h.2.1)).bind (emits_run h.2.2))

/-- The constructor of an object looks at its length word only. -/
theorem bsonObj_append {d : Doc} (hs : d.bytes.length < 2 ^ 31) (r : Bytes) :
    bsonObj (d.bytes ++ r) = (done d).map fun d => d.bytes ++ r := by
  have h := objsize_bytes hs []
  rw [List.append_nil] at h
  by_cases hv : Element.isValid d.bytes
  · have hv' : Element.isValid (d.bytes ++ r) = true := by
      simpa only [Element.isValid, objsize_bytes hs, h] using hv
    simp only [done, bsonObj, hv, hv', if_true, Bind.bind, Except.bind, pure, Except.pure,
      Except.map]
  · have hv' : ¬ Element.isValid (d.bytes ++ r) = true := by
      simpa only [Element.isValid, objsize_bytes hs, h] using hv
    simp only [done, bsonObj, if_neg hv, if_neg hv', Bind.bind, Except.bind, Except.map]

/-- The buffer behind the reference count. -/
theorem build_eq (s : Script) : ∃ b : BufBuilder, b.Sane ∧ b.l = 4 ∧
    build heap s = scope heap b.l (s.run heap) b >>= fun b => bsonObj (b.data.drop 4) := by
  have hnew : (BufBuilder.new heap (512 + 4)).Sane := by
    refine ⟨Nat.zero_le _, ?_⟩
    rw [BufBuilder.new, length_malloc]
    decide
  obtain ⟨b, hb, hsane, hcont⟩ := (emits_appendBuf heap (s := le 4 0) (by simp [Moderate]) _ hnew).1
    (by simp [BufBuilder.new, BufferMaxSize])
  have hl : b.l = 4 := Emits.l_eq hnew hsane hcont
  refine ⟨b, hsane, hl, ?_⟩
  have hb' : (BufBuilder.new heap (512 + 4)).appendNum heap 4 0 = .ok b := hb
  rw [hl, build, hb']
  rfl

/-- **The buffer comes to what `obj` says**: the bytes of the document with some memory behind them,
or the same exception. -/
theorem build_obj {s : Script} (h : s.Moderate) :
    match obj s.doc with
    | .ok d => ∃ r, build heap s = .ok (d.bytes ++ r)
    | .error e => build heap s = .error e := by
  obtain ⟨b, hsane, hl, hbuild⟩ := build_eq heap s
  obtain ⟨hfits, hfull⟩ := emits_scope heap (emits_run heap h) b hsane
  dsimp only at hfits hfull
  rw [length_frame, ← length_bytes, hl] at hfits hfull
  rw [hl] at hbuild
  unfold obj
  split_ifs with hmax
  · rw [hbuild, hfull hmax]
    rfl
  · obtain ⟨c, hc, hsane', hcont⟩ := hfits (by omega)
    have hdata : c.data.drop 4 = s.doc.bytes ++ c.data.drop c.l := by
      have hpre : b.contents.length = 4 := hsane.length.trans hl
      conv_lhs => rw [← List.take_append_drop c.l c.data]
      rw [BufBuilder.contents] at hcont
      rw [hcont, List.append_assoc, List.drop_left' hpre]
      rfl
    have hres : build heap s = (done s.doc).map fun d => d.bytes ++ c.data.drop c.l := by
      rw [hbuild, hc]
      change bsonObj (c.data.drop 4) = _
      rw [hdata, bsonObj_append (by unfold BufferMaxSize at hmax; omega)]
    rw [hres]
    cases done s.doc with
    | error e => rfl
    | ok d => exact ⟨_, rfl⟩

/-- A number, and an array by a builder of its own. -/
private def nested : Script :=
  .append (ascii "a") (.numberInt 1)
    (.sub true (ascii "b") (.append (ascii "0") .jstNULL .nil) .nil)

theorem build_obj_nested :
    match obj nested.doc with
    | .ok d => ∃ r, build (fun _ => 0xff) nested = .ok (d.bytes ++ r)
    | .error e => build (fun _ => 0xff) nested = .error e := by
  refine build_obj (s := nested) (fun _ => 0xff) ⟨?_, ?_, ?_, ⟨?_, ?_, trivial⟩, trivial⟩
  all_goals simp [Moderate, ModerateValue, writes, ascii]

end emits

end PgBson.Bson.Builder
