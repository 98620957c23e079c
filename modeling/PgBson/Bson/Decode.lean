import PgBson.Bson.Document
import PgBson.Lib.Reader

/-! # Well-formed bytes

What it means for a string of bytes to be one well-formed BSON document: the length word counts the
bytes and is within the limit, every element has a known type and a value that ends inside the
document, counted strings are NUL terminated, embedded documents are well formed and the last byte
is the EOO byte. `decode` checks the frame of all this and returns the document; it looks at every
byte, unlike the accessors of the driver, which trust the length words.

The well-formed bytes are those of the `Stored` documents (`wellFormed_iff`), each of exactly one
(`decode_bytes`). -/

namespace PgBson.Bson.Decode

open PgBson.Lib.Memory PgBson.Lib.Reader PgBson.Bson.Types PgBson.Bson.Document

/-- An ObjectId. -/
def oid : Reads OID := fun p =>
  match readBytes 12 p with
  | none => none
  | some (s, r) => if h : s.length = 12 then some (⟨s, h⟩, r) else none

/-- A framed document, whose elements `sub` reads. -/
def document (sub : Bytes → Option Doc) : Reads Doc := fun p => do
  let (n, p) ← readWord 4 p
  guard (5 ≤ n)
  let (body, p) ← readBytes (n - 5) p
  let (e, p) ← readBytes 1 p
  guard (e = [0])
  let d ← sub body
  some (d, p)

/-- The value of an element of a given type. -/
def value (sub : Bytes → Option Doc) : BSONType → Reads Value
  | .eoo, _ => none
  | .minKey, p => some (.minKey, p)
  | .maxKey, p => some (.maxKey, p)
  | .undefined, p => some (.undefined, p)
  | .jstNULL, p => some (.jstNULL, p)
  | .numberDouble, p => (readWord 8 p).map fun (n, p) => (.numberDouble (.ofNat 64 n), p)
  | .date, p => (readWord 8 p).map fun (n, p) => (.date (.ofNat 64 n), p)
  | .timestamp, p => (readWord 8 p).map fun (n, p) => (.timestamp (.ofNat 64 n), p)
  | .numberLong, p => (readWord 8 p).map fun (n, p) => (.numberLong (.ofNat 64 n), p)
  | .numberInt, p => (readWord 4 p).map fun (n, p) => (.numberInt (.ofNat 32 n), p)
  | .string, p => (readCounted p).map fun (s, p) => (.string s, p)
  | .code, p => (readCounted p).map fun (s, p) => (.code s, p)
  | .symbol, p => (readCounted p).map fun (s, p) => (.symbol s, p)
  | .object, p => (document sub p).map fun (d, p) => (.object d, p)
  | .array, p => (document sub p).map fun (d, p) => (.array d, p)
  | .jstOID, p => (oid p).map fun (i, p) => (.jstOID i, p)
  | .bool, b :: p => some (.bool b, p)
  | .bool, [] => none
  | .binData, p => do
    let (n, p) ← readWord 4 p
    let (t, p) ← readBytes 1 p
    let (data, p) ← readBytes n p
    some (.binData (t.headD 0) data, p)
  | .regEx, p => do
    let (r, p) ← readCstring p
    let (f, p) ← readCstring p
    some (.regEx r f, p)
  | .dbRef, p => do
    let (ns, p) ← readCounted p
    let (i, p) ← oid p
    some (.dbRef ns i, p)
  | .codeWScope, p => do
    let (n, p) ← readWord 4 p
    let (c, p) ← readCounted p
    let (d, p) ← document sub p
    guard (n = 4 + 4 + c.length + d.bytes.length)
    some (.codeWScope c d, p)

/-- The elements of a document, all the way to the end of `body`. -/
def elems : ℕ → Bytes → Option Doc
  | _, [] => some .nil
  | 0, _ :: _ => none
  | fuel + 1, b :: p => do
    let t ← BSONType.ofByte b
    let (n, p) ← readCstring p
    let (v, p) ← value (elems fuel) t p
    let d ← elems fuel p
    some (.cons n v d)

/-- The document that a string of bytes frames. -/
def decode (bs : Bytes) : Option Doc := do
  let (d, r) ← document (elems bs.length) bs
  guard (r = [])
  some d

/-- The bytes are one well-formed document. -/
def WellFormed (bs : Bytes) : Prop :=
  bs.length ≤ BSONObjMaxInternalSize ∧ ∃ d ∈ decode bs, d.Valid

instance (bs : Bytes) : Decidable (WellFormed bs) :=
  inferInstanceAs (Decidable (_ ∧ ∃ d ∈ decode bs, d.Valid))

/-! ### What is read was written -/

/-- The reader of elements returns documents it has seen all the bytes of. -/
def Sound (sub : Bytes → Option Doc) : Prop :=
  ∀ body d, sub body = some d → d.elems = body ∧ d.Framed

theorem oid_sound {p r : Bytes} {i : OID} (h : oid p = some (i, r)) : p = i.data ++ r := by
  unfold oid at h
  split at h
  · cases h
  · next s r' ht =>
    obtain ⟨hl, rfl⟩ := readBytes_sound ht
    rw [dif_pos hl] at h
    simp only [Option.some.injEq, Prod.mk.injEq] at h
    obtain ⟨rfl, rfl⟩ := h
    rfl

theorem document_sound {sub : Bytes → Option Doc} (hsub : Sound sub) {p r : Bytes} {d : Doc}
    (h : document sub p = some (d, r)) : p = d.bytes ++ r ∧ d.Framed := by
  simp only [document, Option.bind_eq_bind, Option.bind_eq_some_iff, Option.guard_eq_some',
    Prod.exists, Option.some.injEq, Prod.mk.injEq] at h
  obtain ⟨n, p1, h1, _, hn, body, p2, h2, e, p3, h3, _, rfl, d', h4, rfl, rfl⟩ := h
  obtain ⟨-, rfl⟩ := readWord_sound h1
  obtain ⟨hl, rfl⟩ := readBytes_sound h2
  obtain ⟨-, rfl⟩ := readBytes_sound h3
  obtain ⟨rfl, hf⟩ := hsub _ _ h4
  refine ⟨?_, hf⟩
  rw [Doc.bytes, frame, hl, Nat.sub_add_cancel hn]
  simp

theorem readWord_ofNat {k w n : ℕ} {p r : Bytes} (hk : 256 ^ k = 2 ^ w)
    (h : readWord k p = some (n, r)) : p = le k (BitVec.ofNat w n).toNat ++ r := by
  obtain ⟨hn, rfl⟩ := readWord_sound h
  rw [BitVec.toNat_ofNat, Nat.mod_eq_of_lt (hk ▸ hn)]

theorem value_sound {sub : Bytes → Option Doc} (hsub : Sound sub) {t : BSONType} {p r : Bytes}
    {v : Value} (h : value sub t p = some (v, r)) :
    v.type = t ∧ p = v.bytes ++ r ∧ v.Framed := by
  cases t
  case eoo => simp [value] at h
  case minKey | maxKey | undefined | jstNULL =>
    simp only [value, Option.some.injEq, Prod.mk.injEq] at h
    obtain ⟨rfl, rfl⟩ := h
    exact ⟨rfl, rfl, trivial⟩
  case numberDouble | date | timestamp | numberLong | numberInt =>
    simp only [value, Option.map_eq_some_iff, Prod.exists, Prod.mk.injEq] at h
    obtain ⟨n, p', hn, rfl, rfl⟩ := h
    exact ⟨rfl, readWord_ofNat (by decide) hn, trivial⟩
  case string | code | symbol =>
    simp only [value, Option.map_eq_some_iff, Prod.exists, Prod.mk.injEq] at h
    obtain ⟨s, p', hs, rfl, rfl⟩ := h
    exact ⟨rfl, by simpa [Value.bytes] using readCounted_sound hs, trivial⟩
  case object | array =>
    simp only [value, Option.map_eq_some_iff, Prod.exists, Prod.mk.injEq] at h
    obtain ⟨d, p', hd, rfl, rfl⟩ := h
    obtain ⟨hp, hf⟩ := document_sound hsub hd
    exact ⟨rfl, hp, hf⟩
  case jstOID =>
    simp only [value, Option.map_eq_some_iff, Prod.exists, Prod.mk.injEq] at h
    obtain ⟨i, p', hi, rfl, rfl⟩ := h
    exact ⟨rfl, oid_sound hi, trivial⟩
  case bool =>
    cases p with
    | nil => simp [value] at h
    | cons b p =>
      simp only [value, Option.some.injEq, Prod.mk.injEq] at h
      obtain ⟨rfl, rfl⟩ := h
      exact ⟨rfl, rfl, trivial⟩
  case binData =>
    simp only [value, Option.bind_eq_bind, Option.bind_eq_some_iff, Prod.exists,
      Option.some.injEq, Prod.mk.injEq] at h
    obtain ⟨n, p1, h1, t, p2, h2, data, p3, h3, rfl, rfl⟩ := h
    obtain ⟨-, rfl⟩ := readWord_sound h1
    obtain ⟨ht, rfl⟩ := readBytes_sound h2
    obtain ⟨rfl, rfl⟩ := readBytes_sound h3
    obtain ⟨b, rfl⟩ := List.length_eq_one_iff.mp ht
    exact ⟨rfl, by simp [Value.bytes], trivial⟩
  case regEx =>
    simp only [value, Option.bind_eq_bind, Option.bind_eq_some_iff, Prod.exists,
      Option.some.injEq, Prod.mk.injEq] at h
    obtain ⟨x, p1, h1, f, p2, h2, rfl, rfl⟩ := h
    obtain ⟨hx, rfl⟩ := readCstring_sound h1
    obtain ⟨hf, rfl⟩ := readCstring_sound h2
    exact ⟨rfl, by simp [Value.bytes], hx, hf⟩
  case dbRef =>
    simp only [value, Option.bind_eq_bind, Option.bind_eq_some_iff, Prod.exists,
      Option.some.injEq, Prod.mk.injEq] at h
    obtain ⟨ns, p1, h1, i, p2, h2, rfl, rfl⟩ := h
    obtain rfl := readCounted_sound h1
    obtain rfl := oid_sound h2
    exact ⟨rfl, by simp [Value.bytes], trivial⟩
  case codeWScope =>
    simp only [value, Option.bind_eq_bind, Option.bind_eq_some_iff, Prod.exists,
      Option.guard_eq_some', Option.some.injEq, Prod.mk.injEq] at h
    obtain ⟨n, p1, h1, c, p2, h2, d, p3, h3, _, hn, rfl, rfl⟩ := h
    obtain ⟨-, rfl⟩ := readWord_sound h1
    obtain rfl := readCounted_sound h2
    obtain ⟨rfl, hf⟩ := document_sound hsub h3
    subst hn
    exact ⟨rfl, by simp [Value.bytes, Doc.bytes], hf⟩

/-- **The reader of elements is sound**, whatever the fuel. -/
theorem elems_sound : ∀ fuel, Sound (elems fuel)
  | _, [], d, h => by
    simp only [elems, Option.some.injEq] at h
    subst h
    exact ⟨rfl, trivial⟩
  | 0, _ :: _, d, h => by simp [elems] at h
  | fuel + 1, b :: p, d, h => by
    simp only [elems, Option.bind_eq_bind, Option.bind_eq_some_iff, Prod.exists,
      Option.some.injEq] at h
    obtain ⟨t, ht, n, p1, h1, v, p2, h2, d', h3, rfl⟩ := h
    obtain ⟨hn, rfl⟩ := readCstring_sound h1
    obtain ⟨rfl, rfl, hv⟩ := value_sound (elems_sound fuel) h2
    obtain ⟨rfl, hd⟩ := elems_sound fuel _ _ h3
    obtain rfl := BSONType.byte_of_ofByte ht
    exact ⟨by simp [Doc.elems], hn, hv, hd⟩

/-- **What `decode` returns is framed and has the bytes it was read from.** -/
theorem decode_sound {bs : Bytes} {d : Doc} (h : decode bs = some d) : d.bytes = bs ∧ d.Framed := by
  simp only [decode, Option.bind_eq_bind, Option.bind_eq_some_iff, Prod.exists,
    Option.guard_eq_some', Option.some.injEq] at h
  obtain ⟨d', r, hd, _, rfl, rfl⟩ := h
  obtain ⟨hb, hf⟩ := document_sound (elems_sound _) hd
  exact ⟨by simpa using hb.symm, hf⟩

/-! ### What was written is read -/

theorem oid_complete (i : OID) (r : Bytes) : oid (i.data ++ r) = some (i, r) := by
  unfold oid
  rw [readBytes_complete r i.size]
  exact dif_pos i.size

theorem readWord_toNat {k w : ℕ} (hk : 256 ^ k = 2 ^ w) (v : BitVec w) (r : Bytes) :
    readWord k (le k v.toNat ++ r) = some (v.toNat, r) :=
  readWord_complete r (hk ▸ v.isLt)

theorem document_complete {sub : Bytes → Option Doc} {d : Doc} (r : Bytes)
    (hsub : sub d.elems = some d) (hs : d.bytes.length < 2 ^ 32) :
    document sub (d.bytes ++ r) = some (d, r) := by
  have hw : readWord 4 (d.bytes ++ r) = some (d.elems.length + 5, d.elems ++ 0 :: r) := by
    rw [Doc.bytes, frame, List.append_assoc, List.append_assoc]
    exact readWord_complete _ (by simpa using hs)
  have hb : readBytes d.elems.length (d.elems ++ 0 :: r) = some (d.elems, 0 :: r) :=
    readBytes_complete _ rfl
  have he : readBytes 1 (0 :: r) = some ([0], r) := readBytes_complete (s := [0]) r rfl
  simp [document, hw, hb, he, hsub]

/-- A value is read back if the documents embedded in it are. -/
theorem value_complete {sub : Bytes → Option Doc} {v : Value} (r : Bytes) (hf : v.Framed)
    (hs : v.bytes.length < 2 ^ 32)
    (hsub : ∀ d : Doc, d.Framed → d.bytes.length ≤ v.bytes.length → sub d.elems = some d) :
    value sub v.type (v.bytes ++ r) = some (v, r) := by
  cases v
  case minKey | maxKey | undefined | jstNULL | bool => rfl
  case numberDouble v | date v | timestamp v | numberLong v | numberInt v =>
    simp [Value.type, Value.bytes, value, readWord_toNat (by decide : 256 ^ 8 = 2 ^ 64),
      readWord_toNat (by decide : 256 ^ 4 = 2 ^ 32)]
  case string s | code s | symbol s =>
    have hl : s.length < 2 ^ 32 := by simp [Value.bytes] at hs; omega
    simp [Value.type, Value.bytes, value, readCounted_complete r hl]
  case object d | array d =>
    have hd : document sub (frame d.elems ++ r) = some (d, r) :=
      document_complete r (hsub d hf le_rfl) hs
    simp [Value.type, Value.bytes, value, hd]
  case jstOID i => simp [Value.type, Value.bytes, value, oid_complete]
  case binData t data =>
    have hl : data.length < 256 ^ 4 := by simp [Value.bytes] at hs; omega
    have ht : readBytes 1 (t :: (data ++ r)) = some ([t], data ++ r) :=
      readBytes_complete (s := [t]) _ rfl
    simp [Value.type, Value.bytes, value, readWord_complete _ hl, ht, readBytes_complete]
  case regEx x f =>
    simp [Value.type, Value.bytes, value, readCstring_complete _ hf.1, readCstring_complete _ hf.2]
  case dbRef ns i =>
    have hl : ns.length < 2 ^ 32 := by simp [Value.bytes] at hs; omega
    simp [Value.type, Value.bytes, value, readCounted_complete _ hl, oid_complete]
  case codeWScope c d =>
    simp only [Value.bytes, List.length_append, length_le, length_frame] at hs hsub
    have hw : 8 + c.length + (d.elems.length + 5) < 256 ^ 4 := by omega
    have hc : c.length < 2 ^ 32 := by omega
    have hd : document sub (frame d.elems ++ r) = some (d, r) :=
      document_complete r (hsub d hf (by simp; omega)) (by simp; omega)
    simp [Value.type, Value.bytes, value, readWord_complete _ hw, readCounted_complete _ hc, hd]

/-- **Framed elements are read back** when the fuel covers their bytes. -/
theorem elems_complete : ∀ {fuel : ℕ} {d : Doc}, d.Framed → d.elems.length < 2 ^ 32 →
    d.elems.length ≤ fuel → elems fuel d.elems = some d
  | _, .nil, _, _, _ => by simp [Doc.elems, elems]
  | 0, .cons n v d, _, _, h => by simp at h
  | fuel + 1, .cons n v d, hf, hs, h => by
    rw [length_elems_cons] at hs h
    have hn : readCstring (n ++ 0 :: (v.bytes ++ d.elems)) = some (n, v.bytes ++ d.elems) :=
      readCstring_complete _ hf.1
    have hv : value (elems fuel) v.type (v.bytes ++ d.elems) = some (v, d.elems) := by
      refine value_complete _ hf.2.1 (by omega) fun d' hd' hl => ?_
      rw [length_bytes] at hl
      exact elems_complete hd' (by omega) (by omega)
    have hd : elems fuel d.elems = some d := elems_complete hf.2.2 (by omega) (by omega)
    simp [Doc.elems, elems, hn, hv, hd]

/-- **A framed document is read back from its bytes.** -/
theorem decode_bytes {d : Doc} (hf : d.Framed) (hs : d.bytes.length < 2 ^ 32) :
    decode d.bytes = some d := by
  have he : elems d.bytes.length d.elems = some d :=
    elems_complete hf (by simp at hs; omega) (by simp)
  have hd := document_complete [] he hs
  rw [List.append_nil] at hd
  unfold decode
  rw [hd]
  rfl

/-- **The bytes of a framed document are well formed exactly when it is valid and within the
limit**: no other reading of the bytes can come to the rescue. -/
theorem wellFormed_bytes_iff {d : Doc} (hf : d.Framed) :
    WellFormed d.bytes ↔ d.bytes.length ≤ BSONObjMaxInternalSize ∧ d.Valid := by
  unfold WellFormed
  refine and_congr_right fun hs => ?_
  have hd : decode d.bytes = some d :=
    decode_bytes hf ((lt_of_le_maxSize hs).trans (by omega))
  simp [hd]

/-- **The well-formed bytes are the bytes of the stored documents.** -/
theorem wellFormed_iff {bs : Bytes} : WellFormed bs ↔ ∃ s : Stored, s.bytes = bs := by
  constructor
  · rintro ⟨hs, d, hd, hv⟩
    obtain ⟨rfl, -⟩ := decode_sound hd
    exact ⟨⟨d, hv, hs⟩, rfl⟩
  · rintro ⟨s, rfl⟩
    exact (wellFormed_bytes_iff s.valid.framed).mpr ⟨s.size, s.valid⟩

end PgBson.Bson.Decode
