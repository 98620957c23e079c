import PgBson.Compare.Same
import PgBson.Bson.Decode

/-! # Binary equality and hash

`bson_binary_equal` and `bson_hash`, the functions of the hash operator class. Documents that are
binary equal have the same bytes, hence the same hash, and they are the same document, so the B-tree
comparison returns zero on them. -/

namespace PgBson.Compare.Hash

open PgBson.Lib.Sign PgBson.Lib.Memory
open PgBson.Bson.Types PgBson.Bson.Document PgBson.Bson.Element PgBson.Bson.Decode
open PgBson.Compare.WoCompare PgBson.Compare.Cmp PgBson.Compare.Leaf PgBson.Compare.Same

def binaryEqual (o r : Bytes) : Bool :=
  if objsize o = objsize r then objsize o = 0 ∨ memcmp (objsize o).toNat o r = 0 else false

/-- The hash of an object, computed in `unsigned` over its bytes as `char`s. -/
def hash (o : Bytes) : BitVec 32 :=
  let x := (o.take (objsize o).toNat).foldl (fun x b => x * 131 + BitVec.ofInt 32 (schar b)) 0
  (x &&& 0x7fffffff) ||| 0x8000000

def bsonBinaryEqual (arg0 arg1 : Bytes) : Except Exc Bool := do
  let object0 ← bsonObj arg0
  let object1 ← bsonObj arg1
  return binaryEqual object0 object1

def bsonHash (arg0 : Bytes) : Except Exc ℤ := do
  let object0 ← bsonObj arg0
  return (hash object0).toInt

/-- Binary equality within the size limit is equality of the bytes. -/
theorem bsonBinaryEqual_docs {d e : Doc} (hd : d.bytes.length ≤ BSONObjMaxInternalSize)
    (he : e.bytes.length ≤ BSONObjMaxInternalSize) (r r' : Bytes) :
    bsonBinaryEqual (d.bytes ++ r) (e.bytes ++ r') = .ok (decide (d.bytes = e.bytes)) := by
  have hsd := objsize_bytes (lt_of_le_maxSize hd) r
  have hse := objsize_bytes (lt_of_le_maxSize he) r'
  have hpos : d.bytes.length ≠ 0 := by simp
  simp only [bsonBinaryEqual, bsonObj_bytes hd, bsonObj_bytes he, bind, Except.bind, pure,
    Except.pure, binaryEqual, hsd, hse, Nat.cast_inj, Int.toNat_natCast, Int.natCast_eq_zero, hpos,
    false_or]
  refine congrArg Except.ok ?_
  by_cases hl : d.bytes.length = e.bytes.length
  · rw [if_pos hl, memcmp_append r r' le_rfl hl.le, memcmp_eq_order le_rfl hl.le, List.take_length,
      hl, List.take_length]
    exact decide_eq_decide.mpr (order_eq_zero.trans nats_inj)
  · have hne : d.bytes ≠ e.bytes := fun h => hl (congrArg List.length h)
    rw [if_neg hl]
    exact (decide_eq_false hne).symm

/-- **Binary equality of well-formed documents is equality of their bytes.** -/
theorem bsonBinaryEqual_bytes (a b : Stored) (r r' : Bytes) :
    bsonBinaryEqual (a.bytes ++ r) (b.bytes ++ r') = .ok (decide (a.bytes = b.bytes)) :=
  bsonBinaryEqual_docs a.size b.size r r'

theorem bsonHash_bytes (a : Stored) (r : Bytes) :
    bsonHash (a.bytes ++ r) = .ok (hash a.bytes).toInt := by
  have hr := objsize_bytes (lt_of_le_maxSize a.size) r
  have h0 := objsize_bytes (lt_of_le_maxSize a.size) []
  rw [List.append_nil] at h0
  have hh : hash (a.bytes ++ r) = hash a.bytes := by
    simp only [hash, Stored.bytes, hr, h0, Int.toNat_natCast, List.take_left', List.take_length]
  simp only [bsonHash, Stored.bytes, bsonObj_bytes a.size, bind, Except.bind, pure, Except.pure]
  exact congrArg (fun x : BitVec 32 => Except.ok x.toInt) hh

/-- The bytes of a stored document determine it. -/
theorem doc_eq_of_bytes {a b : Stored} (h : a.bytes = b.bytes) : a.doc = b.doc := by
  have hd : ∀ s : Stored, decode s.bytes = some s.doc := fun s =>
    decode_bytes s.valid.framed ((lt_of_le_maxSize s.size).trans (by decide))
  have ha := hd a
  rw [h, hd b] at ha
  exact (Option.some.inj ha).symm

/-- Binary equality of well-formed documents is equality of the documents. -/
theorem bsonBinaryEqual_iff (a b : Stored) (r r' : Bytes) :
    bsonBinaryEqual (a.bytes ++ r) (b.bytes ++ r') = .ok true ↔ a.doc = b.doc := by
  rw [bsonBinaryEqual_bytes, Except.ok.injEq, decide_eq_true_eq]
  exact ⟨doc_eq_of_bytes, fun h => by rw [Stored.bytes, h, Stored.bytes]⟩

theorem sameLeaf_refl (v : Value) : SameLeaf v v := by
  unfold SameLeaf
  split_ifs <;> simp

mutual

theorem sameValue_refl : ∀ v : Value, SameValue v v
  | .object d => sameDoc_refl d
  | .array d => sameDoc_refl d
  | .minKey | .numberDouble _ | .string _ | .binData _ _ | .undefined | .jstOID _ | .bool _
  | .date _ | .jstNULL | .regEx _ _ | .dbRef _ _ | .code _ | .symbol _ | .codeWScope _ _
  | .numberInt _ | .timestamp _ | .numberLong _ | .maxKey => sameLeaf_refl _

/-- Every document is the same as itself, whatever it holds. -/
theorem sameDoc_refl : ∀ d : Doc, SameDoc d d
  | .nil => rfl
  | .cons _ v d => ⟨rfl, sameValue_refl v, sameDoc_refl d⟩

end

theorem bsonCompare_self (a : Stored) (r r' : Bytes) :
    bsonCompare (a.bytes ++ r) (a.bytes ++ r') = .ok 0 := by
  rw [bsonCompare_bytes, cmpDoc_eq_zero a.valid a.valid]
  exact Or.inl (sameDoc_refl a.doc)

/-- **Binary equal documents have the same hash and compare equal**, and every document compares
equal to itself. -/
theorem binaryEqual_hash_compare (a b : Stored) (r r' : Bytes) :
    (bsonBinaryEqual (a.bytes ++ r) (b.bytes ++ r') = .ok true →
      (∃ h, bsonHash (a.bytes ++ r) = .ok h ∧ bsonHash (b.bytes ++ r') = .ok h) ∧
      bsonCompare (a.bytes ++ r) (b.bytes ++ r') = .ok 0) ∧
    bsonCompare (a.bytes ++ r) (a.bytes ++ r') = .ok 0 := by
  refine ⟨fun h => ?_, bsonCompare_self a r r'⟩
  rw [bsonBinaryEqual_bytes, Except.ok.injEq, decide_eq_true_eq] at h
  refine ⟨⟨_, bsonHash_bytes a r, ?_⟩, ?_⟩
  · rw [bsonHash_bytes b r', h]
  · rw [← h]
    exact bsonCompare_self a r r'

/-- The two documents `{"": NaN}`. -/
def nanDoc : Stored where
  doc := .cons [] (.numberDouble 0x7ff8000000000000) .nil
  valid := by decide
  size := by decide

theorem nanDoc_binaryEqual_hash_compare :
    bsonBinaryEqual nanDoc.bytes nanDoc.bytes = .ok true ∧
    (∃ h, bsonHash nanDoc.bytes = .ok h ∧ bsonHash nanDoc.bytes = .ok h) ∧
    bsonCompare nanDoc.bytes nanDoc.bytes = .ok 0 := by
  have he : bsonBinaryEqual nanDoc.bytes nanDoc.bytes = .ok true := by decide
  have h := (binaryEqual_hash_compare nanDoc nanDoc [] []).1
  simp only [List.append_nil] at h
  exact ⟨he, h he⟩

end PgBson.Compare.Hash
