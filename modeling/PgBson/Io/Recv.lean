import PgBson.Bson.Decode
import PgBson.Bson.Element

/-! # Binary input

`bson_recv` hands the start of the message to a `BSONObj` and copies as many bytes as its length
word says. The only check is that of the constructor, on the length word alone: nothing relates it
to the number of bytes received, and no element is looked at. So the function does what it should on
well-formed messages, and on the others exactly when their length word is out of range
(`bsonRecv_validates_iff`). -/

namespace PgBson.Io.Recv

open PgBson.Lib.Memory PgBson.Bson.Types PgBson.Bson.Document PgBson.Bson.Element
open PgBson.Bson.Decode

/-- A message buffer: the bytes received and the read position in them. -/
structure StringInfo where
  data : Bytes
  cursor : ℕ

/-- The first `n` bytes at the start of the buffer, with `behind` in memory after the message. -/
def StringInfo.read (buf : StringInfo) (behind : ℕ → UInt8) (n : ℕ) : Bytes :=
  (List.range n).map fun i => buf.data.getD i (behind (i - buf.data.length))

/-- The length word the buffer starts with. -/
def StringInfo.lengthWord (buf : StringInfo) (behind : ℕ → UInt8) : ℤ :=
  objsize (buf.read behind 4)

/-- The length word is one a document may have. -/
def StringInfo.LengthInRange (buf : StringInfo) (behind : ℕ → UInt8) : Prop :=
  0 < buf.lengthWord behind ∧ buf.lengthWord behind ≤ BSONObjMaxInternalSize

/-- The stored value and the buffer after it was read. Every exception becomes one report. -/
def bsonRecv (buf : StringInfo) (behind : ℕ → UInt8) : Except Report (Bytes × StringInfo) :=
  match bsonObj (buf.read behind 4) with
  | .ok object =>
    .ok (buf.read behind (objsize object).toNat,
      { buf with cursor := buf.cursor + (objsize object).toNat })
  | .error _ => .error ⟨.invalidBinaryRepresentation, "invalid binary input for BSON"⟩

theorem read_length (data : Bytes) (cursor : ℕ) (behind : ℕ → UInt8) :
    (StringInfo.mk data cursor).read behind data.length = data := by
  refine List.ext_getElem (by simp [StringInfo.read]) fun i h _ => ?_
  have hi : i < data.length := by simpa [StringInfo.read] using h
  simp [StringInfo.read, hi]

theorem read_four {data : Bytes} (h : 4 ≤ data.length) (cursor : ℕ) (behind : ℕ → UInt8) :
    (StringInfo.mk data cursor).read behind 4 = data.take 4 := by
  refine List.ext_getElem (by simp [StringInfo.read]; omega) fun i h1 _ => ?_
  have hi : i < 4 := by simpa [StringInfo.read] using h1
  simp [StringInfo.read, show i < data.length by omega]

/-- The length word of a well-formed message counts its bytes. -/
theorem lengthWord_of_wellFormed {data : Bytes} (h : WellFormed data) (behind : ℕ → UInt8) :
    (StringInfo.mk data 0).lengthWord behind = data.length := by
  obtain ⟨s, rfl⟩ := wellFormed_iff.mp h
  have hs := objsize_bytes (lt_of_le_maxSize s.size) []
  rw [List.append_nil] at hs
  have h4 : 4 ≤ s.bytes.length := by simp [Stored.bytes]
  rw [StringInfo.lengthWord, read_four h4]
  rw [Stored.bytes, ← hs, objsize, objsize, int32, int32, word, word, List.take_take]
  simp

theorem lengthInRange_of_wellFormed {data : Bytes} (h : WellFormed data) (behind : ℕ → UInt8) :
    (StringInfo.mk data 0).LengthInRange behind := by
  have hpos : 0 < data.length := by
    obtain ⟨s, rfl⟩ := wellFormed_iff.mp h
    simp [Stored.bytes]
  rw [StringInfo.LengthInRange, lengthWord_of_wellFormed h]
  exact ⟨by exact_mod_cast hpos, by exact_mod_cast h.1⟩

theorem bsonRecv_ok {data : Bytes} {behind : ℕ → UInt8}
    (h : (StringInfo.mk data 0).LengthInRange behind) :
    bsonRecv ⟨data, 0⟩ behind =
      .ok ((StringInfo.mk data 0).read behind ((StringInfo.mk data 0).lengthWord behind).toNat,
        ⟨data, ((StringInfo.mk data 0).lengthWord behind).toNat⟩) := by
  have hv : isValid ((StringInfo.mk data 0).read behind 4) = true := decide_eq_true h
  simp only [bsonRecv, bsonObj, hv, if_true, zero_add]
  rfl

theorem bsonRecv_error {data : Bytes} {behind : ℕ → UInt8}
    (h : ¬ (StringInfo.mk data 0).LengthInRange behind) :
    bsonRecv ⟨data, 0⟩ behind =
      .error ⟨.invalidBinaryRepresentation, "invalid binary input for BSON"⟩ := by
  have hv : isValid ((StringInfo.mk data 0).read behind 4) = false := decide_eq_false h
  simp only [bsonRecv, bsonObj, hv, Bool.false_eq_true, if_false]

/-- **`bsonRecv` validates a message, whatever lies behind it in memory, exactly when the message is
well formed or its length word is out of range.** -/
theorem bsonRecv_validates_iff (data : Bytes) (behind : ℕ → UInt8) :
    (((∃ v buf, bsonRecv ⟨data, 0⟩ behind = .ok (v, buf)) ↔ WellFormed data) ∧
      ∀ v buf, bsonRecv ⟨data, 0⟩ behind = .ok (v, buf) → v = data ∧ buf.cursor = data.length) ↔
    (WellFormed data ∨ ¬ (StringInfo.mk data 0).LengthInRange behind) := by
  constructor
  · rintro ⟨hiff, -⟩
    exact or_iff_not_imp_right.mpr fun hw => hiff.mp ⟨_, _, bsonRecv_ok (not_not.mp hw)⟩
  · rintro (hwf | hw)
    · have hok := bsonRecv_ok (lengthInRange_of_wellFormed hwf behind)
      rw [lengthWord_of_wellFormed hwf, Int.toNat_natCast, read_length] at hok
      refine ⟨⟨fun _ => hwf, fun _ => ⟨_, _, hok⟩⟩, fun v buf h => ?_⟩
      rw [hok, Except.ok.injEq, Prod.mk.injEq] at h
      obtain ⟨rfl, rfl⟩ := h
      exact ⟨rfl, rfl⟩
    · have hnot : ¬ WellFormed data := fun h => hw (lengthInRange_of_wellFormed h behind)
      simp [bsonRecv_error hw, hnot]

/-- Five bytes that end in a one instead of the EOO byte. -/
def unterminated : Bytes := [5, 0, 0, 0, 1]

theorem bsonRecv_accepts_unterminated :
    ¬ (((∃ v buf, bsonRecv ⟨unterminated, 0⟩ (fun _ => 0) = .ok (v, buf)) ↔
        WellFormed unterminated) ∧
      ∀ v buf, bsonRecv ⟨unterminated, 0⟩ (fun _ => 0) = .ok (v, buf) →
        v = unterminated ∧ buf.cursor = unterminated.length) := by
  rintro ⟨hiff, -⟩
  have hwf : ¬ WellFormed unterminated := by decide
  exact hwf (hiff.mp ⟨_, _, rfl⟩)

end PgBson.Io.Recv
