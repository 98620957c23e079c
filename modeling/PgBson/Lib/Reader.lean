import PgBson.Lib.Memory

/-! # Readers of byte formats

A reader takes a value off the front of the input and hands back the rest. Each comes with two
facts about the way its values are written: `_sound`, what was consumed is what is written for the
value that was read, and `_complete`, a value is read back from its own bytes, whatever follows
them. -/

namespace PgBson.Lib.Reader

open PgBson.Lib.Memory

/-- A reader of values of type `α`. -/
abbrev Reads (α : Type) := Bytes → Option (α × Bytes)

/-- `k` bytes. -/
def readBytes (k : ℕ) : Reads Bytes := fun p =>
  if k ≤ p.length then some (p.take k, p.drop k) else none

/-- A little-endian word of `k` bytes. -/
def readWord (k : ℕ) : Reads ℕ := fun p => (readBytes k p).map fun (w, r) => (leNat w, r)

/-- A C string with its NUL. -/
def readCstring : Reads Bytes := fun p => if 0 ∈ p then some (cstr p, afterCstr p) else none

/-- A four-byte count, then that many bytes. -/
def readCounted : Reads Bytes := fun p =>
  match readWord 4 p with
  | none => none
  | some (n, p) => readBytes n p

theorem readBytes_sound {k : ℕ} {p s r : Bytes} (h : readBytes k p = some (s, r)) :
    s.length = k ∧ p = s ++ r := by
  unfold readBytes at h
  split_ifs at h with hk
  simp only [Option.some.injEq, Prod.mk.injEq] at h
  obtain ⟨rfl, rfl⟩ := h
  exact ⟨by simpa using hk, (List.take_append_drop k p).symm⟩

theorem readBytes_complete {k : ℕ} {s : Bytes} (r : Bytes) (h : s.length = k) :
    readBytes k (s ++ r) = some (s, r) := by
  unfold readBytes
  rw [if_pos (by simp [h]), List.take_left' h, List.drop_left' h]

theorem readWord_sound {k n : ℕ} {p r : Bytes} (h : readWord k p = some (n, r)) :
    n < 256 ^ k ∧ p = le k n ++ r := by
  unfold readWord at h
  rw [Option.map_eq_some_iff] at h
  obtain ⟨⟨w, r'⟩, hw, he⟩ := h
  simp only [Prod.mk.injEq] at he
  obtain ⟨rfl, rfl⟩ := he
  obtain ⟨rfl, rfl⟩ := readBytes_sound hw
  exact ⟨leNat_lt w, by rw [le_leNat]⟩

theorem readWord_complete {k n : ℕ} (r : Bytes) (h : n < 256 ^ k) :
    readWord k (le k n ++ r) = some (n, r) := by
  unfold readWord
  rw [readBytes_complete r (length_le k n)]
  simp [leNat_le, Nat.mod_eq_of_lt h]

theorem readCstring_sound {p s r : Bytes} (h : readCstring p = some (s, r)) :
    0 ∉ s ∧ p = s ++ 0 :: r := by
  unfold readCstring at h
  split_ifs at h with h0
  simp only [Option.some.injEq, Prod.mk.injEq] at h
  obtain ⟨rfl, rfl⟩ := h
  exact ⟨zero_notMem_cstr p, cstr_append_afterCstr h0⟩

theorem readCstring_complete {s : Bytes} (r : Bytes) (h : 0 ∉ s) :
    readCstring (s ++ 0 :: r) = some (s, r) := by
  unfold readCstring
  rw [if_pos (by simp), cstr_append r h, afterCstr_append r h]

theorem readCounted_sound {p s r : Bytes} (h : readCounted p = some (s, r)) :
    p = le 4 s.length ++ (s ++ r) := by
  unfold readCounted at h
  split at h
  · cases h
  · next n p' hw =>
    obtain ⟨-, rfl⟩ := readWord_sound hw
    obtain ⟨rfl, rfl⟩ := readBytes_sound h
    rfl

theorem readCounted_complete {s : Bytes} (r : Bytes) (h : s.length < 2 ^ 32) :
    readCounted (le 4 s.length ++ (s ++ r)) = some (s, r) := by
  unfold readCounted
  rw [readWord_complete _ (by simpa using h)]
  exact readBytes_complete r rfl

end PgBson.Lib.Reader
