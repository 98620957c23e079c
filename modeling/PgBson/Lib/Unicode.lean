import PgBson.Lib.Memory

/-! # UTF-8

A text in UTF-8 is the bytes of a sequence of characters. A byte below 128 is a character of its own
and never part of another one, so a text can be cut there (`Utf8.cut`). Surrogates are no
characters, and their codes do not occur (`Utf8.lt_behind_ed`). -/

namespace PgBson.Lib.Unicode

open PgBson.Lib.Memory

/-- The bytes of a sequence of characters. -/
def Utf8 (s : Bytes) : Prop := ∃ m : List Char, s = m.flatMap String.utf8EncodeChar

theorem utf8_nil : Utf8 [] := ⟨[], rfl⟩

theorem utf8_char (c : Char) : Utf8 (String.utf8EncodeChar c) := ⟨[c], by simp⟩

theorem Utf8.append {s t : Bytes} (hs : Utf8 s) (ht : Utf8 t) : Utf8 (s ++ t) := by
  obtain ⟨m, rfl⟩ := hs
  obtain ⟨n, rfl⟩ := ht
  exact ⟨m ++ n, List.flatMap_append.symm⟩

/-- The bytes of a code point that is a character. -/
theorem utf8EncodeChar_ofNat {n : ℕ} (h : n.isValidChar) :
    String.utf8EncodeChar (Char.ofNat n) =
      if n ≤ 127 then [UInt8.ofNat n]
      else if n ≤ 2047 then [UInt8.ofNat (n / 64 % 32 + 192), UInt8.ofNat (n % 64 + 128)]
      else if n ≤ 65535 then
        [UInt8.ofNat (n / 4096 % 16 + 224), UInt8.ofNat (n / 64 % 64 + 128),
          UInt8.ofNat (n % 64 + 128)]
      else
        [UInt8.ofNat (n / 262144 % 8 + 240), UInt8.ofNat (n / 4096 % 64 + 128),
          UInt8.ofNat (n / 64 % 64 + 128), UInt8.ofNat (n % 64 + 128)] := by
  have hn : (Char.ofNat n).val.toNat = n := by
    rw [Char.ofNat, dif_pos h]
    rfl
  rw [String.utf8EncodeChar]
  simp only [hn]

/-! ### Bytes below 128 -/

theorem le_ofNat_add {a k : ℕ} (hk : 128 ≤ k) (h : a + k < 256) : 128 ≤ UInt8.ofNat (a + k) := by
  rw [UInt8.le_iff_toNat_le, UInt8.toNat_ofNat_of_lt' h]
  exact hk.trans (Nat.le_add_left k a)

/-- A character is one byte below 128, or it has no such byte. -/
theorem utf8EncodeChar_cases (c : Char) :
    (∃ b, String.utf8EncodeChar c = [b]) ∨ ∀ b ∈ String.utf8EncodeChar c, 128 ≤ b := by
  unfold String.utf8EncodeChar
  dsimp only
  split_ifs
  · exact Or.inl ⟨_, rfl⟩
  all_goals
    refine Or.inr fun b hb => ?_
    simp only [List.mem_cons, List.not_mem_nil, or_false] at hb
    rcases hb with rfl | rfl | rfl | rfl
    all_goals exact le_ofNat_add (by omega) (by omega)

theorem utf8_singleton {b : UInt8} (h : b < 128) : Utf8 [b] := by
  have hb : b.toNat < 128 := UInt8.lt_iff_toNat_lt.mp h
  have hc := utf8_char (Char.ofNat b.toNat)
  rwa [utf8EncodeChar_ofNat (Or.inl (by omega)), if_pos (by omega), UInt8.ofNat_toNat] at hc

theorem utf8_of_ascii {s : Bytes} (h : ∀ b ∈ s, b < 128) : Utf8 s := by
  induction s with
  | nil => exact utf8_nil
  | cons b s ih =>
    have hs : Utf8 s := ih fun c hc => h c (List.mem_cons_of_mem b hc)
    exact (utf8_singleton (h b List.mem_cons_self)).append hs

/-- **A text can be cut at a byte below 128.** -/
theorem Utf8.cut {a b : Bytes} {c : UInt8} (hc : c < 128) (h : Utf8 (a ++ c :: b)) :
    Utf8 a ∧ Utf8 b := by
  obtain ⟨m, hm⟩ := h
  induction m generalizing a with
  | nil => simp at hm
  | cons ch m ih =>
    rw [List.flatMap_cons] at hm
    rcases List.append_eq_append_iff.mp hm with ⟨x, hx, hrest⟩ | ⟨x, rfl, hrest⟩
    · -- The cut is in the character or before what follows it.
      cases x with
      | nil =>
        rw [List.append_nil] at hx
        exact ⟨hx ▸ utf8_char ch, (ih (a := []) hrest).2⟩
      | cons c' x =>
        obtain ⟨rfl, rfl⟩ := List.cons.inj hrest
        have hmem : c ∈ String.utf8EncodeChar ch := by simp [hx]
        rcases utf8EncodeChar_cases ch with ⟨y, hy⟩ | hge
        · rw [hy] at hx
          obtain ⟨rfl, hcx⟩ := List.append_eq_singleton_iff.mp hx.symm |>.resolve_right (by simp)
          obtain rfl : x = [] := (List.cons.inj hcx).2
          exact ⟨utf8_nil, m, rfl⟩
        · exact absurd (hge c hmem) (UInt8.not_le.mpr hc)
    · obtain ⟨hx, hb⟩ := ih hrest.symm
      exact ⟨(utf8_char ch).append hx, hb⟩

theorem Utf8.of_cons {b : Bytes} {c : UInt8} (hc : c < 128) (h : Utf8 (c :: b)) : Utf8 b :=
  (Utf8.cut (a := []) hc h).2

/-- What stands behind a byte below 128 in a text is a text. -/
theorem Utf8.behind {s b : Bytes} {c : UInt8} (h : Utf8 s) (hc : c < 128) (hs : c :: b <:+ s) :
    Utf8 b := by
  obtain ⟨a, rfl⟩ := hs
  exact (h.cut hc).2

/-! ### Surrogates -/

/-- Behind its first byte a character has bytes below 192. -/
theorem lt_of_mem_tail {c : Char} {b : UInt8} (h : b ∈ (String.utf8EncodeChar c).tail) :
    b < 192 := by
  have hlt : ∀ a : ℕ, UInt8.ofNat (a % 64 + 128) < 192 := by
    intro a
    rw [UInt8.lt_iff_toNat_lt, UInt8.toNat_ofNat']
    change _ < 192
    omega
  unfold String.utf8EncodeChar at h
  dsimp only at h
  split_ifs at h <;> simp only [List.tail_cons, List.mem_cons, List.not_mem_nil, or_false] at h
  · exact h ▸ hlt _
  · rcases h with rfl | rfl <;> exact hlt _
  · rcases h with rfl | rfl | rfl <;> exact hlt _

/-- A character that starts with the byte `0xed` is not a surrogate. -/
theorem lt_of_encodeChar_ed {c : Char} {b : Bytes} (h : String.utf8EncodeChar c = 0xed :: b) :
    ∃ x z, b = x :: z ∧ x < 0xa0 := by
  have hv := c.valid
  unfold String.utf8EncodeChar at h
  dsimp only at h
  split_ifs at h
  all_goals
    injection h with hlead hb
    have hn := congrArg UInt8.toNat hlead
    rw [UInt8.toNat_ofNat'] at hn
    change _ = 237 at hn
  · omega
  · omega
  · refine ⟨_, _, hb.symm, UInt8.lt_iff_toNat_lt.mpr ?_⟩
    rw [UInt8.toNat_ofNat']
    change _ < 160
    omega
  · omega

/-- **In a text the byte `0xed` is followed by one below `0xa0`**: with the others it would be the
code of a surrogate. -/
theorem Utf8.lt_behind_ed {a b : Bytes} {x : UInt8} (h : Utf8 (a ++ 0xed :: x :: b)) :
    x < 0xa0 := by
  obtain ⟨m, hm⟩ := h
  induction m generalizing a with
  | nil => simp at hm
  | cons ch m ih =>
    rw [List.flatMap_cons] at hm
    rcases List.append_eq_append_iff.mp hm with ⟨y, hy, hrest⟩ | ⟨y, rfl, hrest⟩
    · cases y with
      | nil => exact ih (a := []) hrest
      | cons c y =>
        obtain ⟨rfl, htail⟩ := List.cons.inj hrest
        cases a with
        | nil =>
          obtain ⟨x', z, rfl, hx⟩ := lt_of_encodeChar_ed hy
          exact (List.cons.inj htail).1 ▸ hx
        | cons c a =>
          have hmem : 0xed ∈ (String.utf8EncodeChar ch).tail := by simp [hy]
          exact absurd (lt_of_mem_tail hmem) (by decide)
    · exact ih hrest.symm

end PgBson.Lib.Unicode
