import Mathlib.Data.Nat.Find
import PgBson.Lib.Decimal

/-! # The calendar and its texts

The proleptic Gregorian calendar as a numbering of days, and the extended format of ISO 8601 for an
instant: `2000-01-11T23:13:52`, with six digits of a second behind a point when they are not all
zero. A year of the calculation begins in March, so that the leap day is its last. Day 0 is
0000-03-01, and an instant is the number of milliseconds since the beginning of that day.

The text of an instant before the year 10000 is read back (`readIso_isoText`). -/

namespace PgBson.Lib.Calendar

open PgBson.Lib.Memory PgBson.Lib.Decimal

/-! ### Days -/

/-- The days from day 0 to the first of March of the year `y`. -/
def daysBefore (y : ℕ) : ℕ := 365 * y + y / 4 - y / 100 + y / 400

/-- The year, begun in March, that the day `n` lies in. -/
def yearOf (n : ℕ) : ℕ := Nat.findGreatest (fun y => daysBefore y ≤ n) (n / 365)

theorem daysBefore_yearOf_le (n : ℕ) : daysBefore (yearOf n) ≤ n :=
  Nat.findGreatest_spec (P := fun y => daysBefore y ≤ n) (Nat.zero_le _) (Nat.zero_le n)

theorem lt_daysBefore_yearOf (n : ℕ) : n < daysBefore (yearOf n) + 366 := by
  have hnext : n < daysBefore (yearOf n + 1) := by
    by_contra h
    have hle : yearOf n + 1 ≤ n / 365 := by
      unfold daysBefore at h
      omega
    exact Nat.findGreatest_is_greatest (Nat.lt_succ_self _) hle (not_lt.mp h)
  have : daysBefore (yearOf n + 1) ≤ daysBefore (yearOf n) + 366 := by
    unfold daysBefore
    omega
  omega

/-- A date of the calendar. -/
structure Date where
  year : ℕ
  month : ℕ
  day : ℕ

/-- The date of the day `r` of the year that begins in March of `y`. -/
def dateIn (y r : ℕ) : Date :=
  let m := (5 * r + 2) / 153
  { year := if m < 10 then y else y + 1
    month := if m < 10 then m + 3 else m - 9
    day := r - (153 * m + 2) / 5 + 1 }

/-- The date of the day `n`. -/
def dateOf (n : ℕ) : Date := dateIn (yearOf n) (n - daysBefore (yearOf n))

/-- The day of a date. -/
def dayOf (d : Date) : ℕ :=
  daysBefore (if d.month < 3 then d.year - 1 else d.year) +
    (153 * ((d.month + 9) % 12) + 2) / 5 + (d.day - 1)

theorem dayOf_dateIn (y : ℕ) {r : ℕ} (h : r < 366) : dayOf (dateIn y r) = daysBefore y + r := by
  by_cases hm : (5 * r + 2) / 153 < 10
  · have hmonth : ((5 * r + 2) / 153 + 3 + 9) % 12 = (5 * r + 2) / 153 := by omega
    simp only [dayOf, dateIn, if_pos hm]
    rw [if_neg (by omega), hmonth]
    omega
  · have hmonth : ((5 * r + 2) / 153 - 9 + 9) % 12 = (5 * r + 2) / 153 := by omega
    simp only [dayOf, dateIn, if_neg hm]
    rw [if_pos (by omega), Nat.add_sub_cancel, hmonth]
    omega

/-- The date of a day determines it. -/
theorem dayOf_dateOf (n : ℕ) : dayOf (dateOf n) = n := by
  have hle := daysBefore_yearOf_le n
  have hlt := lt_daysBefore_yearOf n
  rw [dateOf, dayOf_dateIn _ (by omega)]
  omega

theorem month_dateOf (n : ℕ) : (dateOf n).month < 10 ^ 2 := by
  have h := lt_daysBefore_yearOf n
  simp only [dateOf, dateIn]
  split <;> omega

theorem day_dateOf (n : ℕ) : (dateOf n).day < 10 ^ 2 := by
  simp only [dateOf, dateIn]
  omega

/-- The last day of the year 9999 is the day 3652364. -/
theorem year_dateOf {n : ℕ} (h : n < 3652365) : (dateOf n).year < 10 ^ 4 := by
  have hle := daysBefore_yearOf_le n
  have hy : yearOf n < 10000 := by
    unfold daysBefore at hle
    omega
  simp only [dateOf, dateIn]
  split
  · exact hy
  · rename_i hm
    by_contra hc
    obtain hy : yearOf n = 9999 := by omega
    rw [hy] at hm
    simp only [daysBefore] at hm
    omega

/-! ### Instants -/

/-- The fraction of a second, left out when it is zero. -/
def fraction (ms : ℕ) : Bytes := if ms = 0 then [] else 46 :: (padded 3 ms ++ [48, 48, 48])

/-- The text of an instant. -/
def isoText (k : ℕ) : Bytes :=
  let d := dateOf (k / 86400000)
  padded 4 d.year ++ (45 :: (padded 2 d.month ++ (45 :: (padded 2 d.day ++
    (84 :: (padded 2 (k / 3600000 % 24) ++ (58 :: (padded 2 (k / 60000 % 60) ++
      (58 :: (padded 2 (k / 1000 % 60) ++ fraction (k % 1000)))))))))))

example : isoText 63109667632432 = ascii "2000-01-11T23:13:52.432000" := by decide +kernel

/-- A number of `k` digits, and what follows the character behind it. -/
def field (k : ℕ) (t : Bytes) : ℕ × Bytes := (numeral (t.take k), t.drop (k + 1))

/-- The instant of a text, to the millisecond. -/
def readIso (t : Bytes) : ℕ :=
  let (year, t) := field 4 t
  let (month, t) := field 2 t
  let (day, t) := field 2 t
  let (hours, t) := field 2 t
  let (minutes, t) := field 2 t
  let (seconds, t) := field 2 t
  dayOf ⟨year, month, day⟩ * 86400000 + hours * 3600000 + minutes * 60000 + seconds * 1000 +
    numeral (t.take 3)

theorem field_padded (k n : ℕ) (r : Bytes) :
    field k (padded k n ++ r) = (n % 10 ^ k, r.tail) := by
  rw [field, List.take_left' (length_padded k n), numeral_padded, ← List.drop_drop,
    List.drop_left' (length_padded k n), List.drop_one]

theorem numeral_fraction {m : ℕ} (h : m < 10 ^ 3) : numeral ((fraction m).tail.take 3) = m := by
  unfold fraction
  split
  · next hz => rw [hz]; rfl
  · rw [List.tail_cons, List.take_left' (length_padded 3 m), numeral_padded, Nat.mod_eq_of_lt h]

/-- **The text of an instant denotes it.** -/
theorem readIso_isoText {k : ℕ} (h : k < 315564336000000) : readIso (isoText k) = k := by
  have hy := year_dateOf (n := k / 86400000) (by omega)
  have hm := month_dateOf (k / 86400000)
  have hd := day_dateOf (k / 86400000)
  have hf := numeral_fraction (m := k % 1000) (by omega)
  simp only [readIso, isoText, field_padded, List.tail_cons, hf]
  rw [Nat.mod_eq_of_lt hy, Nat.mod_eq_of_lt hm, Nat.mod_eq_of_lt hd, dayOf_dateOf]
  omega

theorem ascii_padded (k n : ℕ) : ∀ c ∈ padded k n, 0 < c ∧ c < 128 := fun c hc => by
  have hd := isdigit_of_mem_padded hc
  simp only [isdigit, Bool.and_eq_true, decide_eq_true_eq, UInt8.le_iff_toNat_le] at hd
  rw [UInt8.lt_iff_toNat_lt, UInt8.lt_iff_toNat_lt]
  exact ⟨lt_of_lt_of_le (by decide) hd.1, lt_of_le_of_lt hd.2 (by decide)⟩

theorem ascii_fraction (ms : ℕ) : ∀ c ∈ fraction ms, 0 < c ∧ c < 128 := by
  unfold fraction
  split
  · exact fun c hc => absurd hc List.not_mem_nil
  · have hzeros : ∀ c ∈ [48, 48, 48], (0 : UInt8) < c ∧ c < 128 := by simp
    rw [List.forall_mem_cons, List.forall_mem_append]
    exact ⟨by decide, ascii_padded _ _, hzeros⟩

theorem ascii_isoText (k : ℕ) : ∀ c ∈ isoText k, 0 < c ∧ c < 128 := by
  simp only [isoText, List.forall_mem_append, List.forall_mem_cons]
  exact ⟨ascii_padded _ _, by decide, ascii_padded _ _, by decide, ascii_padded _ _, by decide,
    ascii_padded _ _, by decide, ascii_padded _ _, by decide, ascii_padded _ _, ascii_fraction _⟩

end PgBson.Lib.Calendar
