import PgBson.Lib.Calendar
import PgBson.Record.ReadBack

/-! # Timestamps of a row

PostgreSQL counts the microseconds since 2000-01-01, a `Date` of BSON the milliseconds since
1970-01-01. `row_to_bson` makes the one from the other without a conversion: the count is stored as
it is. The two counts agree in a single instant, 2000-01-11 23:13:52.432432, and this is the only
timestamp that is stored right (`timestamp_survives_iff`). -/

namespace PgBson.Record.Timestamp

open PgBson.Lib.Memory PgBson.Lib.Calendar PgBson.Bson.Types PgBson.Bson.Document
open PgBson.Bson.Element PgBson.Access.Lookup PgBson.Access.Get
open PgBson.Record.ToBson PgBson.Record.ReadBack

/-- The microseconds from 1970-01-01 to 2000-01-01. -/
def postgresEpoch : ℤ := 946684800000000

/-- The milliseconds from 1970-01-01 to a timestamp, rounded down. -/
def millisSince1970 (ts : BitVec 64) : ℤ := (ts.toInt + postgresEpoch) / 1000

/-- The count of milliseconds lies in the years 1400 to 9999, those of `boost::gregorian`. -/
def InCalendar (m : BitVec 64) : Prop :=
  -17987443200000 ≤ m.toInt ∧ m.toInt < 253402300800000

instance (m : BitVec 64) : Decidable (InCalendar m) :=
  inferInstanceAs (Decidable (_ ∧ _))

/-- The formatter prints every time of the calendar, and the text denotes the time that many
milliseconds after 1970-01-01. Outside of the calendar it may fail or print anything. -/
def Formats (lib : Library) (instant : Bytes → Option ℤ) : Prop :=
  ∀ m, InCalendar m → ∃ t, lib.isoExtended m = .ok t ∧ instant t = some m.toInt

/-- The `Date` that is stored for a timestamp, in a row at any depth, holds its milliseconds, and
the text of a field with it denotes the timestamp to the millisecond. -/
def Survives (lib : Library) (instant : Bytes → Option ℤ) (ts : BitVec 64) : Prop :=
  (∃ v, datumToBson (.timestamp ts) = .ok (.date v) ∧ v.toInt = millisSince1970 ts) ∧
  ∀ row n, (attributes row).find? (fun a => a.1 = n) = some (n, .timestamp ts) →
    (encode row).bytes.length ≤ BSONObjMaxInternalSize →
    ∃ bs, rowToBson row = .ok bs ∧
      ∀ r, ∃ t, bsonGetText lib (bs ++ r) n.1 = .ok (some t) ∧
        instant t = some (millisSince1970 ts)

/-- The two counts agree in one instant only. -/
theorem toInt_eq_millisSince1970_iff (ts : BitVec 64) :
    ts.toInt = millisSince1970 ts ↔ ts.toInt = 947632432432 := by
  unfold millisSince1970 postgresEpoch
  omega

/-- The text of a timestamp is what the formatter makes of its count. -/
theorem bsonGetText_timestamp (lib : Library) {row : Row} {n : CString} {ts : BitVec 64}
    (h : (attributes row).find? (fun a => a.1 = n) = some (n, .timestamp ts))
    (hs : (encode row).bytes.length ≤ BSONObjMaxInternalSize) {t : Bytes}
    (ht : lib.isoExtended ts = .ok t) (r : Bytes) :
    bsonGetText lib ((encode row).bytes ++ r) n.1 = .ok (some t) := by
  have hfind : find (encode row) n.1 = some (.date ts) := by
    rw [find_encode_first, h]
    rfl
  obtain ⟨m, r', hm, hat⟩ := fieldAt_find (encode_framed row) hs n.2 hfind r
  have hsize : (Value.date ts).bytes.length < 2 ^ 31 := by simp [Value.bytes]
  rw [bsonGetText, bsonGet_elem (bsonObj_bytes hs r) hat,
    convertText_elem (v := .date ts) lib hm trivial trivial hsize, textOf, ht]
  rfl

/-- **Exactly one timestamp survives the conversion**, the one in which the two counts agree. -/
theorem timestamp_survives_iff (lib : Library) (instant : Bytes → Option ℤ)
    (hlib : Formats lib instant) (ts : BitVec 64) :
    Survives lib instant ts ↔ ts.toInt = 947632432432 := by
  constructor
  · rintro ⟨⟨v, hv, hm⟩, -⟩
    obtain rfl : ts = v := Value.date.inj (Except.ok.inj hv)
    exact (toInt_eq_millisSince1970_iff ts).mp hm
  · intro h
    have hm := (toInt_eq_millisSince1970_iff ts).mpr h
    obtain ⟨t, ht, hi⟩ := hlib ts ⟨by omega, by omega⟩
    refine ⟨⟨ts, rfl, hm⟩, fun row n hn hs => ⟨_, rowToBson_ok hs, fun r => ⟨t, ?_, ?_⟩⟩⟩
    · exact bsonGetText_timestamp lib hn hs ht r
    · rw [hi, hm]

/-- The milliseconds from day 0 of the calendar to 1970-01-01. -/
def epoch1970 : ℕ := 62162035200000

/-- `to_iso_extended_string` on `boost::posix_time` with microseconds, which has no dates outside of
its calendar. -/
def boostIso (m : BitVec 64) : Except Bytes Bytes :=
  if InCalendar m then .ok (isoText (m.toInt + epoch1970).toNat)
  else .error (ascii "Year is out of valid range: 1400..10000")

theorem boostIso_ascii {m : BitVec 64} {t : Bytes} (h : boostIso m = .ok t) :
    ∀ c ∈ t, 0 < c ∧ c < 128 := by
  unfold boostIso at h
  split at h
  · obtain rfl := Except.ok.inj h
    exact ascii_isoText _
  · cases h

/-- A library that prints times as `boost` does. -/
def boostLibrary : Library where
  isoExtended := boostIso
  isoExtended_ascii := boostIso_ascii
  what _ := ascii "std::exception"

/-- The milliseconds from 1970-01-01 to the time of a text. -/
def isoInstant (t : Bytes) : Option ℤ := some (readIso t - epoch1970)

theorem formats_boostLibrary : Formats boostLibrary isoInstant := by
  intro m hm
  refine ⟨_, if_pos hm, ?_⟩
  obtain ⟨hlo, hhi⟩ := hm
  rw [isoInstant, readIso_isoText (by unfold epoch1970; omega), Int.toNat_of_nonneg]
  · simp
  · unfold epoch1970
    omega

theorem timestamp_survives_boostLibrary :
    Formats boostLibrary isoInstant ∧
    boostIso 947632432432 = .ok (ascii "2000-01-11T23:13:52.432000") ∧
    Survives boostLibrary isoInstant 947632432432 ∧ ¬ Survives boostLibrary isoInstant 0 :=
  ⟨formats_boostLibrary, by decide +kernel,
    (timestamp_survives_iff _ _ formats_boostLibrary _).mpr (by decide),
    mt (timestamp_survives_iff _ _ formats_boostLibrary _).mp (by decide)⟩

/-- The row `ROW(timestamp '2000-01-01 00:00:00')`. -/
def epochRow : Row := .cons ⟨ascii "t", zero_notMem_t⟩ false (.timestamp 0) .nil

/-- Its timestamp is stored as 1970-01-01. -/
theorem rowToBson_epochRow_misdated :
    millisSince1970 0 = 946684800000 ∧
    ∃ bs e, rowToBson epochRow = .ok bs ∧ fieldAt bs (ascii "t") = .ok e ∧
      type e = some .date ∧ (date e).toInt = 0 :=
  ⟨rfl, _, _, rfl, rfl, rfl, rfl⟩

end PgBson.Record.Timestamp
