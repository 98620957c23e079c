import PgBson.Access.Rows
import PgBson.Io.Recv
import PgBson.Json.Accepts
import PgBson.Json.Stable
import PgBson.Lib.Refinement
import PgBson.Record.ToBson

/-! # A table of values

What happens to stored values over a whole session: values come in as text, as binary messages and
as rows, parts of stored values and the rows of their arrays are stored again, values are dumped and
restored as text and in binary, and they are deleted.

The functions work on bytes. Given texts without the escape of a NUL, well-formed messages and rows
that are clean, the table is at any time the encoding of a list of documents that changes as `exec`
says (`table_refines`): no sequence of calls makes a value that is not well formed or leads to
undefined behaviour (`table_safe`). -/

namespace PgBson.Io.Table

open PgBson.Lib.Memory PgBson.Lib.Strtod PgBson.Lib.Refinement
open PgBson.Bson.Types PgBson.Bson.Document PgBson.Bson.Element PgBson.Bson.Decode
open PgBson.Access.Lookup (bsonGetBson bsonGetBson_bytes valueAt asDoc asDoc_valid length_asDoc_le
  findDotted_fits)
open PgBson.Access.Unwind (rowsOf rowsAt slotsAt rowDoc Sound slotsAt_sound)
open PgBson.Access.Rows (run_bytes rowDoc_valid length_rowDoc_le)
open PgBson.Json.Parse (fromjson bsonIn)
open PgBson.Json.Print (bsonOut str)
open PgBson.Json.Text (docText bsonOut_bytes)
open PgBson.Json.Restore (Readable restoreDoc valid_restoreDoc length_restoreDoc_le
  docInRange_of_readable)
open PgBson.Json.Dump (bsonIn_docText)
open PgBson.Json.Runs (NulFree)
open PgBson.Json.Accepts (bsonIn_ok fromjson_ok)
open PgBson.Record.ToBson PgBson.Io.Recv

/-! ### The functions on a table -/

/-- `bson_send`: the argument itself. -/
def bsonSend (arg : Bytes) : Bytes := arg

/-- A call whose result is stored, or a deletion. `k` counts the values of the table; behind a value
other bytes lie in memory. -/
inductive Command
  /-- A literal, through `bson_in`. -/
  | input (text : Bytes)
  /-- A binary parameter, through `bson_recv`. -/
  | receive (message : Bytes) (behind : ℕ → UInt8)
  /-- `row_to_bson`. -/
  | row (record : Row)
  /-- `bson_get_bson`. -/
  | field (k : ℕ) (path behind : Bytes)
  /-- `bson_unwind_array`. -/
  | unwind (k : ℕ) (path behind : Bytes) (toasted : Bool)
  /-- A dump as text that is restored: `bson_out` and `bson_in`. -/
  | reload (k : ℕ) (behind : Bytes)
  /-- A binary dump that is restored: `bson_send` and `bson_recv`. -/
  | copy (k : ℕ) (behind : ℕ → UInt8)
  | delete (k : ℕ)

/-- The table after a literal was converted; a report leaves it as it is. -/
def store {ε : Type} (db : List Bytes) : Except ε Bytes → List Bytes
  | .ok bs => db ++ [bs]
  | .error _ => db

/-- What a command does to the stored bytes. An exception that leaves a function ends the
session. -/
inductive Step (rt : Runtime) : Command → List Bytes → Except Exc (List Bytes) → Prop
  | input {db : List Bytes} {text : Bytes} :
      Step rt (.input text) db (.ok (store db (bsonIn rt text)))
  | receive {db : List Bytes} {message : Bytes} {behind : ℕ → UInt8} :
      Step rt (.receive message behind) db
        (.ok (store db ((bsonRecv ⟨message, 0⟩ behind).map Prod.fst)))
  | row {db : List Bytes} {record : Row} :
      Step rt (.row record) db ((rowToBson record).map fun bs => db ++ [bs])
  | field {db : List Bytes} {k : ℕ} {path behind bs : Bytes} (hk : db[k]? = some bs) :
      Step rt (.field k path behind) db
        ((bsonGetBson (bs ++ behind) path).map fun v => db ++ v.toList)
  | unwind {db : List Bytes} {k : ℕ} {path behind bs : Bytes} {toasted : Bool} {fuel : ℕ}
      {res : Except Exc (List Bytes)} (hk : db[k]? = some bs)
      (h : Access.Unwind.run toasted path (fun _ => bs ++ behind) fuel 0 none = some res) :
      Step rt (.unwind k path behind toasted) db (res.map fun rows => db ++ rows)
  | reload {db : List Bytes} {k : ℕ} {behind bs : Bytes} (hk : db[k]? = some bs) :
      Step rt (.reload k behind) db
        ((bsonOut (bs ++ behind)).map fun text => store db (bsonIn rt text))
  | copy {db : List Bytes} {k : ℕ} {behind : ℕ → UInt8} {bs : Bytes} (hk : db[k]? = some bs) :
      Step rt (.copy k behind) db
        (.ok (store db ((bsonRecv ⟨bsonSend bs, 0⟩ behind).map Prod.fst)))
  | delete {db : List Bytes} {k : ℕ} : Step rt (.delete k) db (.ok (db.eraseIdx k))

/-! ### The documents of a table -/

/-- The documents for the rows of a vector. -/
def rowDocs : List (Option Value) → Except Exc (List Doc)
  | [] => .ok []
  | none :: _ => .error .verifyFailed
  | some v :: s => (rowDocs s).map (rowDoc v :: ·)

/-- What a command does to the documents. -/
def exec (rt : Runtime) (c : Command) (ds : List Doc) : Except Exc (List Doc) :=
  match c with
  | .input text =>
    match fromjson rt (cstr text) with
    | .ok d => .ok (ds ++ [d])
    | .error _ => .ok ds
  | .receive message _ => .ok (ds ++ (decode message).toList)
  | .row record => (compositeToBson record >>= obj).map fun d => ds ++ [d]
  | .field k path _ =>
    .ok (ds ++ ((ds[k]?.bind fun d => valueAt d path).map asDoc).toList)
  | .unwind k path _ _ =>
    match ds[k]? with
    | some d => (slotsAt d path >>= rowDocs).map fun rows => ds ++ rows
    | none => .ok ds
  | .reload k _ =>
    match ds[k]? with
    | some d => (str (docText d)).map fun _ => ds ++ (restoreDoc rt d).toList
    | none => .ok ds
  | .copy k _ => .ok (ds ++ ds[k]?.toList)
  | .delete k => .ok (ds.eraseIdx k)

/-- Every document may be stored. -/
def Storable (ds : List Doc) : Prop :=
  ∀ d ∈ ds, d.Valid ∧ d.bytes.length ≤ BSONObjMaxInternalSize

/-- What is asked of the callers: values that are read exist, texts have no escape of a NUL,
messages are well formed, rows clean, and a document that is dumped as text can be read back. -/
def Allows (ds : List Doc) : Command → Prop
  | .input text => NulFree (cstr text)
  | .receive message _ => WellFormed message
  | .row record => record.Clean
  | .field k _ _ | .unwind k _ _ _ | .copy k _ => k < ds.length
  | .reload k _ => ∃ d, ds[k]? = some d ∧ Readable (.object d)
  | .delete _ => True

/-! ### One command -/

section steps
variable {rt : Runtime} {ds : List Doc}

theorem Storable.append {es : List Doc} (h : Storable ds) (he : Storable es) :
    Storable (ds ++ es) := by
  intro d hd
  rcases List.mem_append.mp hd with hd | hd
  · exact h d hd
  · exact he d hd

theorem storable_toList {o : Option Doc}
    (h : ∀ d, o = some d → d.Valid ∧ d.bytes.length ≤ BSONObjMaxInternalSize) :
    Storable o.toList := by
  intro d hd
  exact h d (Option.mem_toList.mp hd)

/-- A document of the table with its invariant. -/
def Storable.stored {k : ℕ} {d : Doc} (h : Storable ds) (hk : ds[k]? = some d) : Stored where
  doc := d
  valid := (h d (List.mem_of_getElem? hk)).1
  size := (h d (List.mem_of_getElem? hk)).2

theorem getElem?_bytes {k : ℕ} {bs : Bytes} (h : (ds.map Doc.bytes)[k]? = some bs) :
    ∃ d, ds[k]? = some d ∧ d.bytes = bs := by
  rwa [List.getElem?_map, Option.map_eq_some_iff] at h

theorem store_input (text : Bytes) :
    Except.ok (store (ds.map Doc.bytes) (bsonIn rt text)) =
      (exec rt (.input text) ds).map (List.map Doc.bytes) := by
  rw [exec, bsonIn]
  rcases hd : fromjson rt (cstr text) with e | d
  · rfl
  · have hb := returnBson_bytes (fromjson_ok hd).2 []
    rw [List.append_nil] at hb
    simp [store, hb, Except.map]

theorem bsonRecv_bytes (a : Stored) (behind : ℕ → UInt8) :
    (bsonRecv ⟨a.bytes, 0⟩ behind).map Prod.fst = .ok a.bytes := by
  have hwf : WellFormed a.bytes := wellFormed_iff.mpr ⟨a, rfl⟩
  have hok := bsonRecv_ok (lengthInRange_of_wellFormed hwf behind)
  rw [lengthWord_of_wellFormed hwf, Int.toNat_natCast, read_length] at hok
  rw [hok]
  rfl

theorem decode_stored (a : Stored) : decode a.bytes = some a.doc :=
  decode_bytes a.valid.framed ((lt_of_le_maxSize a.size).trans (by omega))

theorem rowToBson_map (record : Row) :
    (rowToBson record).map (fun bs => ds.map Doc.bytes ++ [bs]) =
      (exec rt (.row record) ds).map (List.map Doc.bytes) := by
  rw [exec, rowToBson]
  rcases hc : compositeToBson record with e | d
  · rfl
  rcases ho : obj d with e | d'
  · simp [ho, bind, Except.bind, Except.map]
  · obtain ⟨rfl, hs⟩ := size_of_obj ho
    have hb := returnBson_bytes hs []
    rw [List.append_nil] at hb
    simp [ho, hb, bind, Except.bind, Except.map, pure, Except.pure]

theorem rowsOf_rowDocs : ∀ vs : List (Option Value),
    rowsOf vs = (rowDocs vs).map (List.map Doc.bytes)
  | [] => rfl
  | none :: _ => rfl
  | some v :: vs => by
    rw [rowsOf, rowDocs, rowsOf_rowDocs vs]
    cases rowDocs vs <;> rfl

theorem storable_rowDocs : ∀ {vs : List (Option Value)} {rows : List Doc},
    (∀ v ∈ vs, Sound v) → rowDocs vs = .ok rows → Storable rows
  | [], rows, _, h => by
    obtain rfl := Except.ok.inj h
    exact fun d hd => absurd hd List.not_mem_nil
  | none :: _, _, _, h => by cases h
  | some v :: vs, rows, hv, h => by
    rw [rowDocs] at h
    rcases hr : rowDocs vs with e | rows'
    · rw [hr] at h
      cases h
    rw [hr] at h
    obtain rfl := Except.ok.inj h
    obtain ⟨hvalid, hsize⟩ := hv _ List.mem_cons_self v rfl
    have ih := storable_rowDocs (fun u hu => hv u (List.mem_cons_of_mem _ hu)) hr
    intro d hd
    rcases List.mem_cons.mp hd with rfl | hd
    · exact ⟨rowDoc_valid hvalid, (length_rowDoc_le v).trans hsize⟩
    · exact ih d hd

/-- The calls of a run are the same however many would be allowed. -/
theorem run_unique {toasted : Bool} {path : Bytes} {args : ℕ → Bytes} :
    ∀ {fuel fuel' i : ℕ} {st : Option Access.Unwind.FuncCallContext}
      {x y : Except Exc (List Bytes)}, Access.Unwind.run toasted path args fuel i st = some x →
      Access.Unwind.run toasted path args fuel' i st = some y → x = y
  | 0, _, _, _, _, _, h, _ => by cases h
  | _, 0, _, _, _, _, _, h => by cases h
  | fuel + 1, fuel' + 1, i, st, x, y, h, h' => by
    rw [Access.Unwind.run] at h h'
    rcases hc : Access.Unwind.bsonUnwindArray toasted path (args i) st with e | _ | ⟨row, st'⟩
    · rw [hc] at h h'
      exact Option.some.inj (h.symm.trans h')
    · rw [hc] at h h'
      exact Option.some.inj (h.symm.trans h')
    · rw [hc] at h h'
      obtain ⟨x', hx, rfl⟩ := Option.map_eq_some_iff.mp h
      obtain ⟨y', hy, rfl⟩ := Option.map_eq_some_iff.mp h'
      rw [run_unique hx hy]

theorem reload_stored (a : Stored) (h : Readable (.object a.doc)) (behind : Bytes) :
    (bsonOut (a.bytes ++ behind)).map (fun text => store (ds.map Doc.bytes) (bsonIn rt text)) =
      ((str (docText a.doc)).map fun _ => ds ++ (restoreDoc rt a.doc).toList).map
        (List.map Doc.bytes) := by
  have hs : a.doc.elems.length + 5 ≤ BSONObjMaxInternalSize := by
    rw [← length_bytes]
    exact a.size
  rw [bsonOut_bytes a (docInRange_of_readable h.2 (by omega)) behind]
  unfold str
  split_ifs
  · rfl
  · simp only [Except.map, bsonIn_docText rt a h]
    cases restoreDoc rt a.doc <;> simp [store]

/-- **What a command does to the bytes is what it does to the documents.** -/
theorem exec_of_step {c : Command} {r : Except Exc (List Bytes)} (hs : Storable ds)
    (hc : Allows ds c) (h : Step rt c (ds.map Doc.bytes) r) :
    r = (exec rt c ds).map (List.map Doc.bytes) := by
  cases h with
  | input => exact store_input _
  | receive =>
    obtain ⟨a, rfl⟩ := wellFormed_iff.mp hc
    rw [bsonRecv_bytes, exec, decode_stored]
    simp [store, Except.map, Stored.bytes]
  | row => exact rowToBson_map _
  | @field _ k path behind bs hk =>
    obtain ⟨d, hd, rfl⟩ := getElem?_bytes hk
    rw [show d.bytes = (hs.stored hd).bytes from rfl, bsonGetBson_bytes, exec, hd, Storable.stored]
    dsimp only [Except.map, Option.bind_some]
    cases valueAt d path <;> simp
  | @unwind _ k path behind bs toasted fuel res hk hrun =>
    obtain ⟨d, hd, rfl⟩ := getElem?_bytes hk
    obtain ⟨fuel', hrows⟩ := run_bytes toasted (hs.stored hd) behind path
    obtain rfl : res = rowsAt d path := run_unique hrun hrows
    rw [rowsAt, exec, hd]
    dsimp only
    cases slotsAt d path with
    | error e => rfl
    | ok vs =>
      dsimp only [bind, Except.bind]
      rw [rowsOf_rowDocs]
      cases rowDocs vs <;> simp [Except.map]
  | reload hk =>
    obtain ⟨d, hd, rfl⟩ := getElem?_bytes hk
    obtain ⟨d', hd', hr⟩ := hc
    obtain rfl : d = d' := Option.some.inj (hd.symm.trans hd')
    rw [exec, hd]
    exact reload_stored (hs.stored hd) hr _
  | copy hk =>
    obtain ⟨d, hd, rfl⟩ := getElem?_bytes hk
    rw [bsonSend, show d.bytes = (hs.stored hd).bytes from rfl, bsonRecv_bytes, exec, hd]
    simp [store, Except.map, Storable.stored, Stored.bytes]
  | delete => rw [exec, Except.map, List.eraseIdx_map]

theorem exists_step {c : Command} (hs : Storable ds) (hc : Allows ds c) :
    ∃ r, Step rt c (ds.map Doc.bytes) r := by
  have hget : ∀ {k : ℕ} {d : Doc}, ds[k]? = some d → (ds.map Doc.bytes)[k]? = some d.bytes := by
    intro k d hd
    rw [List.getElem?_map, hd, Option.map_some]
  cases c with
  | input => exact ⟨_, .input⟩
  | receive => exact ⟨_, .receive⟩
  | row => exact ⟨_, .row⟩
  | field k path behind => exact ⟨_, .field (hget (List.getElem?_eq_getElem hc))⟩
  | unwind k path behind toasted =>
    have hd := List.getElem?_eq_getElem hc
    obtain ⟨fuel, hrun⟩ := run_bytes toasted (hs.stored hd) behind path
    exact ⟨_, .unwind (hget hd) hrun⟩
  | reload k behind =>
    obtain ⟨d, hd, -⟩ := hc
    exact ⟨_, .reload (hget hd)⟩
  | copy k behind => exact ⟨_, .copy (hget (List.getElem?_eq_getElem hc))⟩
  | delete k => exact ⟨_, .delete⟩

/-- **Documents that may be stored stay so.** -/
theorem storable_exec {c : Command} {es : List Doc} (hs : Storable ds) (hc : Allows ds c)
    (h : exec rt c ds = .ok es) : Storable es := by
  cases c with
  | input text =>
    rw [exec] at h
    rcases hd : fromjson rt (cstr text) with e | d
    · rw [hd] at h
      exact Except.ok.inj h ▸ hs
    · rw [hd] at h
      obtain ⟨hgood, hsize⟩ := fromjson_ok hd
      obtain rfl := Except.ok.inj h
      refine hs.append fun d' hd' => ?_
      obtain rfl := List.mem_singleton.mp hd'
      exact ⟨hgood.valid (hgood.framed hc), hsize⟩
  | receive message behind =>
    obtain ⟨a, rfl⟩ := wellFormed_iff.mp hc
    rw [exec, decode_stored] at h
    obtain rfl := Except.ok.inj h
    exact hs.append (storable_toList fun d hd => Option.some.inj hd ▸ ⟨a.valid, a.size⟩)
  | row record =>
    rw [exec] at h
    rcases hd : compositeToBson record with e | d
    · simp [hd, bind, Except.bind, Except.map] at h
    rcases ho : obj d with e | d'
    · simp [hd, ho, bind, Except.bind, Except.map] at h
    simp only [hd, ho, bind, Except.bind, Except.map, Except.ok.injEq] at h
    obtain ⟨rfl, hsize⟩ := size_of_obj ho
    obtain rfl := eq_encode hd
    subst h
    refine hs.append fun e he => ?_
    obtain rfl := List.mem_singleton.mp he
    exact ⟨(encode_valid_iff record).mpr hc, hsize⟩
  | field k path behind =>
    rw [exec] at h
    obtain rfl := Except.ok.inj h
    refine hs.append (storable_toList fun e he => ?_)
    obtain ⟨v, hv, rfl⟩ := Option.map_eq_some_iff.mp he
    obtain ⟨d, hd, hv⟩ := Option.bind_eq_some_iff.mp hv
    obtain ⟨hvalid, hsize⟩ := hs d (List.mem_of_getElem? hd)
    have hfit := findDotted_fits hvalid hv
    exact ⟨asDoc_valid hfit.valid, (length_asDoc_le v).trans (hfit.size.trans hsize)⟩
  | unwind k path behind toasted =>
    have hd := List.getElem?_eq_getElem hc
    rw [exec, hd] at h
    rcases hv : slotsAt ds[k] path with e | vs
    · simp [hv, bind, Except.bind, Except.map] at h
    rcases hr : rowDocs vs with e | rows
    · simp [hv, hr, bind, Except.bind, Except.map] at h
    simp only [hv, hr, bind, Except.bind, Except.map, Except.ok.injEq] at h
    subst h
    exact hs.append (storable_rowDocs (slotsAt_sound (hs.stored hd) hv) hr)
  | reload k behind =>
    obtain ⟨d, hd, hr⟩ := hc
    rw [exec, hd] at h
    rcases ht : str (docText d) with e | t
    · simp [ht, Except.map] at h
    simp only [ht, Except.map, Except.ok.injEq] at h
    subst h
    obtain ⟨hvalid, hsize⟩ := hs d (List.mem_of_getElem? hd)
    refine hs.append (storable_toList fun e he => ⟨valid_restoreDoc hvalid he, ?_⟩)
    have hlen := length_restoreDoc_le he
    rw [length_bytes] at hsize ⊢
    omega
  | copy k behind =>
    rw [exec] at h
    obtain rfl := Except.ok.inj h
    exact hs.append (storable_toList fun d hd => hs d (List.mem_of_getElem? hd))
  | delete k =>
    rw [exec] at h
    obtain rfl := Except.ok.inj h
    exact fun d hd => hs d (List.mem_of_mem_eraseIdx hd)

/-- The exceptions that end a session: an array that is too long or has a gap, an object or a text
that is too large. -/
def Refused (e : Exc) : Prop :=
  e = .verifyFailed ∨ e = .msgasserted 10334 ∨ e = .msgasserted 13548

theorem refused_done {d : Doc} {e : Exc} (h : done d = .error e) : Refused e := by
  unfold done bsonObj at h
  split_ifs at h
  · cases h
  · exact .inr (.inl (Except.error.inj h).symm)

theorem refused_obj {d : Doc} {e : Exc} (h : obj d = .error e) : Refused e := by
  unfold obj at h
  split_ifs at h
  · exact .inr (.inr (Except.error.inj h).symm)
  · exact refused_done h

theorem refused_slotsFrom : ∀ {d : Doc} {vs : List (Option Value)} {e : Exc},
    Access.ArrayVector.slotsFrom d vs = .error e → Refused e
  | .nil, _, _, h => by cases h
  | .cons n v d, vs, e, h => by
    rw [Access.ArrayVector.slotsFrom] at h
    split at h
    · split_ifs at h
      · exact refused_slotsFrom h
      · exact .inl (Except.error.inj h).symm
    · exact refused_slotsFrom h

theorem refused_slotsAt {d : Doc} {path : Bytes} {e : Exc} (h : slotsAt d path = .error e) :
    Refused e := by
  unfold slotsAt at h
  split at h
  · cases h
  · exact refused_slotsFrom h
  · cases h

theorem refused_rowDocs : ∀ {vs : List (Option Value)} {e : Exc}, rowDocs vs = .error e → Refused e
  | [], _, h => by cases h
  | none :: _, _, h => .inl (Except.error.inj h).symm
  | some v :: vs, e, h => by
    rw [rowDocs] at h
    rcases hr : rowDocs vs with e' | rows
    · rw [hr] at h
      obtain rfl := Except.error.inj h
      exact refused_rowDocs hr
    · rw [hr] at h
      cases h

mutual

theorem refused_datumToBson : ∀ {v : Datum} {e : Exc}, datumToBson v = .error e → Refused e
  | .record r, e, h => by
    simp only [datumToBson, bind, Except.bind] at h
    rcases hc : compositeToBson r with e' | d
    · rw [hc] at h
      obtain rfl := Except.error.inj h
      exact refused_compositeToBson hc
    rcases hd : done d with e' | d'
    · simp only [hc, hd, Except.error.injEq] at h
      exact h ▸ refused_done hd
    · simp [hc, hd, pure, Except.pure] at h
  | .bson b, e, h => by
    rw [datumToBson_ok (v := .bson b) b.size] at h
    cases h
  | .null, _, h | .bool _, _, h | .char _, _, h | .int8 _, _, h | .int2 _, _, h | .int4 _, _, h
  | .text _ _, _, h | .float4 _, _, h | .float8 _, _, h | .timestamp _, _, h | .other _, _, h => by
    cases h

theorem refused_compositeToBson : ∀ {r : Row} {e : Exc}, compositeToBson r = .error e → Refused e
  | .nil, _, h => by cases h
  | .cons n true v r, e, h => by
    rw [compositeToBson, if_pos rfl] at h
    exact refused_compositeToBson h
  | .cons n false v r, e, h => by
    simp only [compositeToBson, Bool.false_eq_true, if_false, bind, Except.bind] at h
    rcases hv : datumToBson v with e' | w
    · rw [hv] at h
      obtain rfl := Except.error.inj h
      exact refused_datumToBson hv
    rcases hc : compositeToBson r with e' | d
    · simp only [hv, hc, Except.error.injEq] at h
      exact h ▸ refused_compositeToBson hc
    · simp [hv, hc, pure, Except.pure] at h

end

theorem refused_exec {c : Command} {e : Exc} (h : exec rt c ds = .error e) : Refused e := by
  cases c with
  | input text =>
    rw [exec] at h
    split at h <;> cases h
  | receive | field | copy | delete => cases h
  | row record =>
    rw [exec] at h
    rcases hd : compositeToBson record with e' | d
    · simp only [hd, bind, Except.bind, Except.map, Except.error.injEq] at h
      exact h ▸ refused_compositeToBson hd
    rcases ho : obj d with e' | d'
    · simp only [hd, ho, bind, Except.bind, Except.map, Except.error.injEq] at h
      exact h ▸ refused_obj ho
    · simp [hd, ho, bind, Except.bind, Except.map] at h
  | unwind k path behind toasted =>
    rw [exec] at h
    split at h
    · next d _ =>
      rcases hv : slotsAt d path with e' | vs
      · simp only [hv, bind, Except.bind, Except.map, Except.error.injEq] at h
        exact h ▸ refused_slotsAt hv
      rcases hr : rowDocs vs with e' | rows
      · simp only [hv, hr, bind, Except.bind, Except.map, Except.error.injEq] at h
        exact h ▸ refused_rowDocs hr
      · simp [hv, hr, bind, Except.bind, Except.map] at h
    · cases h
  | reload k behind =>
    rw [exec] at h
    split at h
    · unfold str at h
      split_ifs at h
      · exact .inr (.inr (Except.error.inj h).symm)
      · cases h
    · cases h

end steps

/-! ### Whole sessions -/

theorem refines (rt : Runtime) :
    Refines (Step rt) (exec rt) (List.map Doc.bytes) Storable Allows where
  total := exists_step
  sound := exec_of_step
  keeps := storable_exec

/-- **A table is at any time the encoding of a list of documents**: a session that starts with the
encoding of documents ends, and it ends as the commands on the documents say. -/
theorem table_refines (rt : Runtime) (ds : List Doc) (hs : Storable ds) (cs : List Command)
    (hc : Allowed (exec rt) Allows cs ds) :
    (∃ r, Runs (Step rt) cs (ds.map Doc.bytes) r) ∧
      ∀ r, Runs (Step rt) cs (ds.map Doc.bytes) r →
        r = (execs (exec rt) cs ds).map (List.map Doc.bytes) :=
  ⟨(refines rt).run_total hs hc, fun _ => (refines rt).run_sound hs hc⟩

/-- An object with an array comes in, the array is unwound, and the object is deleted. -/
def session : List Command :=
  [.input (ascii "\x7b\"a\":[null,true]\x7d"), .unwind 0 (ascii "a") [] false, .delete 0]

/-- The array of the session. -/
def sessionDoc : Doc :=
  .cons (ascii "a") (.array (.cons (ascii "0") .jstNULL (.cons (ascii "1") (.bool 1) .nil))) .nil

theorem session_allowed : Allowed (exec .common) Allows session [] := by
  have hin : exec .common (.input (ascii "\x7b\"a\":[null,true]\x7d")) [] = .ok [sessionDoc] := by
    decide +kernel
  have hnul : NulFree (cstr (ascii "\x7b\"a\":[null,true]\x7d")) := ⟨by decide, by decide⟩
  refine ⟨hnul, fun ds hds => ⟨?_, fun es _ => ⟨trivial, fun _ _ => trivial⟩⟩⟩
  obtain rfl := Except.ok.inj (hin.symm.trans hds)
  exact Nat.zero_lt_one

theorem table_refines_session :
    ∃ r, Runs (Step .common) session [] r ∧
      r = .ok [[7, 0, 0, 0, 10, 0, 0], [8, 0, 0, 0, 8, 0, 1, 0]] := by
  obtain ⟨⟨r, hr⟩, hall⟩ :=
    table_refines .common [] (fun d hd => absurd hd List.not_mem_nil) session session_allowed
  refine ⟨r, hr, (hall r hr).trans ?_⟩
  decide +kernel

/-- A session goes through and leaves well-formed values, or it is ended by a limit. -/
def EndsWell : Except Exc (List Bytes) → Prop
  | .ok db => ∀ bs ∈ db, WellFormed bs
  | .error e => Refused e

/-- **No session makes a value that is not well formed**, and none leads to undefined behaviour: it
goes through, or it is ended by a limit. -/
theorem table_safe (rt : Runtime) (cs : List Command) (hc : Allowed (exec rt) Allows cs [])
    {r : Except Exc (List Bytes)} (h : Runs (Step rt) cs [] r) : EndsWell r := by
  have hnil : Storable [] := fun d hd => absurd hd List.not_mem_nil
  have hr := (refines rt).run_sound hnil hc h
  cases he : execs (exec rt) cs [] with
  | ok es =>
    rw [he] at hr
    subst hr
    intro bs hbs
    obtain ⟨d, hd, rfl⟩ := List.mem_map.mp hbs
    obtain ⟨hvalid, hsize⟩ := (refines rt).run_keeps hnil hc he d hd
    exact wellFormed_iff.mpr ⟨⟨d, hvalid, hsize⟩, rfl⟩
  | error e =>
    rw [he] at hr
    subst hr
    exact (refines rt).run_error (fun _ _ => refused_exec) hnil hc he

theorem table_safe_session : ∃ r, Runs (Step .common) session [] r ∧ EndsWell r := by
  obtain ⟨r, hr⟩ := (refines .common).run_total (t := []) (fun d hd => absurd hd List.not_mem_nil)
    session_allowed
  exact ⟨r, hr, table_safe .common session session_allowed hr⟩

end PgBson.Io.Table
