import Mathlib.Data.List.Lex
import PgBson.Dotted.Convert

/-! # What nesting keeps

The source warns that the two conversions are not quite reversible. What holds is this: flattening
what was nested gives what flattening the sorted fields gives (`nested2dotted_dotted2nested`). The
open builders together always hold the fields that were appended, under their whole names (`Keeps`).

`EmbeddedBuilder` assumes that the names come in ascending order. They do, and so no name stops at
an open builder and `substr` is never called behind the end of one
(`dotted2nested_never_outOfRange`). -/

namespace PgBson.Dotted.Meaning

open PgBson.Lib.Memory PgBson.Bson.Types PgBson.Bson.Document
open PgBson.Bson.Element (size_of_obj eq_of_done)
open PgBson.Dotted.Embedded PgBson.Dotted.Context PgBson.Dotted.Convert

/-! ### Fields -/

theorem valid_ofFields {fs : List (Bytes × Value)} :
    (ofFields fs).Valid ↔ ∀ p ∈ fs, 0 ∉ p.1 ∧ p.2.Valid := by
  induction fs with
  | nil => simp [ofFields, Doc.Valid]
  | cons p fs ih => simp [ofFields, Doc.Valid, ih, and_assoc]

theorem mem_assign {α : Type} {name : Bytes} {e : α} {p : Bytes × α} :
    ∀ {m : List (Bytes × α)}, p ∈ assign name e m → p = (name, e) ∨ p ∈ m
  | [], h => .inl (List.mem_singleton.mp h)
  | (n, x) :: m, h => by
    rw [assign] at h
    split_ifs at h
    · exact List.mem_cons.mp h
    · exact (List.mem_cons.mp h).imp_right (List.mem_cons_of_mem _)
    · rcases List.mem_cons.mp h with rfl | h
      · exact .inr List.mem_cons_self
      · exact (mem_assign h).imp_right (List.mem_cons_of_mem _)

theorem length_assign (name : Bytes) (v : Value) : ∀ m : List (Bytes × Value),
    (ofFields (assign name v m)).elems.length ≤
      (Doc.cons name v .nil).elems.length + (ofFields m).elems.length
  | [] => by simp [assign, ofFields, Doc.elems]
  | (n, x) :: m => by
    have ih := length_assign name v m
    rw [assign]
    split_ifs
    all_goals
      simp only [ofFields, Doc.elems, List.length_cons, List.length_append, List.length_nil] at ih ⊢
      omega

theorem sorted_valid : ∀ {d : Doc} {m : List (Bytes × Value)}, d.Valid → (ofFields m).Valid →
    (ofFields (sorted d m)).Valid
  | .nil, _, _, hm => hm
  | .cons n v d, m, hd, hm => by
    rw [sorted]
    refine sorted_valid hd.2.2 (valid_ofFields.mpr fun p hp => ?_)
    rcases mem_assign hp with rfl | hp
    · exact ⟨hd.1, hd.2.1⟩
    · exact valid_ofFields.mp hm p hp

theorem length_sorted : ∀ (d : Doc) (m : List (Bytes × Value)),
    (ofFields (sorted d m)).elems.length ≤ d.elems.length + (ofFields m).elems.length
  | .nil, _ => by simp [sorted]
  | .cons n v d, m => by
    have ih := length_sorted d (assign n v m)
    have ha := length_assign n v m
    rw [sorted]
    simp only [Doc.elems, List.length_cons, List.length_append, List.length_nil] at ha ⊢
    omega

theorem sorted_size (s : Stored) :
    (ofFields (sorted s.doc [])).bytes.length ≤ BSONObjMaxInternalSize := by
  have h := length_sorted s.doc []
  have hs := s.size
  rw [length_bytes] at hs ⊢
  simp only [ofFields, Doc.elems, List.length_nil] at h
  omega

/-- The sorted fields of a document are a document. -/
def sortedStored (s : Stored) : Stored where
  doc := ofFields (sorted s.doc [])
  valid := sorted_valid s.valid trivial
  size := sorted_size s

/-! ### The fields of open builders -/

/-- The fields that the open builders hold, under their whole names. -/
def meaning : Builders (List (Bytes × Value)) → List (Bytes × Value)
  | [] => []
  | (n, c) :: bs => meaning bs ++ dotted (path ((n, c) :: bs)) (ofFields c)

/-- The builders hold these fields, and what each holds can be stored. -/
structure Keeps (bs : Builders (List (Bytes × Value))) (fs : List (Bytes × Value)) : Prop where
  ne_nil : bs ≠ []
  path_valid : 0 ∉ path bs
  valid : ∀ p ∈ bs, (ofFields p.2).Valid
  meaning_eq : meaning bs = fs

theorem path_cons (n : Bytes) (c : List (Bytes × Value)) {bs : Builders (List (Bytes × Value))}
    (h : bs ≠ []) : path ((n, c) :: bs) = path bs ++ n ++ [46] := by
  simp [path, names_cons n c h]

theorem nest_ok {n : Bytes} {c d d' : List (Bytes × Value)} (h : docTarget.nest n c d = .ok d') :
    d' = d ++ [(n, .object (ofFields c))] := by
  simp only [docTarget] at h
  rcases hd : Bson.Element.done (ofFields c) with e | o
  · rw [hd] at h
    cases h
  · rw [hd] at h
    rw [← eq_of_done hd]
    exact (Except.ok.inj h).symm

variable {bs cs : Builders (List (Bytes × Value))} {fs : List (Bytes × Value)}

/-- A field for the innermost builder. -/
theorem Keeps.append {m rest : Bytes} {c : List (Bytes × Value)} {v : Value}
    (h : Keeps ((m, c) :: bs) fs) (h0 : 0 ∉ rest) (hv : v.Valid) :
    Keeps ((m, c ++ [(rest, v)]) :: bs)
      (fs ++ dottedValue (path ((m, c) :: bs) ++ rest) v) where
  ne_nil := List.cons_ne_nil _ _
  path_valid := h.path_valid
  valid p hp := by
    rcases List.mem_cons.mp hp with rfl | hp
    · refine valid_ofFields.mpr fun q hq => ?_
      rcases List.mem_append.mp hq with hq | hq
      · exact valid_ofFields.mp (h.valid _ List.mem_cons_self) q hq
      · obtain rfl := List.mem_singleton.mp hq
        exact ⟨h0, hv⟩
    · exact h.valid p (List.mem_cons_of_mem _ hp)
  meaning_eq := by
    rw [← h.meaning_eq, meaning, meaning, dotted_append]
    simp only [ofFields, dotted, List.append_nil, List.append_assoc]
    rfl

theorem Keeps.popBuilder (h : Keeps bs fs) (hp : Embedded.popBuilder docTarget bs = .ok cs) :
    Keeps cs fs := by
  rcases bs with _ | ⟨⟨n, c⟩, _ | ⟨⟨m, d⟩, rest⟩⟩
  · exact (h.ne_nil rfl).elim
  · obtain rfl := Except.ok.inj hp
    exact h
  · rw [Embedded.popBuilder] at hp
    obtain ⟨d', hn, hp⟩ := bind_eq_ok.mp hp
    obtain rfl := Except.ok.inj hp
    obtain rfl := nest_ok hn
    have hpath := path_cons n c (List.cons_ne_nil (m, d) rest)
    have h0 := h.path_valid
    rw [hpath, List.mem_append, List.mem_append, not_or, not_or] at h0
    -- what is closed keeps its names, as its path is that of the outer builder and its own name
    have houter : Keeps ((m, d) :: rest) (meaning ((m, d) :: rest)) :=
      ⟨List.cons_ne_nil _ _, h0.1.1, fun p hp => h.valid p (List.mem_cons_of_mem _ hp), rfl⟩
    have hinner : (Value.object (ofFields c)).Valid := h.valid (n, c) List.mem_cons_self
    have hmeaning : meaning ((m, d) :: rest) ++
        dotted (path ((n, c) :: (m, d) :: rest)) (ofFields c) = fs := h.meaning_eq
    have hkeeps := houter.append h0.1.2 hinner
    rwa [dottedValue, ← hpath, hmeaning] at hkeeps

theorem Keeps.popBuilders : ∀ {k : ℕ} {bs : Builders (List (Bytes × Value))}, Keeps bs fs →
    Embedded.popBuilders docTarget k bs = .ok cs → Keeps cs fs
  | 0, _, h, hp => by
    obtain rfl := Except.ok.inj hp
    exact h
  | k + 1, bs, h, hp => by
    rw [Embedded.popBuilders] at hp
    obtain ⟨ds, hb, hp⟩ := bind_eq_ok.mp hp
    exact (h.popBuilder hb).popBuilders hp

/-- The builders that are opened hold nothing yet. -/
theorem addBuilders_meaning : ∀ (fuel : ℕ) (name : Bytes) (bs : Builders (List (Bytes × Value))),
    meaning (addBuilders docTarget fuel name bs).1 = meaning bs ∧
      ((∀ p ∈ bs, (ofFields p.2).Valid) →
        ∀ p ∈ (addBuilders docTarget fuel name bs).1, (ofFields p.2).Valid)
  | 0, _, _ => ⟨rfl, id⟩
  | fuel + 1, name, bs => by
    rw [addBuilders]
    dsimp only
    split_ifs with hempty
    · exact ⟨rfl, id⟩
    · obtain ⟨hm, hv⟩ := addBuilders_meaning fuel (splitDot name).2
        (((splitDot name).1, docTarget.empty) :: bs)
      refine ⟨hm.trans (by simp [meaning, docTarget, ofFields, dotted]), fun h => hv ?_⟩
      intro p hp
      rcases List.mem_cons.mp hp with rfl | hp
      · exact valid_ofFields.mpr fun _ h => (List.not_mem_nil h).elim
      · exact h p hp

theorem Keeps.prepareContext {name rest : Bytes} (h : Keeps bs fs) (h0 : 0 ∉ name)
    (hp : Embedded.prepareContext docTarget name bs = .ok (cs, rest)) : Keeps cs fs := by
  obtain ⟨hne, hpre, -⟩ := prepareContext_spec docTarget h0 h.ne_nil hp
  obtain ⟨i, name', ds, -, hpop, hadd⟩ := prepareContext_ok docTarget hp
  have hds := h.popBuilders hpop
  obtain ⟨hm, hv⟩ := addBuilders_meaning (name'.length + 1) name' ds
  rw [hadd] at hm hv
  exact ⟨hne, fun hz => h0 (hpre.subset hz), hv hds.valid, hm.trans hds.meaning_eq⟩

theorem zero_notMem_foo {name : Bytes} (h0 : 0 ∉ name) : 0 ∉ name ++ ascii ".foo" := by
  rw [List.mem_append, not_or]
  exact ⟨h0, by decide⟩

/-- The two ways of an element: into the innermost builder, or an empty object that is left open. -/
theorem appendAs_ok {name : Bytes} {v : Value}
    (h : Embedded.appendAs docTarget name v bs = .ok cs) :
    (v = .object .nil ∧
        ∃ rest, prepareContext docTarget (name ++ ascii ".foo") bs = .ok (cs, rest)) ∨
      ∃ ds rest, prepareContext docTarget name bs = .ok (ds, rest) ∧
        appendBack docTarget rest v ds = .ok cs := by
  rw [Embedded.appendAs] at h
  obtain ⟨b, hb, h⟩ := bind_eq_ok.mp h
  obtain rfl : decide (v = .object .nil) = b := Except.ok.inj hb
  split_ifs at h with hv
  · obtain ⟨⟨ds, rest⟩, hc, h⟩ := bind_eq_ok.mp h
    obtain rfl := Except.ok.inj h
    exact .inl ⟨of_decide_eq_true hv, rest, hc⟩
  · obtain ⟨⟨ds, rest⟩, hc, h⟩ := bind_eq_ok.mp h
    exact .inr ⟨ds, rest, hc, h⟩

/-- An element fails only for its place. -/
theorem appendAs_error {name : Bytes} {v : Value} {e : Failure}
    (h : Embedded.appendAs docTarget name v bs = .error e) :
    prepareContext docTarget (name ++ ascii ".foo") bs = .error e ∨
      prepareContext docTarget name bs = .error e := by
  rw [Embedded.appendAs] at h
  rcases bind_eq_error.mp h with hb | ⟨b, -, h⟩
  · cases hb
  split_ifs at h
  · rcases bind_eq_error.mp h with hc | ⟨p, -, h⟩
    · exact .inl hc
    · cases h
  · rcases bind_eq_error.mp h with hc | ⟨⟨ds, rest⟩, -, h⟩
    · exact .inr hc
    · cases ds <;> cases h

/-- **An element is kept under its whole name**, if no part of the name is empty. -/
theorem Keeps.appendAs {name : Bytes} {v : Value} (h : Keeps bs fs) (h0 : 0 ∉ name)
    (hw : WellDotted name) (hv : v.Valid)
    (hp : Embedded.appendAs docTarget name v bs = .ok cs) :
    Keeps cs (fs ++ dottedValue name v) := by
  rcases appendAs_ok hp with ⟨rfl, rest, hc⟩ | ⟨ds, rest, hc, hback⟩
  · simpa [dottedValue, dotted] using h.prepareContext (zero_notMem_foo h0) hc
  · have hds := h.prepareContext h0 hc
    have hname := (prepareContext_spec docTarget h0 h.ne_nil hc).2.2 hw
    rcases ds with _ | ⟨⟨m, c⟩, ds⟩
    · exact (hds.ne_nil rfl).elim
    · obtain rfl := Except.ok.inj hback
      rw [← hname] at h0 ⊢
      exact hds.append (fun hz => h0 (List.mem_append_right _ hz)) hv

theorem Keeps.appendAll : ∀ {es : List (Bytes × Value)} {bs : Builders (List (Bytes × Value))}
    {fs : List (Bytes × Value)}, (ofFields es).Valid → (∀ p ∈ es, WellDotted p.1) → Keeps bs fs →
    Embedded.appendAll docTarget es bs = .ok cs → Keeps cs (fs ++ dotted [] (ofFields es))
  | [], bs, fs, _, _, h, hp => by
    obtain rfl := Except.ok.inj hp
    simpa [ofFields, dotted] using h
  | (name, v) :: es, bs, fs, hv, hw, h, hp => by
    rw [Embedded.appendAll] at hp
    obtain ⟨ds, ha, hp⟩ := bind_eq_ok.mp hp
    have hds := h.appendAs hv.1 (hw _ List.mem_cons_self) hv.2.1 ha
    have hcs := hds.appendAll hv.2.2 (fun p hp => hw p (List.mem_cons_of_mem _ hp)) hp
    simpa [ofFields, dotted] using hcs

/-- **What is built is a document with the fields that were appended.** -/
theorem embed_meaning {es c : List (Bytes × Value)} (hv : (ofFields es).Valid)
    (hw : ∀ p ∈ es, WellDotted p.1) (h : embed docTarget es = .ok c) :
    (ofFields c).Valid ∧ dotted [] (ofFields c) = dotted [] (ofFields es) := by
  rw [embed] at h
  have hstart : Keeps [([], docTarget.empty)] [] :=
    ⟨List.cons_ne_nil _ _, by simp [path],
      fun p hp => by rw [List.mem_singleton.mp hp]; exact valid_ofFields.mpr (by simp [docTarget]),
      by simp [meaning, docTarget, ofFields, dotted]⟩
  obtain ⟨bs, ha, h⟩ := bind_eq_ok.mp h
  obtain ⟨cs, hp, h⟩ := bind_eq_ok.mp h
  rw [done] at hp
  have hbs := hstart.appendAll hv hw ha
  have hcs := hbs.popBuilders hp
  have hnames := (popBuilders_names hp hbs.ne_nil).2
  rw [Nat.sub_self, List.take_zero] at hnames
  rcases cs with _ | ⟨⟨m, c'⟩, _ | ⟨q, cs⟩⟩
  · exact (hcs.ne_nil rfl).elim
  · obtain rfl : c' = c := Except.ok.inj h
    exact ⟨hcs.valid _ List.mem_cons_self, by simpa [meaning, path] using hcs.meaning_eq⟩
  · rw [names_cons m c' (List.cons_ne_nil q cs)] at hnames
    exact (List.append_ne_nil_of_right_ne_nil _ (List.cons_ne_nil m []) hnames).elim

/-- **Flattening what was nested is flattening the sorted fields**, if no part of a name before a
dot is empty. -/
theorem nested2dotted_dotted2nested (s : Stored) (r : Bytes) {n : Bytes}
    (hw : ∀ p ∈ sorted s.doc [], WellDotted p.1) (h : dotted2nested (s.bytes ++ r) = .ok n) :
    nested2dotted n = nested2dotted (sortedStored s).bytes := by
  rw [dotted2nested_bytes] at h
  rcases he : embed docTarget (sorted s.doc []) with e | c
  · rw [he] at h
    cases h
  simp only [he, Except.bind] at h
  rcases ho : Bson.Element.obj (ofFields c) with e | o
  · rw [ho] at h
    cases h
  obtain ⟨rfl, hsize⟩ := size_of_obj ho
  rw [ho] at h
  obtain rfl : (ofFields c).bytes = n := Except.ok.inj h
  obtain ⟨hvalid, hdotted⟩ := embed_meaning (sortedStored s).valid hw he
  have hleft := nested2dotted_bytes ⟨ofFields c, hvalid, hsize⟩ []
  have hright := nested2dotted_bytes (sortedStored s) []
  rw [List.append_nil] at hleft hright
  rw [hright]
  exact hleft.trans (by rw [hdotted]; rfl)

/-- The document of the source's warning, `{a.b: {c: ..}}`, behind a field that sorts after it. -/
def warned : Stored where
  doc := .cons (ascii "b") (.bool 1)
    (.cons (ascii "a.b") (.object (.cons (ascii "c") (.bool 0) .nil)) .nil)
  valid := by decide
  size := by decide

theorem nested2dotted_dotted2nested_warned : ∃ n, dotted2nested warned.bytes = .ok n ∧
    nested2dotted n =
      .ok (Doc.cons (ascii "a.b.c") (.bool 0) (.cons (ascii "b") (.bool 1) .nil)).bytes := by
  have h : dotted2nested (warned.bytes ++ []) = .ok (Doc.cons (ascii "a")
      (.object (.cons (ascii "b") (.object (.cons (ascii "c") (.bool 0) .nil)) .nil))
      (.cons (ascii "b") (.bool 1) .nil)).bytes := by decide +kernel
  refine ⟨_, by simpa using h, ?_⟩
  rw [nested2dotted_dotted2nested warned [] (by decide +kernel) h]
  decide +kernel

/-! ### Names in ascending order -/

/-- The order of a `std::map`. -/
def Ascending {α : Type} (m : List (Bytes × α)) : Prop := m.Pairwise fun p q => nats p.1 < nats q.1

theorem assign_ascending {α : Type} (name : Bytes) (e : α) :
    ∀ {m : List (Bytes × α)}, Ascending m → Ascending (assign name e m)
  | [], _ => List.pairwise_singleton _ _
  | (n, x) :: m, h => by
    obtain ⟨hn, hm⟩ := List.pairwise_cons.mp h
    rw [assign]
    split_ifs with hlt heq
    · refine List.pairwise_cons.mpr ⟨fun q hq => ?_, h⟩
      rcases List.mem_cons.mp hq with rfl | hq
      · exact hlt
      · exact hlt.trans (hn q hq)
    · subst heq
      exact List.pairwise_cons.mpr ⟨hn, hm⟩
    · refine List.pairwise_cons.mpr ⟨fun q hq => ?_, assign_ascending name e hm⟩
      rcases mem_assign hq with rfl | hq
      · exact lt_of_le_of_ne (not_lt.mp hlt) fun h => heq (nats_inj.mp h).symm
      · exact hn q hq

theorem sorted_ascending : ∀ (d : Doc) {m : List (Bytes × Value)}, Ascending m →
    Ascending (sorted d m)
  | .nil, _, hm => hm
  | .cons n v d, _, hm => sorted_ascending d (assign_ascending n v hm)

theorem not_nats_lt_of_isPrefix {a b : Bytes} (h : a <+: b) : ¬ nats b < nats a :=
  (h.map UInt8.toNat).le

/-- The names to come are behind every name that stops at an open builder. -/
def Ahead (bs : Builders (List (Bytes × Value))) (es : List (Bytes × Value)) : Prop :=
  ∀ stop, stop ++ [46] <+: path bs → ∀ p ∈ es, nats stop < nats p.1

theorem isPrefix_of_foo {stop name : Bytes} (h : stop ++ [46] <+: name ++ ascii ".foo") :
    stop <+: name := by
  obtain ⟨q, hq⟩ := h
  rw [List.append_assoc, List.append_eq_append_iff] at hq
  rcases hq with ⟨a, rfl, -⟩ | ⟨a, rfl, ha⟩
  · exact List.prefix_append _ _
  · -- there is no dot behind the one of `.foo`
    rcases a with _ | ⟨x, a⟩
    · simp
    · have hmem : (46 : UInt8) ∈ ascii "foo" := by
        rw [show ascii "foo" = a ++ ([46] ++ q) from (List.cons.inj ha).2]
        simp
      exact absurd hmem (by decide)

theorem popBuilders_error : ∀ {k : ℕ} {bs : Builders (List (Bytes × Value))} {e : Failure},
    popBuilders docTarget k bs = .error e → e ≠ .outOfRange
  | 0, _, _, h => by cases h
  | k + 1, bs, e, h => by
    rw [popBuilders] at h
    rcases bind_eq_error.mp h with hb | ⟨ds, -, h⟩
    · rcases bs with _ | ⟨⟨n, c⟩, _ | ⟨⟨m, d⟩, rest⟩⟩
      · cases hb
      · cases hb
      · simp only [popBuilder, docTarget] at hb
        rcases hd : Bson.Element.done (ofFields c) with x | o
        · rw [hd] at hb
          rintro rfl
          cases hb
        · rw [hd] at hb
          cases hb
    · exact popBuilders_error h

/-- One element: no name stops at an open builder, and the names to come stay ahead. -/
theorem appendAs_ahead {name : Bytes} {v : Value} {es : List (Bytes × Value)} (hne : bs ≠ [])
    (h0 : 0 ∉ name) (hlater : ∀ p ∈ es, nats name < nats p.1) (ha : Ahead bs ((name, v) :: es)) :
    (∀ e, Embedded.appendAs docTarget name v bs = .error e → e ≠ .outOfRange) ∧
      ∀ cs, Embedded.appendAs docTarget name v bs = .ok cs → cs ≠ [] ∧ Ahead cs es := by
  have hstop : ∀ {stop : Bytes}, name <+: stop → ¬ stop ++ [46] <+: path bs := fun hpre hp =>
    not_nats_lt_of_isPrefix hpre (ha _ hp _ List.mem_cons_self)
  have hlt : ∀ {stop : Bytes}, stop <+: name → ∀ p ∈ es, nats stop < nats p.1 := fun hpre p hp =>
    lt_of_le_of_lt (not_lt.mp (not_nats_lt_of_isPrefix hpre)) (hlater p hp)
  refine ⟨fun e he => ?_, fun cs hcs => ?_⟩
  · rcases appendAs_error he with he | he
    · rcases prepareContext_error docTarget (zero_notMem_foo h0) he with hp | ⟨k, hk⟩
      · exact (hstop (List.prefix_append _ _) hp).elim
      · exact popBuilders_error hk
    · rcases prepareContext_error docTarget h0 he with hp | ⟨k, hk⟩
      · exact (hstop List.prefix_rfl hp).elim
      · exact popBuilders_error hk
  · rcases appendAs_ok hcs with ⟨-, rest, hc⟩ | ⟨ds, rest, hc, hback⟩
    · obtain ⟨hne', hpre, -⟩ := prepareContext_spec docTarget (zero_notMem_foo h0) hne hc
      exact ⟨hne', fun stop hs => hlt (isPrefix_of_foo (hs.trans hpre))⟩
    · obtain ⟨hne', hpre, -⟩ := prepareContext_spec docTarget h0 hne hc
      rcases ds with _ | ⟨⟨m, c⟩, ds⟩
      · exact (hne' rfl).elim
      · obtain rfl := Except.ok.inj hback
        exact ⟨List.cons_ne_nil _ _, fun stop hs =>
          hlt ((List.prefix_append _ _).trans (hs.trans hpre))⟩

theorem appendAll_ahead : ∀ {es : List (Bytes × Value)} {bs : Builders (List (Bytes × Value))},
    bs ≠ [] → (∀ p ∈ es, 0 ∉ p.1) → Ascending es → Ahead bs es → ∀ e,
    Embedded.appendAll docTarget es bs = .error e → e ≠ .outOfRange
  | [], _, _, _, _, _, e, h => by cases h
  | (name, v) :: es, bs, hne, h0, hasc, ha, e, h => by
    obtain ⟨hlater, hes⟩ := List.pairwise_cons.mp hasc
    obtain ⟨herr, hok⟩ := appendAs_ahead hne (h0 _ List.mem_cons_self) hlater ha
    rw [Embedded.appendAll] at h
    rcases bind_eq_error.mp h with hs | ⟨cs, hs, h⟩
    · exact herr e hs
    · obtain ⟨hcs, hahead⟩ := hok cs hs
      exact appendAll_ahead hcs (fun p hp => h0 p (List.mem_cons_of_mem _ hp)) hes hahead e h

/-- **`dotted2nested` never takes a part of a name behind its end**, whatever the names of the
document are. -/
theorem dotted2nested_never_outOfRange (s : Stored) (r : Bytes) :
    dotted2nested (s.bytes ++ r) ≠ .error .outOfRange := by
  intro h
  rw [dotted2nested_bytes] at h
  have hvalid := valid_ofFields.mp (sortedStored s).valid
  have hstart : Ahead [([], docTarget.empty)] (sorted s.doc []) := fun stop hs =>
    (List.append_ne_nil_of_right_ne_nil stop (List.cons_ne_nil 46 []) (List.prefix_nil.mp hs)).elim
  rcases he : embed docTarget (sorted s.doc []) with e | c
  · rw [he] at h
    obtain rfl := Except.error.inj h
    rw [embed] at he
    rcases bind_eq_error.mp he with ha | ⟨bs, -, he⟩
    · exact appendAll_ahead (List.cons_ne_nil _ _) (fun p hp => (hvalid p hp).1)
        (sorted_ascending s.doc List.Pairwise.nil) hstart _ ha rfl
    · rcases bind_eq_error.mp he with hp | ⟨cs, -, he⟩
      · exact popBuilders_error hp rfl
      · cases he
  · simp only [he, Except.bind] at h
    rcases ho : Bson.Element.obj (ofFields c) with e | o
    · rw [ho] at h
      cases h
    · rw [ho] at h
      cases h

end PgBson.Dotted.Meaning
