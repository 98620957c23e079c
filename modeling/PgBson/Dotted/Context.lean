import PgBson.Access.Walk
import PgBson.Dotted.Embedded

/-! # The path of open builders

The names of the open builders, with a dot behind each, are the path of the stack. `prepareContext`
gives the stack a path that the name begins with, and nothing of the name is lost if no part of it
before a dot is empty (`prepareContext_spec`). If the name is a part of the path itself, `substr` is
called behind its end; but for that, only closing a builder can fail (`prepareContext_error`). -/

namespace PgBson.Dotted.Context

open PgBson.Lib.Memory PgBson.Bson.Types PgBson.Bson.Document
open PgBson.Access.Lookup (beforeDot afterDot length_afterDot_lt)
open PgBson.Access.Walk (eq_beforeDot_append)
open PgBson.Dotted.Embedded

section results
variable {ε α β : Type} {x : Except ε α} {f : α → Except ε β}

/-- Two steps return if the first does and then the second. -/
theorem bind_eq_ok {b : β} : x >>= f = .ok b ↔ ∃ a, x = .ok a ∧ f a = .ok b := by
  cases x <;> simp [bind, Except.bind]

theorem bind_eq_error {e : ε} :
    x >>= f = .error e ↔ x = .error e ∨ ∃ a, x = .ok a ∧ f a = .error e := by
  cases x <;> simp [bind, Except.bind]

end results

/-- No part of a name is empty, but for the last. -/
def WellDotted (name : Bytes) : Prop := name.head? ≠ some 46 ∧ ¬ [46, 46] <:+: name

instance (name : Bytes) : Decidable (WellDotted name) := inferInstanceAs (Decidable (_ ∧ _))

/-- The beginning of a name that goes through these builders. -/
def pathOf (ns : List Bytes) : Bytes := ns.flatMap (· ++ [46])

@[simp] theorem pathOf_nil : pathOf [] = [] := rfl

@[simp] theorem pathOf_cons (n : Bytes) (ns : List Bytes) :
    pathOf (n :: ns) = n ++ 46 :: pathOf ns := by
  simp [pathOf]

@[simp] theorem pathOf_append (ns ms : List Bytes) :
    pathOf (ns ++ ms) = pathOf ns ++ pathOf ms := by
  simp [pathOf]

/-- The path of the stack. -/
def path {β : Type} (bs : Builders β) : Bytes := pathOf (names bs)

/-! ### Names -/

section names
variable {β ε : Type} {t : Target β ε}

@[simp] theorem names_singleton (p : Bytes × β) : names [p] = [] := rfl

@[simp] theorem names_cons (n : Bytes) (c : β) {bs : Builders β} (h : bs ≠ []) :
    names ((n, c) :: bs) = names bs ++ [n] := by
  rw [names, List.map_cons, List.reverse_cons, List.tail_append_of_ne_nil (by simpa using h)]
  rfl

theorem popBuilder_names {bs cs : Builders β} (h : popBuilder t bs = .ok cs) (hne : bs ≠ []) :
    cs ≠ [] ∧ names cs = (names bs).dropLast := by
  rcases bs with _ | ⟨⟨n, c⟩, _ | ⟨⟨m, d⟩, rest⟩⟩
  · exact (hne rfl).elim
  · obtain rfl := Except.ok.inj h
    exact ⟨hne, rfl⟩
  · rw [popBuilder] at h
    obtain ⟨d', -, h⟩ := bind_eq_ok.mp h
    obtain rfl := Except.ok.inj h
    refine ⟨by simp, ?_⟩
    rw [names_cons n c (by simp), List.dropLast_concat]
    rfl

/-- The builders that stay open. -/
theorem popBuilders_names : ∀ {k : ℕ} {bs cs : Builders β}, popBuilders t k bs = .ok cs → bs ≠ [] →
    cs ≠ [] ∧ names cs = (names bs).take ((names bs).length - k)
  | 0, bs, cs, h, hne => by
    obtain rfl := Except.ok.inj h
    exact ⟨hne, by simp⟩
  | k + 1, bs, cs, h, hne => by
    rw [popBuilders] at h
    obtain ⟨ds, hp, h⟩ := bind_eq_ok.mp h
    obtain ⟨hds, hnames⟩ := popBuilder_names hp hne
    obtain ⟨hcs, htake⟩ := popBuilders_names h hds
    refine ⟨hcs, ?_⟩
    rw [htake, hnames, List.length_dropLast, List.dropLast_eq_take, List.take_take,
      Nat.min_eq_left (by omega), Nat.sub_sub, Nat.add_comm 1 k]

end names

/-! ### Passing over builders -/

/-- A name that goes through a builder has a dot behind its name. -/
theorem eq_append_of_next {n name : Bytes} (h0 : 0 ∉ name) (htake : name.take n.length = n)
    (hnext : (name.drop n.length).headD 0 = 46 ∨ (name.drop n.length).headD 0 = 0)
    (hlt : n.length < name.length) : name = n ++ 46 :: name.drop (n.length + 1) := by
  have hdrop := List.drop_eq_getElem_cons hlt
  have hdot : name[n.length] = 46 := by
    rw [hdrop, List.headD_cons] at hnext
    exact hnext.resolve_right fun hz => h0 (hz ▸ List.getElem_mem hlt)
  calc name = name.take n.length ++ name.drop n.length := (List.take_append_drop _ _).symm
    _ = n ++ 46 :: name.drop (n.length + 1) := by rw [htake, hdrop, hdot]

/-- The name begins with the parts of the path that are passed. -/
theorem passed_ok : ∀ {ns : List Bytes} {name rest : Bytes} {i : ℕ}, 0 ∉ name →
    passed ns name = .ok (i, rest) → i ≤ ns.length ∧ name = pathOf (ns.take i) ++ rest
  | [], name, rest, i, _, h => by
    cases h
    simp
  | n :: ns, name, rest, i, h0, h => by
    rw [passed] at h
    dsimp only at h
    split_ifs at h with hc hl
    · obtain ⟨⟨j, rest'⟩, hp, h⟩ := bind_eq_ok.mp h
      obtain ⟨rfl, rfl⟩ : j + 1 = i ∧ rest' = rest := by simpa using Except.ok.inj h
      obtain ⟨hj, hname⟩ := passed_ok (fun h => h0 (List.mem_of_mem_drop h)) hp
      refine ⟨by simpa using hj, ?_⟩
      rw [eq_append_of_next h0 hc.1 hc.2 (by omega), hname]
      simp
    · cases h
      simp

/-- The only failure: the name stops at one of the builders. -/
theorem passed_error : ∀ {ns : List Bytes} {name : Bytes} {e : Failure}, 0 ∉ name →
    passed ns name = .error e → e = .outOfRange ∧ name ++ [46] <+: pathOf ns
  | [], name, e, _, h => by cases h
  | n :: ns, name, e, h0, h => by
    rw [passed] at h
    dsimp only at h
    split_ifs at h with hc hl
    · have hname : name = n := by
        rw [← hc.1, List.take_of_length_le (by omega)]
      exact ⟨(Except.error.inj h).symm, pathOf ns, by simp [hname]⟩
    · rcases bind_eq_error.mp h with hp | ⟨p, -, h⟩
      · obtain ⟨he, q, hq⟩ := passed_error (fun h => h0 (List.mem_of_mem_drop h)) hp
        refine ⟨he, q, ?_⟩
        rw [eq_append_of_next h0 hc.1 hc.2 (by omega), pathOf_cons, ← hq]
        simp
      · cases h

/-! ### Opening builders -/

theorem wellDotted_append {s q : Bytes} (h : WellDotted (s ++ 46 :: q)) :
    s ≠ [] ∧ WellDotted q := by
  obtain ⟨hhead, hinfix⟩ := h
  refine ⟨?_, ?_, fun hq => hinfix (hq.trans ?_)⟩
  · rintro rfl
    exact hhead rfl
  · intro hq
    obtain ⟨q', rfl⟩ : ∃ q', q = 46 :: q' := by
      cases q with
      | nil => cases hq
      | cons c q' => exact ⟨q', by rw [Option.some.inj hq]⟩
    exact hinfix ⟨s, q', by simp⟩
  · exact ⟨s ++ [46], [], by simp⟩

theorem wellDotted_pathOf : ∀ {ns : List Bytes} {q : Bytes}, WellDotted (pathOf ns ++ q) →
    WellDotted q
  | [], _, h => h
  | n :: ns, q, h => by
    rw [pathOf_cons, List.append_assoc, List.cons_append] at h
    exact wellDotted_pathOf (wellDotted_append h).2

section opening
variable {β ε : Type} (t : Target β ε)

/-- **The builders that are opened take the parts of the name**, all but the last if none is
empty. -/
theorem addBuilders_spec : ∀ {fuel : ℕ} {name : Bytes} {bs : Builders β}, name.length < fuel →
    bs ≠ [] → (addBuilders t fuel name bs).1 ≠ [] ∧
      path (addBuilders t fuel name bs).1 <+: path bs ++ name ∧
      (WellDotted name → path (addBuilders t fuel name bs).1 ++ (addBuilders t fuel name bs).2 =
        path bs ++ name)
  | 0, _, _, hf, _ => by omega
  | fuel + 1, name, bs, hf, hne => by
    rw [addBuilders, splitDot]
    by_cases hdot : 46 ∈ name
    · have hname := eq_beforeDot_append hdot
      rw [if_pos hdot]
      dsimp only
      split_ifs with hempty
      · exact ⟨hne, List.prefix_append _ _, fun hw => by
          rw [hname] at hw
          exact ((wellDotted_append hw).1 hempty).elim⟩
      · have hlen := length_afterDot_lt hdot
        obtain ⟨hne', hpre, heq⟩ := addBuilders_spec (show (afterDot name).length < fuel by omega)
          (List.cons_ne_nil (beforeDot name, t.empty) bs)
        have hpath : path ((beforeDot name, t.empty) :: bs) ++ afterDot name = path bs ++ name := by
          conv_rhs => rw [hname]
          simp [path, names_cons _ _ hne]
        rw [hpath] at hpre heq
        refine ⟨hne', hpre, fun hw => heq ?_⟩
        rw [hname] at hw
        exact (wellDotted_append hw).2
    · rw [if_neg hdot]
      exact ⟨hne, List.prefix_append _ _, fun _ => rfl⟩

/-- The parts of a `prepareContext` that succeeds. -/
theorem prepareContext_ok {name rest : Bytes} {bs cs : Builders β}
    (h : prepareContext t name bs = .ok (cs, rest)) :
    ∃ i name' ds, passed (names bs) name = .ok (i, name') ∧
      popBuilders t ((names bs).length - i) bs = .ok ds ∧
      addBuilders t (name'.length + 1) name' ds = (cs, rest) := by
  rw [prepareContext] at h
  obtain ⟨⟨i, name'⟩, hp, h⟩ := bind_eq_ok.mp h
  obtain ⟨ds, hpop, h⟩ := bind_eq_ok.mp h
  exact ⟨i, name', ds, hp, hpop, Except.ok.inj h⟩

/-- `prepareContext` fails if the name stops at one of the builders, or if a builder cannot be
closed. -/
theorem prepareContext_error {name : Bytes} {bs : Builders β} {e : Failure} (h0 : 0 ∉ name)
    (h : prepareContext t name bs = .error e) :
    name ++ [46] <+: path bs ∨ ∃ k, popBuilders t k bs = .error e := by
  rw [prepareContext] at h
  rcases bind_eq_error.mp h with hp | ⟨⟨i, name'⟩, -, h⟩
  · exact .inl (passed_error h0 hp).2
  · rcases bind_eq_error.mp h with hpop | ⟨ds, -, h⟩
    · exact .inr ⟨_, hpop⟩
    · cases h

/-- **`prepareContext` leaves a path that the name begins with**; with the name inside the innermost
builder it is the whole name, if no part of it is empty. -/
theorem prepareContext_spec {name rest : Bytes} {bs cs : Builders β} (h0 : 0 ∉ name) (hne : bs ≠ [])
    (h : prepareContext t name bs = .ok (cs, rest)) :
    cs ≠ [] ∧ path cs <+: name ∧ (WellDotted name → path cs ++ rest = name) := by
  obtain ⟨i, name', ds, hp, hpop, hadd⟩ := prepareContext_ok t h
  obtain ⟨hi, hname⟩ := passed_ok h0 hp
  obtain ⟨hds, hnames⟩ := popBuilders_names hpop hne
  have hpath : path ds ++ name' = name := by
    rw [path, hnames, Nat.sub_sub_self hi, hname]
  obtain ⟨hcs, hpre, heq⟩ := addBuilders_spec t (Nat.lt_succ_self name'.length) hds
  rw [hadd, hpath] at hpre heq
  rw [hadd] at hcs
  exact ⟨hcs, hpre, fun hw => heq (wellDotted_pathOf (hname ▸ hw))⟩

end opening

end PgBson.Dotted.Context
