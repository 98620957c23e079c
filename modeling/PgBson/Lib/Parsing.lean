import PgBson.Lib.Memory

/-! # Parsers over a text in memory

A hand-written parser moves a pointer over a text and reports failure in its return value, with the
pointer left where it stopped; it may also throw. A parser is here a function of the remaining text.
Recursive parsers are given fuel, and `stuck` is the outcome of one that ran out of it.

Three kinds of rules: `Meets` says what holds of every run (the pointer only moves forward, the fuel
suffices, a result has a property), `Ensures` what holds of every run that ends with a result, and
the equations `ok_bind`, `fail_bind` follow one run. -/

namespace PgBson.Lib.Parsing

open PgBson.Lib.Memory

/-- How a parser ends, with the text that remains. -/
inductive Outcome (ε α : Type)
  | ok (a : α) (input : Bytes)
  | fail (msg : Bytes) (input : Bytes)
  | throws (e : ε)
  | stuck
  deriving DecidableEq

/-- A parser: a function of the remaining text. -/
def Parse (ε α : Type) : Type := Bytes → Outcome ε α

variable {ε α β : Type}

instance : Monad (Parse ε) where
  pure a := fun i => .ok a i
  bind p f := fun i =>
    match p i with
    | .ok a j => f a j
    | .fail msg j => .fail msg j
    | .throws e => .throws e
    | .stuck => .stuck

/-- End with an error status, the pointer left where it is. -/
def fail (msg : Bytes) : Parse ε α := fun i => .fail msg i

/-- The value of a computation that may throw. -/
def lift : Except ε α → Parse ε α
  | .ok a => pure a
  | .error e => fun _ => .throws e

/-- Out of fuel. -/
def stuck : Parse ε α := fun _ => .stuck

/-- Run a parser and go on where it stopped, whether or not it failed. -/
def attempt (p : Parse ε α) : Parse ε (Option α) := fun i =>
  match p i with
  | .ok a j => .ok (some a) j
  | .fail _ j => .ok none j
  | .throws e => .throws e
  | .stuck => .stuck

/-! ### One run -/

theorem ok_bind {p : Parse ε α} {f : α → Parse ε β} {i j : Bytes} {a : α} (h : p i = .ok a j) :
    (p >>= f) i = f a j := by
  simp only [bind, h]

theorem fail_bind {p : Parse ε α} {f : α → Parse ε β} {i j msg : Bytes} (h : p i = .fail msg j) :
    (p >>= f) i = .fail msg j := by
  simp only [bind, h]

@[simp] theorem pure_apply (a : α) (i : Bytes) : (pure a : Parse ε α) i = .ok a i := rfl

theorem attempt_ok {p : Parse ε α} {i j : Bytes} {a : α} (h : p i = .ok a j) :
    attempt p i = .ok (some a) j := by
  simp only [attempt, h]

/-! ### Runs that follow a partial function -/

/-- From `i` the parser reads the value `o` and stops at `j`, or fails when there is none. -/
def Yields (p : Parse ε α) (i : Bytes) (o : Option α) (j : Bytes) : Prop :=
  match o with
  | some a => p i = .ok a j
  | none => ∃ msg k, p i = .fail msg k

theorem Yields.of_eq {p q : Parse ε α} {i i' j : Bytes} {o : Option α} (h : Yields q i' o j)
    (he : p i = q i') : Yields p i o j := by
  unfold Yields at h ⊢
  rwa [he]

theorem Yields.bind {p : Parse ε α} {f : α → Parse ε β} {i j k : Bytes} {o : Option α}
    {g : α → Option β} (hp : Yields p i o j) (hf : ∀ a, o = some a → Yields (f a) j (g a) k) :
    Yields (p >>= f) i (o.bind g) k := by
  cases o with
  | some a => exact (hf a rfl).of_eq (ok_bind hp)
  | none =>
    obtain ⟨msg, l, hp⟩ := hp
    exact ⟨msg, l, fail_bind hp⟩

/-- The value is passed on. -/
theorem Yields.map {p : Parse ε α} {f : α → Parse ε β} {i j k : Bytes} {o : Option α} {g : α → β}
    (hp : Yields p i o j) (hf : ∀ a, o = some a → f a j = .ok (g a) k) :
    Yields (p >>= f) i (o.map g) k := by
  rw [Option.map_eq_bind]
  exact hp.bind fun a ha => hf a ha

/-! ### Every run -/

/-- From `i` the parser does not get stuck, it only moves forward, and a result meets `Q`. -/
def Meets (p : Parse ε α) (i : Bytes) (Q : α → Bytes → Prop) : Prop :=
  match p i with
  | .ok a j => j <:+ i ∧ Q a j
  | .fail _ j => j <:+ i
  | .throws _ => True
  | .stuck => False

section rules
variable {p : Parse ε α} {f : α → Parse ε β} {i : Bytes} {Q R : α → Bytes → Prop}

theorem Meets.of_ok (h : Meets p i Q) {a : α} {j : Bytes} (hp : p i = .ok a j) :
    j <:+ i ∧ Q a j := by
  rwa [Meets, hp] at h

theorem Meets.mono (h : Meets p i Q) (hQ : ∀ a j, j <:+ i → Q a j → R a j) : Meets p i R := by
  unfold Meets at h ⊢
  split <;> simp_all

theorem meets_pure {a : α} (h : Q a i) : Meets (pure a : Parse ε α) i Q := ⟨List.suffix_refl i, h⟩

theorem meets_fail {msg : Bytes} : Meets (fail msg : Parse ε α) i Q := List.suffix_refl i

theorem meets_lift {x : Except ε α} (h : ∀ a, x = .ok a → Q a i) : Meets (lift x) i Q := by
  cases x with
  | ok a => exact meets_pure (h a rfl)
  | error e => trivial

/-- **Sequencing**: the rest of a run starts where the first part stopped. -/
theorem Meets.bind {S : β → Bytes → Prop} (h : Meets p i Q)
    (hf : ∀ a j, j <:+ i → Q a j → Meets (f a) j S) : Meets (p >>= f) i S := by
  unfold Meets at h
  unfold Meets
  cases hp : p i with
  | ok a j =>
    rw [hp] at h
    rw [ok_bind hp]
    have hj := hf a j h.1 h.2
    unfold Meets at hj
    cases hq : f a j with
    | ok b k =>
      rw [hq] at hj
      exact ⟨hj.1.trans h.1, hj.2⟩
    | fail msg k =>
      rw [hq] at hj
      exact hj.trans h.1
    | throws e => trivial
    | stuck => rwa [hq] at hj
  | fail msg j =>
    rw [hp] at h
    rw [fail_bind hp]
    exact h
  | throws e => simp only [Bind.bind, hp]
  | stuck => rw [hp] at h; exact h.elim

/-- A parser that goes on as another one further on in the text. -/
theorem Meets.of_eq {q : Parse ε α} {j : Bytes} (h : Meets q j Q) (he : p i = q j) (hj : j <:+ i) :
    Meets p i Q := by
  unfold Meets at h ⊢
  rw [he]
  cases hq : q j with
  | ok a k =>
    rw [hq] at h
    exact ⟨h.1.trans hj, h.2⟩
  | fail msg k =>
    rw [hq] at h
    exact h.trans hj
  | throws e => trivial
  | stuck => rwa [hq] at h

theorem Meets.attempt (h : Meets p i Q) :
    Meets (attempt p) i fun o j => ∀ a, o = some a → Q a j := by
  unfold Meets at h
  unfold Meets Parsing.attempt
  split at h <;> simp_all

end rules

/-! ### Every run with a result -/

/-- If the parser ends with a result from `i`, the result meets `Q`. -/
def Ensures (p : Parse ε α) (i : Bytes) (Q : α → Bytes → Prop) : Prop :=
  ∀ a j, p i = .ok a j → Q a j

section results
variable {p : Parse ε α} {f : α → Parse ε β} {i : Bytes} {Q R : α → Bytes → Prop}

theorem ensures_pure {a : α} (h : Q a i) : Ensures (pure a : Parse ε α) i Q := by
  intro b j hb
  obtain ⟨rfl, rfl⟩ := Outcome.ok.inj hb
  exact h

theorem ensures_fail {msg : Bytes} : Ensures (fail msg : Parse ε α) i Q := by
  intro a j h
  cases h

theorem ensures_stuck : Ensures (stuck : Parse ε α) i Q := by
  intro a j h
  cases h

theorem ensures_lift {x : Except ε α} (h : ∀ a, x = .ok a → Q a i) : Ensures (lift x) i Q := by
  cases x with
  | ok a => exact ensures_pure (h a rfl)
  | error e =>
    intro a j ha
    cases ha

theorem Ensures.bind {S : β → Bytes → Prop} (h : Ensures p i Q)
    (hf : ∀ a j, Q a j → Ensures (f a) j S) : Ensures (p >>= f) i S := by
  intro b k hb
  cases hp : p i with
  | ok a j =>
    rw [ok_bind hp] at hb
    exact hf a j (h a j hp) b k hb
  | fail msg j =>
    rw [fail_bind hp] at hb
    cases hb
  | throws e =>
    simp only [Bind.bind, hp] at hb
    cases hb
  | stuck =>
    simp only [Bind.bind, hp] at hb
    cases hb

theorem Ensures.mono (h : Ensures p i Q) (hQ : ∀ a j, Q a j → R a j) : Ensures p i R :=
  fun a j ha => hQ a j (h a j ha)

end results

end PgBson.Lib.Parsing
