import Mathlib.Data.Int.Order.Basic
import Mathlib.Order.Lattice
import Mathlib.Order.Monotone.Defs
import Mathlib.Tactic.SplitIfs

/-! # Results of three-way comparisons

A comparison function answers with an integer of which only the sign matters. `order` is the
comparison of a linear order, `first` the usual "the first nonzero answer decides". Two laws are
carried from parts to wholes:

* `Opposed x y`: the answers to `(a, b)` and `(b, a)` have opposite signs;
* `Chained x y z`: the answers to `(a, b)`, `(b, c)`, `(a, c)` chain, that is `a ≤ b` and `b ≤ c`
  give `a ≤ c`, and `a = c` only when both were equalities. The strict part is what makes the law
  pass through `first` (`Chained.first`). -/

namespace PgBson.Lib.Sign

/-- The three-way comparison of a linear order. -/
def order {α : Type} [LinearOrder α] (a b : α) : ℤ := if a < b then -1 else if b < a then 1 else 0

/-- The first nonzero answer decides. -/
def first (x y : ℤ) : ℤ := if x ≠ 0 then x else y

/-- The two answers have opposite signs. -/
def Opposed (x y : ℤ) : Prop := (x < 0 ↔ 0 < y) ∧ (0 < x ↔ y < 0)

/-- The two answers have the same sign. -/
def SameSign (x y : ℤ) : Prop := (x < 0 ↔ y < 0) ∧ (0 < x ↔ 0 < y)

/-- The answers for `(a, b)`, `(b, c)` and `(a, c)` chain. -/
def Chained (x y z : ℤ) : Prop := x ≤ 0 → y ≤ 0 → z ≤ 0 ∧ (z = 0 → x = 0 ∧ y = 0)

section order
variable {α : Type} [LinearOrder α] {a b c : α}

theorem order_eq_zero : order a b = 0 ↔ a = b := by
  unfold order
  split_ifs with h1 h2
  · simpa using h1.ne
  · simpa using h2.ne'
  · simpa using le_antisymm (not_lt.mp h2) (not_lt.mp h1)

theorem order_nonpos : order a b ≤ 0 ↔ a ≤ b := by
  unfold order
  split_ifs with h1 h2
  · simpa using h1.le
  · simpa using h2
  · simpa using not_lt.mp h2

theorem order_neg : order a b < 0 ↔ a < b := by
  unfold order
  split_ifs with h1 h2
  · simpa using h1
  · simpa using h2.le
  · simpa using h1

theorem order_pos : 0 < order a b ↔ b < a := by
  unfold order
  split_ifs with h1 h2
  · simpa using h1.le
  · simpa using h2
  · simpa using h2

theorem order_of_lt (h : a < b) : order a b = -1 := if_pos h

theorem order_of_gt (h : b < a) : order a b = 1 := by
  unfold order; rw [if_neg h.not_gt, if_pos h]

@[simp] theorem order_self : order a a = 0 := order_eq_zero.mpr rfl

theorem order_swap (a b : α) : order a b = -order b a := by
  rcases lt_trichotomy a b with h | rfl | h
  · rw [order_of_lt h, order_of_gt h]
  · simp
  · rw [order_of_gt h, order_of_lt h]
    rfl

theorem opposed_order : Opposed (order a b) (order b a) :=
  ⟨order_neg.trans order_pos.symm, order_pos.trans order_neg.symm⟩

/-- **A linear order chains.** -/
theorem chained_order : Chained (order a b) (order b c) (order a c) := by
  intro h1 h2
  rw [order_nonpos] at h1 h2
  refine ⟨order_nonpos.mpr (h1.trans h2), fun h => ?_⟩
  rw [order_eq_zero] at h ⊢
  subst h
  have he : a = b := le_antisymm h1 h2
  exact ⟨he, order_eq_zero.mpr he.symm⟩

section monotone
variable {β : Type} [LinearOrder β] {R : β → α} (hR : Monotone R) {x y z : β}
include hR

/-- Two elements of `β` compared through the map `R` with one of `α` between them, and with each
other: this chains unless the map makes all three equal. -/
theorem chained_map_mid (h : ¬ (R x = b ∧ R z = b ∧ z < x)) :
    Chained (order (R x) b) (order b (R z)) (order x z) := by
  intro h1 h2
  rw [order_nonpos] at h1 h2
  have hle : x ≤ z := by
    by_contra hlt
    rw [not_le] at hlt
    have hm := hR hlt.le
    have hb : R x = b := le_antisymm h1 (h2.trans hm)
    exact h ⟨hb, le_antisymm (hm.trans h1) h2, hlt⟩
  refine ⟨order_nonpos.mpr hle, fun h0 => ?_⟩
  rw [order_eq_zero] at h0 ⊢
  subst h0
  have hb : R x = b := le_antisymm h1 h2
  exact ⟨hb, order_eq_zero.mpr hb.symm⟩

/-- The same with the element of `α` last. -/
theorem chained_map_right (h : ¬ (R x = c ∧ R y = c ∧ x < y)) :
    Chained (order x y) (order (R y) c) (order (R x) c) := by
  intro h1 h2
  rw [order_nonpos] at h1 h2
  refine ⟨order_nonpos.mpr ((hR h1).trans h2), fun h0 => ?_⟩
  rw [order_eq_zero] at h0 ⊢
  have hc : R y = c := le_antisymm h2 (h0 ▸ hR h1)
  refine ⟨h1.lt_or_eq.resolve_left fun hlt => h ⟨h0, hc, hlt⟩, order_eq_zero.mpr hc⟩

/-- The same with the element of `α` first. -/
theorem chained_map_left (h : ¬ (R y = a ∧ R z = a ∧ y < z)) :
    Chained (order a (R y)) (order y z) (order a (R z)) := by
  intro h1 h2
  rw [order_nonpos] at h1 h2
  refine ⟨order_nonpos.mpr (h1.trans (hR h2)), fun h0 => ?_⟩
  rw [order_eq_zero] at h0 ⊢
  have ha : R y = a := le_antisymm (h0 ▸ hR h2) h1
  refine ⟨ha.symm, order_eq_zero.mpr (h2.lt_or_eq.resolve_left fun hlt => h ⟨ha, h0.symm, hlt⟩)⟩

end monotone

end order

theorem opposed_iff_sign {x y : ℤ} : Opposed x y ↔ x.sign = -y.sign := by
  unfold Opposed
  rcases lt_trichotomy x 0 with hx | hx | hx <;> rcases lt_trichotomy y 0 with hy | hy | hy <;>
    simp [Int.sign_eq_neg_one_of_neg, Int.sign_eq_one_of_pos, hx, hy] <;> omega

theorem Opposed.zero_iff {x y : ℤ} (h : Opposed x y) : x = 0 ↔ y = 0 := by
  unfold Opposed at h; omega

theorem SameSign.zero_iff {x y : ℤ} (h : SameSign x y) : x = 0 ↔ y = 0 := by
  unfold SameSign at h; omega

theorem SameSign.of_eq {x y : ℤ} (h : x = y) : SameSign x y := by simp [SameSign, h]

theorem sameSign_sub_order (x y : ℕ) : SameSign ((x : ℤ) - y) (order x y) := by
  unfold SameSign order; split_ifs <;> omega

theorem SameSign.first {x y x' y' : ℤ} (h : SameSign x y) (h' : x = 0 → SameSign x' y') :
    SameSign (first x x') (first y y') := by
  have hz := h.zero_iff
  unfold Sign.first
  by_cases hx : x = 0
  · simpa [hx, hz.mp hx] using h' hx
  · simpa [hx, mt hz.mpr hx] using h

theorem Opposed.congr {x y x' y' : ℤ} (h : Opposed x' y') (hx : SameSign x x')
    (hy : SameSign y y') : Opposed x y := by
  unfold Opposed SameSign at *; omega

theorem Chained.congr {x y z x' y' z' : ℤ} (h : Chained x' y' z') (hx : SameSign x x')
    (hy : SameSign y y') (hz : SameSign z z') : Chained x y z := by
  unfold Chained SameSign at *; omega

theorem opposed_sub (x y : ℤ) : Opposed (x - y) (y - x) := by unfold Opposed; omega

theorem chained_sub (x y z : ℤ) : Chained (x - y) (y - z) (x - z) := by
  intro h1 h2; omega

theorem Opposed.first {x y x' y' : ℤ} (h : Opposed x y) (h' : x = 0 → Opposed x' y') :
    Opposed (first x x') (first y y') := by
  have hz := h.zero_iff
  unfold Sign.first
  by_cases hx : x = 0
  · simpa [hx, hz.mp hx] using h' hx
  · have hy : y ≠ 0 := fun hy => hx (hz.mpr hy)
    simpa [hx, hy] using h

/-- **Chaining is lexicographic**: the second answers matter only where the first are all ties. -/
theorem Chained.first {x y z x' y' z' : ℤ} (h : Chained x y z)
    (h' : x = 0 → y = 0 → z = 0 → Chained x' y' z') :
    Chained (first x x') (first y y') (first z z') := by
  unfold Sign.first
  unfold Chained at h h' ⊢
  split_ifs <;> omega

@[simp] theorem first_zero_left (x : ℤ) : first 0 x = x := if_neg (by simp)

@[simp] theorem first_zero_right (x : ℤ) : first x 0 = x := by
  unfold first; split_ifs with h <;> simp_all

theorem ite_first {α : Type} (f : ℤ → α) (x y : ℤ) :
    (if x ≠ 0 then f x else f y) = f (first x y) := (apply_ite f _ _ _).symm

end PgBson.Lib.Sign
