import PgBson.Lib.General
import PgBson.Lib.Strtod

/-! # Rounding to digits and to bits in turn

A double is printed with `p + 1` significant decimal digits, and the decimal is read as the double
nearest to it. With few digits the result may be another double, but it is then a double that is
printed and read as itself: `nearestUnits_rounded` for `10 ^ (p + 1)` above `2 ^ 53`.

Let `y` be the double that was read for the decimal `t`, and `t'` the decimal that is printed for
`y`. It is no farther from `y` than `t` is. On the side of `t` it is read as `y` because reading is
monotone. On the other side it is so because the numbers that are read as `y` lie the same way on
both sides of `y`, unless `y` is a power of two; there the decimals around it are too dense or too
sparse. -/

namespace PgBson.Lib.Rerounding

open PgBson.Lib.Binary64 PgBson.Lib.General PgBson.Lib.Strtod

/-! ### Normal form -/

/-- The mantissa and the exponent of a number of units. -/
structure Normal (y k e : ℕ) : Prop where
  eq : y = k * 2 ^ e
  lt : k < 2 ^ 53
  lead : e = 0 ∨ 2 ^ 52 ≤ k

theorem exists_normal_of_le {k e : ℕ} (hk : k ≤ 2 ^ 53) (hlead : e = 0 ∨ 2 ^ 52 ≤ k) :
    ∃ k' e', Normal (k * 2 ^ e) k' e' := by
  rcases hk.lt_or_eq with hlt | rfl
  · exact ⟨k, e, rfl, hlt, hlead⟩
  · exact ⟨2 ^ 52, e + 1, by ring, by decide, Or.inr le_rfl⟩

/-- What is rounded has a mantissa of 53 bits. -/
theorem exists_normal_nearest (n d : ℕ) : ∃ k e, Normal (nearest n d) k e := by
  have hle := nearest_le n d
  have hpos : 0 < 2 ^ expo n d := by positivity
  refine exists_normal_of_le ?_ ?_
  · rw [nearest, show expo n d + 53 = 53 + expo n d by omega, pow_add] at hle
    exact Nat.le_of_mul_le_mul_right hle hpos
  · rcases Nat.eq_zero_or_pos (expo n d) with h0 | h0
    · exact Or.inl h0
    · have hge := le_nearest h0
      rw [nearest, show expo n d + 52 = 52 + expo n d by omega, pow_add] at hge
      exact Or.inr (Nat.le_of_mul_le_mul_right hge hpos)

theorem nearest_of_le {d k e : ℕ} (hd : 0 < d) (hk : k ≤ 2 ^ 53) :
    nearest (d * (k * 2 ^ e)) d = k * 2 ^ e := by
  rcases hk.lt_or_eq with hlt | rfl
  · exact nearest_exact hd hlt
  · have := nearest_exact (d := d) (k := 1) (j := 53 + e) hd (by decide)
    rwa [pow_add, one_mul] at this

/-! ### Rounding around a double -/

section around
variable {d k e r : ℕ}

theorem log2_eq {n m : ℕ} (hl : 2 ^ m ≤ n) (hu : n < 2 ^ (m + 1)) : n.log2 = m := by
  have hne : n ≠ 0 := by
    rintro rfl
    exact absurd hl (by simp)
  have h1 := (Nat.le_log2 hne).mpr hl
  have h2 := (Nat.log2_lt hne).mpr hu
  omega

theorem expo_add (hd : 0 < d) (hk : k < 2 ^ 53) (hlead : e = 0 ∨ 2 ^ 52 ≤ k) (hr : r < d * 2 ^ e) :
    expo (d * (k * 2 ^ e) + r) d = e := by
  have hq : (d * (k * 2 ^ e) + r) / d = k * 2 ^ e + r / d := by
    rw [Nat.mul_add_div hd]
  have hlt : r / d < 2 ^ e := Nat.div_lt_of_lt_mul hr
  rw [expo, hq]
  rcases hlead with rfl | hlead
  · have hlt' : k * 2 ^ 0 + r / d < 2 ^ 53 := by omega
    by_cases h0 : k * 2 ^ 0 + r / d = 0
    · rw [h0]
      rfl
    · have := (Nat.log2_lt h0).mpr hlt'
      omega
  · have hl : 2 ^ (e + 52) ≤ k * 2 ^ e + r / d := by
      rw [pow_add, mul_comm]
      exact (Nat.mul_le_mul_right _ hlead).trans (Nat.le_add_right _ _)
    have hu : k * 2 ^ e + r / d < 2 ^ (e + 52 + 1) := by
      calc k * 2 ^ e + r / d < k * 2 ^ e + 2 ^ e := by omega
        _ = (k + 1) * 2 ^ e := by ring
        _ ≤ 2 ^ 53 * 2 ^ e := Nat.mul_le_mul_right _ hk
        _ = 2 ^ (e + 52 + 1) := by ring
    rw [log2_eq hl hu]
    omega

/-- Between a mantissa and the next. -/
theorem nearest_add (hd : 0 < d) (hk : k < 2 ^ 53) (hlead : e = 0 ∨ 2 ^ 52 ≤ k)
    (hr : r < d * 2 ^ e) : nearest (d * (k * 2 ^ e) + r) d =
      (if 2 * r < d * 2 ^ e ∨ 2 * r = d * 2 ^ e ∧ k % 2 = 0 then k else k + 1) * 2 ^ e := by
  have hn : d * (k * 2 ^ e) + r = d * 2 ^ e * k + r := by ring
  rw [nearest, expo_add hd hk hlead hr, hn, roundEven, Nat.mul_add_mod, Nat.mod_eq_of_lt hr,
    Nat.mul_add_div (by positivity), Nat.div_eq_of_lt hr, Nat.add_zero]

theorem nearest_above_iff {y : ℕ} (hy : Normal y k e) (hd : 0 < d) (s : ℕ) :
    nearest (d * y + s) d = y ↔ 2 * s < d * 2 ^ e ∨ 2 * s = d * 2 ^ e ∧ k % 2 = 0 := by
  obtain ⟨rfl, hk, hlead⟩ := hy
  have hpos : 0 < 2 ^ e := by positivity
  have hD : 0 < d * 2 ^ e := by positivity
  by_cases hs : s < d * 2 ^ e
  · rw [nearest_add hd hk hlead hs]
    split_ifs with h
    · exact iff_of_true rfl h
    · refine iff_of_false (fun heq => ?_) h
      have := Nat.eq_of_mul_eq_mul_right hpos heq
      omega
  · refine iff_of_false (fun heq => ?_) (by omega)
    have hle : d * ((k + 1) * 2 ^ e) ≤ d * (k * 2 ^ e) + s := by
      rw [add_mul, mul_add, one_mul]
      omega
    have hmono := nearest_mono (d := d) hle
    rw [nearest_of_le hd hk, heq] at hmono
    have := Nat.le_of_mul_le_mul_right hmono hpos
    omega

theorem nearest_below_iff {y : ℕ} (hy : Normal y k e) (h52 : k ≠ 2 ^ 52 ∨ e = 0) (hd : 0 < d)
    {s : ℕ}
    (hs : s ≤ d * y) :
    nearest (d * y - s) d = y ↔ 2 * s < d * 2 ^ e ∨ 2 * s = d * 2 ^ e ∧ k % 2 = 0 := by
  obtain ⟨rfl, hk, hlead⟩ := hy
  have hpos : 0 < 2 ^ e := by positivity
  have hD : 0 < d * 2 ^ e := by positivity
  rcases Nat.eq_zero_or_pos s with rfl | hs0
  · rw [Nat.sub_zero, nearest_of_le hd hk.le]
    exact iff_of_true rfl (Or.inl (by omega))
  have hk0 : 0 < k := by
    rcases Nat.eq_zero_or_pos k with rfl | h
    · simp at hs
      omega
    · exact h
  have hprev : d * (k * 2 ^ e) = d * ((k - 1) * 2 ^ e) + d * 2 ^ e := by
    obtain ⟨j, rfl⟩ := Nat.exists_eq_add_of_le' hk0
    rw [Nat.add_sub_cancel]
    ring
  by_cases hle : s ≤ d * 2 ^ e
  · rw [show d * (k * 2 ^ e) - s = d * ((k - 1) * 2 ^ e) + (d * 2 ^ e - s) by omega,
      nearest_add hd (by omega) (by omega) (by omega)]
    split_ifs with h
    · refine iff_of_false (fun heq => ?_) (by omega)
      have := Nat.eq_of_mul_eq_mul_right hpos heq
      omega
    · rw [Nat.sub_add_cancel hk0]
      exact iff_of_true rfl (by omega)
  · refine iff_of_false (fun heq => ?_) (by omega)
    have hmono := nearest_mono (d := d) (show d * (k * 2 ^ e) - s ≤ d * ((k - 1) * 2 ^ e) by omega)
    rw [nearest_of_le hd (by omega), heq] at hmono
    have := Nat.le_of_mul_le_mul_right hmono hpos
    omega

/-- Below a power of two the doubles are twice as dense. -/
theorem nearest_below_power_iff (hd : 0 < d) {s : ℕ} (hs : s ≤ d * (2 ^ 52 * 2 ^ (e + 1))) :
    nearest (d * (2 ^ 52 * 2 ^ (e + 1)) - s) d = 2 ^ 52 * 2 ^ (e + 1) ↔
      4 * s ≤ d * 2 ^ (e + 1) := by
  have hpos : 0 < 2 ^ e := by positivity
  have hD : 0 < d * 2 ^ e := by positivity
  have hy : 2 ^ 52 * 2 ^ (e + 1) = (2 ^ 53 - 1) * 2 ^ e + 2 ^ e := by
    rw [pow_succ]
    ring_nf
  have hfour : 4 * s ≤ d * 2 ^ (e + 1) ↔ 2 * s ≤ d * 2 ^ e := by
    rw [pow_succ, ← mul_assoc]
    omega
  rw [hfour]
  rcases Nat.eq_zero_or_pos s with rfl | hs0
  · exact iff_of_true (nearest_of_le hd (by decide)) (by omega)
  rw [hy, mul_add] at hs ⊢
  by_cases hle : s ≤ d * 2 ^ e
  · rw [show d * ((2 ^ 53 - 1) * 2 ^ e) + d * 2 ^ e - s =
        d * ((2 ^ 53 - 1) * 2 ^ e) + (d * 2 ^ e - s) by omega,
      nearest_add hd (by decide) (Or.inr (by decide)) (by omega)]
    by_cases h : 2 * (d * 2 ^ e - s) < d * 2 ^ e
    · rw [if_pos (Or.inl h)]
      exact iff_of_false (by omega) (by omega)
    · rw [if_neg (by rintro (h' | ⟨-, h'⟩); exacts [h h', absurd h' (by decide)]), add_mul, one_mul]
      exact iff_of_true rfl (by omega)
  · refine iff_of_false (fun heq => ?_) (by omega)
    have hmono := nearest_mono (d := d) (show d * ((2 ^ 53 - 1) * 2 ^ e) + d * 2 ^ e - s ≤
      d * ((2 ^ 53 - 1) * 2 ^ e) by omega)
    rw [nearest_of_le hd (by decide), heq] at hmono
    omega

end around

/-! ### Rationals in units -/

/-- The number of units nearest to a rational number of units. -/
def near (v : ℚ) : ℕ := nearest v.num.natAbs v.den

theorem nearest_mul_right (n d : ℕ) {c : ℕ} (hc : 0 < c) :
    nearest (n * c) (d * c) = nearest n d := by
  have he : expo (n * c) (d * c) = expo n d := by
    rw [expo, expo, Nat.mul_div_mul_right _ _ hc]
  have hD : d * c * 2 ^ expo n d = d * 2 ^ expo n d * c := by ring
  rw [nearest, nearest, he, hD, roundEven, roundEven, Nat.mul_div_mul_right _ _ hc,
    Nat.mul_mod_mul_right]
  congr 2
  rw [← mul_assoc]
  simp only [Nat.mul_lt_mul_right hc, Nat.mul_right_cancel_iff hc]

theorem natAbs_num {v : ℚ} (hv : 0 ≤ v) : (v.num.natAbs : ℚ) = v * v.den := by
  rw [Rat.mul_den_eq_num, Nat.cast_natAbs, abs_of_nonneg (Rat.num_nonneg.mpr hv)]

theorem near_eq {v : ℚ} {n d : ℕ} (hd : 0 < d) (h : v * d = n) : near v = nearest n d := by
  have hd' : (0 : ℚ) < d := by exact_mod_cast hd
  have hv : 0 ≤ v := nonneg_of_mul_nonneg_left (h ▸ Nat.cast_nonneg n) hd'
  have hcross : v.num.natAbs * d = n * v.den := by
    have : (v.num.natAbs : ℚ) * d = n * v.den := by
      rw [natAbs_num hv, ← h]
      ring
    exact_mod_cast this
  rw [near, ← nearest_mul_right _ _ hd, hcross, mul_comm v.den, nearest_mul_right _ _ v.den_pos]

theorem nearestUnits_eq {q : ℚ} (hq : 0 ≤ q) : nearestUnits q = near (q * 2 ^ unitExp) := by
  rw [nearestUnits, near_eq q.den_pos]
  rw [Nat.cast_mul, natAbs_num hq]
  push_cast
  ring

theorem near_mono {v w : ℚ} (hv : 0 ≤ v) (h : v ≤ w) : near v ≤ near w := by
  have hw := hv.trans h
  have hd : 0 < v.den * w.den := Nat.mul_pos v.den_pos w.den_pos
  have hv' : v * (v.den * w.den : ℕ) = (v.num.natAbs * w.den : ℕ) := by
    push_cast
    rw [natAbs_num hv]
    ring
  have hw' : w * (v.den * w.den : ℕ) = (w.num.natAbs * v.den : ℕ) := by
    push_cast
    rw [natAbs_num hw]
    ring
  rw [near_eq hd hv', near_eq hd hw']
  refine nearest_mono ?_
  have : ((v.num.natAbs * w.den : ℕ) : ℚ) ≤ (w.num.natAbs * v.den : ℕ) := by
    rw [← hv', ← hw']
    exact mul_le_mul_of_nonneg_right h (Nat.cast_nonneg _)
  exact_mod_cast this

section rational
variable {y k e : ℕ} {δ : ℚ}

/-- The distance is within half of the last place of the mantissa, ties to even. -/
def Within (k e : ℕ) (δ : ℚ) : Prop := δ < 2 ^ e / 2 ∨ δ = 2 ^ e / 2 ∧ k % 2 = 0

theorem Within.mono {ε : ℚ} (h : Within k e δ) (hle : ε ≤ δ) : Within k e ε := by
  rcases h with h | ⟨rfl, hk⟩
  · exact Or.inl (hle.trans_lt h)
  · rcases hle.lt_or_eq with hlt | rfl
    · exact Or.inl hlt
    · exact Or.inr ⟨rfl, hk⟩

theorem Within.le (h : Within k e δ) : δ ≤ 2 ^ e / 2 := h.elim le_of_lt fun h => h.1.le

theorem within_iff (hδ : 0 ≤ δ) : Within k e δ ↔
    2 * δ.num.natAbs < δ.den * 2 ^ e ∨ 2 * δ.num.natAbs = δ.den * 2 ^ e ∧ k % 2 = 0 := by
  have hd : (0 : ℚ) < δ.den := by exact_mod_cast δ.den_pos
  have hlt : δ < 2 ^ e / 2 ↔ 2 * δ.num.natAbs < δ.den * 2 ^ e := by
    rw [lt_div_iff₀ (by norm_num), ← Nat.cast_lt (α := ℚ), ← mul_lt_mul_iff_left₀ hd]
    push_cast
    rw [natAbs_num hδ]
    constructor <;> intro h <;> linarith
  have heq : δ = 2 ^ e / 2 ↔ 2 * δ.num.natAbs = δ.den * 2 ^ e := by
    rw [eq_div_iff (by norm_num), ← Nat.cast_inj (R := ℚ), ← mul_left_inj' hd.ne']
    push_cast
    rw [natAbs_num hδ]
    constructor <;> intro h <;> linarith
  rw [Within, hlt, heq]

theorem near_above_iff (hy : Normal y k e) (hδ : 0 ≤ δ) : near (y + δ) = y ↔ Within k e δ := by
  have hv : (y + δ) * (δ.den : ℕ) = (δ.den * y + δ.num.natAbs : ℕ) := by
    push_cast
    rw [natAbs_num hδ]
    ring
  rw [near_eq δ.den_pos hv, nearest_above_iff hy δ.den_pos, within_iff hδ]

theorem near_below (hδ : 0 ≤ δ) (hle : δ ≤ y) : δ.num.natAbs ≤ δ.den * y ∧
    near (y - δ) = nearest (δ.den * y - δ.num.natAbs) δ.den := by
  have hnat : δ.num.natAbs ≤ δ.den * y := by
    have : (δ.num.natAbs : ℚ) ≤ (δ.den * y : ℕ) := by
      rw [natAbs_num hδ, mul_comm]
      push_cast
      exact mul_le_mul_of_nonneg_left hle (Nat.cast_nonneg _)
    exact_mod_cast this
  refine ⟨hnat, near_eq δ.den_pos ?_⟩
  rw [Nat.cast_sub hnat, natAbs_num hδ]
  push_cast
  ring

theorem near_below_of_within (hy : Normal y k e) (h52 : k ≠ 2 ^ 52 ∨ e = 0) (hδ : 0 ≤ δ)
    (hle : δ ≤ y)
    (h : Within k e δ) : near (y - δ) = y := by
  obtain ⟨hnat, hnear⟩ := near_below hδ hle
  rw [hnear]
  exact (nearest_below_iff hy h52 δ.den_pos hnat).mpr ((within_iff hδ).mp h)

theorem within_of_near_below (hy : Normal y k e) (h52 : k ≠ 2 ^ 52 ∨ e = 0) (hδ : 0 ≤ δ)
    (hle : δ ≤ y)
    (h : near (y - δ) = y) : Within k e δ := by
  obtain ⟨hnat, hnear⟩ := near_below hδ hle
  rw [hnear] at h
  exact (within_iff hδ).mpr ((nearest_below_iff hy h52 δ.den_pos hnat).mp h)

theorem near_below_power_iff (he : e ≠ 0) (hy : y = 2 ^ 52 * 2 ^ e) (hδ : 0 ≤ δ) (hle : δ ≤ y) :
    near (y - δ) = y ↔ δ ≤ 2 ^ e / 4 := by
  obtain ⟨j, rfl⟩ := Nat.exists_eq_succ_of_ne_zero he
  obtain ⟨hnat, hnear⟩ := near_below hδ hle
  rw [hy] at hnat
  have hd : (0 : ℚ) < δ.den := by exact_mod_cast δ.den_pos
  rw [hnear, hy, nearest_below_power_iff δ.den_pos hnat, le_div_iff₀ (by norm_num),
    ← Nat.cast_le (α := ℚ), ← mul_le_mul_iff_left₀ hd (b := δ * 4)]
  push_cast
  rw [natAbs_num hδ, mul_comm (δ.den : ℚ), mul_comm δ 4, mul_assoc]

end rational

/-! ### Doubles -/

/-- The number of units of a double. -/
def IsDouble (x : ℕ) : Prop := ∃ k j, k < 2 ^ 53 ∧ x = k * 2 ^ j

theorem near_self {x : ℕ} (hx : IsDouble x) : near x = x := by
  obtain ⟨k, j, hk, rfl⟩ := hx
  rw [near_eq (n := 1 * (k * 2 ^ j)) one_pos (by simp), nearest_exact one_pos hk]

theorem exists_normal_near (v : ℚ) : ∃ k e, Normal (near v) k e := exists_normal_nearest _ _

section gaps
variable {x y k e : ℕ}

/-- The next double above. -/
theorem add_le_of_lt (hx : IsDouble x) (hy : Normal y k e) (h : y < x) : y + 2 ^ e ≤ x := by
  obtain ⟨k', j, hk', rfl⟩ := hx
  obtain ⟨rfl, hk, hlead⟩ := hy
  rcases le_or_gt e j with hle | hlt
  · obtain ⟨i, rfl⟩ := Nat.exists_eq_add_of_le hle
    have hpos : 0 < 2 ^ e := by positivity
    rw [pow_add, mul_comm (2 ^ e), ← mul_assoc] at h ⊢
    rw [← add_one_mul]
    exact Nat.mul_le_mul_right _ (Nat.lt_of_mul_lt_mul_right h)
  · -- A double with a smaller exponent is smaller.
    exfalso
    have hlead : 2 ^ 52 ≤ k := by omega
    have h1 : k' * 2 ^ j ≤ 2 ^ 53 * 2 ^ j := Nat.mul_le_mul_right _ hk'.le
    have h2 : 2 ^ 53 * 2 ^ j ≤ 2 ^ 52 * 2 ^ e := by
      obtain ⟨i, rfl⟩ := Nat.exists_eq_add_of_lt hlt
      calc 2 ^ 53 * 2 ^ j = 2 ^ 52 * 2 ^ (j + 1) := by ring
        _ ≤ 2 ^ 52 * 2 ^ (j + i + 1) :=
          Nat.mul_le_mul_left _ (Nat.pow_le_pow_right (by decide) (by omega))
    have h3 : 2 ^ 52 * 2 ^ e ≤ k * 2 ^ e := Nat.mul_le_mul_right _ hlead
    omega

/-- The next double below. -/
theorem add_le_of_gt (hx : IsDouble x) (hy : Normal y k e) (h52 : k ≠ 2 ^ 52 ∨ e = 0) (h : x < y) :
    x + 2 ^ e ≤ y := by
  obtain ⟨rfl, hk, hlead⟩ := hy
  have hk0 : 0 < k := by
    rcases Nat.eq_zero_or_pos k with rfl | h0
    · simp at h
    · exact h0
  obtain ⟨i, rfl⟩ := Nat.exists_eq_add_of_le' (show 1 ≤ k from hk0)
  by_contra hlt
  have hi : Normal (i * 2 ^ e) i e := ⟨rfl, by omega, by omega⟩
  have := add_le_of_lt hx hi (by rw [add_mul, one_mul] at hlt; omega)
  rw [add_mul, one_mul] at h
  omega

/-- The next double below a power of two. -/
theorem add_le_of_gt_power (hx : IsDouble x) (hy : y = 2 ^ 52 * 2 ^ (e + 1)) (h : x < y) :
    x + 2 ^ e ≤ y := by
  have hy' : y = (2 ^ 53 - 1) * 2 ^ e + 2 ^ e := by
    rw [hy, pow_succ]
    ring_nf
  by_contra hlt
  have hi : Normal ((2 ^ 53 - 1) * 2 ^ e) (2 ^ 53 - 1) e := ⟨rfl, by decide, Or.inr (by decide)⟩
  have := add_le_of_lt hx hi (by omega)
  omega

end gaps

/-- **No double is nearer than the one that is read.** -/
theorem abs_sub_near_le {v : ℚ} (hv : 0 ≤ v) {x : ℕ} (hx : IsDouble x) :
    |v - near v| ≤ |v - x| := by
  obtain ⟨k, e, hy⟩ := exists_normal_near v
  generalize hw : near v = y at hy
  have hy0 : (0 : ℚ) ≤ y := Nat.cast_nonneg y
  rcases lt_trichotomy x y with hlt | rfl | hgt
  · -- The double is below; only a rational between the two matters.
    have hlt' : (x : ℚ) < y := by exact_mod_cast hlt
    rcases le_or_gt (y : ℚ) v with hle | hvy
    · rw [abs_of_nonneg (by linarith), abs_of_nonneg (by linarith)]
      linarith
    have hnear : near (y - (y - v)) = y := by rwa [sub_sub_cancel]
    rw [abs_of_neg (by linarith)]
    refine le_trans ?_ (le_abs_self _)
    by_cases h52 : k ≠ 2 ^ 52 ∨ e = 0
    · have hgap : (x : ℚ) + 2 ^ e ≤ y := by exact_mod_cast add_le_of_gt hx hy h52 hlt
      have := (within_of_near_below hy h52 (by linarith) (by linarith) hnear).le
      linarith
    · obtain ⟨rfl, he⟩ : k = 2 ^ 52 ∧ e ≠ 0 := by tauto
      have := (near_below_power_iff he hy.eq (by linarith) (by linarith)).mp hnear
      obtain ⟨j, rfl⟩ := Nat.exists_eq_succ_of_ne_zero he
      have hgap : (x : ℚ) + 2 ^ j ≤ y := by exact_mod_cast add_le_of_gt_power hx hy.eq hlt
      rw [Nat.succ_eq_add_one, pow_succ] at this
      linarith
  · exact le_rfl
  · have hgap : (y : ℚ) + 2 ^ e ≤ x := by exact_mod_cast add_le_of_lt hx hy hgt
    have hpos : (0 : ℚ) < 2 ^ e := by positivity
    rcases le_or_gt v y with hle | hvy
    · rw [abs_of_nonpos (by linarith), abs_of_nonpos (by linarith)]
      linarith
    have hnear : near (y + (v - y)) = y := by rwa [add_sub_cancel]
    have := ((near_above_iff hy (by linarith)).mp hnear).le
    rw [abs_of_pos (by linarith)]
    refine le_trans ?_ (neg_le_abs _)
    linarith

/-! ### Decimals -/

section decimals
variable {p : ℕ} {q : ℚ}

/-- The value of the last digit that is printed. -/
def place (p : ℕ) (q : ℚ) : ℚ := 10 ^ (Int.log 10 q - p)

theorem place_pos : 0 < place p q := zpow_pos (by norm_num) _

theorem abs_sub_roundEven_le (hq : 0 ≤ q) : |q - roundEven q.num.natAbs q.den| ≤ 1 / 2 := by
  have hd : (0 : ℚ) < q.den := by exact_mod_cast q.den_pos
  have hdiv : (q.den : ℚ) * (q.num.natAbs / q.den : ℕ) + (q.num.natAbs % q.den : ℕ) =
      q * q.den := by
    rw [← natAbs_num hq]
    exact_mod_cast Nat.div_add_mod q.num.natAbs q.den
  have hmod : ((q.num.natAbs % q.den : ℕ) : ℚ) < q.den := by
    exact_mod_cast Nat.mod_lt _ q.den_pos
  rw [roundEven]
  split_ifs with h
  · have h2 : 2 * ((q.num.natAbs % q.den : ℕ) : ℚ) ≤ q.den := by
      have : 2 * (q.num.natAbs % q.den) ≤ q.den := by omega
      exact_mod_cast this
    have h0 : (0 : ℚ) ≤ (q.num.natAbs % q.den : ℕ) := Nat.cast_nonneg _
    rw [abs_le]
    constructor <;> nlinarith
  · have h2 : (q.den : ℚ) ≤ 2 * ((q.num.natAbs % q.den : ℕ) : ℚ) := by
      have : q.den ≤ 2 * (q.num.natAbs % q.den) := by omega
      exact_mod_cast this
    push_cast
    rw [abs_le]
    constructor <;> nlinarith

/-- A carry into another digit does not change the value. -/
theorem rounded_eq_mul (hq : 0 < q) : rounded p q =
    roundEven (q / place p q).num.natAbs (q / place p q).den * place p q := by
  have hr : q * 10 ^ ((p : ℤ) - Int.log 10 q) = q / place p q := by
    rw [place, div_eq_mul_inv, ← zpow_neg, neg_sub]
  simp only [rounded, if_neg hq.ne', significant, hr]
  split_ifs with h
  · rw [h, place]
    push_cast
    rw [pow_succ, mul_assoc, ← zpow_one_add₀ (by norm_num)]
    congr 2
    ring
  · rfl

theorem abs_sub_rounded_le_half (hq : 0 < q) : |q - rounded p q| ≤ place p q / 2 := by
  have hp := place_pos (p := p) (q := q)
  have h := abs_sub_roundEven_le (q := q / place p q) (by positivity)
  have heq : q - rounded p q =
      (q / place p q - roundEven (q / place p q).num.natAbs (q / place p q).den) * place p q := by
    rw [rounded_eq_mul hq, sub_mul, div_mul_cancel₀ _ hp.ne']
  rw [heq, abs_mul, abs_of_pos hp]
  nlinarith

end decimals

/-! ### What is printed for a double -/

/-- The decimal `T`, with the last digit of value `G`, is printed for `x`, all in units. -/
structure Printed (p x : ℕ) (T G : ℚ) : Prop where
  pos : 0 < G
  multiple : ∃ m : ℕ, T = m * G
  half : |x - T| ≤ G / 2
  low : 10 ^ p * G ≤ x
  high : x < 10 ^ (p + 1) * G
  decade : ∃ a : ℤ, G = 10 ^ a * 2 ^ unitExp

theorem printed_rounded (p : ℕ) {x : ℕ} (hx : 0 < x) :
    Printed p x (rounded p (x * unit) * 2 ^ unitExp) (place p (x * unit) * 2 ^ unitExp) := by
  have hc : (0 : ℚ) < 2 ^ unitExp := by positivity
  have hunit : (x : ℚ) * unit * 2 ^ unitExp = x := by
    rw [unit, mul_assoc, one_div_mul_cancel hc.ne', mul_one]
  have hq : 0 < (x : ℚ) * unit := by
    have : (0 : ℚ) < x := by exact_mod_cast hx
    rw [unit]
    positivity
  generalize (x : ℚ) * unit = q at *
  generalize hunits : (2 : ℚ) ^ unitExp = c at *
  have hhalf := abs_sub_rounded_le_half (p := p) hq
  have hlow := Int.zpow_log_le_self (b := 10) (by norm_num) hq
  have hhigh := Int.lt_zpow_succ_log_self (b := 10) (by norm_num) q
  push_cast at hlow hhigh
  have hten : ∀ n : ℕ, (10 : ℚ) ^ n * place p q = 10 ^ (Int.log 10 q + (n - p)) := by
    intro n
    rw [place, ← zpow_natCast, ← zpow_add₀ (by norm_num)]
    congr 1
    ring
  refine ⟨mul_pos place_pos hc, ⟨_, by rw [rounded_eq_mul hq, mul_assoc]⟩, ?_, ?_, ?_,
    ⟨_, by rw [hunits]; rfl⟩⟩
  · rw [← hunit, ← sub_mul, abs_mul, abs_of_pos hc]
    nlinarith
  · rw [← hunit, ← mul_assoc, hten, sub_self, add_zero]
    exact mul_le_mul_of_nonneg_right hlow hc.le
  · rw [← hunit, ← mul_assoc, hten]
    refine mul_lt_mul_of_pos_right (hhigh.trans_eq ?_) hc
    congr 1
    push_cast
    ring

section printed
variable {p x y : ℕ} {T T' G G' : ℚ}

/-- The grid gets coarser from decade to decade. -/
theorem Printed.exists_pow (hx : Printed p x T G) (hy : Printed p y T' G') (h : G ≤ G') :
    ∃ j : ℕ, G' = 10 ^ j * G := by
  obtain ⟨a, ha⟩ := hx.decade
  obtain ⟨b, hb⟩ := hy.decade
  have hc : (0 : ℚ) < 2 ^ unitExp := by positivity
  generalize (2 : ℚ) ^ unitExp = c at *
  have hab : a ≤ b := by
    rw [ha, hb, mul_le_mul_iff_left₀ hc] at h
    exact (zpow_le_zpow_iff_right₀ (by norm_num)).mp h
  refine ⟨(b - a).toNat, ?_⟩
  rw [ha, hb, ← mul_assoc, ← zpow_natCast, Int.toNat_of_nonneg (by omega),
    ← zpow_add₀ (by norm_num)]
  congr 2
  ring

theorem Printed.ten_mul_le (hx : Printed p x T G) (hy : Printed p y T' G') (h : G < G') :
    10 * G ≤ G' := by
  obtain ⟨j, hj⟩ := hx.exists_pow hy h.le
  have hG := hx.pos
  rcases Nat.eq_zero_or_pos j with rfl | hpos
  · rw [pow_zero, one_mul] at hj
    exact absurd hj h.ne'
  · have : (10 : ℚ) ^ 1 ≤ 10 ^ j := pow_le_pow_right₀ (by norm_num) hpos
    rw [hj]
    nlinarith

/-- No multiple of the last place is nearer. -/
theorem Printed.nearest_multiple (hx : Printed p x T G) (n : ℤ) : |x - T| ≤ |x - n * G| := by
  obtain ⟨m, hm⟩ := hx.multiple
  have hG := hx.pos
  have hhalf := hx.half
  by_cases h : (m : ℤ) = n
  · rw [hm, ← h]
    simp
  · have h1 : (1 : ℚ) ≤ |(n : ℚ) - m| := by
      have := Int.one_le_abs (sub_ne_zero.mpr (Ne.symm h))
      exact_mod_cast this
    have h2 : |n * G - T| = |(n : ℚ) - m| * G := by
      rw [hm, ← sub_mul, abs_mul, abs_of_pos hG]
    have h3 := abs_sub_le (n * G) (x : ℚ) T
    rw [abs_sub_comm (n * G) (x : ℚ)] at h3
    nlinarith

/-- What is printed does not leave the decade. -/
theorem Printed.bounds (hx : Printed p x T G) : 10 ^ p * G ≤ T ∧ T ≤ 10 ^ (p + 1) * G := by
  have hl := hx.nearest_multiple (10 ^ p)
  have hh := hx.nearest_multiple (10 ^ (p + 1))
  have hlow := hx.low
  have hhigh := hx.high
  push_cast at hl hh
  rw [abs_of_nonneg (by linarith : (0 : ℚ) ≤ x - 10 ^ p * G)] at hl
  rw [abs_of_neg (by linarith : (x : ℚ) - 10 ^ (p + 1) * G < 0)] at hh
  have h1 := le_abs_self ((x : ℚ) - T)
  have h2 := neg_abs_le ((x : ℚ) - T)
  constructor <;> linarith

/-- **No decimal that is printed for any double is nearer than the one that is printed.** -/
theorem Printed.nearest_printed (hx : Printed p x T G) (hy : Printed p y T' G') :
    |y - T'| ≤ |y - T| := by
  rcases le_or_gt G' G with hle | hlt
  · obtain ⟨j, hj⟩ := hy.exists_pow hx hle
    obtain ⟨m, hm⟩ := hx.multiple
    have := hy.nearest_multiple (m * 10 ^ j)
    push_cast at this
    rwa [mul_assoc, ← hj, ← hm] at this
  · -- The other decimal lies below the decade.
    have hten := hx.ten_mul_le hy hlt
    have hT : T ≤ 10 ^ p * G' := by
      have hp : (0 : ℚ) < 10 ^ p := by positivity
      refine hx.bounds.2.trans ?_
      rw [pow_succ, mul_assoc]
      exact mul_le_mul_of_nonneg_left hten hp.le
    have hl := hy.nearest_multiple (10 ^ p)
    have hlow := hy.low
    push_cast at hl
    rw [abs_of_nonneg (by linarith : (0 : ℚ) ≤ y - 10 ^ p * G')] at hl
    rw [abs_of_nonneg (by linarith : (0 : ℚ) ≤ y - T)]
    linarith

/-- Around a power of two: if the decimal that is read as it lies above, and was printed for another
double, then the decimal that is printed for it is read as it again. -/
theorem Printed.le_quarter {e : ℕ} (hp : 2 ^ 53 < 10 ^ (p + 1)) (hdouble : IsDouble x)
    (hx : Printed p x T G) (hy : Printed p y T' G') (hne : x ≠ y) (he : y = 2 ^ 52 * 2 ^ e)
    (habove : y < T) (hT : T - y ≤ 2 ^ e / 2) : y - T' ≤ (2 : ℚ) ^ e / 4 := by
  by_contra! hquarter
  have hpos : (0 : ℚ) < 2 ^ e := by positivity
  have hyq : (y : ℚ) = 2 ^ 52 * 2 ^ e := by
    rw [he]
    push_cast
    rfl
  have hy' : y - T' ≤ T - y := by
    have := hx.nearest_printed hy
    rwa [abs_of_pos (by linarith), abs_of_neg (by linarith), neg_sub] at this
  -- The other double lies above.
  have hxy : y < x := by
    refine lt_of_le_of_ne (not_lt.mp fun hlt => ?_) hne.symm
    have hlt' : (x : ℚ) < y := by exact_mod_cast hlt
    have := hy.nearest_printed hx
    rw [abs_of_neg (by linarith), abs_sub_comm, le_abs] at this
    rcases this with h | h <;> linarith
  have hgap : (y : ℚ) + 2 ^ e ≤ x := by
    exact_mod_cast add_le_of_lt hdouble ⟨he, by decide, Or.inr le_rfl⟩ hxy
  have hhalf := hx.half
  have hhalf' := hy.half
  have hGpos := hy.pos
  rw [abs_of_pos (by linarith)] at hhalf hhalf'
  rcases lt_trichotomy G G' with hlt | rfl | hgt
  · -- The last place does not get smaller on the way up.
    have hten := hx.ten_mul_le hy hlt
    have h10 : (0 : ℚ) < 10 ^ p := by positivity
    have hhigh := hx.high
    have hlow := hy.low
    rw [pow_succ, mul_assoc] at hhigh
    have := mul_le_mul_of_nonneg_left hten h10.le
    linarith
  · -- In the same decade the last place is that of the mantissa, and the power of two is a decimal.
    obtain ⟨m, hm⟩ := hx.multiple
    obtain ⟨m', hm'⟩ := hy.multiple
    have hstep : (m' : ℚ) + 1 ≤ m := by
      have hlt : (m' : ℚ) * G < m * G := by linarith
      have := lt_of_mul_lt_mul_right hlt hGpos.le
      exact_mod_cast this
    have hG : G = 2 ^ e := by nlinarith
    have hmul := hy.nearest_multiple (2 ^ 52)
    rw [show ((2 ^ 52 : ℤ) : ℚ) = 2 ^ 52 by norm_num, hG, ← hyq, sub_self, abs_zero,
      abs_of_pos (by linarith)] at hmul
    linarith
  · -- In a higher decade the decimal is too far away.
    have hten := hy.ten_mul_le hx hgt
    have hp' : (2 : ℚ) ^ 53 + 1 ≤ 10 ^ (p + 1) := by exact_mod_cast hp
    have hlow := hx.bounds.1
    have hdecade : 10 ^ (p + 1) * G' ≤ T := by
      have h10 : (0 : ℚ) < 10 ^ p := by positivity
      calc 10 ^ (p + 1) * G' = 10 ^ p * (10 * G') := by ring
        _ ≤ 10 ^ p * G := mul_le_mul_of_nonneg_left hten h10.le
        _ ≤ T := hlow
    nlinarith

/-! ### Printed and read, and again -/

/-- **The decimal that is printed for a double that was read is read as this double.** -/
theorem near_printed (hp : 2 ^ 53 < 10 ^ (p + 1)) (hdouble : IsDouble x) (hx : Printed p x T G)
    (hy : Printed p (near T) T' G') (hne : x ≠ near T) : near T' = near T := by
  have hT0 : 0 ≤ T := le_trans (by have := hx.pos; positivity) hx.bounds.1
  have hT0' : 0 ≤ T' := le_trans (by have := hy.pos; positivity) hy.bounds.1
  obtain ⟨k, e, hnormal⟩ := exists_normal_near T
  have hself : near (near T : ℚ) = near T := near_self ⟨k, e, hnormal.lt, hnormal.eq⟩
  have hle := hx.nearest_printed hy
  generalize hw : near T = y at *
  rcases le_or_gt T y with hT | hT <;> rcases le_or_gt T' y with hT' | hT'
  · -- Both below: the new decimal lies between the old one and the double.
    rw [abs_of_nonneg (by linarith), abs_of_nonneg (by linarith)] at hle
    refine le_antisymm ((near_mono hT0' hT').trans_eq hself) ?_
    exact hw.symm.trans_le (near_mono hT0 (by linarith))
  · rw [abs_of_neg (by linarith), abs_of_nonneg (by linarith), neg_sub] at hle
    have hnear : near (y - (y - T)) = y := by rwa [sub_sub_cancel]
    have hwithin : Within k e (T' - y) := by
      by_cases h52 : k ≠ 2 ^ 52 ∨ e = 0
      · exact (within_of_near_below hnormal h52 (by linarith) (by linarith) hnear).mono hle
      · obtain ⟨rfl, he⟩ : k = 2 ^ 52 ∧ e ≠ 0 := by tauto
        have := (near_below_power_iff he hnormal.eq (by linarith) (by linarith)).mp hnear
        have hpos : (0 : ℚ) < 2 ^ e := by positivity
        exact Or.inl (by linarith)
    have := (near_above_iff hnormal (by linarith)).mpr hwithin
    rwa [add_sub_cancel] at this
  · rw [abs_of_nonneg (by linarith), abs_of_neg (by linarith), neg_sub] at hle
    have hnear : near (y + (T - y)) = y := by rwa [add_sub_cancel]
    have hwithin := (near_above_iff hnormal (by linarith)).mp hnear
    suffices h : near (y - (y - T')) = y by rwa [sub_sub_cancel] at h
    by_cases h52 : k ≠ 2 ^ 52 ∨ e = 0
    · exact near_below_of_within hnormal h52 (by linarith) (by linarith) (hwithin.mono hle)
    · obtain ⟨rfl, he⟩ : k = 2 ^ 52 ∧ e ≠ 0 := by tauto
      refine (near_below_power_iff he hnormal.eq (by linarith) (by linarith)).mpr ?_
      exact hx.le_quarter hp hdouble hy hne hnormal.eq hT hwithin.le
  · rw [abs_of_neg (by linarith), abs_of_neg (by linarith)] at hle
    refine le_antisymm ((near_mono hT0' (by linarith)).trans_eq hw) ?_
    exact hself.symm.trans_le (near_mono (Nat.cast_nonneg y) hT'.le)

theorem Printed.near_pos (hp : 2 ^ 53 < 10 ^ (p + 1)) (hx : Printed p x T G) (hx0 : 0 < x) :
    0 < near T := by
  by_contra! h0
  obtain ⟨k, e, hnormal⟩ := exists_normal_near T
  rw [Nat.le_zero.mp h0] at hnormal
  have he : e = 0 := by
    have hk : k = 0 := by
      have := hnormal.eq
      have hpos : 0 < 2 ^ e := by positivity
      exact (Nat.mul_eq_zero.mp this.symm).resolve_right hpos.ne'
    have := hnormal.lead
    omega
  have hlow := hx.low
  have hhalf := hx.half
  have hG := hx.pos
  have hx1 : (1 : ℚ) ≤ x := by exact_mod_cast hx0
  have hten : (10 : ℚ) ≤ 10 ^ p := by
    have hp0 : p ≠ 0 := by
      rintro rfl
      exact absurd hp (by decide)
    calc (10 : ℚ) = 10 ^ 1 := by norm_num
      _ ≤ 10 ^ p := pow_le_pow_right₀ (by norm_num) (by omega)
  have hT := (abs_le.mp hhalf).2
  have hnear : near ((0 : ℕ) + T) = 0 := by
    rw [Nat.cast_zero, zero_add]
    exact Nat.le_zero.mp h0
  have hwithin := ((near_above_iff hnormal (by nlinarith)).mp hnear).le
  rw [he] at hwithin
  nlinarith

/-- A whole number is read as a whole number. -/
theorem near_natCast (z : ℕ) : ∃ w : ℕ, near (z * 2 ^ unitExp) = w * 2 ^ unitExp := by
  rw [near_eq (n := z * 2 ^ unitExp) one_pos (by push_cast; ring)]
  rcases lt_or_ge z (2 ^ 53) with hlt | hge
  · refine ⟨z, ?_⟩
    have := nearest_exact (d := 1) (j := unitExp) one_pos hlt
    rwa [one_mul] at this
  · have hlog : unitExp + 53 ≤ (z * 2 ^ unitExp).log2 := by
      have hle : 2 ^ (unitExp + 53) ≤ z * 2 ^ unitExp := by
        rw [pow_add, mul_comm]
        exact Nat.mul_le_mul_right _ hge
      have hne : z * 2 ^ unitExp ≠ 0 := by
        have : 0 < 2 ^ (unitExp + 53) := by positivity
        omega
      exact (Nat.le_log2 hne).mpr hle
    obtain ⟨i, hi⟩ : ∃ i, expo (z * 2 ^ unitExp) 1 = i + unitExp := by
      refine ⟨expo (z * 2 ^ unitExp) 1 - unitExp, ?_⟩
      rw [expo, Nat.div_one]
      omega
    exact ⟨_, by rw [nearest, hi, pow_add, ← mul_assoc]⟩

theorem eq_of_abs_le_half {m n : ℕ} (hG : 0 < G) (h : |m * G - n * G| ≤ G / 2) : m = n := by
  by_contra hne
  have h1 : (1 : ℚ) ≤ |(m : ℚ) - n| := by
    have : (m : ℤ) - n ≠ 0 := sub_ne_zero.mpr (by exact_mod_cast hne)
    exact_mod_cast Int.one_le_abs this
  rw [← sub_mul, abs_mul, abs_of_pos hG] at h
  nlinarith

/-- A decimal that is read as a whole number of few digits is this number. -/
theorem Printed.eq_of_whole {w : ℕ} (hten : IsDouble (10 ^ (p + 1))) (hdouble : IsDouble x)
    (hx : Printed p x T G) (hw : near T = w * 2 ^ unitExp) (hlt : w < 10 ^ (p + 1)) :
    T = w * 2 ^ unitExp := by
  obtain ⟨a, ha⟩ := hx.decade
  obtain ⟨m, hm⟩ := hx.multiple
  have hG := hx.pos
  have hT0 : 0 ≤ T := by
    rw [hm]
    exact mul_nonneg (Nat.cast_nonneg m) hG.le
  rcases le_or_gt a 0 with hle | hgt
  · -- The whole numbers are decimals of this decade, and no double is nearer than the one read.
    have hunits : (2 : ℚ) ^ unitExp = ((10 ^ (-a).toNat : ℕ) : ℚ) * G := by
      have hinv : ((10 ^ (-a).toNat : ℕ) : ℚ) = 10 ^ (-a) := by
        rw [← Int.toNat_of_nonneg (show 0 ≤ -a by omega), zpow_natCast]
        norm_cast
      rw [ha, hinv, ← mul_assoc, ← zpow_add₀ (by norm_num), neg_add_cancel, zpow_zero, one_mul]
    have hnear := abs_sub_near_le hT0 hdouble
    rw [hw, Nat.cast_mul, Nat.cast_pow, Nat.cast_ofNat, abs_sub_comm T (x : ℚ), hunits, ← mul_assoc,
      ← Nat.cast_mul] at hnear
    have hle' := hnear.trans hx.half
    rw [hm] at hle'
    rw [hm, hunits, ← mul_assoc, ← Nat.cast_mul, eq_of_abs_le_half hG hle']
  · -- From the next decade on, what is read has too many digits.
    exfalso
    have hc : (0 : ℚ) < 2 ^ unitExp := by positivity
    have hle : ((10 ^ (p + 1) * 2 ^ unitExp : ℕ) : ℚ) ≤ T := by
      have h10 : (10 : ℚ) ≤ 10 ^ a := by
        calc (10 : ℚ) = 10 ^ (1 : ℤ) := by norm_num
          _ ≤ 10 ^ a := zpow_le_zpow_right₀ (by norm_num) (by omega)
      have hp : (0 : ℚ) < 10 ^ p := by positivity
      refine le_trans ?_ hx.bounds.1
      rw [ha]
      push_cast
      generalize (2 : ℚ) ^ unitExp = c at *
      rw [pow_succ, mul_assoc]
      exact mul_le_mul_of_nonneg_left (mul_le_mul_of_nonneg_right h10 hc.le) hp.le
    have hself : near ((10 ^ (p + 1) * 2 ^ unitExp : ℕ) : ℚ) = 10 ^ (p + 1) * 2 ^ unitExp := by
      refine near_self ?_
      obtain ⟨k, j, hk, hkj⟩ := hten
      exact ⟨k, j + unitExp, hk, by rw [hkj, pow_add, mul_assoc]⟩
    have hmono := near_mono (Nat.cast_nonneg _) hle
    rw [hself, hw] at hmono
    have := Nat.le_of_mul_le_mul_right hmono (by positivity)
    omega

/-- A decimal that is read as a whole number below a bound of the digits is below it. -/
theorem Printed.lt_of_whole {w z : ℕ} (hx : Printed p (w * 2 ^ unitExp) (z * 2 ^ unitExp) G)
    (hz : z < 10 ^ (p + 1)) : w < 10 ^ (p + 1) := by
  by_contra! hge
  have hc : (0 : ℚ) < 2 ^ unitExp := by positivity
  have hlow := hx.bounds.1
  have hhigh := hx.high
  obtain ⟨a, ha⟩ := hx.decade
  push_cast at hhigh
  generalize (2 : ℚ) ^ unitExp = c at *
  have hge' : (10 : ℚ) ^ (p + 1) ≤ w := by exact_mod_cast hge
  have hz' : (z : ℚ) < 10 ^ (p + 1) := by exact_mod_cast hz
  have h10 : (0 : ℚ) < 10 ^ p := by positivity
  have ha0 : 0 < a := by
    by_contra! hle
    have : (10 : ℚ) ^ a ≤ 1 := zpow_le_one_of_nonpos₀ (by norm_num) hle
    rw [ha, ← mul_assoc] at hhigh
    have := lt_of_mul_lt_mul_right hhigh hc.le
    nlinarith
  have ha1 : (10 : ℚ) ≤ 10 ^ a := by
    calc (10 : ℚ) = 10 ^ (1 : ℤ) := by norm_num
      _ ≤ 10 ^ a := zpow_le_zpow_right₀ (by norm_num) (by omega)
  rw [ha, ← mul_assoc] at hlow
  have := le_of_mul_le_mul_right hlow hc
  rw [pow_succ] at hz'
  nlinarith

end printed

/-! ### Numbers -/

section numbers
variable {p x : ℕ}

theorem rounded_nonneg (p : ℕ) (q : ℚ) : 0 ≤ rounded p q := by
  unfold rounded
  split_ifs
  · exact le_rfl
  · exact mul_nonneg (Nat.cast_nonneg _) (zpow_nonneg (by norm_num) _)

theorem nearestUnits_rounded_eq (p x : ℕ) :
    nearestUnits (rounded p (x * unit)) = near (rounded p (x * unit) * 2 ^ unitExp) :=
  nearestUnits_eq (rounded_nonneg p _)

/-- **A double that was printed with sixteen digits or more and read is printed and read as
itself.** -/
theorem nearestUnits_rounded (hp : 2 ^ 53 < 10 ^ (p + 1)) (hx : IsDouble x) (hx0 : 0 < x) {y : ℕ}
    (hy : nearestUnits (rounded p (x * unit)) = y) :
    0 < y ∧ nearestUnits (rounded p (y * unit)) = y := by
  have hprinted := printed_rounded p hx0
  rw [nearestUnits_rounded_eq] at hy
  have hy0 : 0 < y := hy ▸ hprinted.near_pos hp hx0
  refine ⟨hy0, ?_⟩
  rw [nearestUnits_rounded_eq]
  by_cases hne : x = y
  · rw [← hne]
    exact hy.trans hne.symm
  · have hagain := printed_rounded p hy0
    rw [← hy] at hagain hne
    rw [← hy]
    exact near_printed hp hx hprinted hagain hne

/-- **What is read keeps its kind**: a decimal with a point or an exponent is read as a double for
which such a decimal is printed. -/
theorem whole_of_whole_rounded (hp : 2 ^ 53 < 10 ^ (p + 1)) (hten : IsDouble (10 ^ (p + 1)))
    (hx : IsDouble x) (hx0 : 0 < x) {y : ℕ} (hy : nearestUnits (rounded p (x * unit)) = y)
    (hw : Whole p (rounded p (y * unit))) : Whole p (rounded p (x * unit)) := by
  obtain ⟨z, hz, hlt⟩ := hw
  obtain ⟨hy0, hagain⟩ := nearestUnits_rounded hp hx hx0 hy
  rw [nearestUnits_rounded_eq, hz] at hagain
  obtain ⟨w, hwz⟩ := near_natCast z
  have hyw : y = w * 2 ^ unitExp := hagain.symm.trans hwz
  have hprinted' := printed_rounded p hy0
  rw [hz, hyw] at hprinted'
  have hwlt := hprinted'.lt_of_whole hlt
  rw [nearestUnits_rounded_eq, hyw] at hy
  have heq := (printed_rounded p hx0).eq_of_whole hten hx hy hwlt
  have hc : (2 : ℚ) ^ unitExp ≠ 0 := by positivity
  exact ⟨w, mul_right_cancel₀ hc heq, hwlt⟩

end numbers

end PgBson.Lib.Rerounding
