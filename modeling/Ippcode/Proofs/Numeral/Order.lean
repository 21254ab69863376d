import Ippcode.Proofs.Numeral.Bits
import Ippcode.Proofs.Numeral.Rounding

/-!
# The order of doubles and integers

Positions number the doubles in the order of the numbers that they stand for
(`numberAt_strictMono`), so comparing positions is comparing numbers
(`compare?_eq_compare_value`). The position that a number is rounded to is nearest to it, with its
sign (`IsNearestAt`), and rounding never turns an order around (`IsNearestAt.lt`).

An integer is compared with a double by the position that it is rounded to. This is the order of
the two numbers, unless the double is the one that the integer is rounded to (`compare_ofInt`). Then
the two are taken for the same number, which they are as long as the integer has at most 53 bits
(`value_of_isNearestAt`).
-/

namespace Ippcode.Binary64

/-! ## Numbers at positions -/

theorem number_nonneg (b : Nat) : 0 ≤ number b := by
  rw [← number_zero]
  exact number_strictMono.monotone (Nat.zero_le b)

theorem number_pos {b : Nat} (h : 0 < b) : 0 < number b := by
  rw [← number_zero]
  exact number_strictMono h

/-- The number at a position. The infinities stand for the powers of two beyond all doubles. -/
def numberAt (p : ℤ) : ℚ := p.sign * number p.natAbs

theorem numberAt_natCast (b : Nat) : numberAt b = number b := by
  rcases Nat.eq_zero_or_pos b with rfl | h
  · rw [numberAt, Int.natAbs_natCast, number_zero, mul_zero]
  · rw [numberAt, Int.sign_natCast_of_ne_zero h.ne', Int.natAbs_natCast, Int.cast_one, one_mul]

theorem numberAt_neg (p : ℤ) : numberAt (-p) = -numberAt p := by
  rw [numberAt, numberAt, Int.sign_neg, Int.natAbs_neg, Int.cast_neg, neg_mul]

/-- Greater positions have greater numbers. -/
theorem numberAt_strictMono : StrictMono numberAt := by
  intro p q h
  obtain ⟨b, rfl | rfl⟩ := p.eq_nat_or_neg <;> obtain ⟨c, rfl | rfl⟩ := q.eq_nat_or_neg
  · rw [numberAt_natCast, numberAt_natCast]
    exact number_strictMono (by omega)
  · omega
  · rw [numberAt_neg, numberAt_natCast, numberAt_natCast]
    have hb := number_nonneg b
    have hc := number_nonneg c
    rcases Nat.eq_zero_or_pos b with rfl | pos
    · linarith [number_pos (show 0 < c by omega)]
    · linarith [number_pos pos]
  · rw [numberAt_neg, numberAt_neg, numberAt_natCast, numberAt_natCast]
    exact neg_lt_neg (number_strictMono (by omega))

/-- The number that a double stands for. -/
def value (x : Float) : ℚ := numberAt (position x)

theorem natAbs_position (x : Float) : (position x).natAbs = magnitude x := by
  unfold position
  split <;> omega

theorem natAbs_position_le {x : Float} (number : isNaN x = false) :
    (position x).natAbs ≤ infinity := by
  rw [natAbs_position]
  exact not_lt.mp (of_decide_eq_false number)

theorem compare?_eq_some_iff {x y : Float} {o : Ordering} :
    compare? x y = some o ↔
      isNaN x = false ∧ isNaN y = false ∧ compare (position x) (position y) = o := by
  unfold compare?
  cases isNaN x <;> cases isNaN y <;> simp

/-- Doubles are compared as the numbers that they stand for. -/
theorem compare?_eq_compare_value {x y : Float} (hx : isNaN x = false) (hy : isNaN y = false) :
    compare? x y = some (compare (value x) (value y)) := by
  refine compare?_eq_some_iff.mpr ⟨hx, hy, ?_⟩
  rcases lt_trichotomy (position x) (position y) with lt | same | gt
  · have below : value x < value y := numberAt_strictMono lt
    rw [compare_lt_iff_lt.mpr lt, compare_lt_iff_lt.mpr below]
  · rw [value, value, same, compare_eq_iff_eq.mpr rfl, compare_eq_iff_eq.mpr rfl]
  · have above : value y < value x := numberAt_strictMono gt
    rw [compare_gt_iff_gt.mpr gt, compare_gt_iff_gt.mpr above]

theorem compare?_eq_none_iff {x y : Float} :
    compare? x y = none ↔ isNaN x = true ∨ isNaN y = true := by
  unfold compare?
  cases isNaN x <;> cases isNaN y <;> simp

theorem compare?_swap (x y : Float) : compare? y x = (compare? x y).map Ordering.swap := by
  unfold compare?
  rw [Bool.or_comm]
  split
  · rfl
  · exact congrArg some Std.OrientedOrd.eq_swap

/-! ## The nearest position -/

/-- The position is nearest to the number, with its sign. -/
structure IsNearestAt (y : ℚ) (p : ℤ) : Prop where
  nearest : IsNearest |y| p.natAbs
  nonneg : 0 < y → 0 ≤ p
  nonpos : y < 0 → p ≤ 0

/-- Each position is nearest to its number. -/
theorem isNearestAt_numberAt {p : ℤ} (h : p.natAbs ≤ infinity) : IsNearestAt (numberAt p) p := by
  obtain ⟨b, rfl | rfl⟩ := p.eq_nat_or_neg
  · rw [Int.natAbs_natCast] at h
    rw [numberAt_natCast]
    refine ⟨?_, fun _ => by omega, fun neg => absurd neg (not_lt.mpr (number_nonneg b))⟩
    rw [abs_of_nonneg (number_nonneg b), Int.natAbs_natCast]
    exact isNearest_number h
  · rw [Int.natAbs_neg, Int.natAbs_natCast] at h
    rw [numberAt_neg, numberAt_natCast]
    refine ⟨?_, fun pos => ?_, fun _ => by omega⟩
    · rw [abs_neg, abs_of_nonneg (number_nonneg b), Int.natAbs_neg, Int.natAbs_natCast]
      exact isNearest_number h
    · linarith [number_nonneg b]

namespace IsNearestAt

variable {y z : ℚ} {p q : ℤ}

theorem eq_zero (h : IsNearestAt 0 p) : p = 0 := by
  have zero := isNearest_number (Nat.zero_le infinity)
  rw [number_zero] at zero
  have nearest := h.nearest
  rw [abs_zero] at nearest
  have := nearest.unique zero
  omega

theorem nonneg_of_nonneg (h : IsNearestAt y p) (hy : 0 ≤ y) : 0 ≤ p := by
  rcases hy.eq_or_lt with rfl | pos
  · exact h.eq_zero.ge
  · exact h.nonneg pos

theorem nonpos_of_nonpos (h : IsNearestAt y p) (hy : y ≤ 0) : p ≤ 0 := by
  rcases hy.eq_or_lt with rfl | neg
  · exact h.eq_zero.le
  · exact h.nonpos neg

/-- Numbers with different nearest positions are in the order of these. -/
theorem lt (hy : IsNearestAt y p) (hz : IsNearestAt z q) (h : p < q) : y < z := by
  by_contra le
  have le : z ≤ y := not_lt.mp le
  rcases lt_trichotomy 0 z with pos | zero | neg
  · -- Both are positive, so their magnitudes are in the order of the positions.
    have hp := hy.nonneg (pos.trans_le le)
    have := hy.nearest.lt hz.nearest (by omega)
    rw [abs_of_pos pos, abs_of_pos (pos.trans_le le)] at this
    linarith
  · have hp := hy.nonneg_of_nonneg (zero.le.trans le)
    have hq := hz.nonpos_of_nonpos zero.ge
    omega
  · rcases le_or_gt 0 y with nonneg | neg'
    · have hp := hy.nonneg_of_nonneg nonneg
      have hq := hz.nonpos neg
      omega
    · -- Both are negative, and their magnitudes are in the opposite order.
      have hq := hz.nonpos neg
      have := hz.nearest.lt hy.nearest (by omega)
      rw [abs_of_neg neg, abs_of_neg neg'] at this
      linarith

/-- No number has two nearest positions. -/
theorem unique (hp : IsNearestAt y p) (hq : IsNearestAt y q) : p = q := by
  rcases lt_trichotomy p q with h | h | h
  · exact absurd (hp.lt hq h) (lt_irrefl y)
  · exact h
  · exact absurd (hq.lt hp h) (lt_irrefl y)

end IsNearestAt

/-! ## Integers -/

variable {n : ℤ} {x : Float}

theorem nearest_le_infinity (n : Nat) : nearest n 1 ≤ infinity :=
  (isNearest_nearest one_pos).le_infinity

theorem isNaN_ofInt (n : ℤ) : isNaN (ofInt n) = false := by
  unfold isNaN ofInt
  rw [magnitude_ofMagnitude (nearest_le_infinity _)]
  exact decide_eq_false (not_lt.mpr (nearest_le_infinity _))

/-- An integer is rounded to the nearest position. -/
theorem isNearestAt_ofInt (n : ℤ) : IsNearestAt n (position (ofInt n)) := by
  have hb := nearest_le_infinity n.natAbs
  have negative : isNegative (ofInt n) = decide (n < 0) := isNegative_ofMagnitude hb
  refine ⟨?_, fun pos => ?_, fun neg => ?_⟩
  · have rounded := isNearest_nearest (n := n.natAbs) one_pos
    rw [Nat.cast_one, div_one, Nat.cast_natAbs, Int.cast_abs] at rounded
    rwa [natAbs_position, ofInt, magnitude_ofMagnitude hb]
  · have pos : 0 < n := by exact_mod_cast pos
    rw [position, negative, decide_eq_false (by omega), if_neg Bool.false_ne_true]
    omega
  · have neg : n < 0 := by exact_mod_cast neg
    rw [position, negative, decide_eq_true neg, if_pos rfl]
    omega

/-- Rounding keeps the order of integers. -/
theorem position_ofInt_mono : Monotone fun n => position (ofInt n) := by
  intro n m h
  by_contra lt
  have := (isNearestAt_ofInt m).lt (isNearestAt_ofInt n) (not_le.mp lt)
  have : m < n := by exact_mod_cast this
  omega

/-- An integer is rounded to the position of a double, or it is on the same side of its number as
before. -/
theorem compare_ofInt (number : isNaN x = false) :
    (IsNearestAt n (position x) ∧ compare (position (ofInt n)) (position x) = .eq) ∨
    (¬ IsNearestAt n (position x) ∧
      compare (position (ofInt n)) (position x) = compare (n : ℚ) (value x)) := by
  have rounded := isNearestAt_ofInt n
  have exact := isNearestAt_numberAt (natAbs_position_le number)
  rcases lt_trichotomy (position (ofInt n)) (position x) with h | h | h
  · have below : (n : ℚ) < value x := rounded.lt exact h
    refine .inr ⟨fun nearest => h.ne (rounded.unique nearest), ?_⟩
    rw [compare_lt_iff_lt.mpr h, compare_lt_iff_lt.mpr below]
  · exact .inl ⟨h ▸ rounded, compare_eq_iff_eq.mpr h⟩
  · have above : value x < n := exact.lt rounded h
    refine .inr ⟨fun nearest => h.ne' (rounded.unique nearest), ?_⟩
    rw [compare_gt_iff_gt.mpr h, compare_gt_iff_gt.mpr above]

/-! ### Exact integers -/

/-- What has at most 53 bits is the number of a magnitude. -/
theorem exists_number_eq {n : Nat} (h : n ≤ 2 ^ 53) : ∃ b ≤ infinity, number b = n := by
  have small : (n : ℚ) ≤ 2 ^ (1024 : ℤ) := by
    have few : (n : ℚ) ≤ 2 ^ (53 : ℤ) := by exact_mod_cast h
    exact few.trans (zpow_le_zpow_right₀ one_le_two (by decide))
  rw [← mul_one (n : ℚ), ← zpow_zero 2] at small ⊢
  exact exists_number_eq_mul_zpow h (by decide) small

/-- An integer is the number of a position if its absolute value is the number of a magnitude. -/
theorem exists_numberAt_of_natAbs {b : Nat} (hb : b ≤ infinity) (value : number b = n.natAbs) :
    ∃ p : ℤ, p.natAbs ≤ infinity ∧ numberAt p = n := by
  rw [Nat.cast_natAbs] at value
  rcases le_or_gt 0 n with nonneg | neg
  · refine ⟨b, hb, ?_⟩
    rw [numberAt_natCast, value, abs_of_nonneg nonneg]
  · refine ⟨-b, by rwa [Int.natAbs_neg], ?_⟩
    rw [numberAt_neg, numberAt_natCast, value, abs_of_neg neg, Int.cast_neg, neg_neg]

/-- What is rounded to a double stands for the number of this double, if there is one for it. -/
theorem value_of_numberAt {y : ℚ} {p : ℤ} (hp : p.natAbs ≤ infinity) (same : numberAt p = y)
    (h : IsNearestAt y (position x)) : value x = y := by
  have exact := isNearestAt_numberAt hp
  rw [same] at exact
  rw [value, h.unique exact, same]

/-- The double that a small integer is rounded to stands for this integer. -/
theorem value_of_isNearestAt (small : n.natAbs ≤ 2 ^ 53) (h : IsNearestAt n (position x)) :
    value x = n := by
  obtain ⟨b, hb, value⟩ := exists_number_eq small
  obtain ⟨p, hp, same⟩ := exists_numberAt_of_natAbs hb value
  exact value_of_numberAt hp same h

/-! ### Infinities -/

/-- The order of an integer and a double that is not a NaN, as exact numbers. The infinities are
beyond all integers. -/
def exactOrder (n : ℤ) (x : Float) : Ordering :=
  if magnitude x < infinity then compare (n : ℚ) (value x)
  else if isNegative x then .gt else .lt

/-- For integers of 64 bits the power of two beyond all doubles is as good as infinity. -/
theorem exactOrder_eq (small : n.natAbs ≤ 2 ^ 63) (number : isNaN x = false) :
    exactOrder n x = compare (n : ℚ) (value x) := by
  unfold exactOrder
  split
  · rfl
  · rename_i great
    have infinite : magnitude x = infinity := by
      have : magnitude x ≤ infinity := not_lt.mp (of_decide_eq_false number)
      omega
    have bound : |(n : ℚ)| < 2 ^ (1024 : ℤ) := by
      rw [← Int.cast_abs, ← Nat.cast_natAbs]
      have le : (n.natAbs : ℚ) ≤ 2 ^ 63 := by exact_mod_cast small
      exact le.trans_lt (zpow_lt_zpow_right₀ (m := 63) one_lt_two (by decide))
    obtain ⟨low, high⟩ := abs_lt.mp bound
    rw [value, position, infinite]
    split
    · rw [numberAt_neg, numberAt_natCast, number_infinity, compare_gt_iff_gt.mpr low]
    · rw [numberAt_natCast, number_infinity, compare_lt_iff_lt.mpr high]

end Ippcode.Binary64
