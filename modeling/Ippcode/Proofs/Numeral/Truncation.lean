import Ippcode.Proofs.Numeral.Order

/-!
# Doubles and the integers in them

Cutting off the bits of the fraction leaves the integer part of a magnitude
(`number_withoutFraction`), and so of a double (`value_truncate`). What remains is an integer, and
this integer is read off exactly as long as it has 64 bits (`toInt_toInt64`).

In the other direction, an integer of 64 bits is the number of a double exactly if it is a multiple
of a power of two by a factor of at most 53 bits (`value_ofInt_eq_iff`). Other integers are rounded.
-/

namespace Ippcode.Binary64

variable {b : Nat} {x y : Float} {n : ℤ}

/-! ## The integer part of a number -/

/-- The integer part of a number : what is left of it when its fraction is cut off. -/
def integral (y : ℚ) : ℤ := if y < 0 then ⌈y⌉ else ⌊y⌋

theorem integral_of_nonneg {y : ℚ} (h : 0 ≤ y) : integral y = ⌊y⌋ := if_neg (not_lt.mpr h)

theorem integral_neg (y : ℚ) : integral (-y) = -integral y := by
  unfold integral
  rcases lt_trichotomy y 0 with neg | rfl | pos
  · rw [if_neg (by linarith), if_pos neg, Int.floor_neg]
  · simp
  · rw [if_pos (by linarith), if_neg (by linarith), Int.ceil_neg]

/-- Cutting off the fraction changes a number by less than one. -/
theorem abs_integral_sub_lt (y : ℚ) : |(integral y : ℚ) - y| < 1 := by
  unfold integral
  rw [abs_lt]
  split
  · exact ⟨by linarith [Int.le_ceil y], by linarith [Int.ceil_lt_add_one y]⟩
  · exact ⟨by linarith [Int.lt_floor_add_one y], by linarith [Int.floor_le y]⟩

theorem integral_mono : Monotone integral := by
  intro y z h
  unfold integral
  split_ifs with hy hz
  · exact Int.ceil_mono h
  · have : ⌈y⌉ ≤ 0 := Int.ceil_le.mpr (by exact_mod_cast hy.le)
    have : 0 ≤ ⌊z⌋ := Int.floor_nonneg.mpr (not_lt.mp hz)
    omega
  · linarith
  · exact Int.floor_mono h

theorem integral_intCast (n : ℤ) : integral n = n := by
  unfold integral
  split
  · exact Int.ceil_intCast n
  · exact Int.floor_intCast n

/-- Cutting off the fraction does not lead below an integer that is positive. -/
theorem integral_lt_iff {y : ℚ} (pos : 0 < n) : integral y < n ↔ y < n := by
  unfold integral
  split
  · rename_i neg
    have low : ⌈y⌉ ≤ 0 := Int.ceil_le.mpr (by exact_mod_cast neg.le)
    have high : (0 : ℚ) < n := by exact_mod_cast pos
    exact iff_of_true (by omega) (neg.trans high)
  · exact Int.floor_lt

/-! ## Magnitudes -/

theorem significand_lt (b : Nat) : significand b < 2 ^ 53 := by
  rw [significand_eq]
  split <;> omega

/-- The integer part of a magnitude is that of its number. -/
theorem wholePart_eq_floor (b : Nat) :
    (wholePart (significand b) (exponent b) : ℤ) = ⌊number b⌋ := by
  unfold wholePart number
  split
  · rename_i h
    rw [← cast_shiftLeft_of_nonneg h, Int.floor_natCast]
  · obtain ⟨k, hk⟩ : ∃ k : Nat, exponent b = -k := ⟨(-exponent b).toNat, by omega⟩
    have divisor : (2 : ℚ) ^ k = ((2 ^ k : Nat) : ℚ) := by push_cast; rfl
    rw [hk, neg_neg, Int.toNat_natCast, Nat.shiftRight_eq_div_pow, zpow_neg, zpow_natCast,
      ← div_eq_mul_inv, divisor, Rat.floor_natCast_div_natCast, Int.natCast_ediv]

/-- Clearing the last bits of a magnitude clears those of its significand, and nothing else, as
long as there are bits of the significand in front of them. -/
theorem parts_of_cleared {k : Nat} (hk : k ≤ 52) (normal : 2 ^ 52 ≤ b) :
    significand ((b >>> k) <<< k) = significand b / 2 ^ k * 2 ^ k ∧
      exponent ((b >>> k) <<< k) = exponent b := by
  rw [Nat.shiftLeft_eq, Nat.shiftRight_eq_div_pow, significand_eq, significand_eq, exponent_eq,
    exponent_eq]
  have split : 2 ^ 52 = 2 ^ (52 - k) * 2 ^ k := by
    rw [← pow_add]
    congr 1
    omega
  have clear (c r : Nat) : (c * 2 ^ k + r) / 2 ^ k * 2 ^ k = c * 2 ^ k + r / 2 ^ k * 2 ^ k := by
    rw [Nat.mul_comm c, Nat.mul_add_div (Nat.two_pow_pos k), Nat.add_mul, Nat.mul_comm c]
  have rest : b % 2 ^ 52 < 2 ^ 52 := Nat.mod_lt _ (Nat.two_pow_pos 52)
  have leading := clear (2 ^ (52 - k)) (b % 2 ^ 52)
  have cleared := clear (b / 2 ^ 52 * 2 ^ (52 - k)) (b % 2 ^ 52)
  rw [← split] at leading
  rw [mul_assoc, ← split, Nat.div_add_mod'] at cleared
  have less : b % 2 ^ 52 / 2 ^ k * 2 ^ k ≤ b % 2 ^ 52 := Nat.div_mul_le_self _ _
  rw [if_neg (show ¬ b < 2 ^ 52 by omega), leading, cleared]
  generalize b % 2 ^ 52 / 2 ^ k * 2 ^ k = r at less
  rw [if_neg (show ¬ b / 2 ^ 52 * 2 ^ 52 + r < 2 ^ 52 by omega)]
  omega

/-- What is left of a magnitude without the bits of its fraction is its integer part. -/
theorem number_withoutFraction (b : Nat) : number (withoutFraction b) = ⌊number b⌋ := by
  rw [← wholePart_eq_floor]
  unfold withoutFraction wholePart
  by_cases whole : 0 ≤ exponent b
  · have places : (-exponent b).toNat = 0 := by omega
    rw [places, if_pos (Nat.zero_le _), if_pos whole, Nat.shiftRight_zero, Nat.shiftLeft_zero,
      Int.cast_natCast, cast_shiftLeft_of_nonneg whole]
    rfl
  · obtain ⟨k, hk⟩ : ∃ k : Nat, exponent b = -k := ⟨(-exponent b).toNat, by omega⟩
    rw [if_neg whole, hk, neg_neg, Int.toNat_natCast, Nat.shiftRight_eq_div_pow (significand b)]
    dsimp only
    split
    · rename_i few
      -- A subnormal magnitude has more than 52 places behind the point.
      have normal : 2 ^ 52 ≤ b := by
        rw [exponent_eq] at hk
        omega
      obtain ⟨units, place⟩ := parts_of_cleared few normal
      rw [number, units, place, hk, zpow_neg, zpow_natCast, Nat.cast_mul, Nat.cast_pow,
        Nat.cast_ofNat, mul_inv_cancel_right₀ (by positivity), Int.cast_natCast]
    · have large : 2 ^ 53 ≤ 2 ^ k := Nat.pow_le_pow_right two_pos (by omega)
      have none : significand b / 2 ^ k = 0 :=
        Nat.div_eq_of_lt ((significand_lt b).trans_le large)
      rw [number_zero, none]
      rfl

theorem withoutFraction_le (b : Nat) : withoutFraction b ≤ b := by
  have := number_withoutFraction b
  refine number_strictMono.le_iff_le.mp ?_
  rw [this]
  exact Int.floor_le _

/-- A magnitude in units of at least one has no fraction. -/
theorem withoutFraction_of_exponent (h : 0 ≤ exponent b) : withoutFraction b = b := by
  have places : (-exponent b).toNat = 0 := by omega
  unfold withoutFraction
  rw [places, if_pos (Nat.zero_le _), Nat.shiftRight_zero, Nat.shiftLeft_zero]

theorem exponent_nonneg (h : 1075 * 2 ^ 52 ≤ b) : 0 ≤ exponent b := by
  rw [exponent_eq]
  omega

/-! ## Doubles -/

theorem value_eq (x : Float) :
    value x = if isNegative x then -number (magnitude x) else number (magnitude x) := by
  unfold value position
  split
  · rw [numberAt_neg, numberAt_natCast]
  · rw [numberAt_natCast]

/-- The integer part of a double is that of its number. -/
theorem integerPart_eq (x : Float) : integerPart x = integral (value x) := by
  have nonneg := integral_of_nonneg (number_nonneg (magnitude x))
  simp only [integerPart, wholePart_eq_floor]
  rw [value_eq]
  split
  · rw [integral_neg, nonneg]
  · rw [nonneg]

theorem isFinite_iff : isFinite x = true ↔ magnitude x < infinity := decide_eq_true_iff

theorem isNaN_of_isFinite (h : isFinite x = true) : isNaN x = false :=
  decide_eq_false (not_lt.mpr (isFinite_iff.mp h).le)

theorem truncate_of_not_isFinite (h : isFinite x = false) : truncate x = x := by
  have large : infinity ≤ magnitude x := not_lt.mp (of_decide_eq_false h)
  unfold infinity at large
  rw [truncate, withoutFraction_of_exponent (exponent_nonneg (by omega)), ofMagnitude_magnitude]

theorem magnitude_truncate (h : isFinite x = true) :
    magnitude (truncate x) = withoutFraction (magnitude x) :=
  magnitude_ofMagnitude ((withoutFraction_le _).trans (isFinite_iff.mp h).le)

theorem isFinite_truncate (x : Float) : isFinite (truncate x) = isFinite x := by
  cases h : isFinite x with
  | false => rw [truncate_of_not_isFinite h, h]
  | true =>
    rw [isFinite_iff, magnitude_truncate h]
    exact (withoutFraction_le _).trans_lt (isFinite_iff.mp h)

/-- A finite double without its fraction is the integer part of its number. -/
theorem value_truncate (h : isFinite x = true) : value (truncate x) = integral (value x) := by
  have negative : isNegative (truncate x) = isNegative x :=
    isNegative_ofMagnitude ((withoutFraction_le _).trans (isFinite_iff.mp h).le)
  rw [← integerPart_eq, value_eq, magnitude_truncate h, negative, number_withoutFraction]
  simp only [integerPart, wholePart_eq_floor]
  split
  · rw [Int.cast_neg]
  · rfl

/-- The integer part of a double is read off exactly if it has 64 bits. -/
theorem toInt_toInt64 (number : isNaN x = false) (low : -2 ^ 63 ≤ integral (value x))
    (high : integral (value x) < 2 ^ 63) : (toInt64 x).toInt = integral (value x) := by
  have least : Int64.minValue.toInt = -2 ^ 63 := rfl
  have greatest : Int64.maxValue.toInt = 2 ^ 63 - 1 := rfl
  rw [toInt64, number, if_neg Bool.false_ne_true, integerPart_eq, least, greatest,
    min_eq_right (by omega), max_eq_right low, Int64.toInt_ofInt_of_le low high]

/-! ### Comparisons -/

section Compare

variable (hx : isNaN x = false) (hy : isNaN y = false)

include hx hy

theorem less_iff : less x y = true ↔ value x < value y := by
  rw [less, compare?_eq_compare_value hx hy, beq_iff_eq, Option.some.injEq, compare_lt_iff_lt]

theorem lessOrEqual_iff : lessOrEqual x y = true ↔ value x ≤ value y := by
  rw [lessOrEqual, Bool.or_eq_true, less_iff hx hy, equal, compare?_eq_compare_value hx hy,
    beq_iff_eq, Option.some.injEq, compare_eq_iff_eq, le_iff_lt_or_eq]

end Compare

theorem abs_value (x : Float) : |value x| = number (magnitude x) := by
  have nonneg := number_nonneg (magnitude x)
  rw [value_eq]
  split
  · rw [abs_neg, abs_of_nonneg nonneg]
  · rw [abs_of_nonneg nonneg]

/-- The numbers of finite doubles lie before the powers of two beyond all doubles. -/
theorem isFinite_iff_abs_value_lt : isFinite x = true ↔ |value x| < 2 ^ (1024 : ℤ) := by
  rw [isFinite_iff, abs_value, ← number_infinity, number_strictMono.lt_iff_lt]

/-- Great doubles are integers. -/
theorem integral_value (finite : isFinite x = true) (great : 2 ^ 52 ≤ |value x|) :
    integral (value x) = value x := by
  have units : number (1075 * 2 ^ 52) = 2 ^ 52 := by
    have m : significand (1075 * 2 ^ 52) = 2 ^ 52 := rfl
    have e : exponent (1075 * 2 ^ 52) = 0 := rfl
    rw [number, m, e, zpow_zero, mul_one, Nat.cast_pow, Nat.cast_ofNat]
  rw [abs_value, ← units, number_strictMono.le_iff_le] at great
  have whole := withoutFraction_of_exponent (exponent_nonneg great)
  have same : truncate x = x := by rw [truncate, whole, ofMagnitude_magnitude]
  rw [← value_truncate finite, same]

/-! ## Integers that are doubles -/

/-- An integer that is a power of two times a factor of at most 53 bits. -/
def IsShort (n : ℤ) : Prop := ∃ (m : ℤ) (k : Nat), m.natAbs ≤ 2 ^ 53 ∧ n = m * 2 ^ k

theorem exists_number_eq_mul {m k : Nat} (hm : m ≤ 2 ^ 53) (small : m * 2 ^ k ≤ 2 ^ 63) :
    ∃ b ≤ infinity, number b = (m * 2 ^ k : Nat) := by
  have power : ((m * 2 ^ k : Nat) : ℚ) = m * 2 ^ (k : ℤ) := by
    rw [zpow_natCast]
    push_cast
    rfl
  have small : ((m * 2 ^ k : Nat) : ℚ) ≤ 2 ^ (1024 : ℤ) := by
    have few : ((m * 2 ^ k : Nat) : ℚ) ≤ 2 ^ (63 : ℤ) := by exact_mod_cast small
    exact few.trans (zpow_le_zpow_right₀ one_le_two (by decide))
  rw [power] at small ⊢
  exact exists_number_eq_mul_zpow hm (by omega) small

/-- An integer that is the number of a double is short. -/
theorem isShort_of_value_eq (h : value x = n) : IsShort n := by
  rw [value_eq] at h
  by_cases whole : 0 ≤ exponent (magnitude x)
  · obtain ⟨k, hk⟩ := Int.eq_ofNat_of_zero_le whole
    have bound := (significand_lt (magnitude x)).le
    rw [number, hk, zpow_natCast] at h
    split at h
    · exact ⟨-significand (magnitude x), k, by omega, by rw [neg_mul]; exact_mod_cast h.symm⟩
    · exact ⟨significand (magnitude x), k, by omega, by exact_mod_cast h.symm⟩
  · have shrunk : number (magnitude x) ≤ significand (magnitude x) := by
      refine mul_le_of_le_one_right (Nat.cast_nonneg _) ?_
      exact zpow_le_one_of_nonpos₀ one_le_two (by omega)
    have bound : (significand (magnitude x) : ℚ) < 2 ^ 53 := by
      exact_mod_cast significand_lt (magnitude x)
    have nonneg := number_nonneg (magnitude x)
    have small : |(n : ℚ)| ≤ 2 ^ 53 := by
      rw [← h, abs_le]
      split <;> constructor <;> linarith
    rw [← Int.cast_abs, ← Nat.cast_natAbs] at small
    exact ⟨n, 0, by exact_mod_cast small, by rw [pow_zero, mul_one]⟩

/-- An integer of 64 bits is rounded to a double with the same number exactly if it is short. -/
theorem value_ofInt_eq_iff (small : n.natAbs ≤ 2 ^ 63) : value (ofInt n) = n ↔ IsShort n := by
  refine ⟨isShort_of_value_eq, ?_⟩
  rintro ⟨m, k, hm, rfl⟩
  have size : (m * 2 ^ k).natAbs = m.natAbs * 2 ^ k := by
    rw [Int.natAbs_mul, Int.natAbs_pow]
    rfl
  obtain ⟨b, hb, whole⟩ := exists_number_eq_mul hm (size ▸ small)
  obtain ⟨p, hp, same⟩ := exists_numberAt_of_natAbs hb (whole.trans (congrArg _ size.symm))
  exact value_of_numberAt hp same (isNearestAt_ofInt _)

theorem value_ofInt_mono : Monotone fun n => value (ofInt n) :=
  fun _ _ h => numberAt_strictMono.monotone (position_ofInt_mono h)

/-! ### The ends of the range -/

theorem value_ofInt_minValue : value (ofInt Int64.minValue.toInt) = -2 ^ 63 := by
  have least : Int64.minValue.toInt = -2 ^ 63 := rfl
  have exact : value (ofInt (-2 ^ 63)) = (-2 ^ 63 : ℤ) :=
    (value_ofInt_eq_iff (by decide)).mpr ⟨-1, 63, by decide, by decide⟩
  rw [least, exact]
  push_cast
  rfl

theorem value_ofInt_two_pow : value (ofInt (2 ^ 63)) = 2 ^ 63 := by
  have exact : value (ofInt (2 ^ 63)) = (2 ^ 63 : ℤ) :=
    (value_ofInt_eq_iff (by decide)).mpr ⟨1, 63, by decide, by decide⟩
  rw [exact]
  push_cast
  rfl

/-- The greatest integers are rounded up to the power of two behind them, and the others are
not. -/
theorem value_ofInt_lt_iff : value (ofInt n) < 2 ^ 63 ↔ n < 2 ^ 63 - 512 := by
  have reached : position (ofInt (2 ^ 63 - 512)) = position (ofInt (2 ^ 63)) := by decide +kernel
  have before : position (ofInt (2 ^ 63 - 513)) < position (ofInt (2 ^ 63)) := by decide +kernel
  rw [← value_ofInt_two_pow]
  unfold value
  rw [numberAt_strictMono.lt_iff_lt]
  constructor
  · intro h
    by_contra le
    have := position_ofInt_mono (not_lt.mp le)
    simp only at this
    omega
  · intro h
    have := position_ofInt_mono (show n ≤ 2 ^ 63 - 513 by omega)
    simp only at this
    omega

theorem value_ofInt_maxValue : value (ofInt Int64.maxValue.toInt) = 2 ^ 63 := by
  refine le_antisymm ?_ (not_lt.mp fun h => ?_)
  · have le : value (ofInt Int64.maxValue.toInt) ≤ value (ofInt (2 ^ 63)) :=
      value_ofInt_mono (by decide)
    rwa [value_ofInt_two_pow] at le
  · exact absurd (value_ofInt_lt_iff.mp h) (by decide)

/-- An integer of 64 bits is rounded to a finite double. -/
theorem isFinite_ofInt (low : -2 ^ 63 ≤ n) (high : n < 2 ^ 63) : isFinite (ofInt n) = true := by
  have above : value (ofInt Int64.minValue.toInt) ≤ value (ofInt n) := value_ofInt_mono low
  have below : value (ofInt n) ≤ value (ofInt (2 ^ 63)) := value_ofInt_mono high.le
  rw [value_ofInt_minValue] at above
  rw [value_ofInt_two_pow] at below
  rw [isFinite_iff_abs_value_lt]
  calc |value (ofInt n)| ≤ 2 ^ (63 : ℤ) := abs_le.mpr ⟨above, below⟩
    _ < 2 ^ (1024 : ℤ) := zpow_lt_zpow_right₀ one_lt_two (by decide)

end Ippcode.Binary64
