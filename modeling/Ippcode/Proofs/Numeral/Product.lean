import Ippcode.Proofs.Numeral.Truncation

/-!
# The product of two doubles

A product is computed from the significands and exponents of its factors (`unpack_toModel`). The
bits that do not fit are shifted out one by one, and the last of them and whether any other was set
tell the number that has been shifted (`Represents`). So the mantissa is rounded to the nearest
whole number of units (`Represents.roundsTo`), and packed it is the nearest magnitude
(`toNat_pack_roundWithAccuracy`).

The product of finite doubles is therefore the double nearest to the product of their numbers
(`isNearest_mul`), and its sign is set if that of one factor is (`isNegative_mul`).
-/

namespace Ippcode.Binary64

open Float.Model (Format totalExponent UnpackedFloat)
open Float.Model.UnpackedFloat

/-! ## Bits that are shifted out -/

/-- A mantissa with the last bit that was shifted out, and whether any bit before it was set, tell
what is left of a number : a half for the one, and less than a half for the others. -/
def Represents (em : ExtendedMantissa) (y : ℚ) : Prop :=
  ∃ tail : ℚ, 0 ≤ tail ∧ tail < 1 / 2 ∧ (em.stickyBit = true ↔ 0 < tail) ∧
    y = em.mantissa + (if em.roundBit then 1 / 2 else 0) + tail

theorem represents_exact (m : Nat) :
    Represents (ExtendedMantissa.ofMantissaAndAccuracy m .exact) m :=
  ⟨0, le_rfl, by norm_num, by simp [ExtendedMantissa.ofMantissaAndAccuracy],
    by simp [ExtendedMantissa.ofMantissaAndAccuracy]⟩

namespace Represents

variable {em : ExtendedMantissa} {y : ℚ}

theorem shiftRightOne (h : Represents em y) : Represents em.shiftRightOne (y / 2) := by
  obtain ⟨m, roundBit, stickyBit⟩ := em
  obtain ⟨tail, nonneg, small, sticky, rfl⟩ := h
  have parts : (m : ℚ) = 2 * (m / 2 : Nat) + (m % 2 : Nat) := by
    exact_mod_cast (Nat.div_add_mod m 2).symm
  simp only at sticky
  refine ⟨(if roundBit then 1 / 4 else 0) + tail / 2, ?_, ?_, ?_, ?_⟩
  · split_ifs <;> linarith
  · split_ifs <;> linarith
  · show (roundBit || stickyBit) = true ↔ _
    rw [Bool.or_eq_true, sticky]
    cases roundBit
    · simp
    · simp only [if_true, true_or, true_iff]
      linarith
  · show _ = ((m / 2 : Nat) : ℚ) + (if (m % 2 != 0) = true then 1 / 2 else 0) + _
    rw [parts]
    rcases Nat.mod_two_eq_zero_or_one m with even | odd
    · rw [even]
      cases roundBit <;> simp <;> ring
    · rw [odd]
      cases roundBit <;> simp <;> ring

theorem shiftRight (h : Represents em y) : ∀ k : Nat, Represents (em >>> k) (y / 2 ^ k)
  | 0 => by rwa [pow_zero, div_one]
  | k + 1 => by
    rw [pow_succ, ← div_div]
    exact (h.shiftRight k).shiftRightOne

/-- That is enough to round the number, of two equally near whole numbers to the even one. -/
theorem roundsTo (h : Represents em y) : RoundsTo y em.roundedMantissa := by
  obtain ⟨m, roundBit, stickyBit⟩ := em
  obtain ⟨tail, nonneg, small, sticky, rfl⟩ := h
  simp only at sticky
  cases roundBit with
  | false =>
    -- The number is less than a half above the mantissa, which is kept.
    have kept : ExtendedMantissa.roundedMantissa ⟨m, false, stickyBit⟩ = m := by
      cases stickyBit <;> rfl
    rw [kept, if_neg Bool.false_ne_true]
    exact ⟨by linarith, by linarith, fun _ => ⟨by linarith, by linarith⟩⟩
  | true =>
    rw [if_pos rfl]
    cases stickyBit with
    | false =>
      have middle : tail = 0 := le_antisymm (not_lt.mp fun pos => nomatch sticky.mpr pos) nonneg
      have even : ExtendedMantissa.roundedMantissa ⟨m, true, false⟩ = m + m % 2 := rfl
      rw [even, middle]
      rcases Nat.mod_two_eq_zero_or_one m with h | h
      · rw [h]
        refine ⟨?_, ?_, fun odd => absurd odd (by omega)⟩ <;> push_cast <;> linarith
      · rw [h]
        refine ⟨?_, ?_, fun odd => absurd odd (by omega)⟩ <;> push_cast <;> linarith
    | true =>
      have above := sticky.mp rfl
      have next : ExtendedMantissa.roundedMantissa ⟨m, true, true⟩ = m + 1 := rfl
      rw [next]
      refine ⟨?_, ?_, fun _ => ⟨?_, ?_⟩⟩ <;> push_cast <;> linarith

end Represents

/-! ## Words -/

theorem toNat_packComponents (s : Sign) (e : BitVec 11) (m : BitVec 52) :
    (packComponents Format.binary64 s e m).toNat
      = s.toBitVec.toNat * 2 ^ 63 + (e.toNat * 2 ^ 52 + m.toNat) := by
  have exponent := e.isLt
  have mantissa := m.isLt
  unfold packComponents
  rw [BitVec.toNat_append, BitVec.toNat_append, ← Nat.shiftLeft_add_eq_or_of_lt m.isLt,
    ← Nat.shiftLeft_add_eq_or_of_lt e.isLt, Nat.shiftLeft_eq, Nat.shiftLeft_eq]
  ring

/-- The word of a mantissa and an exponent holds the magnitude that they make up. -/
theorem toNat_pack_finite (s : Sign) {m : Nat} {q : ℤ} (pos : 0 < m) (hm : m < 2 ^ 53)
    (hq : -1074 ≤ q) (full : q = -1074 ∨ 2 ^ 52 ≤ m) :
    (pack Format.binary64 (.finite s m q pos)).toNat
      = s.toBitVec.toNat * 2 ^ 63 + compose m q := by
  have places : (q + Format.binary64.exponentBias
      + Format.binary64.mantissaBitsWithoutImplicit).toNat = (q + 1075).toNat := by
    show (q + 1023 + 52).toNat = _
    omega
  have bits : m.log2 + 1 = Format.binary64.mantissaBits ↔ 2 ^ 52 ≤ m := by
    show m.log2 + 1 = 53 ↔ _
    have low := Nat.le_log2 pos.ne' (k := 52)
    have high := Nat.log2_lt pos.ne' (k := 53)
    omega
  have field (n : Nat) : (BitVec.ofNat 11 n).toNat = n % 2 ^ 11 := BitVec.toNat_ofNat n 11
  have fraction : (BitVec.ofNat 52 m).toNat = m % 2 ^ 52 := BitVec.toNat_ofNat m 52
  unfold pack compose leastExponent infinity
  simp only [places, bits, Nat.shiftLeft_eq]
  split_ifs with great normal
  · -- The word of the infinity.
    have great : 2 ^ 11 ≤ (q + 1075).toNat + 1 := great
    rw [packedInfinity, toNat_packComponents]
    have ones : (-1#11 : BitVec 11).toNat = 2047 := rfl
    have none : (0 : BitVec 52).toNat = 0 := rfl
    rw [ones, none]
    omega
  · have great : ¬ 2 ^ 11 ≤ (q + 1075).toNat + 1 := great
    rw [toNat_packComponents, field, fraction]
    omega
  · rw [toNat_packComponents, fraction]
    have none : (0#11).toNat = 0 := rfl
    rw [none]
    omega

theorem toNat_pack_zero (s : Sign) :
    (pack Format.binary64 (.zero s)).toNat = s.toBitVec.toNat * 2 ^ 63 := by
  have none : (0 : BitVec 11).toNat * 2 ^ 52 + (0 : BitVec 52).toNat = 0 := rfl
  show (packComponents Format.binary64 s 0 0).toNat = _
  rw [toNat_packComponents, none, add_zero]

/-! ## Rounding -/

theorem targetExponent_eq (m : Nat) (e : ℤ) :
    Format.binary64.targetExponent (totalExponent m e) = lastPlace (m.log2 + e) := by
  have least : Format.binary64.minExponent = leastExponent := rfl
  have bits : (Format.binary64.mantissaBits : ℤ) = 53 := rfl
  unfold Format.targetExponent totalExponent lastPlace
  rw [least, bits]
  congr 1
  omega

theorem shiftToTargetExponent_eq (m : Nat) (e : ℤ) :
    shiftToTargetExponent Format.binary64 m e .exact
      = (ExtendedMantissa.ofMantissaAndAccuracy m .exact >>> (lastPlace (m.log2 + e) - e).toNat,
        e + (lastPlace (m.log2 + e) - e).toNat) := by
  rw [← targetExponent_eq]
  rfl

/-- A rounded mantissa fits, or it has been carried to the next power of two, and one bit that is
zero is shifted out. The magnitude stays as it is. -/
theorem shiftToTargetExponent_rounded {m : Nat} {q : ℤ} (hm : m ≤ 2 ^ 53) (hq : -1074 ≤ q)
    (full : q = -1074 ∨ 2 ^ 52 ≤ m) : ∃ em q', shiftToTargetExponent Format.binary64 m q .exact
      = (em, q') ∧ em.mantissa < 2 ^ 53 ∧ -1074 ≤ q' ∧ (q' = -1074 ∨ 2 ^ 52 ≤ em.mantissa) ∧
        compose em.mantissa q' = compose m q := by
  rw [shiftToTargetExponent_eq]
  rcases hm.eq_or_lt with rfl | lt
  · have place : lastPlace ((2 ^ 53 : Nat).log2 + q) - q = 1 := by
      rw [Nat.log2_two_pow]
      unfold lastPlace leastExponent
      omega
    have half (n : Nat) :
        (ExtendedMantissa.ofMantissaAndAccuracy n .exact >>> 1).mantissa = n / 2 := rfl
    have carried : 2 ^ 53 / 2 = 2 ^ 52 := by norm_num
    rw [place]
    refine ⟨_, _, rfl, ?_⟩
    rw [Int.toNat_one, half, carried, Nat.cast_one]
    have next : (q + 1 - leastExponent).toNat * 2 ^ 52 + 2 ^ 52
        = (q - leastExponent).toNat * 2 ^ 52 + 2 ^ 53 := by
      unfold leastExponent
      omega
    refine ⟨by norm_num, by omega, .inr le_rfl, ?_⟩
    rw [compose, compose, Nat.shiftLeft_eq, Nat.shiftLeft_eq, next]
  · have bits : m.log2 ≤ 52 ∧ (2 ^ 52 ≤ m → m.log2 = 52) := by
      rcases Nat.eq_zero_or_pos m with rfl | pos
      · exact ⟨by decide, fun h => absurd h (by decide)⟩
      · have high := (Nat.log2_lt pos.ne').mpr lt
        have low := Nat.le_log2 pos.ne' (k := 52)
        omega
    have place : (lastPlace (m.log2 + q) - q).toNat = 0 := by
      unfold lastPlace leastExponent
      omega
    rw [place]
    refine ⟨_, _, rfl, ?_⟩
    show m < 2 ^ 53 ∧ -1074 ≤ q + 0 ∧ (q + 0 = -1074 ∨ 2 ^ 52 ≤ m) ∧
      compose m (q + 0) = compose m q
    rw [add_zero]
    exact ⟨lt, hq, full, rfl⟩

/-- What is in units below the last place is rounded to the nearest magnitude. -/
theorem toNat_pack_roundWithAccuracy (s : Sign) {m : Nat} {e : ℤ} (pos : 0 < m)
    (he : e ≤ lastPlace (m.log2 + e)) : ∃ b, IsNearest (m * 2 ^ e) b ∧
      (pack Format.binary64 (roundWithAccuracy Format.binary64 s m e .exact)).toNat
        = s.toBitVec.toNat * 2 ^ 63 + b := by
  obtain ⟨low, high⟩ := log2_mul_zpow_spec pos e
  obtain ⟨k, hk⟩ := Int.eq_ofNat_of_zero_le (sub_nonneg.mpr he)
  have place : e + (k : ℤ) = lastPlace (m.log2 + e) := by omega
  have units : (m * 2 ^ e / 2 ^ lastPlace (m.log2 + e) : ℚ) = m / 2 ^ k := by
    rw [← place, two_zpow_add, mul_comm (m : ℚ), mul_div_mul_left _ _ (two_zpow_pos e).ne',
      zpow_natCast]
  have rounded := ((represents_exact m).shiftRight k).roundsTo
  have first : shiftToTargetExponent Format.binary64 m e .exact
      = (ExtendedMantissa.ofMantissaAndAccuracy m .exact >>> k, lastPlace (m.log2 + e)) := by
    rw [shiftToTargetExponent_eq, hk, Int.toNat_natCast, place]
  rw [← units] at rounded
  generalize hr : (ExtendedMantissa.ofMantissaAndAccuracy m .exact >>> k).roundedMantissa = r
    at rounded
  have fits : r ≤ 2 ^ 53 := rounded.ge (by exact_mod_cast units_lt high)
  have least : -1074 ≤ lastPlace (m.log2 + e) := le_max_right _ _
  have full : lastPlace (m.log2 + e) = -1074 ∨ 2 ^ 52 ≤ r := by
    refine or_iff_not_imp_left.mpr fun more => rounded.le ?_
    exact_mod_cast le_units low (lt_of_le_of_ne least (Ne.symm more))
  obtain ⟨em, q, second, short, above, filled, same⟩ :=
    shiftToTargetExponent_rounded fits least full
  refine ⟨_, isNearest_of_log low high rounded, ?_⟩
  rw [← same]
  unfold roundWithAccuracy
  simp only [first, hr, second]
  split
  · rename_i zero
    obtain rfl : q = -1074 := filled.resolve_right (by omega)
    have none : compose 0 (-1074) = 0 := rfl
    rw [toNat_pack_zero, zero, none, add_zero]
  · rename_i nonzero
    exact toNat_pack_finite s (Nat.pos_of_ne_zero nonzero) short above filled

/-! ## Factors -/

variable {x y : Float}

/-- The sign that is set or not. -/
def signOf (negative : Bool) : Sign := if negative then .negative else .positive

theorem toNat_unpackMantissa (x : Float) :
    (@unpackMantissa Format.binary64 x.toBits.toBitVec).toNat = magnitude x % 2 ^ 52 := by
  rw [unpackMantissa_def, magnitude_eq]
  show x.toBits.toNat >>> 0 % 2 ^ 52 = _
  rw [Nat.shiftRight_zero]
  omega

theorem toNat_unpackExponent (x : Float) :
    (@unpackExponent Format.binary64 x.toBits.toBitVec).toNat = magnitude x / 2 ^ 52 := by
  rw [unpackExponent_def, magnitude_eq]
  show x.toBits.toNat >>> 52 % 2 ^ 11 = _
  rw [Nat.shiftRight_eq_div_pow]
  omega

theorem ofBitVec_unpackSign (x : Float) :
    Sign.ofBitVec (@unpackSign Format.binary64 x.toBits.toBitVec) = signOf (isNegative x) := by
  have small := x.toBits.toNat_lt
  have zero : @unpackSign Format.binary64 x.toBits.toBitVec = 0#1 ↔ x.toBits.toNat < 2 ^ 63 := by
    rw [unpackSign_def, ← BitVec.toNat_inj]
    show x.toBits.toNat >>> 63 % 2 ^ 1 = 0 ↔ _
    rw [Nat.shiftRight_eq_div_pow]
    omega
  unfold Sign.ofBitVec signOf
  simp only [zero, isNegative_eq, decide_eq_true_eq]
  split_ifs
  · omega
  · rfl
  · rfl
  · omega

/-- The parts of a finite double. -/
theorem unpack_toModel (finite : isFinite x = true) : x.toModel.unpack
    = if pos : 0 < significand (magnitude x) then
        .finite (signOf (isNegative x)) (significand (magnitude x)) (exponent (magnitude x)) pos
      else .zero (signOf (isNegative x)) := by
  have mantissa := toNat_unpackMantissa x
  have exponent := toNat_unpackExponent x
  have small := isFinite_iff.mp finite
  unfold infinity at small
  show unpack Format.binary64 x.toBits.toBitVec = _
  have notOnes : @unpackExponent Format.binary64 x.toBits.toBitVec ≠ -1#11 := by
    intro ones
    have ones := congrArg BitVec.toNat ones
    rw [exponent] at ones
    have : magnitude x / 2 ^ 52 = 2047 := ones
    omega
  have noExponent : @unpackExponent Format.binary64 x.toBits.toBitVec = 0#11 ↔
      magnitude x < 2 ^ 52 := by
    rw [← BitVec.toNat_inj, exponent]
    show magnitude x / 2 ^ 52 = 0 ↔ _
    omega
  have noMantissa : @unpackMantissa Format.binary64 x.toBits.toBitVec = 0#52 ↔
      magnitude x % 2 ^ 52 = 0 := by
    rw [← BitVec.toNat_inj, mantissa]
    rfl
  have leading : (1#1 ++ @unpackMantissa Format.binary64 x.toBits.toBitVec).toNat
      = 2 ^ 52 + magnitude x % 2 ^ 52 := by
    rw [BitVec.toNat_append, ← Nat.shiftLeft_add_eq_or_of_lt (BitVec.isLt _), mantissa]
    rfl
  have bias : (Format.binary64.exponentBias : ℤ) + Format.binary64.mantissaBitsWithoutImplicit
      = 1075 := rfl
  unfold unpack
  simp only [ofBitVec_unpackSign, if_neg notOnes, noExponent, noMantissa, significand_eq,
    exponent_eq, exponent, mantissa, leading, bias]
  split_ifs with subnormal zero pos pos pos
  · omega
  · rfl
  · congr 1 <;> omega
  · omega
  · congr 1
    omega
  · omega

/-- A unit is not cut off in a product : it has a leading bit as high as that of one factor, or
both factors are subnormal. -/
theorem exponent_add_le {b c : Nat} (hb : 0 < significand b) (hc : 0 < significand c) :
    exponent b + exponent c
      ≤ lastPlace ((significand b * significand c).log2 + (exponent b + exponent c)) := by
  by_cases large : 2 ^ 52 ≤ significand b * significand c
  · have := (Nat.le_log2 (Nat.mul_pos hb hc).ne').mpr large
    unfold lastPlace
    omega
  · have left := Nat.le_mul_of_pos_right (significand b) hc
    have right := Nat.le_mul_of_pos_left (significand c) hb
    have subnormal {d : Nat} (h : significand d < 2 ^ 52) : exponent d = -1074 := by
      rw [significand_eq] at h
      rw [exponent_eq]
      split_ifs at h <;> omega
    rw [subnormal (left.trans_lt (not_le.mp large)), subnormal (right.trans_lt (not_le.mp large))]
    unfold lastPlace leastExponent
    omega

/-! ## The product -/

theorem toNat_signOf_mul (s t : Bool) :
    (signOf s * signOf t).toBitVec.toNat = if s != t then 1 else 0 := by
  cases s <;> cases t <;> rfl

/-- The word of a product. -/
theorem exists_toNat_toBits_mul (hx : isFinite x = true) (hy : isFinite y = true) : ∃ b,
    IsNearest (number (magnitude x) * number (magnitude y)) b ∧ (x * y).toBits.toNat
      = (if isNegative x != isNegative y then 1 else 0) * 2 ^ 63 + b := by
  have word : (x * y).toBits.toNat = (pack Format.binary64
      (mul Format.binary64 x.toModel.unpack y.toModel.unpack)).toNat := rfl
  rw [word, unpack_toModel hx, unpack_toModel hy, ← toNat_signOf_mul]
  have product : number (magnitude x) * number (magnitude y)
      = (significand (magnitude x) * significand (magnitude y) : Nat)
        * 2 ^ (exponent (magnitude x) + exponent (magnitude y)) := by
    rw [number, number, two_zpow_add]
    push_cast
    ring
  rw [product]
  split_ifs with left right right
  · exact toNat_pack_roundWithAccuracy _ (Nat.mul_pos left right) (exponent_add_le left right)
  all_goals
    refine ⟨0, ?_, ?_⟩
    · have zero : significand (magnitude x) * significand (magnitude y) = 0 := by
        simp only [Nat.mul_eq_zero]
        omega
      rw [zero, Nat.cast_zero, zero_mul]
      exact isNearest_zero (two_zpow_pos _).le
    · rw [add_zero]
      exact toNat_pack_zero _

theorem isNearest_mul (hx : isFinite x = true) (hy : isFinite y = true) :
    IsNearest (number (magnitude x) * number (magnitude y)) (magnitude (x * y)) := by
  obtain ⟨b, nearest, word⟩ := exists_toNat_toBits_mul hx hy
  have small := nearest.le_infinity
  unfold infinity at small
  have same : magnitude (x * y) = b := by
    rw [magnitude_eq, word]
    split <;> omega
  rw [same]
  exact nearest

theorem isNegative_mul (hx : isFinite x = true) (hy : isFinite y = true) :
    isNegative (x * y) = (isNegative x != isNegative y) := by
  obtain ⟨b, nearest, word⟩ := exists_toNat_toBits_mul hx hy
  have small := nearest.le_infinity
  unfold infinity at small
  rw [isNegative_eq, word]
  cases isNegative x != isNegative y
  · exact decide_eq_false (by simp only [Bool.false_eq_true, if_false]; omega)
  · exact decide_eq_true (by simp only [if_true]; omega)

end Ippcode.Binary64
