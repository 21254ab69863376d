import Ippcode.Operation
import Ippcode.Proofs.Numeral.Truncation
import Ippcode.Proofs.Result

/-!
# Conversions between integers and doubles

A double is converted to the integer part of its number, and refused if this has more than 64 bits.
The range is checked on doubles, where the greatest integer is rounded up to `2 ^ 63`; this is why
the upper bound has to be strict (`outOfRange_iff`). Nothing is cut off at the ends of the range
(`floatToInt_exact`).

An integer is converted to the nearest double. This is a double with the same number exactly if the
integer is short (`Binary64.IsShort`), and only then the way back leads to the integer
(`intToFloat_nearest`). The greatest integers have no way back at all.
-/

namespace Ippcode.Value

open Ippcode.Binary64

variable {x y : Float}

/-! ## From doubles to integers -/

theorem less_truncate_iff (h : isFinite x = true) :
    less (truncate x) (ofInt Int64.minValue.toInt) = true ↔ integral (value x) < -2 ^ 63 := by
  have finite : isFinite (truncate x) = true := (isFinite_truncate x).trans h
  rw [less_iff (isNaN_of_isFinite finite) (isNaN_ofInt _), value_truncate h, value_ofInt_minValue]
  exact_mod_cast Iff.rfl

theorem lessOrEqual_truncate_iff (h : isFinite x = true) :
    lessOrEqual (ofInt Int64.maxValue.toInt) (truncate x) = true ↔
      2 ^ 63 ≤ integral (value x) := by
  have finite : isFinite (truncate x) = true := (isFinite_truncate x).trans h
  rw [lessOrEqual_iff (isNaN_ofInt _) (isNaN_of_isFinite finite), value_truncate h,
    value_ofInt_maxValue]
  exact_mod_cast Iff.rfl

/-- A double has an integer part of 64 bits. -/
def InRange (x : Float) : Prop :=
  isFinite x = true ∧ -2 ^ 63 ≤ integral (value x) ∧ integral (value x) < 2 ^ 63

/-- The comparisons with the two ends of the range, as doubles, tell whether the integer part has
64 bits. -/
theorem outOfRange_iff (x : Float) :
    (!isFinite (truncate x) || less (truncate x) (ofInt Int64.minValue.toInt)
      || lessOrEqual (ofInt Int64.maxValue.toInt) (truncate x)) = true ↔ ¬ InRange x := by
  unfold InRange
  rw [isFinite_truncate]
  cases finite : isFinite x with
  | false => simp
  | true =>
    rw [Bool.not_true, Bool.false_or, Bool.or_eq_true, less_truncate_iff finite,
      lessOrEqual_truncate_iff finite, and_iff_right (Eq.refl true)]
    omega

theorem floatToInt_of_inRange (h : InRange x) :
    floatToInt (float x) = .ok (int (toInt64 (truncate x))) :=
  if_neg (mt (outOfRange_iff x).mp (not_not_intro h))

theorem floatToInt_of_not_inRange (h : ¬ InRange x) :
    floatToInt (float x) = .error (.notAnInteger x) :=
  if_pos ((outOfRange_iff x).mpr h)

/-- The integer that a double in the range is converted to is its integer part. -/
theorem toInt_toInt64_truncate (h : InRange x) :
    (toInt64 (truncate x)).toInt = integral (value x) := by
  obtain ⟨finite, low, high⟩ := h
  have finite' : isFinite (truncate x) = true := (isFinite_truncate x).trans finite
  have same : integral (value (truncate x)) = integral (value x) := by
    rw [value_truncate finite, integral_intCast]
  rw [← same] at low high ⊢
  exact toInt_toInt64 (isNaN_of_isFinite finite') low high

theorem floatToInt_eq_ok_iff {n : Int64} : floatToInt (float x) = .ok (int n) ↔
    isFinite x = true ∧ n.toInt = integral (value x) := by
  constructor
  · intro h
    by_cases range : InRange x
    · rw [floatToInt_of_inRange range] at h
      obtain rfl := Value.int.inj (Except.ok.inj h)
      exact ⟨range.1, toInt_toInt64_truncate range⟩
    · rw [floatToInt_of_not_inRange range] at h
      cases h
  · rintro ⟨finite, whole⟩
    have range : InRange x := ⟨finite, whole ▸ n.le_toInt, whole ▸ n.toInt_lt⟩
    rw [floatToInt_of_inRange range]
    have same := (toInt_toInt64_truncate range).trans whole.symm
    exact congrArg (fun n => Except.ok (int n)) (Int64.toInt_inj.mp same)

theorem floatToInt_eq_error_iff :
    floatToInt (float x) = .error (.notAnInteger x) ↔ ¬ InRange x := by
  refine ⟨fun h range => ?_, floatToInt_of_not_inRange⟩
  rw [floatToInt_of_inRange range] at h
  cases h

/-- No double lies less than one below the least integer, so the range is that of the integers
themselves. -/
theorem inRange_iff : InRange x ↔ -2 ^ 63 ≤ value x ∧ value x < 2 ^ 63 := by
  have upper : integral (value x) < 2 ^ 63 ↔ value x < 2 ^ 63 := by
    rw [integral_lt_iff (n := 2 ^ 63) (by decide)]
    push_cast
    rfl
  constructor
  · rintro ⟨finite, low, high⟩
    -- A double below the least integer is so great that it is an integer itself.
    refine ⟨not_lt.mp fun below => ?_, upper.mp high⟩
    have great : 2 ^ 52 ≤ |value x| := by
      rw [abs_of_neg (by linarith)]
      linarith
    have whole := integral_value finite great
    have low : (-2 ^ 63 : ℚ) ≤ integral (value x) := by exact_mod_cast low
    linarith
  · rintro ⟨low, high⟩
    refine ⟨?_, ?_, upper.mpr high⟩
    · rw [isFinite_iff_abs_value_lt]
      calc |value x| ≤ 2 ^ (63 : ℤ) := abs_le.mpr ⟨low, high.le⟩
        _ < 2 ^ (1024 : ℤ) := zpow_lt_zpow_right₀ one_lt_two (by decide)
    · calc -2 ^ 63 = integral ((-2 ^ 63 : ℤ) : ℚ) := (integral_intCast _).symm
        _ ≤ integral (value x) := integral_mono (by push_cast; exact low)

/-- A double is converted to the integer part of its number. It is refused exactly if there is no
such integer of 64 bits, which is the case outside of the range of these integers itself : nothing
is cut off there. The result is less than one away from the number, and greater doubles have results
that are not less. -/
theorem floatToInt_exact (x : Float) :
    (∀ n : Int64, floatToInt (float x) = .ok (int n) ↔
      isFinite x = true ∧ n.toInt = integral (value x)) ∧
    ((∃ n, floatToInt (float x) = .ok (int n)) ↔ InRange x) ∧
    (floatToInt (float x) = .error (.notAnInteger x) ↔ ¬ InRange x) ∧
    (InRange x ↔ -2 ^ 63 ≤ value x ∧ value x < 2 ^ 63) ∧
    (∀ n : Int64, floatToInt (float x) = .ok (int n) → |(n.toInt : ℚ) - value x| < 1) ∧
    ∀ (y : Float) (m n : Int64), floatToInt (float x) = .ok (int m) →
      floatToInt (float y) = .ok (int n) → value x ≤ value y → m ≤ n := by
  refine ⟨fun n => floatToInt_eq_ok_iff, ⟨?_, fun range => ⟨_, floatToInt_of_inRange range⟩⟩,
    floatToInt_eq_error_iff, inRange_iff, fun n h => ?_, fun y m n hm hn le => ?_⟩
  · rintro ⟨n, h⟩
    by_contra range
    rw [floatToInt_of_not_inRange range] at h
    cases h
  · rw [(floatToInt_eq_ok_iff.mp h).2]
    exact abs_integral_sub_lt (value x)
  · rw [Int64.le_iff_toInt_le, (floatToInt_eq_ok_iff.mp hm).2, (floatToInt_eq_ok_iff.mp hn).2]
    exact integral_mono le

/-- The doubles at both ends of the range and their neighbours outside. -/
theorem floatToInt_exact_ends :
    floatToInt (float (Float.ofBits 0x43DFFFFFFFFFFFFF)) = .ok (int 9223372036854774784) ∧
    floatToInt (float (Float.ofBits 0x43E0000000000000)) =
      .error (.notAnInteger (Float.ofBits 0x43E0000000000000)) ∧
    floatToInt (float (Float.ofBits 0xC3E0000000000000)) = .ok (int Int64.minValue) ∧
    floatToInt (float (Float.ofBits 0xC3E0000000000001)) =
      .error (.notAnInteger (Float.ofBits 0xC3E0000000000001)) ∧
    |((9223372036854774784 : Int64).toInt : ℚ) - value (Float.ofBits 0x43DFFFFFFFFFFFFF)| < 1 ∧
    Int64.minValue ≤ 9223372036854774784 := by
  have high : floatToInt (float (Float.ofBits 0x43DFFFFFFFFFFFFF)) =
      .ok (int 9223372036854774784) := by decide +kernel
  have low : floatToInt (float (Float.ofBits 0xC3E0000000000000)) = .ok (int Int64.minValue) := by
    decide +kernel
  have le : value (Float.ofBits 0xC3E0000000000000) ≤ value (Float.ofBits 0x43DFFFFFFFFFFFFF) :=
    numberAt_strictMono.monotone (by decide +kernel)
  obtain ⟨-, -, -, -, near, -⟩ := floatToInt_exact (Float.ofBits 0x43DFFFFFFFFFFFFF)
  obtain ⟨-, -, -, -, -, mono⟩ := floatToInt_exact (Float.ofBits 0xC3E0000000000000)
  exact ⟨high, by decide +kernel, low, by decide +kernel, near _ high, mono _ _ _ low high le⟩

/-! ## From integers to doubles -/

variable {n : ℤ}

/-- The number of the double that an integer is rounded to is an integer too. -/
theorem integral_value_ofInt (finite : isFinite (ofInt n) = true) :
    integral (value (ofInt n)) = value (ofInt n) := by
  have power : value (ofInt (2 ^ 53)) = (2 ^ 53 : ℤ) :=
    value_of_isNearestAt (by decide) (isNearestAt_ofInt _)
  have power' : value (ofInt (-2 ^ 53)) = (-2 ^ 53 : ℤ) :=
    value_of_isNearestAt (by decide) (isNearestAt_ofInt _)
  by_cases small : n.natAbs ≤ 2 ^ 53
  · rw [value_of_isNearestAt small (isNearestAt_ofInt n), integral_intCast]
  · refine integral_value finite ?_
    rcases le_or_gt 0 n with nonneg | neg
    · have above : value (ofInt (2 ^ 53)) ≤ value (ofInt n) := value_ofInt_mono (by omega)
      rw [power] at above
      push_cast at above
      exact le_abs.mpr (.inl (by linarith))
    · have below : value (ofInt n) ≤ value (ofInt (-2 ^ 53)) := value_ofInt_mono (by omega)
      rw [power'] at below
      push_cast at below
      exact le_abs.mpr (.inr (by linarith))

/-- An integer is converted to the nearest double. This has the same number exactly if the integer
is short, as every integer of at most 53 bits is. The way back leads to the number of the double, so
it leads to the integer in the same cases only. From the greatest 512 integers there is none, since
their nearest double is out of range. -/
theorem intToFloat_nearest (n : Int64) : ∃ x : Float,
    intToFloat (int n) = .ok (float x) ∧ isFinite x = true ∧ IsNearestAt n.toInt (position x) ∧
    (value x = n.toInt ↔ IsShort n.toInt) ∧
    (∀ m : Int64, floatToInt (float x) = .ok (int m) ↔ (m.toInt : ℚ) = value x) ∧
    (floatToInt (float x) = .ok (int n) ↔ IsShort n.toInt) ∧
    (floatToInt (float x) = .error (.notAnInteger x) ↔ 2 ^ 63 - 512 ≤ n.toInt) := by
  have low := n.le_toInt
  have high := n.toInt_lt
  have finite : isFinite (ofInt n.toInt) = true := isFinite_ofInt low high
  have exact_iff : value (ofInt n.toInt) = n.toInt ↔ IsShort n.toInt :=
    value_ofInt_eq_iff (by omega)
  have back (m : Int64) : floatToInt (float (ofInt n.toInt)) = .ok (int m) ↔
      (m.toInt : ℚ) = value (ofInt n.toInt) := by
    rw [floatToInt_eq_ok_iff, and_iff_right finite, ← @Int.cast_inj ℚ,
      integral_value_ofInt finite]
  have above : -2 ^ 63 ≤ value (ofInt n.toInt) := by
    have le : value (ofInt Int64.minValue.toInt) ≤ value (ofInt n.toInt) := value_ofInt_mono low
    rwa [value_ofInt_minValue] at le
  refine ⟨ofInt n.toInt, rfl, finite, isNearestAt_ofInt _, exact_iff, back, ?_, ?_⟩
  · rw [back, eq_comm, exact_iff]
  · rw [floatToInt_eq_error_iff, inRange_iff, and_iff_right above, value_ofInt_lt_iff, not_lt]

/-- An integer of more than 53 bits that is rounded down, and one that has no way back. -/
theorem intToFloat_inexact :
    intToFloat (int 9007199254740993) = .ok (float (Float.ofBits 0x4340000000000000)) ∧
    value (Float.ofBits 0x4340000000000000) = 9007199254740992 ∧
    floatToInt (float (Float.ofBits 0x4340000000000000)) = .ok (int 9007199254740992) ∧
    intToFloat (int Int64.maxValue) = .ok (float (Float.ofBits 0x43E0000000000000)) ∧
    floatToInt (float (Float.ofBits 0x43E0000000000000)) =
      .error (.notAnInteger (Float.ofBits 0x43E0000000000000)) := by
  have rounded : Float.ofBits 0x4340000000000000 = ofInt 9007199254740992 := by decide +kernel
  have number : value (ofInt 9007199254740992) = (9007199254740992 : ℤ) :=
    (value_ofInt_eq_iff (by decide)).mpr ⟨1, 53, by decide, by decide⟩
  refine ⟨by decide +kernel, ?_, by decide +kernel, by decide +kernel, by decide +kernel⟩
  rw [rounded, number]
  push_cast
  rfl

end Ippcode.Value
