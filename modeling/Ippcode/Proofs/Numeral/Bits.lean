import Ippcode.Numeral.Binary64
import Mathlib

/-!
# The bits of a double

A double is determined by its bits (`ofBits_toBits`), and each word is the bits of a double
unless it is another NaN (`toBits_ofBits`), since there is one among the doubles
(`eq_nan_of_isNaN`). So a double that is not a NaN is determined by its sign and its magnitude
(`ofMagnitude_magnitude`), and all signs and magnitudes occur (`magnitude_ofMagnitude`).
-/

namespace Ippcode.Binary64

open Float.Model (Format)
open Float.Model.UnpackedFloat

/-! ## Words -/

theorem ofBits_toBits (x : Float) : Float.ofBits x.toBits = x := by
  obtain ⟨⟨bits, valid⟩⟩ := x
  have : Float.Model.ofBits bits = ⟨bits, valid⟩ := by
    unfold Float.Model.ofBits Float.Model.pack
    congr
    exact pack_unpack_of_valid valid
  exact congrArg Float.ofModel this

/-- A word is the bits of a double, unless it is one of those that stand for the NaN. -/
theorem toBits_ofBits {w : UInt64} (h : w.toNat % 2 ^ 63 ≤ infinity) :
    (Float.ofBits w).toBits = w := by
  have number : @isNaNBits Format.binary64 w.toBitVec = false := by
    rw [isNaNBits, decide_eq_false_iff_not, not_and, not_not, unpackExponent_def, unpackMantissa_def]
    intro e
    have e : w.toNat >>> 52 % 2 ^ 11 = 2 ^ 11 - 1 := by simpa using congrArg BitVec.toNat e
    apply BitVec.eq_of_toNat_eq
    show w.toNat >>> 0 % 2 ^ 52 = 0
    rw [Nat.shiftRight_eq_div_pow] at e ⊢
    unfold infinity at h
    omega
  have same : pack Format.binary64 (unpack Format.binary64 w.toBitVec) = w.toBitVec := by
    rw [pack_unpack, number]
    rfl
  exact congrArg UInt64.ofBitVec same

/-- There is one NaN. -/
theorem eq_nan_of_isNaN {x : Float} (h : isNaN x = true) : x = nan := by
  have great : infinity < x.toBits.toNat % 2 ^ 63 := of_decide_eq_true h
  have noNumber : @isNaNBits Format.binary64 x.toBits.toBitVec = true := by
    have small := x.toBits.toNat_lt
    unfold infinity at great
    rw [isNaNBits, decide_eq_true_eq, unpackExponent_def, unpackMantissa_def]
    constructor
    · apply BitVec.eq_of_toNat_eq
      show x.toBits.toNat >>> 52 % 2 ^ 11 = 2 ^ 11 - 1
      rw [Nat.shiftRight_eq_div_pow]
      omega
    · intro zero
      have zero : x.toBits.toNat >>> 0 % 2 ^ 52 = 0 := by simpa using congrArg BitVec.toNat zero
      rw [Nat.shiftRight_eq_div_pow] at zero
      omega
  have packed : pack Format.binary64 (unpack Format.binary64 x.toBits.toBitVec)
      = packedNaN Format.binary64 := by
    rw [pack_unpack, noNumber]
    rfl
  have same : pack Format.binary64 (unpack Format.binary64 x.toBits.toBitVec)
      = x.toBits.toBitVec := pack_unpack_of_valid x.toModel.valid
  have word : x.toBits = nan.toBits :=
    UInt64.toBitVec_inj.mp (same.symm.trans (packed.trans (by decide)))
  rw [← ofBits_toBits x, word, ofBits_toBits]

/-! ## Sign and magnitude -/

theorem magnitude_eq (x : Float) : magnitude x = x.toBits.toNat % 2 ^ 63 := rfl

theorem isNegative_eq (x : Float) : isNegative x = decide (2 ^ 63 ≤ x.toBits.toNat) := rfl

theorem ofMagnitude_eq (negative : Bool) (b : Nat) :
    ofMagnitude negative b = Float.ofBits (UInt64.ofNat (if negative then 2 ^ 63 + b else b)) :=
  rfl

/-- A double is its sign and its magnitude. -/
theorem ofMagnitude_magnitude (x : Float) : ofMagnitude (isNegative x) (magnitude x) = x := by
  have hlt : x.toBits.toNat < 2 ^ 64 := x.toBits.toNat_lt
  have bits : UInt64.ofNat (if isNegative x then 2 ^ 63 + magnitude x else magnitude x)
      = x.toBits := by
    apply UInt64.toNat.inj
    rw [isNegative_eq, magnitude_eq]
    by_cases h : 2 ^ 63 ≤ x.toBits.toNat
    · simp only [h, decide_true, if_true, UInt64.toNat_ofNat']
      omega
    · simp only [h, decide_false, Bool.false_eq_true, if_false, UInt64.toNat_ofNat']
      omega
  rw [ofMagnitude_eq, bits, ofBits_toBits]

/-- A sign and a magnitude make up a double with this sign and this magnitude. -/
theorem toNat_toBits_ofMagnitude {negative : Bool} {b : Nat} (hb : b ≤ infinity) :
    (ofMagnitude negative b).toBits.toNat = if negative then 2 ^ 63 + b else b := by
  have word : (UInt64.ofNat (if negative then 2 ^ 63 + b else b)).toNat
      = if negative then 2 ^ 63 + b else b := by
    unfold infinity at hb
    rw [UInt64.toNat_ofNat']
    split <;> omega
  rw [ofMagnitude_eq, toBits_ofBits, word]
  rw [word]
  unfold infinity at hb ⊢
  split <;> omega

theorem magnitude_ofMagnitude {negative : Bool} {b : Nat} (hb : b ≤ infinity) :
    magnitude (ofMagnitude negative b) = b := by
  rw [magnitude_eq, toNat_toBits_ofMagnitude hb]
  unfold infinity at hb
  split <;> omega

theorem isNegative_ofMagnitude {negative : Bool} {b : Nat} (hb : b ≤ infinity) :
    isNegative (ofMagnitude negative b) = negative := by
  rw [isNegative_eq, toNat_toBits_ofMagnitude hb]
  unfold infinity at hb
  cases negative
  · exact decide_eq_false (by simp only [Bool.false_eq_true, if_false]; omega)
  · exact decide_eq_true (by simp only [if_true]; omega)

end Ippcode.Binary64
