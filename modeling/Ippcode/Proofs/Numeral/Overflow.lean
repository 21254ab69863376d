import Ippcode.Constant
import Ippcode.Machine.Console
import Ippcode.Proofs.Numeral.HexFloat

/-!
# Numbers beyond the greatest double

A number in decimal or in hexadecimal is read as the nearest magnitude with its sign, and as the
same one in both scripts. Only beyond the greatest double they differ : there a number in decimal
is read as an infinity, and one in hexadecimal is refused (`isRead_of_writes`). Constants and lines
of input inherit both (`IsRead`).
-/

namespace Ippcode.Numeral

open Ippcode.Binary64

/-- A text stands for this double or for none, also as the payload of a constant and as a line of
input. -/
structure IsRead (text : List Char) (x : Option Float) : Prop where
  alone : float? text = x
  payload : Value.ofPayload .float (String.ofList text)
    = x.elim (.error (.float (String.ofList text))) fun x => .ok (.float x)
  line : ∀ line : String, Text.trim line.toList = text →
    Value.ofLine .float line = x.elim .nil Value.float

theorem isRead_iff {text : List Char} {x : Option Float} : IsRead text x ↔ float? text = x := by
  refine ⟨IsRead.alone, ?_⟩
  rintro rfl
  refine ⟨rfl, ?_, ?_⟩
  · unfold Value.ofPayload
    simp only [String.toList_ofList]
    cases float? text <;> rfl
  · rintro line rfl
    unfold Value.ofLine
    simp only
    cases float? (Text.trim line.toList) <;> rfl

variable {sign body : List Char} {negative : Bool} {x : ℚ}

/-- The nearest magnitude is read, also if it is the infinity. -/
theorem magnitude?_of_decimal (written : Script.decimal.Writes body x) :
    ∃ b, IsNearest x b ∧ magnitude? body = some b ∧ splitSign body = (false, body) := by
  obtain ⟨d, scanned, rfl⟩ := scan?_iff_writes.mpr written
  exact ⟨d.nearest, d.isNearest_nearest, magnitude?_of_scan? scanned, splitSign_of_scan? scanned⟩

/-- What is read of a number in decimal and in hexadecimal. -/
theorem isRead_of_writes (signed : IsSign sign negative) :
    (∀ body x, Script.decimal.Writes body x → ∃ b, IsNearest x b ∧
      IsRead (sign ++ body) (some (ofMagnitude negative b))) ∧
    (∀ mark ∈ ['x', 'X'], ∀ body x, Script.hexadecimal.Writes body x → ∃ b, IsNearest x b ∧
      IsRead (sign ++ '0' :: mark :: body)
        (if b < infinity then some (ofMagnitude negative b) else none)) := by
  simp only [isRead_iff]
  constructor
  · intro body x written
    obtain ⟨b, nearest, read, unsigned⟩ := magnitude?_of_decimal written
    refine ⟨b, nearest, ?_⟩
    rw [float?_append signed unsigned, read]
    rfl
  · intro mark marked body x written
    obtain ⟨b, nearest, read⟩ := magnitude?_of_hexadecimal marked written
    refine ⟨b, nearest, ?_⟩
    rw [float?_append signed rfl, read]
    split <;> rfl

/-! ### The power of ten with the exponent 400 and the power of two with the exponent 1400 -/

theorem writes_power_ten : Script.decimal.Writes "1e400".toList (Decimal.toRat ⟨1, 400⟩) :=
  scan?_iff_writes.mp ⟨⟨1, 400⟩, by decide, rfl⟩

theorem isNearest_power_ten : IsNearest (Decimal.toRat ⟨1, 400⟩) infinity :=
  Decimal.isNearest_nearest ⟨1, 400⟩

theorem writes_power_two : Script.hexadecimal.Writes "1p1400".toList (2 ^ (1400 : ℤ)) := by
  have digits : Digits 16 ['1'] 1 := ⟨[1], .cons ⟨by decide, rfl⟩ .nil, rfl⟩
  have exponent : Script.hexadecimal.IsExponent "p1400".toList 1400 :=
    .mark (by decide) (integer?_eq_some_iff.mp (by decide)) ⟨by decide, by decide⟩
  have written := @Script.Writes.mk .hexadecimal ['1'] _ _ _ _ _ .absent (by decide) digits exponent
  have value : ((1 : Nat) / (16 : Nat) ^ 0 * (2 : Nat) ^ (1400 : ℤ) : ℚ) = 2 ^ (1400 : ℤ) := by
    rw [pow_zero, Nat.cast_one, div_one, one_mul, Nat.cast_ofNat]
  rw [← value]
  exact written

/-- With a sign, one is read as the infinity, and the other is refused. -/
theorem isRead_of_writes_powers :
    IsRead "-1e400".toList (some (ofMagnitude true infinity)) ∧
    IsRead "-0x1p1400".toList none := by
  have mark : 'x' ∈ ['x', 'X'] := by decide
  obtain ⟨b, nearest, read⟩ := (isRead_of_writes .minus).1 _ _ writes_power_ten
  obtain ⟨c, nearest', read'⟩ := (isRead_of_writes .minus).2 'x' mark _ _ writes_power_two
  have great : (2 : ℚ) ^ (1024 : ℤ) ≤ 2 ^ (1400 : ℤ) :=
    zpow_le_zpow_right₀ one_le_two (by decide)
  rw [nearest.unique isNearest_power_ten] at read
  rw [nearest'.unique (isNearest_infinity great), if_neg (lt_irrefl _)] at read'
  exact ⟨read, read'⟩

/-- Beyond the greatest double a number in decimal is neither refused as a constant nor as a line of
input. -/
theorem exists_isRead_infinity : ∃ x, Script.decimal.Writes "1e400".toList x ∧
    IsNearest x infinity ∧ IsRead "1e400".toList (some (ofMagnitude false infinity)) ∧
      magnitude (ofMagnitude false infinity) = infinity :=
  ⟨_, writes_power_ten, isNearest_power_ten, isRead_iff.mpr rfl, magnitude_ofMagnitude le_rfl⟩

end Ippcode.Numeral
