import Ippcode.Numeral.Integer
import Ippcode.Numeral.Shortest
import Ippcode.Text.Blank

/-!
# Decimal notation of doubles

`scan?` reads digits with an optional point and an optional exponent as the exact number they
write, a `Decimal`. `Decimal.nearest` rounds it once. `ofDecimal?` also knows the names of the
infinity and of the NaN.

A point needs a digit on one side at least, an exponent needs a digit, and nothing may follow.
Numbers beyond the greatest double are read as the infinity.
-/

namespace Ippcode

/-! ## Rounding a decimal -/

/-- A power of ten above every double. Its inverse is below half of every double but zero. -/
def Decimal.beyond : Int := 400

/-- The magnitude nearest to a decimal. Far outside the range of the doubles the answer is known
without the power of ten. -/
def Decimal.nearest (d : Decimal) : Nat :=
  if d.coefficient = 0 then 0
  else if Decimal.beyond ≤ d.exponent then Binary64.infinity
  else if d.exponent + (Nat.toDigits 10 d.coefficient).length ≤ -Decimal.beyond then 0
  else if 0 ≤ d.exponent then Binary64.nearest (d.coefficient * Nat.pow 10 d.exponent.toNat) 1
  else Binary64.nearest d.coefficient (Nat.pow 10 (-d.exponent).toNat)

namespace Numeral

/-! ## Reading -/

/-- The integer written by an optional sign and one or more digits, of any size. -/
def integer? (cs : List Char) : Option Int :=
  let (negative, digits) := splitSign cs
  (natOfDigits? 10 digits).map (signed negative)

/-- The exponent at the end of a number : nothing, or its mark and an integer. -/
def exponentPart? : List Char → Option Int
  | [] => some 0
  | 'e' :: cs => integer? cs
  | 'E' :: cs => integer? cs
  | _ => none

/-- The digits after the point of a number, if it has one, and what follows them. -/
def fractionPart : List Char → List Char × List Char
  | '.' :: cs => (cs.takeWhile Char.isDigit, cs.dropWhile Char.isDigit)
  | cs => ([], cs)

/-- The exact number that a text writes in decimal. -/
def scan? (cs : List Char) : Option Decimal :=
  let whole := cs.takeWhile Char.isDigit
  let (fraction, rest) := fractionPart (cs.dropWhile Char.isDigit)
  (natOfDigits? 10 (whole ++ fraction)).bind fun coefficient =>
    (exponentPart? rest).map fun exponent => ⟨coefficient, exponent - fraction.length⟩

/-- The names of the infinity. -/
def infinityNames : List String := ["inf", "infinity"]

/-- The name of the NaN. -/
def nanName : String := "nan"

/-- The magnitude that a text names or writes in decimal, without a sign. -/
def ofDecimal? (cs : List Char) : Option Nat :=
  if infinityNames.any fun name => Text.sameIgnoringCase cs name.toList then some Binary64.infinity
  else if Text.sameIgnoringCase cs nanName.toList then some (Binary64.magnitude Binary64.nan)
  else (scan? cs).map Decimal.nearest

end Numeral

end Ippcode
