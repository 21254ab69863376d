import Ippcode.Numeral.Integer
import Ippcode.Numeral.Shortest

/-!
# Writing doubles

A double is written with the digits of its shortest decimal. What a text does with these
digits is its `FloatStyle` : up to which sizes the point is put among them, and what marks a whole
number. Beyond these sizes one digit stands in front of the point and a signed exponent of at
least two digits follows.

* `FloatStyle.source` : doubles in programs and in program output. From `10 ^ -4` up to `10 ^ 16`
  they have no exponent, and a whole number keeps a digit after its point.
* `FloatStyle.message` : doubles in error messages, never with an exponent, whole numbers without
  a point.
-/

namespace Ippcode

/-- What a text does with the digits of a double. -/
structure FloatStyle where
  /-- Whether a number whose point stands after this many digits is written without exponent. -/
  positional : Int → Bool
  /-- What follows the digits of a whole number. -/
  wholeMark : String
  /-- The name of the NaN. -/
  nan : String

/-- How programs and their output write doubles. -/
def FloatStyle.source : FloatStyle where
  positional point := -4 < point && point ≤ 16
  wholeMark := ".0"
  nan := "nan"

/-- How error messages write doubles. -/
def FloatStyle.message : FloatStyle where
  positional _ := true
  wholeMark := ""
  nan := "NaN"

namespace Decimal

/-- The digits of a decimal. -/
def digits (d : Decimal) : List Char := Nat.toDigits 10 d.coefficient

/-- After how many of its digits the point of a decimal stands. -/
def point (d : Decimal) : Int := d.digits.length + d.exponent

/-- A decimal without exponent. -/
def positional (wholeMark : String) (d : Decimal) : List Char :=
  if d.point ≤ 0 then '0' :: '.' :: (List.replicate (-d.point).toNat '0' ++ d.digits)
  else if 0 ≤ d.exponent then d.digits ++ List.replicate d.exponent.toNat '0' ++ wholeMark.toList
  else d.digits.take d.point.toNat ++ '.' :: d.digits.drop d.point.toNat

/-- An exponent : its sign and at least two digits. -/
def exponentText (e : Int) : List Char :=
  let ds := Nat.toDigits 10 e.natAbs
  (if e < 0 then '-' else '+') :: (if ds.length < 2 then '0' :: ds else ds)

/-- A decimal with one digit in front of its point. -/
def scientific (d : Decimal) : List Char :=
  let mantissa :=
    match d.digits with
    | first :: second :: rest => first :: '.' :: second :: rest
    | ds => ds
  mantissa ++ 'e' :: exponentText (d.point - 1)

end Decimal

namespace Numeral

/-- A finite magnitude in digits. -/
def magnitudeText (style : FloatStyle) (b : Nat) : List Char :=
  if b = 0 then '0' :: style.wholeMark.toList
  else
    let d := Decimal.shortest b
    if style.positional d.point then d.positional style.wholeMark else d.scientific

/-- A double as text. -/
def floatText (style : FloatStyle) (x : Float) : String :=
  let b := Binary64.magnitude x
  if Binary64.isNaN x then style.nan
  else
    let body := if b < Binary64.infinity then magnitudeText style b else "inf".toList
    String.ofList (if Binary64.isNegative x then '-' :: body else body)

end Numeral

end Ippcode
