/-!
# Doubles as numbers

A double that is not a NaN is a sign and a magnitude, the other 63 bits read as a natural
number. A finite magnitude `b` stands for `significand b * 2 ^ exponent b`, and magnitudes
are ordered as the numbers they stand for, with `infinity` above all of them. So what the
language does with doubles, arithmetic apart, is exact arithmetic on natural numbers :

* `nearest n d` : the magnitude nearest to the quotient `n / d`, of two equally near the even
  one. Consecutive magnitudes are consecutive numbers, so a significand that rounding carries
  to `2 ^ 53` moves to the next exponent by itself;
* `compare?` : the order of two doubles, by their positions (`position`) : both zeros are at 0,
  and a NaN is nowhere;
* `truncate` : a double without its fraction, and `toInt64` : the integer that it stands for;
* `ofInt` : the nearest double to an integer.
-/

namespace Ippcode.Binary64

/-! ## Sign and magnitude -/

/-- The magnitude of the infinities. A greater magnitude is a NaN. -/
def infinity : Nat := 0x7FF0000000000000

/-- The bits of a double below its sign. -/
def magnitude (x : Float) : Nat := x.toBits.toNat % (1 <<< 63)

/-- Whether the sign of a double is set. -/
def isNegative (x : Float) : Bool := 1 <<< 63 ≤ x.toBits.toNat

/-- The double with this sign and this magnitude. -/
def ofMagnitude (negative : Bool) (b : Nat) : Float :=
  Float.ofBits (UInt64.ofNat (if negative then (1 <<< 63) + b else b))

/-- Whether a double is not a number. -/
def isNaN (x : Float) : Bool := infinity < magnitude x

/-- The double that is not a number. -/
def nan : Float := Float.ofBits 0x7FF8000000000000

/-! ## Finite magnitudes -/

/-- The whole number of units in the last place : the fraction, and the leading bit of a
magnitude that is not subnormal. -/
def significand (b : Nat) : Nat := if b < 1 <<< 52 then b else (1 <<< 52) + b % (1 <<< 52)

/-- The exponent of the unit in the last place. -/
def exponent (b : Nat) : Int := (max (b / (1 <<< 52)) 1 : Nat) - 1075

/-- The exponent of the least unit. -/
def leastExponent : Int := -1074

/-- The magnitude of `m * 2 ^ q`, for `m` at most `2 ^ 53`, and at least `2 ^ 52` unless `q` is
the least exponent. A number too great for a finite magnitude gives `infinity`. -/
def compose (m : Nat) (q : Int) : Nat :=
  min (((q - leastExponent).toNat <<< 52) + m) infinity

/-! ## Rounding -/

/-- The whole number nearest to `n / d`, of two equally near the even one. -/
def roundHalfEven (n d : Nat) : Nat :=
  let k := n / d
  let r := n % d
  if d < 2 * r ∨ (2 * r = d ∧ k % 2 = 1) then k + 1 else k

/-- The greatest `e` with `2 ^ e` at most `n / d`, for positive `n` and `d`. -/
def floorLog (n d : Nat) : Int :=
  let e : Int := n.log2 - d.log2
  let reached := if 0 ≤ e then d <<< e.toNat ≤ n else d ≤ n <<< (-e).toNat
  if reached then e else e - 1

/-- The magnitude nearest to `n / d`, for a positive `d`. -/
def nearest (n d : Nat) : Nat :=
  if n = 0 then 0
  else
    let q := max (floorLog n d - 52) leastExponent
    let m := if 0 ≤ q then roundHalfEven n (d <<< q.toNat) else roundHalfEven (n <<< (-q).toNat) d
    compose m q

/-- The double nearest to an integer. -/
def ofInt (n : Int) : Float := ofMagnitude (n < 0) (nearest n.natAbs 1)

/-! ## Order -/

/-- The position of a double that is not a NaN among all of them : greater numbers have greater
positions, and both zeros are at 0. -/
def position (x : Float) : Int := if isNegative x then -(magnitude x) else magnitude x

/-- The order of two doubles as numbers. A NaN has none. -/
def compare? (x y : Float) : Option Ordering :=
  if isNaN x || isNaN y then none else some (compare (position x) (position y))

/-- Whether two doubles are the same number. -/
def equal (x y : Float) : Bool := compare? x y == some .eq

/-- Whether a double is less than another one. -/
def less (x y : Float) : Bool := compare? x y == some .lt

/-- Whether a double is less than another one, or the same number. -/
def lessOrEqual (x y : Float) : Bool := less x y || equal x y

/-- Whether a double is one of the two zeros. -/
def isZero (x : Float) : Bool := magnitude x == 0

/-- Whether a double is neither an infinity nor a NaN. -/
def isFinite (x : Float) : Bool := magnitude x < infinity

/-! ## Integer part -/

/-- A magnitude without the bits that stand for a fraction. -/
def withoutFraction (b : Nat) : Nat :=
  let places := (-exponent b).toNat
  if places ≤ 52 then (b >>> places) <<< places else 0

/-- A double without its fraction. The infinities and the NaN stay as they are. -/
def truncate (x : Float) : Float := ofMagnitude (isNegative x) (withoutFraction (magnitude x))

/-- The integer part of `m * 2 ^ q`. -/
def wholePart (m : Nat) (q : Int) : Nat :=
  if 0 ≤ q then m <<< q.toNat else m >>> (-q).toNat

/-- The integer part of a double that is not a NaN. -/
def integerPart (x : Float) : Int :=
  let n := wholePart (significand (magnitude x)) (exponent (magnitude x))
  if isNegative x then -n else n

/-- The integer part of a double, or else the integer of 64 bits that is nearest to it. A NaN
gives zero. -/
def toInt64 (x : Float) : Int64 :=
  if isNaN x then 0
  else .ofInt (max Int64.minValue.toInt (min Int64.maxValue.toInt (integerPart x)))

end Ippcode.Binary64
