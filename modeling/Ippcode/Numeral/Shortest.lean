import Ippcode.Numeral.Binary64

/-!
# The shortest decimal of a double

Many decimals are read back as the same double : those between the midpoints to its two
neighbours, and the midpoints themselves if its significand is even. `Decimal.shortest` picks
the one with the fewest digits, of several such the nearest, and of two equally near the
greater.

Everything is scaled to natural numbers : a quarter of the unit in the last place is a whole
number of some negative power of ten (`quarter`), and so are the number itself and the two
midpoints. A grid of multiples of `10 ^ j` is then searched from coarse to fine (`search`) : if
a point of the grid lies between the midpoints, so does one of the two that enclose the
number, so only these are tried. On the finest grid the number is itself a point.
-/

namespace Ippcode

/-- The number `coefficient * 10 ^ exponent`. -/
structure Decimal where
  coefficient : Nat
  exponent : Int
  deriving DecidableEq, Repr

namespace Decimal

/-- A quarter of the unit `2 ^ q`, as a whole number of `10 ^ quarterExponent q`. -/
def quarter (q : Int) : Nat := if 2 ≤ q then 1 <<< (q - 2).toNat else Nat.pow 5 (2 - q).toNat

/-- The power of ten in which `quarter` counts. -/
def quarterExponent (q : Int) : Int := min (q - 2) 0

/-- The numbers that are read back as a double, between two limits that belong to them or not. -/
structure Interval where
  low : Nat
  high : Nat
  closed : Bool

/-- Whether a number is at or above the lower limit. -/
def Interval.above (i : Interval) (n : Nat) : Bool := i.low < n || (i.closed && n == i.low)

/-- Whether a number is at or below the upper limit. -/
def Interval.below (i : Interval) (n : Nat) : Bool := n < i.high || (i.closed && n == i.high)

/-- The point of the coarsest grid, from `10 ^ j` down, that lies in the interval around
`value`, as a multiple of its grid and the grid's exponent. -/
def search (value : Nat) (i : Interval) : Nat → Nat × Nat
  | 0 => (value, 0)
  | j + 1 =>
    let unit := Nat.pow 10 (j + 1)
    let d := value / unit
    let lower := d * unit
    match i.above lower, i.below (lower + unit) with
    | true, true => if 2 * (value - lower) < unit then (d, j + 1) else (d + 1, j + 1)
    | true, false => (d, j + 1)
    | false, true => (d + 1, j + 1)
    | false, false => search value i j

/-- How many quarters of a unit lie between a magnitude and the midpoint below it : half as
many at a power of two, where the lower neighbour is half as far. -/
def quartersBelow (b : Nat) : Nat := if b % (1 <<< 52) = 0 ∧ 1 <<< 53 ≤ b then 1 else 2

/-- The shortest decimal that is read back as the finite, nonzero magnitude `b`. -/
def shortest (b : Nat) : Decimal :=
  let m := Binary64.significand b
  let q := Binary64.exponent b
  let unit := quarter q
  let value := 4 * m * unit
  let interval : Interval :=
    { low := (4 * m - quartersBelow b) * unit
      high := (4 * m + 2) * unit
      closed := m % 2 == 0 }
  let found := search value interval (Nat.toDigits 10 value).length
  { coefficient := found.1, exponent := quarterExponent q + found.2 }

end Decimal

end Ippcode
