import Ippcode.Numeral.DecimalFloat
import Ippcode.Text.Split

/-!
# Hexadecimal notation of doubles

After its mark `0x` a number has hexadecimal digits with an optional point, and after a `p` an
optional exponent of two. It is read into a `Reading` of bounded size : a mantissa below `2 ^ 64`
(`mantissa_pushWhole_lt`, `mantissa_pushFraction_lt`), the exponent of its last place, and whether
nonzero digits were left off below it. `Reading.magnitude?` rounds that once, ties to even, and
refuses what would round beyond the greatest double.

The exponent saturates at the ends of the 64-bit range, which is far outside the range of the
doubles.
-/

namespace Ippcode.Numeral.Hex

/-! ## Digits -/

/-- A number that is at least `mantissa * 2 ^ shift` and less than one unit of that greater,
and is equal to it unless `sticky`. -/
structure Reading where
  mantissa : Nat
  shift : Int
  sticky : Bool
  deriving DecidableEq, Repr

/-- From here on a mantissa takes up no further digit. -/
def mantissaLimit : Nat := 1 <<< 60

/-- The nearest integer of the 64-bit range. -/
def saturate (n : Int) : Int := max Int64.minValue.toInt (min n Int64.maxValue.toInt)

/-- A further digit in front of the point. -/
def Reading.pushWhole (r : Reading) (d : Nat) : Reading :=
  if r.mantissa < mantissaLimit then { r with mantissa := r.mantissa * 16 + d }
  else { r with shift := saturate (r.shift + 4), sticky := r.sticky || d != 0 }

/-- A further digit after the point. -/
def Reading.pushFraction (r : Reading) (d : Nat) : Reading :=
  if r.mantissa < mantissaLimit then
    { r with mantissa := r.mantissa * 16 + d, shift := saturate (r.shift - 4) }
  else { r with sticky := r.sticky || d != 0 }

theorem Reading.mantissa_pushWhole_lt {r : Reading} {d : Nat} (hr : r.mantissa < UInt64.size)
    (hd : d < 16) : (r.pushWhole d).mantissa < UInt64.size := by
  unfold UInt64.size at hr ⊢
  unfold pushWhole mantissaLimit
  split <;> simp only <;> omega

theorem Reading.mantissa_pushFraction_lt {r : Reading} {d : Nat} (hr : r.mantissa < UInt64.size)
    (hd : d < 16) : (r.pushFraction d).mantissa < UInt64.size := by
  unfold UInt64.size at hr ⊢
  unfold pushFraction mantissaLimit
  split <;> simp only <;> omega

/-! ## Rounding -/

/-- The number of bits of a mantissa. -/
def Reading.bits (r : Reading) : Int := r.mantissa.log2 + 1

/-- The exponent of the leading bit. -/
def Reading.top (r : Reading) : Int := saturate (r.shift + (r.bits - 1))

/-- The number of bits that a double with this leading bit has : subnormal doubles have fewer. -/
def Reading.precision (r : Reading) : Int := if -1022 ≤ r.top then 53 else r.top + 1075

/-- The number of bits that do not fit. -/
def Reading.drop (r : Reading) : Int := r.bits - r.precision

/-- The mantissa without its last `k` bits, rounded to nearest, ties to even. -/
def Reading.kept (r : Reading) (k : Nat) : Nat :=
  let kept := r.mantissa >>> k
  let dropped := r.mantissa % (1 <<< k)
  let half := 1 <<< (k - 1)
  if half < dropped ∨ (dropped = half ∧ (r.sticky ∨ kept % 2 = 1)) then kept + 1 else kept

/-- A mantissa that loses more bits than this is below half of the least double. -/
def dropLimit : Int := 65

/-- The magnitude of `m * 2 ^ q`, which is a double's or beyond the greatest one. It can be computed
by products with powers of two, one after another. This loop, in the 64-bit range, is
`Checked.scaling` in `Ippcode.Proofs.Numeral.Checked`, and `Checked.finish_eq` says that it gives
this magnitude. -/
def scaled (m : Nat) (q : Int) : Nat :=
  if 0 ≤ q then Binary64.nearest (m <<< q.toNat) 1 else Binary64.nearest m (1 <<< (-q).toNat)

/-- The nearest magnitude, if it is finite. -/
def Reading.magnitude? (r : Reading) : Option Nat :=
  if r.mantissa = 0 then some 0
  else if 1023 < r.top then none
  else if dropLimit < r.drop then some 0
  else
    let b :=
      if 0 < r.drop then scaled (r.kept r.drop.toNat) (r.shift + r.drop)
      else scaled r.mantissa r.shift
    if b < Binary64.infinity then some b else none

/-! ## Reading -/

/-- The exponent of two after its mark : an integer of the 64-bit range. -/
def exponent? (cs : List Char) : Option Int :=
  (integer? cs).filter fun n => Int64.minValue.toInt ≤ n ∧ n ≤ Int64.maxValue.toInt

/-- The digits and the exponent of a number : what stands before and after the first `p`. -/
def splitExponent? (cs : List Char) : Option (List Char × Int) :=
  match Text.splitFirst? (fun c => c == 'p' || c == 'P') cs with
  | some (digits, _, rest) => (exponent? rest).map fun e => (digits, e)
  | none => some (cs, 0)

/-- The digits in front of the first point and those after it. -/
def splitPoint (cs : List Char) : List Char × List Char :=
  match Text.splitFirst? (· == '.') cs with
  | some (whole, _, fraction) => (whole, fraction)
  | none => (cs, [])

/-- What a text after the mark `0x` writes. -/
def read? (cs : List Char) : Option Reading :=
  (splitExponent? cs).bind fun (digits, exponent) =>
    let (whole, fraction) := splitPoint digits
    if whole.isEmpty && fraction.isEmpty then none
    else
      (whole.mapM (digit? 16)).bind fun whole =>
        (fraction.mapM (digit? 16)).map fun fraction =>
          fraction.foldl .pushFraction (whole.foldl .pushWhole ⟨0, exponent, false⟩)

end Hex

/-! ## Either notation -/

/-- The magnitude that a text writes, without a sign. -/
def magnitude? : List Char → Option Nat
  | '0' :: 'x' :: cs => (Hex.read? cs).bind Hex.Reading.magnitude?
  | '0' :: 'X' :: cs => (Hex.read? cs).bind Hex.Reading.magnitude?
  | cs => ofDecimal? cs

/-- The double that a text writes in decimal or in hexadecimal. -/
def float? (cs : List Char) : Option Float :=
  let (negative, body) := splitSign cs
  (magnitude? body).map (Binary64.ofMagnitude negative)

end Ippcode.Numeral
