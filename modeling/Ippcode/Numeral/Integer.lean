import Ippcode.Text.Split

/-!
# Integer numerals

Two ways of writing a 64-bit signed integer.

* `ofLiteral?` reads the constants of a program : an optional sign, then decimal digits or one
  of the marks `0x`, `0o`, `0b` and digits of that radix.
* `ofLine?` reads a line of input : an optional sign and decimal digits, which single underscores
  may group.

Both read the digits as an unsigned word (`word?`), give it its sign and then narrow it (`narrow?`),
so a number outside the range is refused and never wrapped.
-/

namespace Ippcode.Numeral

/-! ## Signs and digits -/

/-- Whether a numeral begins with a minus sign, and what follows its sign, if it has one. -/
def splitSign : List Char → Bool × List Char
  | '-' :: cs => (true, cs)
  | '+' :: cs => (false, cs)
  | cs => (false, cs)

/-- The integer with this sign and this absolute value. -/
def signed (negative : Bool) (n : Nat) : Int := if negative then -n else n

/-- The value of a character as a digit : decimal digits, then letters of either case. -/
def digitValue (c : Char) : Option Nat :=
  if c.isDigit then some (c.toNat - '0'.toNat)
  else if c.isLower then some (c.toNat - 'a'.toNat + 10)
  else if c.isUpper then some (c.toNat - 'A'.toNat + 10)
  else none

/-- The value of a character as a digit below `radix`. -/
def digit? (radix : Nat) (c : Char) : Option Nat :=
  (digitValue c).filter (· < radix)

/-- The number whose further digits are `cs`, when `n` has been read. -/
def extend? (radix : Nat) : Nat → List Char → Option Nat
  | n, [] => some n
  | n, c :: cs => (digit? radix c).bind fun d => extend? radix (n * radix + d) cs

/-- The number written by one or more digits. -/
def natOfDigits? (radix : Nat) : List Char → Option Nat
  | [] => none
  | cs => extend? radix 0 cs

/-! ## The range -/

/-- The unsigned word of 64 bits written by one or more digits. -/
def word? (radix : Nat) (digits : List Char) : Option Nat :=
  (natOfDigits? radix digits).filter (· < UInt64.size)

/-- The integer as a 64-bit word, if it is one. -/
def narrow? (n : Int) : Option Int64 :=
  if Int64.minValue.toInt ≤ n ∧ n ≤ Int64.maxValue.toInt then some (Int64.ofInt n) else none

theorem toInt_of_narrow? {n : Int} {w : Int64} (h : narrow? n = some w) : w.toInt = n := by
  unfold narrow? at h
  split at h
  · rename_i range
    rw [← Option.some.inj h]
    exact Int64.toInt_ofInt_of_le range.1 (Int.lt_of_le_sub_one range.2)
  · simp at h

/-! ## Constants -/

/-- The radix that the mark in front of a number announces, and the digits after the mark. -/
def splitRadix : List Char → Nat × List Char
  | '0' :: 'x' :: cs => (16, cs)
  | '0' :: 'X' :: cs => (16, cs)
  | '0' :: 'o' :: cs => (8, cs)
  | '0' :: 'O' :: cs => (8, cs)
  | '0' :: 'b' :: cs => (2, cs)
  | '0' :: 'B' :: cs => (2, cs)
  | cs => (10, cs)

/-- The integer written by a constant. -/
def ofLiteral? (cs : List Char) : Option Int64 :=
  let (negative, body) := splitSign cs
  let (radix, digits) := splitRadix body
  (word? radix digits).bind fun n => narrow? (signed negative n)

/-! ## Lines of input -/

/-- The digits of a number, if they are decimal and underscores stand only between them, one at a
time. -/
def ungrouped? (cs : List Char) : Option (List Char) :=
  if cs = [] ∨ cs.head? = some '_' ∨ cs.getLast? = some '_'
      ∨ Text.occurs ['_', '_'] cs ∨ !cs.all fun c => c.isDigit || c == '_' then none
  else some (cs.filter (· != '_'))

/-- The integer written on a line of input. -/
def ofLine? (cs : List Char) : Option Int64 :=
  let (negative, body) := splitSign cs
  (ungrouped? body).bind fun digits =>
    (word? 10 digits).bind fun n => narrow? (signed negative n)

/-! ## Writing -/

/-- An integer in decimal. -/
def ofInt (n : Int) : List Char :=
  if n < 0 then '-' :: Nat.toDigits 10 n.natAbs else Nat.toDigits 10 n.natAbs

end Ippcode.Numeral
