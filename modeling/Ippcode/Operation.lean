import Ippcode.Machine.Fault

/-!
# Operations on values

What the operations of the instruction set do with their operands, wherever these come from
and wherever the result goes. Types are checked from left to right, before anything else
about the operands.

* Arithmetic on two integers stays within 64 bits and wraps around; as soon as one operand is a
  double, so is the result (`Value.arithmetic`).
* Comparison orders integers and doubles as numbers, truth values with `false` first, and
  strings by their characters; a NaN is neither less than, equal to nor greater than anything
  (`Value.order`, `Value.relation`).
* Indices count characters from zero (`Value.charAt`).
-/

namespace Ippcode

/-! ## Expected types -/

namespace Value

/-- The integer that a value is. -/
def expectInt : Value → Except RuntimeError Int64
  | int n => .ok n
  | v => .error (.typeMismatch (.one .int) v.ty)

/-- The double that a value is. -/
def expectFloat : Value → Except RuntimeError Float
  | float x => .ok x
  | v => .error (.typeMismatch (.one .float) v.ty)

/-- The truth value that a value is. -/
def expectBool : Value → Except RuntimeError Bool
  | bool b => .ok b
  | v => .error (.typeMismatch (.one .bool) v.ty)

/-- The string that a value is. -/
def expectString : Value → Except RuntimeError String
  | string s => .ok s
  | v => .error (.typeMismatch (.one .string) v.ty)

/-- The double nearest to a number, if the value is one. -/
def number? : Value → Option Float
  | int n => some (Binary64.ofInt n.toInt)
  | float x => some x
  | _ => none

end Value

/-! ## Arithmetic -/

/-- The operation on integers. -/
def Arithmetic.onInts (op : Arithmetic) (a b : Int64) : Except RuntimeError Int64 :=
  match op with
  | .add => .ok (a + b)
  | .sub => .ok (a - b)
  | .mul => .ok (a * b)
  | .div => if b = 0 then .error .divisionByZero else .ok (a / b)

/-- The operation on doubles. -/
def Arithmetic.onFloats (op : Arithmetic) (x y : Float) : Except RuntimeError Float :=
  match op with
  | .add => .ok (x + y)
  | .sub => .ok (x - y)
  | .mul => .ok (x * y)
  | .div => if Binary64.isZero y then .error .divisionByZero else .ok (x / y)

namespace Value

/-- The operation on two numbers. -/
def arithmetic (op : Arithmetic) : Value → Value → Except RuntimeError Value
  | int a, int b => (op.onInts a b).map int
  | v, w =>
    match v.number?, w.number? with
    | some x, some y => (op.onFloats x y).map float
    | none, _ => .error (.typeMismatch .number v.ty)
    | _, none => .error (.typeMismatch .number w.ty)

/-! ## Comparison -/

/-- The order of two values that can be compared, if they have one. -/
def order : Value → Value → Except RuntimeError (Option Ordering)
  | int a, int b => .ok (some (compare a.toInt b.toInt))
  | bool a, bool b => .ok (some (compare a b))
  | string s, string t => .ok (some (compare s t))
  | v, w =>
    match v.number?, w.number? with
    | some x, some y => .ok (Binary64.compare? x y)
    | _, _ => .error (.incomparable v.ty w.ty)

end Value

/-- The order in which a relation holds. -/
def Relation.ordering : Relation → Ordering
  | lt => .lt
  | gt => .gt
  | eq => .eq

namespace Value

/-- Whether a relation holds between two values. Anything may be tested for equality
with `nil`. -/
def relation (op : Relation) (v w : Value) : Except RuntimeError Bool :=
  if op = .eq ∧ (v = nil ∨ w = nil) then .ok (v == w)
  else (v.order w).map fun o => o == some op.ordering

/-- Whether two values are equal for a conditional jump. They must have one type, unless one of
them is `nil`. -/
def jumpEqual (v w : Value) : Except RuntimeError Bool :=
  if v.ty = w.ty ∨ v = nil ∨ w = nil then .ok (v.same w) else .error (.incomparable v.ty w.ty)

/-! ## Truth values -/

/-- The operation on two truth values. -/
def logic (op : Logic) (v w : Value) : Except RuntimeError Value := do
  let a ← v.expectBool
  let b ← w.expectBool
  match op with
  | .and => return bool (a && b)
  | .or => return bool (a || b)

/-- The opposite of a truth value. -/
def not (v : Value) : Except RuntimeError Value := do
  let b ← v.expectBool
  return bool !b

/-! ## Conversions -/

/-- The string of the one character with this code. -/
def intToChar (v : Value) : Except RuntimeError Value := do
  let n ← v.expectInt
  if 0 ≤ n.toInt ∧ n.toInt.toNat.isValidChar then
    return string (Char.ofNat n.toInt.toNat).toString
  else throw (.codePoint n)

/-- The double nearest to an integer. -/
def intToFloat (v : Value) : Except RuntimeError Value := do
  let n ← v.expectInt
  return float (Binary64.ofInt n.toInt)

/-- The integer part of a double. The greatest integer is rounded up to a double that is out of
range, and the least one is a double. -/
def floatToInt (v : Value) : Except RuntimeError Value := do
  let x ← v.expectFloat
  let whole := Binary64.truncate x
  if !Binary64.isFinite whole || Binary64.less whole (Binary64.ofInt Int64.minValue.toInt)
      || Binary64.lessOrEqual (Binary64.ofInt Int64.maxValue.toInt) whole then
    throw (.notAnInteger x)
  else return int (Binary64.toInt64 whole)

/-! ## Strings -/

/-- The character of a string at an index. -/
def charAt (s : String) (i : Int64) : Except RuntimeError Char :=
  match if 0 ≤ i.toInt then s.toList[i.toInt.toNat]? else none with
  | some c => .ok c
  | none => .error (.index i s.length)

/-- The code of the character of a string at an index. -/
def charCode (v w : Value) : Except RuntimeError Value := do
  let s ← v.expectString
  let i ← w.expectInt
  let c ← charAt s i
  return int (Int64.ofNat c.toNat)

/-- The string of the one character of a string at an index. -/
def getChar (v w : Value) : Except RuntimeError Value := do
  let s ← v.expectString
  let i ← w.expectInt
  let c ← charAt s i
  return string c.toString

/-- A string with the character at an index replaced by the first one of `r`. That there is one
is checked before the index. -/
def setChar (v w r : Value) : Except RuntimeError Value := do
  let s ← v.expectString
  let i ← w.expectInt
  let replacement ← r.expectString
  match replacement.toList with
  | [] => throw .emptyReplacement
  | c :: _ =>
    let _ ← charAt s i
    return string (String.ofList (s.toList.set i.toInt.toNat c))

/-- Two strings one after the other. -/
def concat (v w : Value) : Except RuntimeError Value := do
  let s ← v.expectString
  let t ← w.expectString
  return string (s ++ t)

/-- The number of characters of a string. -/
def strLen (v : Value) : Except RuntimeError Value := do
  let s ← v.expectString
  return int (Int64.ofNat s.length)

/-! ## Exit codes -/

/-- The greatest exit code that a program may choose. -/
def greatestExitCode : Int := 49

/-- The exit code that a value stands for. -/
def exitCode (v : Value) : Except RuntimeError Nat := do
  let n ← v.expectInt
  if 0 ≤ n.toInt ∧ n.toInt ≤ greatestExitCode then return n.toInt.toNat
  else throw (.exitCode n)

end Value

/-! ## Operations with two forms -/

/-- The operation on its operands, from left to right. -/
def Binary.apply : Binary → Value → Value → Except RuntimeError Value
  | arithmetic op => Value.arithmetic op
  | relation op => fun v w => (Value.relation op v w).map .bool
  | logic op => Value.logic op
  | charCode => Value.charCode

/-- The operation on its operand. -/
def Unary.apply : Unary → Value → Except RuntimeError Value
  | not => Value.not
  | intToChar => Value.intToChar
  | intToFloat => Value.intToFloat
  | floatToInt => Value.floatToInt

end Ippcode
