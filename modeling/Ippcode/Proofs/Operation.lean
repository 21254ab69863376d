import Ippcode.Operation
import Ippcode.Proofs.Result

/-!
# Errors of operations

An operation knows the values of its operands and nothing else, and so do its errors
(`RuntimeError.IsOperand`) : they name no variable and no label, and say nothing about frames,
stacks and streams. `FailsByOperands` is about results in general and is closed under bind. That
every operation fails in this way is `Binary.apply_failsByOperands`,
`Unary.apply_failsByOperands` and what these are made of.
-/

namespace Ippcode

/-- An error about the values of operands. -/
def RuntimeError.IsOperand : RuntimeError → Prop
  | typeMismatch .. | incomparable .. | divisionByZero | exitCode _ | notAnInteger _ | index ..
  | codePoint _ | emptyReplacement => True
  | _ => False

/-- A result that is no error but about the values of operands. -/
def FailsByOperands (r : Except RuntimeError α) : Prop := ∀ e, r = .error e → e.IsOperand

namespace FailsByOperands

variable {r : Except RuntimeError α} {f : α → Except RuntimeError β}

@[simp] theorem ok (x : α) : FailsByOperands (.ok x) := nofun

/-- An error about operands is one of the errors that are meant. -/
theorem error {e : RuntimeError} (h : e.IsOperand) :
    FailsByOperands (.error e : Except RuntimeError α) :=
  fun _ he => by
    obtain rfl := Except.error.inj he
    exact h

/-- Of one step after another the error is that of the first step that fails. -/
theorem bind (hr : FailsByOperands r) (hf : ∀ x, FailsByOperands (f x)) :
    FailsByOperands (r >>= f) := by
  cases r with
  | ok x => exact hf x
  | error e => exact error (hr e rfl)

theorem map (hr : FailsByOperands r) (f : α → β) : FailsByOperands (r.map f) := by
  cases r with
  | ok x => exact ok (f x)
  | error e => exact error (hr e rfl)

end FailsByOperands

/-! ## Arithmetic -/

namespace Arithmetic

/-- Whole numbers can always be computed with, but for a division by zero. -/
theorem onInts_failsByOperands (op : Arithmetic) (a b : Int64) :
    FailsByOperands (op.onInts a b) := by
  cases op with
  | div =>
    show FailsByOperands (if b = 0 then _ else _)
    split
    · exact .error trivial
    · exact .ok _
  | _ => exact .ok _

/-- Doubles can be computed with : neither infinities nor NaNs are errors. -/
theorem onFloats_failsByOperands (op : Arithmetic) (x y : Float) :
    FailsByOperands (op.onFloats x y) := by
  cases op with
  | div =>
    show FailsByOperands (if Binary64.isZero y then _ else _)
    split
    · exact .error trivial
    · exact .ok _
  | _ => exact .ok _

end Arithmetic

namespace Value

variable (v w r : Value)

/-- An operand of another type is blamed with its type, and not with where it comes from. -/
theorem expectInt_failsByOperands : FailsByOperands v.expectInt := by
  cases v with
  | int n => exact .ok n
  | _ => exact .error trivial

theorem expectFloat_failsByOperands : FailsByOperands v.expectFloat := by
  cases v with
  | float x => exact .ok x
  | _ => exact .error trivial

theorem expectBool_failsByOperands : FailsByOperands v.expectBool := by
  cases v with
  | bool b => exact .ok b
  | _ => exact .error trivial

theorem expectString_failsByOperands : FailsByOperands v.expectString := by
  cases v with
  | string s => exact .ok s
  | _ => exact .error trivial

/-- The first operand that is no number is blamed, or the divisor. -/
theorem arithmetic_failsByOperands (op : Arithmetic) : FailsByOperands (arithmetic op v w) := by
  unfold arithmetic
  split
  · exact (op.onInts_failsByOperands _ _).map _
  · split
    · exact (op.onFloats_failsByOperands _ _).map _
    · exact .error trivial
    · exact .error trivial

/-- Values of two types are incomparable unless both are numbers. -/
theorem order_failsByOperands : FailsByOperands (v.order w) := by
  unfold order
  split
  · exact .ok _
  · exact .ok _
  · exact .ok _
  · split
    · exact .ok _
    · exact .error trivial

/-- Nothing is incomparable with `nil` if the question is whether both are equal. -/
theorem relation_failsByOperands (op : Relation) : FailsByOperands (relation op v w) := by
  unfold relation
  split
  · exact .ok _
  · exact (v.order_failsByOperands w).map _

/-- Jumps compare values of one type only, apart from `nil`. -/
theorem jumpEqual_failsByOperands : FailsByOperands (v.jumpEqual w) := by
  unfold jumpEqual
  split
  · exact .ok _
  · exact .error trivial

theorem logic_failsByOperands (op : Logic) : FailsByOperands (logic op v w) := by
  refine v.expectBool_failsByOperands.bind fun a => w.expectBool_failsByOperands.bind fun b => ?_
  cases op <;> exact .ok _

/-- An index that is not in the string is blamed together with the length of the string. -/
theorem charAt_failsByOperands (s : String) (i : Int64) : FailsByOperands (charAt s i) := by
  unfold charAt
  split
  · exact .ok _
  · exact .error trivial

theorem getChar_failsByOperands : FailsByOperands (v.getChar w) :=
  v.expectString_failsByOperands.bind fun s => w.expectInt_failsByOperands.bind fun i =>
    (charAt_failsByOperands s i).bind fun _ => .ok _

/-- All three operands are looked at before the string is changed. -/
theorem setChar_failsByOperands : FailsByOperands (v.setChar w r) := by
  refine v.expectString_failsByOperands.bind fun s => w.expectInt_failsByOperands.bind fun i =>
    r.expectString_failsByOperands.bind fun t => ?_
  split
  · exact .error trivial
  · exact (charAt_failsByOperands s i).bind fun _ => .ok _

theorem concat_failsByOperands : FailsByOperands (v.concat w) :=
  v.expectString_failsByOperands.bind fun _ => w.expectString_failsByOperands.bind fun _ => .ok _

theorem strLen_failsByOperands : FailsByOperands v.strLen :=
  v.expectString_failsByOperands.bind fun _ => .ok _

/-- A code that is out of range is an error about the operand as well. -/
theorem exitCode_failsByOperands : FailsByOperands v.exitCode := by
  refine v.expectInt_failsByOperands.bind fun n => ?_
  split
  · exact .ok _
  · exact .error trivial

end Value

/-- Whatever an operation with two operands computes, it fails by these only. -/
theorem Binary.apply_failsByOperands (op : Binary) (v w : Value) :
    FailsByOperands (op.apply v w) := by
  cases op with
  | arithmetic op => exact v.arithmetic_failsByOperands w op
  | relation op => exact (v.relation_failsByOperands w op).map _
  | logic op => exact v.logic_failsByOperands w op
  | charCode =>
    exact v.expectString_failsByOperands.bind fun s => w.expectInt_failsByOperands.bind fun i =>
      (Value.charAt_failsByOperands s i).bind fun _ => .ok _

/-- An operation with one operand fails by this operand only. -/
theorem Unary.apply_failsByOperands (op : Unary) (v : Value) : FailsByOperands (op.apply v) := by
  cases op with
  | not => exact v.expectBool_failsByOperands.bind fun _ => .ok _
  | intToChar =>
    refine v.expectInt_failsByOperands.bind fun n => ?_
    split
    · exact .ok _
    · exact .error trivial
  | intToFloat => exact v.expectInt_failsByOperands.bind fun _ => .ok _
  | floatToInt =>
    refine v.expectFloat_failsByOperands.bind fun x => ?_
    dsimp only
    split
    · exact .error trivial
    · exact .ok _

end Ippcode
