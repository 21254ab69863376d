import Ippcode.Code.Program

/-!
# Faults

What can go wrong while a program runs, or in the moment before it starts. A `RuntimeError` is
the cause; a `Fault` adds the instruction that raised it. Every cause belongs to a class of
errors with an exit code of its own (`RuntimeError.code`), which becomes the exit code of the
process.
-/

namespace Ippcode

/-! ## Causes -/

/-- Why a stream refuses what is sent to it. -/
inductive StreamError where
  /-- The stream accepts no more bytes. -/
  | closed
  | flushFailed
  /-- Anything else that the system says. -/
  | system (message : String)
  deriving DecidableEq, Repr

/-- The text of the error. -/
def StreamError.message : StreamError → String
  | closed => "stream closed"
  | flushFailed => "flush failed"
  | system message => message

/-- What an operation accepts as an operand. -/
inductive Expectation where
  | one (ty : Ty)
  /-- An integer or a double. -/
  | number
  deriving DecidableEq, Repr

/-- The name of what is accepted. -/
def Expectation.name : Expectation → String
  | one ty => ty.name
  | number => "int or float"

/-- Why a program cannot start or go on. -/
inductive RuntimeError where
  /-- An instruction does not fit its opcode. -/
  | malformed (misfit : Misfit)
  | duplicateLabel (name : String)
  | undefinedLabel (name : String)
  | undefinedVariable (v : VariableName)
  | redefinition (v : VariableName)
  | typeMismatch (expected : Expectation) (found : Ty)
  | incomparable (left right : Ty)
  /-- A variable is declared and has no value yet. -/
  | uninitialized (v : VariableName)
  | noTemporaryFrame
  | noLocalFrame
  | returnWithoutCall
  | emptyDataStack
  | divisionByZero
  | exitCode (n : Int64)
  /-- A double has no integer part in the range of integers. -/
  | notAnInteger (x : Float)
  | index (i : Int64) (length : Nat)
  | codePoint (n : Int64)
  /-- There is no character to put into a string. -/
  | emptyReplacement
  | output (cause : StreamError)
  deriving DecidableEq

namespace RuntimeError

/-- An integer in a message. -/
def integerText (n : Int64) : String := String.ofList (Numeral.ofInt n.toInt)

/-- The text of the error. -/
def message : RuntimeError → String
  | malformed misfit =>
    let misfit := misfit.message
    s!"malformed instruction: {misfit}"
  | duplicateLabel name => s!"label '{name}' is defined more than once"
  | undefinedLabel name => s!"undefined label '{name}'"
  | undefinedVariable v => "undefined variable " ++ v.text
  | redefinition v =>
    let name := v.text
    s!"variable {name} is already defined"
  | typeMismatch expected found =>
    let expected := expected.name
    let found := found.name
    s!"operand of type {found}, expected {expected}"
  | incomparable left right =>
    let left := left.name
    let right := right.name
    s!"cannot compare {left} with {right}"
  | uninitialized v =>
    let name := v.text
    s!"variable {name} is uninitialized"
  | noTemporaryFrame => "temporary frame is not defined"
  | noLocalFrame => "local frame stack is empty"
  | returnWithoutCall => "RETURN without a matching CALL"
  | emptyDataStack => "data stack is empty"
  | divisionByZero => "division by zero"
  | exitCode n =>
    let n := integerText n
    s!"exit code {n} is outside 0..=49"
  | notAnInteger x =>
    let x := Numeral.floatText .message x
    s!"float {x} cannot be converted to int"
  | index i length =>
    let i := integerText i
    s!"index {i} out of range for string of length {length}"
  | codePoint n =>
    let n := integerText n
    s!"{n} is not a valid Unicode code point"
  | emptyReplacement => "SETCHAR replacement string is empty"
  | output cause => "output error: " ++ cause.message

/-- The exit code of the class that an error belongs to. -/
def code : RuntimeError → Nat
  | malformed _ => 32
  | duplicateLabel _ | undefinedLabel _ | undefinedVariable _ | redefinition _ => 52
  | typeMismatch .. | incomparable .. | uninitialized _ => 53
  | noTemporaryFrame | noLocalFrame => 55
  | returnWithoutCall | emptyDataStack => 56
  | divisionByZero | exitCode _ | notAnInteger _ => 57
  | index .. | codePoint _ | emptyReplacement => 58
  | output _ => 99

end RuntimeError

/-! ## Faults -/

/-- An error together with the instruction that raised it. -/
structure Fault where
  order : Nat
  opcode : Opcode
  error : RuntimeError
  deriving DecidableEq

namespace Fault

/-- An error of this instruction. -/
def of (i : Instruction) (error : RuntimeError) : Fault := ⟨i.order, i.opcode, error⟩

/-- The text of the fault. -/
def message (f : Fault) : String :=
  let mnemonic := f.opcode.mnemonic
  let order := f.order
  let error := f.error.message
  s!"{mnemonic} at order {order}: {error}"

/-- The exit code of the fault. -/
def code (f : Fault) : Nat := f.error.code

end Fault

end Ippcode
