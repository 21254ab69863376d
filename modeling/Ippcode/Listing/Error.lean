import Ippcode.Code.Program

/-!
# What can be wrong with a listing

Each cause but a missing header holds the number of its line, counting from one, and
`ListingError.code` is the exit code that it ends the process with.
-/

namespace Ippcode

/-- Why a text is not a listing. -/
inductive ListingError where
  /-- The first line with a word on it is not the header alone. -/
  | missingHeader
  | duplicateHeader (line : Nat)
  | unknownOpcode (line : Nat) (text : String)
  | arity (line : Nat) (opcode : Opcode) (expected found : Nat)
  /-- A frame and an at sign before what is no identifier. -/
  | badVariable (line : Nat) (text : String)
  | badConstant (line : Nat) (cause : ConstantError)
  /-- A word that does not fit its position. Positions count from zero. -/
  | operand (line : Nat) (opcode : Opcode) (position : Nat) (expected : OperandKind) (text : String)
  deriving DecidableEq, Repr

namespace ListingError

/-- The text of the error. -/
def message : ListingError → String
  | missingHeader => "missing .IPPcode23 header"
  | duplicateHeader line => s!"line {line}: duplicate .IPPcode23 header"
  | unknownOpcode line text => s!"line {line}: unknown opcode '{text}'"
  | arity line opcode expected found =>
    let mnemonic := opcode.mnemonic
    s!"line {line}: {mnemonic} expects {expected} argument(s), got {found}"
  | badVariable line text => s!"line {line}: invalid variable '{text}'"
  | badConstant line cause =>
    let cause := cause.message
    s!"line {line}: {cause}"
  | operand line opcode position expected text =>
    let mnemonic := opcode.mnemonic
    let expected := expected.name
    s!"line {line}: {mnemonic} argument {position} must be {expected}, got '{text}'"

/-- The exit code : 21 for the header, 22 for an opcode, 23 for anything else. -/
def code : ListingError → Nat
  | missingHeader => 21
  | duplicateHeader .. | unknownOpcode .. => 22
  | arity .. | badVariable .. | badConstant .. | operand .. => 23

end ListingError

end Ippcode
