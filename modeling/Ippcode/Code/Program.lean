import Ippcode.Code.Opcode
import Ippcode.Constant
import Ippcode.Text.Split

/-!
# Programs

A program is a list of instructions. An instruction has an order number, by which messages
and statistics refer to it, an opcode and arguments, which may or may not fit the signature of
the opcode. `Instruction.misfit?` finds the first thing that does not fit : a wrong number of
arguments before any argument of a wrong kind. `Program.misfit?` finds the first instruction that
has one.

Programs are compared by `Program.same`, as values are : a program with a NaN in it is not
the same as itself.
-/

namespace Ippcode

/-! ## Variables -/

/-- The frame that a name is looked up in. -/
inductive FrameKind where
  /-- The global frame. -/
  | gf
  /-- The top local frame. -/
  | lf
  /-- The temporary frame. -/
  | tf
  deriving DecidableEq, Repr

namespace FrameKind

/-- All kinds of frames. -/
def all : List FrameKind := [gf, lf, tf]

/-- The name of a kind of frame in a source text. -/
def name : FrameKind → String
  | gf => "GF"
  | lf => "LF"
  | tf => "TF"

/-- The kind of frame with this name, in capital letters. -/
def ofName? (text : String) : Option FrameKind := all.find? fun frame => frame.name == text

theorem ofName?_name (frame : FrameKind) : ofName? frame.name = some frame := by
  cases frame <;> decide

end FrameKind

/-- A name together with the frame that it is looked up in. -/
structure VariableName where
  frame : FrameKind
  name : String
  deriving DecidableEq, Repr

/-- A variable as it is written in a source text. -/
def VariableName.text (v : VariableName) : String := v.frame.name ++ "@" ++ v.name

/-- What stands before and after the first at sign of a text. -/
def splitAtSign? (text : String) : Option (String × String) :=
  (Text.splitFirst? (· == '@') text.toList).map fun (before, _, after) =>
    (String.ofList before, String.ofList after)

/-! ## Identifiers -/

/-- The characters besides letters and digits that names of variables and labels may have. -/
def identifierMarks : List Char := ['_', '-', '$', '&', '%', '*', '!', '?']

/-- Whether a name may begin with this character. -/
def isIdentifierStart (c : Char) : Bool := c.isAlpha || identifierMarks.contains c

/-- Whether a name may go on with this character. -/
def isIdentifierPart (c : Char) : Bool := c.isAlphanum || identifierMarks.contains c

/-- Whether a text is a name of a variable or a label. -/
def isIdentifier (text : String) : Bool :=
  match text.toList with
  | [] => false
  | c :: cs => isIdentifierStart c && cs.all isIdentifierPart

/-! ## Arguments -/

/-- An argument of an instruction. -/
inductive Argument where
  | var (v : VariableName)
  | constant (value : Value)
  | label (name : String)
  | type (ty : Ty)
  deriving DecidableEq

/-- What an argument is : a constant is told by its type. -/
inductive ArgumentKind where
  | var
  | constant (ty : Ty)
  | label
  | type
  deriving DecidableEq, Repr

/-- The name of what an argument is. -/
def ArgumentKind.name : ArgumentKind → String
  | var => "var"
  | constant ty => ty.name
  | label => "label"
  | type => "type"

namespace Argument

/-- What an argument is. -/
def kind : Argument → ArgumentKind
  | var _ => .var
  | constant value => .constant value.ty
  | label _ => .label
  | type _ => .type

/-- Whether an argument may stand in a position of this kind. -/
def fits : Argument → OperandKind → Bool
  | var _, .var | var _, .symb => true
  | constant _, .symb => true
  | label _, .label => true
  | type _, .type => true
  | _, _ => false

/-- Whether two arguments are the same, constants as values are. -/
def same : Argument → Argument → Bool
  | constant v, constant w => v.same w
  | a, b => a == b

end Argument

/-! ## Instructions -/

/-- A numbered operation with its arguments. -/
structure Instruction where
  order : Nat
  opcode : Opcode
  args : List Argument
  deriving DecidableEq

/-- How the arguments of an instruction fail to fit its opcode. Positions count from zero. -/
inductive Misfit where
  | arity (opcode : Opcode) (expected found : Nat)
  | operand (opcode : Opcode) (position : Nat) (expected : OperandKind) (found : ArgumentKind)
  deriving DecidableEq, Repr

/-- The text of the error. -/
def Misfit.message : Misfit → String
  | arity opcode expected found =>
    let mnemonic := opcode.mnemonic
    s!"{mnemonic} expects {expected} argument(s), got {found}"
  | operand opcode position expected found =>
    let mnemonic := opcode.mnemonic
    let expected := expected.name
    let found := found.name
    s!"{mnemonic} argument {position} must be {expected}, got {found}"

namespace Instruction

/-- The first argument that does not fit its position, counting from `position`. -/
def misplaced? (opcode : Opcode) : Nat → List OperandKind → List Argument → Option Misfit
  | position, kind :: kinds, arg :: args =>
    if arg.fits kind then misplaced? opcode (position + 1) kinds args
    else some (.operand opcode position kind arg.kind)
  | _, _, _ => none

/-- How an instruction fails to fit its opcode, if it does. -/
def misfit? (i : Instruction) : Option Misfit :=
  let signature := i.opcode.signature
  if signature.length = i.args.length then misplaced? i.opcode 0 signature i.args
  else some (.arity i.opcode signature.length i.args.length)

/-- Whether two instructions are the same, constants as values are. -/
def same (i j : Instruction) : Bool :=
  i.order == j.order && i.opcode == j.opcode && i.args.length == j.args.length
    && (i.args.zip j.args).all fun pair => pair.1.same pair.2

end Instruction

/-! ## Programs -/

/-- A list of instructions. Execution follows the list, not the order numbers. -/
structure Program where
  instructions : List Instruction
  deriving DecidableEq

namespace Program

/-- Instructions numbered from `first` on. -/
def numberedFrom (first : Nat) : List (Opcode × List Argument) → List Instruction
  | [] => []
  | (opcode, args) :: rest => ⟨first, opcode, args⟩ :: numberedFrom (first + 1) rest

/-- The program of these operations, numbered 1, 2, 3 and so on. -/
def numbered (operations : List (Opcode × List Argument)) : Program :=
  ⟨numberedFrom 1 operations⟩

/-- The order of the first instruction that does not fit its opcode, with the misfit. -/
def misfit? (p : Program) : Option (Nat × Misfit) :=
  p.instructions.findSome? fun i => i.misfit?.map fun m => (i.order, m)

/-- Whether two programs are the same, constants as values are. -/
def same (p q : Program) : Bool :=
  p.instructions.length == q.instructions.length
    && (p.instructions.zip q.instructions).all fun pair => pair.1.same pair.2

end Program

end Ippcode
