import Ippcode.Code.Program

/-!
# What can be wrong with a document

A document that is not well-formed has one cause and the exit code 31. Everything else that is
wrong has the exit code 32, and what is wrong with an instruction holds its order.
-/

namespace Ippcode

/-- The elements that a document is made of. -/
inductive DocumentPart where
  | program
  | instruction
  | argument
  deriving DecidableEq, Repr

/-- The name of an element in messages about its attributes. -/
def DocumentPart.name : DocumentPart → String
  | program => "program"
  | instruction => "instruction"
  | argument => "argN"

/-- The tags that an element may have, in messages about its name. -/
def DocumentPart.tags : DocumentPart → String
  | program => "<program>"
  | instruction => "<instruction>"
  | argument => "<arg1>, <arg2> or <arg3>"

/-- Why a text is not a document. -/
inductive DocumentError where
  /-- The text is not well-formed. The parser may have said more about it. -/
  | malformed {said : Option String}
  | unexpectedElement (found : String) (expected : DocumentPart)
  /-- A required attribute is missing, or there is a further one. -/
  | badAttributes (element : DocumentPart)
  | badLanguage (text : String)
  /-- An order that is not a positive integer. -/
  | badOrder (text : String)
  | orderNotIncreasing (order previous : Nat)
  | unknownOpcode (order : Nat) (text : String)
  /-- Arguments are repeated, or one is left out. -/
  | argumentLayout (order : Nat)
  | badArgument (order : Nat) (kind text : String)
  | badConstant (order : Nat) (cause : ConstantError)
  | misfit (order : Nat) (cause : Misfit)
  deriving DecidableEq, Repr

namespace DocumentError

/-- The text of the error. -/
def message : DocumentError → String
  | @malformed said => "malformed XML" ++ said.elim "" (": " ++ ·)
  | unexpectedElement found expected =>
    let tags := expected.tags
    s!"unexpected element <{found}>, expected {tags}"
  | badAttributes element =>
    let name := element.name
    s!"invalid attributes on <{name}>"
  | badLanguage text => s!"unsupported language '{text}'"
  | badOrder text => s!"invalid instruction order '{text}'"
  | orderNotIncreasing order previous =>
    s!"instruction order {order} does not follow {previous}"
  | unknownOpcode order text => s!"instruction {order}: unknown opcode '{text}'"
  | argumentLayout order =>
    s!"instruction {order}: arguments must be arg1, arg2, arg3 without gaps"
  | badArgument order kind text => s!"instruction {order}: invalid {kind} argument '{text}'"
  | badConstant order cause =>
    let cause := cause.message
    s!"instruction {order}: {cause}"
  | misfit order cause =>
    let cause := cause.message
    s!"instruction {order}: {cause}"

/-- The exit code. -/
def code : DocumentError → Nat
  | malformed => 31
  | _ => 32

end DocumentError

end Ippcode
