import Ippcode.Code.Program

/-!
# Writing a listing

`Program.listing` writes the header and each instruction on a line of its own, its mnemonic and
its arguments separated by a space. Order numbers are not written. What the reader accepts is
read back from it.
-/

namespace Ippcode

/-- An argument as it is written in a listing. -/
def Argument.text : Argument → String
  | var v => v.text
  | constant value => value.constant
  | label name => name
  | type ty => ty.name

/-- An instruction as it is written on a line. -/
def Instruction.text (i : Instruction) : String :=
  " ".intercalate (i.opcode.mnemonic :: i.args.map Argument.text)

/-- A program as a listing. -/
def Program.listing (p : Program) : String :=
  String.join (".IPPcode23\n" :: p.instructions.map fun i => i.text ++ "\n")

end Ippcode
