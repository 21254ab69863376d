import Ippcode.Text.Blank

/-!
# Opcodes

The instruction set has 54 opcodes. Fourteen operations and the two conditional jumps come in
two forms : `direct`, with operands in the instruction, and `stack`, with operands popped from
the data stack. So an opcode of these is an operation and a form, and the mnemonic of the stack
form is that of the direct form with an `S` behind it.

* `Opcode.all` lists the opcodes in the order of the language definition (`mem_all`);
* `Opcode.signature` : the kinds of arguments that an opcode takes, position by position;
* `Opcode.ofMnemonic?` finds an opcode by its mnemonic in letters of any case, and no two
  opcodes share one (`ofMnemonic?_mnemonic`).
-/

namespace Ippcode

/-! ## Kinds of operands -/

/-- What an argument position accepts. -/
inductive OperandKind where
  /-- A variable. -/
  | var
  /-- A variable or a constant. -/
  | symb
  /-- A label. -/
  | label
  /-- The name of a type. -/
  | type
  deriving DecidableEq, Repr

namespace OperandKind

/-- All kinds of operands. -/
def all : List OperandKind := [var, symb, label, type]

/-- The name of a kind of operand. -/
def name : OperandKind → String
  | var => "var"
  | symb => "symb"
  | label => "label"
  | type => "type"

end OperandKind

/-! ## Operations with two forms -/

/-- Where an operation finds its operands and leaves its result. -/
inductive Form where
  /-- In the arguments of the instruction. -/
  | direct
  /-- On the data stack. -/
  | stack
  deriving DecidableEq, Repr

/-- The end of a mnemonic that tells the form. -/
def Form.ending : Form → String
  | .direct => ""
  | .stack => "S"

/-- Operations on two numbers. -/
inductive Arithmetic where
  | add
  | sub
  | mul
  /-- Division of integers cuts the fraction off, that of doubles keeps it. -/
  | div
  deriving DecidableEq, Repr

/-- Comparisons. -/
inductive Relation where
  | lt
  | gt
  | eq
  deriving DecidableEq, Repr

/-- Operations on two truth values. -/
inductive Logic where
  | and
  | or
  deriving DecidableEq, Repr

/-- Operations with two operands. -/
inductive Binary where
  | arithmetic (op : Arithmetic)
  | relation (op : Relation)
  | logic (op : Logic)
  /-- The code of a character of a string. -/
  | charCode
  deriving DecidableEq, Repr

/-- Operations with one operand. -/
inductive Unary where
  | not
  /-- The string of the one character with a code. -/
  | intToChar
  | intToFloat
  | floatToInt
  deriving DecidableEq, Repr

/-- The mnemonic of the direct form. -/
def Binary.mnemonic : Binary → String
  | arithmetic .add => "ADD"
  | arithmetic .sub => "SUB"
  | arithmetic .mul => "MUL"
  | arithmetic .div => "IDIV"
  | relation .lt => "LT"
  | relation .gt => "GT"
  | relation .eq => "EQ"
  | logic .and => "AND"
  | logic .or => "OR"
  | charCode => "STRI2INT"

/-- The mnemonic of the direct form. -/
def Unary.mnemonic : Unary → String
  | not => "NOT"
  | intToChar => "INT2CHAR"
  | intToFloat => "INT2FLOAT"
  | floatToInt => "FLOAT2INT"

/-! ## Opcodes -/

/-- What an instruction does. -/
inductive Opcode where
  /-- Copies an operand into a variable. -/
  | move
  /-- Makes a new, empty temporary frame. -/
  | createFrame
  /-- Moves the temporary frame onto the local frames. -/
  | pushFrame
  /-- Moves the top local frame to the place of the temporary frame. -/
  | popFrame
  /-- Declares a variable without a value. -/
  | defVar
  /-- Jumps to a label and remembers the next position. -/
  | call
  /-- Goes back to the position that the matching call remembered. -/
  | ret
  /-- Pushes an operand onto the data stack. -/
  | pushS
  /-- Pops the data stack into a variable. -/
  | popS
  /-- Empties the data stack. -/
  | clearS
  /-- Computes with two operands. -/
  | binary (form : Form) (op : Binary)
  /-- Computes with one operand. -/
  | unary (form : Form) (op : Unary)
  /-- Reads a line of input at a type. -/
  | read
  /-- Prints an operand. -/
  | write
  | concat
  | strLen
  /-- The character of a string at an index. -/
  | getChar
  /-- Replaces the character of a string variable at an index. -/
  | setChar
  /-- The name of an operand's type, empty for a variable without a value. -/
  | type
  /-- A place to jump to. -/
  | label
  | jump
  /-- Jumps if two operands are equal, or if they are not. -/
  | jumpIf (form : Form) (equal : Bool)
  /-- Ends the program with an exit code. -/
  | exit
  /-- Prints an operand on the diagnostic stream. -/
  | dPrint
  /-- Prints the state of the machine on the diagnostic stream. -/
  | breakpoint
  deriving DecidableEq, Repr

namespace Opcode

/-- The operations with two forms, in one of them. -/
def operations (form : Form) : List Opcode :=
  [binary form (.arithmetic .add), binary form (.arithmetic .sub), binary form (.arithmetic .mul),
    binary form (.arithmetic .div), binary form (.relation .lt), binary form (.relation .gt),
    binary form (.relation .eq), binary form (.logic .and), binary form (.logic .or),
    unary form .not, unary form .intToChar, binary form .charCode, unary form .intToFloat,
    unary form .floatToInt]

/-- All opcodes, in the order of the language definition. -/
def all : List Opcode :=
  [move, createFrame, pushFrame, popFrame, defVar, call, ret, pushS, popS, clearS]
    ++ operations .direct ++ operations .stack
    ++ [read, write, concat, strLen, getChar, setChar, type, label, jump, jumpIf .direct true,
      jumpIf .direct false, jumpIf .stack true, jumpIf .stack false, exit, dPrint, breakpoint]

/-- The name of an opcode in a source text. -/
def mnemonic : Opcode → String
  | move => "MOVE"
  | createFrame => "CREATEFRAME"
  | pushFrame => "PUSHFRAME"
  | popFrame => "POPFRAME"
  | defVar => "DEFVAR"
  | call => "CALL"
  | ret => "RETURN"
  | pushS => "PUSHS"
  | popS => "POPS"
  | clearS => "CLEARS"
  | binary form op => op.mnemonic ++ form.ending
  | unary form op => op.mnemonic ++ form.ending
  | read => "READ"
  | write => "WRITE"
  | concat => "CONCAT"
  | strLen => "STRLEN"
  | getChar => "GETCHAR"
  | setChar => "SETCHAR"
  | type => "TYPE"
  | label => "LABEL"
  | jump => "JUMP"
  | jumpIf form true => "JUMPIFEQ" ++ form.ending
  | jumpIf form false => "JUMPIFNEQ" ++ form.ending
  | exit => "EXIT"
  | dPrint => "DPRINT"
  | breakpoint => "BREAK"

/-- The opcode with this mnemonic, in letters of any case. -/
def ofMnemonic? (text : String) : Option Opcode :=
  all.find? fun op => Text.sameIgnoringCase op.mnemonic.toList text.toList

/-- The kinds of arguments that an opcode takes. A variable in the first position is where the
result goes. -/
def signature : Opcode → List OperandKind
  | createFrame | pushFrame | popFrame | ret | clearS | breakpoint => []
  | binary .stack _ | unary .stack _ => []
  | defVar | popS => [.var]
  | pushS | write | exit | dPrint => [.symb]
  | call | label | jump | jumpIf .stack _ => [.label]
  | move | unary .direct _ | strLen | type => [.var, .symb]
  | read => [.var, .type]
  | binary .direct _ | concat | getChar | setChar => [.var, .symb, .symb]
  | jumpIf .direct _ => [.label, .symb, .symb]

theorem mem_all (op : Opcode) : op ∈ all := by
  cases op with
  | binary form op =>
    cases form <;> cases op with
    | charCode => decide
    | _ op => cases op <;> decide
  | unary form op => cases form <;> cases op <;> decide
  | jumpIf form equal => cases form <;> cases equal <;> decide
  | _ => decide

theorem ofMnemonic?_mnemonic (op : Opcode) : ofMnemonic? op.mnemonic = some op := by
  have h : ∀ op ∈ all, ofMnemonic? op.mnemonic = some op := by decide +kernel
  exact h op (mem_all op)

end Opcode

end Ippcode
