import Ippcode.Listing.Word
import Ippcode.Text.Line

/-!
# Reading a listing

A listing is a header and instructions, one on a line. Lines without words count, but say
nothing. The signature of the opcode tells how each further word on a line is read.

`Program.ofListing` reads a text and stops at the first line with something wrong on it. Its
instructions are numbered 1, 2, 3 and so on.
-/

namespace Ippcode.Listing

/-! ## A line -/

/-- The argument that a word is in a position of this kind. -/
def argument? : OperandKind → Word → Option Argument
  | .var, .var v | .symb, .var v => some (.var v)
  | .symb, .constant _ value => some (.constant value)
  | .label, .plain text => if isIdentifier text then some (.label text) else none
  | .type, .plain text => ((Ty.ofName? text).filter Ty.isReadable).map .type
  | _, _ => none

/-- The arguments that words are in positions of these kinds, counting from `position`. -/
def arguments (line : Nat) (opcode : Opcode) :
    Nat → List OperandKind → List Word → Except ListingError (List Argument)
  | position, kind :: kinds, word :: words =>
    match argument? kind word with
    | none => .error (.operand line opcode position kind word.text)
    | some arg =>
      match arguments line opcode (position + 1) kinds words with
      | .ok args => .ok (arg :: args)
      | .error e => .error e
  | _, _, _ => .ok []

/-- The opcode and the arguments that the words of a line write. -/
def operation (line : Nat) : List Word → Except ListingError (Opcode × List Argument)
  | [] => .error (.unknownOpcode line "")
  | .header :: _ => .error (.duplicateHeader line)
  | .plain mnemonic :: words =>
    match Opcode.ofMnemonic? mnemonic with
    | none => .error (.unknownOpcode line mnemonic)
    | some opcode =>
      let kinds := opcode.signature
      if words.length = kinds.length then
        match arguments line opcode 0 kinds words with
        | .ok args => .ok (opcode, args)
        | .error e => .error e
      else .error (.arity line opcode kinds.length words.length)
  | word :: _ => .error (.unknownOpcode line word.text)

/-! ## All lines -/

/-- The operations on the lines below the header, the first of which has number `line`. -/
def operations : Nat → List (List Char) → Except ListingError (List (Opcode × List Argument))
  | _, [] => .ok []
  | line, l :: ls =>
    match Word.ofLine line l with
    | .error e => .error e
    | .ok [] => operations (line + 1) ls
    | .ok words =>
      match operation line words with
      | .error e => .error e
      | .ok op =>
        match operations (line + 1) ls with
        | .error e => .error e
        | .ok ops => .ok (op :: ops)

/-- The operations of a listing, whose first line has number `line`. -/
def fromHeader : Nat → List (List Char) → Except ListingError (List (Opcode × List Argument))
  | _, [] => .error .missingHeader
  | line, l :: ls =>
    match Word.ofLine line l with
    | .error e => .error e
    | .ok [] => fromHeader (line + 1) ls
    | .ok [.header] => operations (line + 1) ls
    | .ok _ => .error .missingHeader

end Ippcode.Listing

namespace Ippcode

/-- The program that a listing writes. -/
def Program.ofListing (text : String) : Except ListingError Program :=
  (Listing.fromHeader 1 (Text.lines text.toList)).map Program.numbered

end Ippcode
