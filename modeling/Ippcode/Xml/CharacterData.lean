import Ippcode.Numeral.Integer
import Ippcode.Xml.Markup

/-!
# Character data

In text and in attribute values a reference between an ampersand and a semicolon stands for a
character, named or given by its code. `pieces?` resolves the references and remembers which
characters came from one, because ends of lines are made uniform only as far as they are
written out :

* in an attribute value white space becomes a space, and a carriage return with the line feed
  after it a single one (`attributeValue`);
* in text a carriage return, with a line feed after it or not, becomes a line feed (`textValue`).

A reference to a code that belongs to no character gives U+FFFD, one to a character that a
document may not hold is refused.
-/

namespace Ippcode.Xml

/-! ## References -/

/-- The characters that have names. -/
def namedCharacters : List (String × Char) :=
  [("quot", '"'), ("amp", '&'), ("apos", '\''), ("lt", '<'), ("gt", '>')]

/-- The character with a code of at most 32 bits. -/
def characterOfCode? (code : Nat) : Option Char :=
  let c := if code.isValidChar then Char.ofNat code else '\uFFFD'
  if code < UInt32.size ∧ isAllowed c then some c else none

/-- The character that a reference stands for, by what is written between its ends. -/
def reference? : List Char → Option Char
  | '#' :: 'x' :: digits => (Numeral.natOfDigits? 16 digits).bind characterOfCode?
  | '#' :: digits => (Numeral.natOfDigits? 10 digits).bind characterOfCode?
  | name => (namedCharacters.find? fun entry => entry.1.toList == name).map Prod.snd

/-- A character, and whether it is written by a reference. -/
structure Piece where
  char : Char
  referenced : Bool
  deriving DecidableEq, Repr

/-- The characters that a text writes, when `open?` has been read of a reference. -/
def piecesFrom? : Option (List Char) → List Char → Option (List Piece)
  | none, [] => some []
  | some _, [] => none
  | none, c :: cs =>
    if c = '&' then piecesFrom? (some []) cs else (piecesFrom? none cs).map (⟨c, false⟩ :: ·)
  | some name, c :: cs =>
    if c = ';' then
      match reference? name.reverse with
      | some d => (piecesFrom? none cs).map (⟨d, true⟩ :: ·)
      | none => none
    else piecesFrom? (some (c :: name)) cs

/-- The characters that a text writes. -/
def pieces? (cs : List Char) : Option (List Piece) := piecesFrom? none cs

/-! ## Ends of lines -/

/-- The value of an attribute. -/
def attributeValue : List Piece → List Char
  | [] => []
  | ⟨'\r', false⟩ :: ⟨'\n', false⟩ :: ps => ' ' :: attributeValue ps
  | ⟨c, referenced⟩ :: ps => (if !referenced && isSpace c then ' ' else c) :: attributeValue ps

/-- The value of text. A character behind a reference stands for itself (`raw`). The flag `held`
says that a carriage return has been read whose place may still be taken by a line feed. -/
def textValueFrom (raw held : Bool) : List Piece → List Char
  | [] => if held then ['\r'] else []
  | ⟨c, referenced⟩ :: ps =>
    let before := if held then (if referenced || raw then ['\r'] else ['\n']) else []
    if referenced || raw then
      if c = '\r' then before ++ textValueFrom referenced true ps
      else before ++ c :: textValueFrom referenced false ps
    else if c = '\r' then
      if ps.isEmpty then before ++ ['\n'] else before ++ textValueFrom false true ps
    else if held && c == '\n' then before ++ textValueFrom false false ps
    else before ++ c :: textValueFrom false false ps

/-- The value of text. -/
def textValue (ps : List Piece) : List Char := textValueFrom false false ps

/-- The value of text in which nothing is markup. -/
def sectionValue (cs : List Char) : List Char := textValue (cs.map fun c => ⟨c, false⟩)

end Ippcode.Xml
