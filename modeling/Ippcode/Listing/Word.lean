import Ippcode.Listing.Error

/-!
# Words of a listing

A line is cut at its first number sign, and what is in front of it is cut into words at
blanks. Each word is the header, a variable, a constant or a plain word, which is a mnemonic, a
label or the name of a type. With an at sign in it a word is a variable or a constant, and the
first at sign counts. `Word.ofText` tells them apart, `Word.ofLine` does so for a whole line and
stops at the first word that is wrong.
-/

namespace Ippcode

/-- A word of a listing. -/
inductive Word where
  | header
  | plain (text : String)
  | var (v : VariableName)
  /-- A constant and the text that writes it. -/
  | constant (text : String) (value : Value)
  deriving DecidableEq

namespace Word

/-- The header. It is found in letters of any case. -/
def headerText : String := ".IPPcode23"

/-- The text of a word. -/
def text : Word → String
  | header => headerText
  | plain text => text
  | var v => v.text
  | constant text _ => text

/-- The word that a text on a line is. -/
def ofText (line : Nat) (cs : List Char) : Except ListingError Word :=
  let text := String.ofList cs
  if Text.sameIgnoringCase cs headerText.toList then .ok header
  else
    match splitAtSign? text with
    | none => .ok (plain text)
    | some (before, after) =>
      match FrameKind.ofName? before with
      | some frame =>
        if isIdentifier after then .ok (var ⟨frame, after⟩) else .error (.badVariable line text)
      | none =>
        match Value.ofConstant before after with
        | .ok value => .ok (constant text value)
        | .error cause => .error (.badConstant line cause)

/-- A line up to the comment on it. -/
def withoutComment (cs : List Char) : List Char := cs.takeWhile (· != '#')

/-- The words of a line. -/
def ofLine (line : Nat) (cs : List Char) : Except ListingError (List Word) :=
  (Text.words (withoutComment cs)).mapM (ofText line)

end Word

end Ippcode
