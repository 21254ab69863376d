import Ippcode.Document.Reader
import Ippcode.Listing.Reader
import Ippcode.Xml.Character

/-!
# Source texts

A program is written as a listing or as a document. `SourceForm.ofText` looks for the form at the
first character that is neither a byte order mark at the beginning nor a blank : a document has
a tag there. `Program.ofSource` then reads the whole text in that form.
-/

namespace Ippcode

/-- How a program is written. -/
inductive SourceForm where
  | listing
  | document
  deriving DecidableEq, Repr

/-- The form that a text seems to have. -/
def SourceForm.ofText (text : String) : SourceForm :=
  match Text.trimStart (text.toList.dropWhile (· == Xml.byteOrderMark)) with
  | '<' :: _ => .document
  | _ => .listing

/-- Why a text is not a program. -/
inductive SourceError where
  | listing (cause : ListingError)
  | document (cause : DocumentError)
  deriving DecidableEq, Repr

/-- The text of the error. -/
def SourceError.message : SourceError → String
  | listing cause => cause.message
  | document cause => cause.message

/-- The exit code of the error. -/
def SourceError.code : SourceError → Nat
  | listing cause => cause.code
  | document cause => cause.code

section

variable [Xml.Parser]

/-- The program that a text writes in a given form. -/
def Program.ofForm (form : SourceForm) (text : String) : Except SourceError Program :=
  match form with
  | .listing => (Program.ofListing text).mapError .listing
  | .document => (Program.ofDocument text).mapError .document

/-- The program that a text writes in the form that it seems to have. -/
def Program.ofSource (text : String) : Except SourceError Program :=
  Program.ofForm (SourceForm.ofText text) text

end

end Ippcode
