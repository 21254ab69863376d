import Ippcode.Document.Error
import Ippcode.Xml.Tree

/-!
# Reading a document

A document is a `program` element with one `instruction` element for each instruction, and in
these one `arg1`, `arg2` or `arg3` element for each argument, in any order. Orders are given by
an attribute and increase through the document.

`Program.ofElement` reads the tree of a well-formed document, `Program.ofDocument` its text, which
some parser turns into a tree. The first thing that is wrong is reported, in the order of the
document; only then the arguments are compared with the signatures.
-/

namespace Ippcode.Document

open Xml (Element)

/-! ## Elements and attributes -/

/-- Whether the attributes of an element are the required ones and perhaps some of the optional
ones. -/
def hasAttributes (e : Element) (required optional : List String) : Bool :=
  (e.attributes.all fun a => required.contains a.name || optional.contains a.name)
    && required.all fun name => (e.attribute? name).isSome

/-- The value of a required attribute. -/
def valueOf (e : Element) (name : String) : String := (e.attribute? name).getD ""

/-- A text without the blanks at its two ends. -/
def trimmed (text : String) : String := String.ofList (Text.trim text.toList)

/-! ## Arguments -/

/-- The argument of this kind that a text writes. Around strings blanks count. -/
def argument (order : Nat) (kind text : String) : Except DocumentError Argument :=
  let bad : Except DocumentError Argument := .error (.badArgument order kind text)
  let constant (value : Except ConstantError Value) : Except DocumentError Argument :=
    match value with
    | .ok value => .ok (.constant value)
    | .error cause => .error (.badConstant order cause)
  if kind = "string" then constant (Value.ofPayload .string text)
  else if kind = "var" then
    match splitAtSign? (trimmed text) with
    | none => bad
    | some (before, name) =>
      match FrameKind.ofName? before with
      | none => bad
      | some frame => if isIdentifier name then .ok (.var ⟨frame, name⟩) else bad
  else if kind = "label" then
    if isIdentifier (trimmed text) then .ok (.label (trimmed text)) else bad
  else if kind = "type" then
    match (Ty.ofName? (trimmed text)).filter Ty.isReadable with
    | some ty => .ok (.type ty)
    | none => bad
  else constant (Value.ofConstant kind (trimmed text))

/-- The position that the name of an argument element stands for, counting from zero. -/
def position? (name : String) : Option Nat := ["arg1", "arg2", "arg3"].idxOf? name

/-- The arguments that elements write, with their positions, after those already read. -/
def arguments (order : Nat) (read : List (Nat × Argument)) :
    List Element → Except DocumentError (List (Nat × Argument))
  | [] => .ok read
  | e :: es =>
    match position? e.name with
    | none => .error (.unexpectedElement e.name .argument)
    | some position =>
      if (read.lookup position).isSome then .error (.argumentLayout order)
      else if !hasAttributes e ["type"] [] then .error (.badAttributes .argument)
      else
        match argument order (valueOf e "type") e.text with
        | .error error => .error error
        | .ok arg => arguments order (read ++ [(position, arg)]) es

/-- The arguments in the order of their positions, if these have no gap. -/
def inOrder? (read : List (Nat × Argument)) : Option (List Argument) :=
  (List.range read.length).mapM fun position => read.lookup position

/-! ## Instructions -/

/-- The order that a text writes : decimal digits, perhaps after a plus sign. -/
def order? (text : String) : Option Nat :=
  let digits := match (trimmed text).toList with
    | '+' :: cs => cs
    | cs => cs
  (Numeral.natOfDigits? 10 digits).filter fun n => 0 < n ∧ n < UInt64.size

/-- The instruction that an element writes, after an instruction with order `previous`. -/
def instruction (previous : Nat) (e : Element) : Except DocumentError Instruction :=
  if e.name ≠ "instruction" then .error (.unexpectedElement e.name .instruction)
  else if !hasAttributes e ["order", "opcode"] [] then .error (.badAttributes .instruction)
  else
    match order? (valueOf e "order") with
    | none => .error (.badOrder (valueOf e "order"))
    | some order =>
      if order ≤ previous then .error (.orderNotIncreasing order previous)
      else
        match Opcode.ofMnemonic? (trimmed (valueOf e "opcode")) with
        | none => .error (.unknownOpcode order (valueOf e "opcode"))
        | some opcode =>
          match arguments order [] e.elements with
          | .error error => .error error
          | .ok read =>
            match inOrder? read with
            | none => .error (.argumentLayout order)
            | some args => .ok ⟨order, opcode, args⟩

/-- The instructions that elements write, after an instruction with order `previous`. -/
def instructions (previous : Nat) : List Element → Except DocumentError (List Instruction)
  | [] => .ok []
  | e :: es =>
    match instruction previous e with
    | .error error => .error error
    | .ok i =>
      match instructions i.order es with
      | .error error => .error error
      | .ok is => .ok (i :: is)

/-! ## Programs -/

/-- The language that documents name, in letters of any case. -/
def language : String := "IPPcode23"

end Ippcode.Document

namespace Ippcode

/-- The program that an element writes. -/
def Program.ofElement (root : Xml.Element) : Except DocumentError Program :=
  if root.name ≠ "program" then .error (.unexpectedElement root.name .program)
  else if !Document.hasAttributes root ["language"] ["name", "description"] then
    .error (.badAttributes .program)
  else
    let language := Document.valueOf root "language"
    if !Text.sameIgnoringCase language.toList Document.language.toList then
      .error (.badLanguage language)
    else
      match Document.instructions 0 root.elements with
      | .error error => .error error
      | .ok instructions =>
        match Program.misfit? ⟨instructions⟩ with
        | some (order, misfit) => .error (.misfit order misfit)
        | none => .ok ⟨instructions⟩

/-- The program that a document writes. -/
def Program.ofDocument [Xml.Parser] (text : String) : Except DocumentError Program :=
  match Xml.Parser.parse text with
  | .error said => .error (@DocumentError.malformed said)
  | .ok root => Program.ofElement root

end Ippcode
