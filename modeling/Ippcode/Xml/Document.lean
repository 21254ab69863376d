import Ippcode.Xml.CharacterData
import Ippcode.Xml.Tree

/-!
# Parsing documents

`Element.ofText?` reads a document into the tree of its root element, if it is well-formed. Tags
match, there is one root with nothing but white space, comments and processing instructions
around it, no attribute is given twice, and every prefix of a name is declared. There are no
document types.

This is the parser that the program works with. It says nothing about a text that it refuses.
-/

namespace Ippcode.Xml

/-! ## Namespaces -/

/-- The namespaces that prefixes stand for, innermost first. The empty prefix is that of names
without one. -/
abbrev Bindings := List (String × String)

/-- How the name of the namespace ends that is kept for the prefix `xml`. -/
def xmlSpace : String := "/XML/1998/namespace"

/-- How the name of the namespace ends that is kept for the prefix `xmlns`. -/
def xmlnsSpace : String := "/2000/xmlns/"

/-- The namespace declarations of a tag and its other attributes. -/
structure Declared where
  bindings : Bindings
  attributes : List (QName × String)

/-- Adds an attribute of a tag. The two reserved prefixes keep their namespaces, which are told by
the ends of their names, and no prefix is declared twice. -/
def Declared.add? (d : Declared) (name : QName) (value : String) : Option Declared :=
  let isXml := value.endsWith xmlSpace
  let isXmlns := value.endsWith xmlnsSpace
  if name.qualifier = "xmlns" then
    if isXmlns || (name.localName == "xml") != isXml
        || d.bindings.any fun b => b.1 == name.localName then none
    else if isXml then some d
    else some { d with bindings := d.bindings ++ [(name.localName, value)] }
  else if name.localName = "xmlns" then
    if isXml || isXmlns then none
    else some { d with bindings := d.bindings ++ [("", value)] }
  else some { d with attributes := d.attributes ++ [(name, value)] }

/-- The declarations and the other attributes that a tag writes. -/
def Declared.addAll? (d : Declared) : List RawAttribute → Option Declared
  | [] => some d
  | a :: as =>
    match pieces? a.value with
    | none => none
    | some ps =>
      match d.add? a.name (String.ofList (attributeValue ps)) with
      | none => none
      | some d => d.addAll? as

/-- The namespace of an attribute. A name without prefix has none. -/
def attributeSpace? (bindings : Bindings) (qualifier : String) : Option (Option String) :=
  if qualifier = "xml" then some (some xmlSpace)
  else if qualifier = "" then some none
  else (bindings.lookup qualifier).map some

/-- The attributes with their namespaces, if no two have one name in one namespace. -/
def resolve? (bindings : Bindings) : List (QName × String) → Option (List Attribute)
  | [] => some []
  | (name, value) :: rest =>
    match attributeSpace? bindings name.qualifier, resolve? bindings rest with
    | some space, some as =>
      if as.any fun a => a.space == space && a.name == name.localName then none
      else some (⟨space, name.localName, value⟩ :: as)
    | _, _ => none

/-- Whether the prefix of an element is declared. -/
def isDeclared (bindings : Bindings) (qualifier : String) : Bool :=
  qualifier = "" || (qualifier != "xmlns" && (bindings.lookup qualifier).isSome)

/-! ## Building the tree -/

/-- An element whose end has not been reached. Its children are held last first. -/
structure OpenElement where
  name : QName
  attributes : List Attribute
  bindings : Bindings
  children : List Node

/-- The element that a start tag opens inside of `bindings`. -/
def OpenElement.ofTag? (bindings : Bindings) (name : QName) (attributes : List RawAttribute) :
    Option OpenElement :=
  match Declared.addAll? ⟨[], []⟩ attributes with
  | none => none
  | some declared =>
    let bindings := declared.bindings ++ bindings
    if isDeclared bindings name.qualifier then
      (resolve? bindings declared.attributes).map fun as => ⟨name, as, bindings, []⟩
    else none

/-- The element, when its end has been reached. -/
def OpenElement.close (e : OpenElement) : Element :=
  ⟨e.name.localName, e.attributes, e.children.reverse⟩

/-- The element with a further child. -/
def OpenElement.push (e : OpenElement) (child : Node) : OpenElement :=
  { e with children := child :: e.children }

/-- The element with further text, which joins text directly before it. -/
def OpenElement.pushText (e : OpenElement) (value : List Char) : OpenElement :=
  match e.children with
  | .text before :: rest => { e with children := .text (before ++ String.ofList value) :: rest }
  | _ => e.push (.text (String.ofList value))

/-- What has been read of a document : the open elements, innermost first, and the root, once
it is complete. -/
structure Draft where
  stack : List OpenElement
  root : Option Element

/-- Adds a complete element. -/
def Draft.complete (d : Draft) (element : Element) : Draft :=
  match d.stack with
  | [] => { d with root := some element }
  | e :: stack => { d with stack := e.push element.toNode :: stack }

/-- Adds a node that means nothing outside of the root. -/
def Draft.aside (d : Draft) (node : Node) : Draft :=
  match d.stack with
  | [] => d
  | e :: stack => { d with stack := e.push node :: stack }

/-- Reads a further piece. -/
def Draft.next? (d : Draft) : Markup → Option Draft
  | .comment chars => some (d.aside (.comment (String.ofList chars)))
  | .processing target chars =>
    some (d.aside (.processing (String.ofList target) (String.ofList chars)))
  | .text chars =>
    match d.stack with
    | [] => if chars.all isSpace then some d else none
    | e :: stack =>
      (pieces? chars).map fun ps => { d with stack := e.pushText (textValue ps) :: stack }
  | .cdata chars =>
    match d.stack with
    | [] => none
    | e :: stack => some { d with stack := e.pushText (sectionValue chars) :: stack }
  | .startTag name attributes empty =>
    if d.stack.isEmpty && d.root.isSome then none
    else
      let bindings := match d.stack with
        | [] => []
        | e :: _ => e.bindings
      (OpenElement.ofTag? bindings name attributes).map fun e =>
        if empty then d.complete e.close else { d with stack := e :: d.stack }
  | .endTag name =>
    match d.stack with
    | [] => none
    | e :: stack =>
      if e.name = name then some (Draft.complete { d with stack := stack } e.close) else none

/-- Reads the remaining pieces of a document. -/
def Draft.finish? (d : Draft) : List Markup → Option Element
  | [] => if d.stack.isEmpty then d.root else none
  | m :: ms =>
    match d.next? m with
    | none => none
    | some d => d.finish? ms

/-! ## Reading a document -/

/-- What follows the declaration that a document may begin with. Its version comes first, an
encoding and a standalone mark may follow, each after white space. -/
def afterDeclaration? (cs : List Char) : Option (List Char) :=
  if !"<?xml ".toList.isPrefixOf cs then some cs
  else
    let item? (name : String) (cs : List Char) : Option (List Char) :=
      if name.toList.isPrefixOf cs then (attribute? cs).map Prod.snd else none
    let spaced? (cs : List Char) : Option (List Char) :=
      if startsWithSpace cs || cs.isEmpty || "?>".toList.isPrefixOf cs then some (skipSpaces cs)
      else none
    let optional? (name : String) (cs : List Char) : Option (List Char) :=
      if name.toList.isPrefixOf cs then (item? name cs).bind spaced? else some cs
    let rest := (item? "version" (skipSpaces (cs.drop 6))).bind spaced?
    let rest := rest.bind (optional? "encoding")
    let rest := rest.bind fun cs =>
      if "standalone".toList.isPrefixOf cs then item? "standalone" cs else some cs
    rest.bind fun cs =>
      let cs := skipSpaces cs
      if "?>".toList.isPrefixOf cs then some (cs.drop 2) else none

/-- The document without the byte order mark at its beginning. -/
def withoutMark : List Char → List Char
  | [] => []
  | c :: cs => if c = byteOrderMark then cs else c :: cs

/-- The root element of a well-formed document. -/
def Element.ofText? (text : String) : Option Element :=
  let cs := withoutMark text.toList
  if cs.all isAllowed then
    (afterDeclaration? cs).bind fun cs =>
      (scan? cs).bind fun ms => Draft.finish? ⟨[], none⟩ ms
  else none

instance : Parser where
  parse text :=
    match Element.ofText? text with
    | some root => .ok root
    | none => .error none

end Ippcode.Xml
