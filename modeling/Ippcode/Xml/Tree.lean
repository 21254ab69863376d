/-!
# Document trees

The tree of a document holds what readers of programs look at. Names of elements are without their
prefix, attributes keep the namespace that their prefix stands for, and declarations of namespaces
are no attributes. Text next to text is one node.

A `Parser` gives the tree of the root element of a well-formed document. Readers of programs work
with any parser, and so do the theorems about them.
-/

namespace Ippcode.Xml

/-! ## Trees -/

/-- An attribute of an element. -/
structure Attribute where
  /-- The namespace that the prefix of the name stands for, if it has one. -/
  space : Option String
  name : String
  value : String
  deriving DecidableEq, Repr

/-- A part of a document. -/
inductive Node where
  | element (name : String) (attributes : List Attribute) (children : List Node)
  | text (value : String)
  | comment (value : String)
  | processing (target value : String)
  deriving Repr

/-- An element. -/
structure Element where
  name : String
  attributes : List Attribute
  children : List Node
  deriving Repr

/-- An element as a part of a document. -/
def Element.toNode (e : Element) : Node := .element e.name e.attributes e.children

/-- The element that a part of a document is. -/
def Node.toElement? : Node → Option Element
  | .element name attributes children => some ⟨name, attributes, children⟩
  | _ => none

namespace Element

/-- The elements among the children of an element. -/
def elements (e : Element) : List Element := e.children.filterMap Node.toElement?

/-- The value of the attribute without a namespace that has this name. -/
def attribute? (e : Element) (name : String) : Option String :=
  (e.attributes.find? fun a => a.space == none && a.name == name).map Attribute.value

/-- The text that an element begins with : that of its first child, if this is text. -/
def text (e : Element) : String :=
  match e.children with
  | .text value :: _ => value
  | _ => ""

end Element

/-! ## Parsers -/

/-- What reads the text of a document. -/
class Parser where
  /-- The root element of a well-formed document. Of a text that is not one something may be said
  instead. -/
  parse : String → Except (Option String) Element

end Ippcode.Xml
