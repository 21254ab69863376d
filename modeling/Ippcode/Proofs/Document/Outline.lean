import Ippcode.Proofs.Document.Reading

/-!
# What is seen of a document

Readers of programs look at three levels of elements, and at the text that the elements of arguments
begin with. This is the `outline` of a document, and it gives the program (`ofElement_outline`). So
documents with one outline are read alike (`ofElement_congr`).
-/

namespace Ippcode.Document

open Xml (Element)

/-! ## Outlines -/

/-- An element with so many levels of elements below it, and nothing but texts below these. -/
def outline : Nat → Element → Element
  | 0, e => ⟨e.name, e.attributes, [.text e.text]⟩
  | levels + 1, e => ⟨e.name, e.attributes, (e.elements.map (outline levels)).map Element.toNode⟩

section

variable (levels : Nat) (e : Element)

/-- What the reader asks an element is answered alike by its outline. -/
@[simp] theorem name_outline : (outline levels e).name = e.name := by
  cases levels <;> rfl

@[simp] theorem hasAttributes_outline :
    hasAttributes (outline levels e) = hasAttributes e := by
  cases levels <;> rfl

@[simp] theorem valueOf_outline : valueOf (outline levels e) = valueOf e := by
  cases levels <;> rfl

@[simp] theorem text_outline : (outline 0 e).text = e.text := rfl

/-- The elements of an outline are the outlines of the elements. -/
@[simp] theorem elements_outline :
    (outline (levels + 1) e).elements = e.elements.map (outline levels) :=
  elements_map_toNode _ _ _

end

/-- At the last level an outline shows a name, attributes and a text. -/
theorem outline_zero_congr {e e' : Element} (name : e.name = e'.name)
    (attributes : e.attributes = e'.attributes) (text : e.text = e'.text) :
    outline 0 e = outline 0 e' := by
  rw [outline, outline, name, attributes, text]

/-- Above it an outline shows elements in the place of a text. -/
theorem outline_succ_congr {levels : Nat} {e e' : Element} (name : e.name = e'.name)
    (attributes : e.attributes = e'.attributes)
    (elements : e.elements.map (outline levels) = e'.elements.map (outline levels)) :
    outline (levels + 1) e = outline (levels + 1) e' := by
  rw [outline, outline, name, attributes, elements]

/-- Arguments are read from the last level. -/
theorem arguments_outline (order : Nat) : ∀ (es : List Element) (read : List (Nat × Argument)),
    arguments order read (es.map (outline 0)) = arguments order read es
  | [], _ => rfl
  | e :: es, read => by
    have ih := arguments_outline order es
    simp only [List.map_cons, arguments, name_outline, hasAttributes_outline, valueOf_outline,
      text_outline, ih]

/-- Instructions are read from the level above. -/
theorem instruction_outline (previous : Nat) (e : Element) :
    instruction previous (outline 1 e) = instruction previous e := by
  simp only [instruction, name_outline, hasAttributes_outline, valueOf_outline, elements_outline,
    arguments_outline]

theorem instructions_outline : ∀ (es : List Element) (previous : Nat),
    instructions previous (es.map (outline 1)) = instructions previous es
  | [], _ => rfl
  | e :: es, previous => by
    have ih := instructions_outline es
    simp only [List.map_cons, instructions, instruction_outline, ih]

/-- The outline of a document is all that the reader looks at. -/
theorem ofElement_outline (root : Element) :
    Program.ofElement (outline 2 root) = Program.ofElement root := by
  simp only [Program.ofElement, name_outline, hasAttributes_outline, valueOf_outline,
    elements_outline, instructions_outline]

/-- What an outline does not show makes no difference. -/
theorem ofElement_congr {root root' : Element} (h : outline 2 root = outline 2 root') :
    Program.ofElement root = Program.ofElement root' := by
  rw [← ofElement_outline, h, ofElement_outline]

end Ippcode.Document
