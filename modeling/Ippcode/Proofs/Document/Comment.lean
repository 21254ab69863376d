import Ippcode.Proofs.Document.Outline

/-!
# Comments in documents

A comment may stand among the children of any element, and in the middle of a text, which it cuts
into two (`Cut`). Outside of the root element it is no part of the tree at all.

Most of the time nobody sees a comment. But the text of an argument ends where a comment stands,
since the reader takes the text that an element begins with. So an argument with a comment in it is
read as if it ended there, and this is all that comments do (`Program.ofElement_commented`).
-/

namespace Ippcode.Document

open Xml (Attribute Element Node)

/-! ## Gaps -/

/-- A document with a gap : it is among the children of an element, or inside of one of them. -/
inductive Gap where
  | here (name : String) (attributes : List Attribute)
  | inside (name : String) (attributes : List Attribute) (front : List Node) (gap : Gap)
      (behind : List Node)

namespace Gap

/-- The document with the gap filled by these nodes. -/
def fill : Gap → List Node → Element
  | here name attributes, nodes => ⟨name, attributes, nodes⟩
  | inside name attributes front gap behind, nodes =>
    ⟨name, attributes, front ++ (gap.fill nodes).toNode :: behind⟩

/-- How many elements there are around the element that the gap is in. -/
def depth : Gap → Nat
  | here .. => 0
  | inside _ _ _ gap _ => gap.depth + 1

/-- Whether the gap is among the children of an argument. -/
def IsInArgument (gap : Gap) : Prop := gap.depth = 2

end Gap

/-- The children of an element, and what is on both sides of a cut between two of them or in the
middle of a text. -/
inductive Cut : List Node → List Node → List Node → Prop
  | between (front behind : List Node) : Cut (front ++ behind) front behind
  | within (front : List Node) (s t : String) (behind : List Node) :
      Cut (front ++ .text (s ++ t) :: behind) (front ++ [.text s]) (.text t :: behind)

/-! ## What is seen in a gap -/

/-- The text that nodes begin with. -/
def leadingText (nodes : List Node) : String := Element.text ⟨"", [], nodes⟩

theorem leadingText_cons (node : Node) (nodes : List Node) :
    leadingText (node :: nodes) = leadingText [node] := by
  cases node <;> rfl

/-- Text at the beginning is the first node, so what comes behind it does not matter. -/
theorem leadingText_append {front : List Node} (h : front ≠ []) (behind : List Node) :
    leadingText (front ++ behind) = leadingText front := by
  cases front with
  | nil => exact absurd rfl h
  | cons node front => rw [List.cons_append, leadingText_cons, leadingText_cons node front]

/-- Nothing is seen of the text behind a comment. -/
theorem leadingText_comment (front behind : List Node) (body : String) :
    leadingText (front ++ .comment body :: behind) = leadingText front := by
  by_cases empty : front = []
  · rw [empty]
    rfl
  · exact leadingText_append empty _

theorem elements_mk (name : String) (attributes : List Attribute) (nodes : List Node) :
    (⟨name, attributes, nodes⟩ : Element).elements = nodes.filterMap Node.toElement? := rfl

theorem elements_inside (name : String) (attributes : List Attribute) (front behind : List Node)
    (e : Element) : (⟨name, attributes, front ++ e.toNode :: behind⟩ : Element).elements =
      front.filterMap Node.toElement? ++ e :: behind.filterMap Node.toElement? := by
  rw [elements_mk, List.filterMap_append]
  rfl

/-- What an outline shows of the nodes in a gap : their elements, if there are further levels, and
the text they begin with at the last level. -/
theorem outline_fill_congr {nodes nodes' : List Node} : ∀ (gap : Gap) (levels : Nat),
    (gap.depth = levels → leadingText nodes = leadingText nodes') →
    (gap.depth < levels →
      nodes.filterMap Node.toElement? = nodes'.filterMap Node.toElement?) →
    outline levels (gap.fill nodes) = outline levels (gap.fill nodes')
  | .here name attributes, 0, text, _ => outline_zero_congr rfl rfl (text rfl)
  | .here name attributes, levels + 1, _, elements =>
    outline_succ_congr rfl rfl (congrArg (List.map _) (elements (Nat.succ_pos levels)))
  | .inside name attributes front gap behind, 0, _, _ => by
    refine outline_zero_congr rfl rfl ?_
    -- An element in front of all text hides it, whatever is in the element.
    cases front with
    | nil => rfl
    | cons node front => exact (leadingText_cons node _).trans (leadingText_cons node _).symm
  | .inside name attributes front gap behind, levels + 1, text, elements => by
    have ih := outline_fill_congr gap levels (fun here => text (congrArg Nat.succ here))
      fun less => elements (Nat.succ_lt_succ less)
    refine outline_succ_congr rfl rfl ?_
    simp only [Gap.fill, elements_inside, List.map_append, List.map_cons, ih]

/-! ## Cuts -/

namespace Cut

variable {whole front behind : List Node}

/-- A comment at a cut is no element, and cuts none. -/
theorem elements_comment (cut : Cut whole front behind) (body : String) :
    (front ++ .comment body :: behind).filterMap Node.toElement? =
      whole.filterMap Node.toElement? := by
  have comment (nodes : List Node) : (Node.comment body :: nodes).filterMap Node.toElement? =
      nodes.filterMap Node.toElement? := List.filterMap_cons_none rfl
  have text (value : String) (nodes : List Node) :
      (Node.text value :: nodes).filterMap Node.toElement? = nodes.filterMap Node.toElement? :=
    List.filterMap_cons_none rfl
  cases cut with
  | between front behind => rw [List.filterMap_append, comment, List.filterMap_append]
  | within front s t behind =>
    rw [List.append_assoc, List.singleton_append, List.filterMap_append, text, comment, text,
      List.filterMap_append, text]

end Cut

end Ippcode.Document

namespace Ippcode.Program

open Document

/-- A comment is not seen in a document, whether this is accepted or refused, except in an argument.
There the document is read as if the argument ended at the comment, so that nothing changes if the
text which the argument begins with has ended before. -/
theorem ofElement_commented {whole front behind : List Xml.Node} (cut : Cut whole front behind)
    (gap : Gap) (body : String) :
    (¬ gap.IsInArgument →
      ofElement (gap.fill (front ++ .comment body :: behind)) = ofElement (gap.fill whole)) ∧
    (gap.IsInArgument →
      ofElement (gap.fill (front ++ .comment body :: behind)) = ofElement (gap.fill front) ∧
      (leadingText front = leadingText whole →
        ofElement (gap.fill (front ++ .comment body :: behind)) =
          ofElement (gap.fill whole))) := by
  have text := leadingText_comment front behind body
  refine ⟨fun outside => ?_, fun inside => ⟨?_, fun same => ?_⟩⟩
  · exact ofElement_congr (outline_fill_congr gap 2 (fun h => absurd h outside)
      fun _ => cut.elements_comment body)
  · exact ofElement_congr (outline_fill_congr gap 2 (fun _ => text)
      fun less => absurd inside less.ne)
  · exact ofElement_congr (outline_fill_congr gap 2 (fun _ => text.trans same)
      fun _ => cut.elements_comment body)

/-- The document of an instruction that writes a string, with a gap for the text of the string. -/
def writtenText : Gap :=
  .inside "program" [⟨none, "language", "IPPcode23"⟩] []
    (.inside "instruction" [⟨none, "order", "1"⟩, ⟨none, "opcode", "WRITE"⟩] []
      (.here "arg1" [⟨none, "type", "string"⟩]) []) []

/-- The program of this document. -/
def writing (text : String) : Program := ⟨[⟨1, .write, [.constant (.string text)]⟩]⟩

/-- Behind the text of the argument the comment is not seen. In the middle of the text it hides the
rest of the text. -/
theorem ofElement_commented_writing :
    ofElement (writtenText.fill ([.text "abcd"] ++ .comment "c" :: [])) = .ok (writing "abcd") ∧
    ofElement (writtenText.fill ([.text "ab"] ++ .comment "c" :: [.text "cd"])) =
      .ok (writing "ab") := by
  have inside : writtenText.IsInArgument := rfl
  have whole : ofElement (writtenText.fill [.text "abcd"]) = .ok (writing "abcd") := by
    decide +kernel
  have shorter : ofElement (writtenText.fill [.text "ab"]) = .ok (writing "ab") := by
    decide +kernel
  constructor
  · have atEnd := (ofElement_commented (.between [.text "abcd"] []) writtenText "c").2 inside
    exact (atEnd.2 rfl).trans whole
  · have middle := (ofElement_commented (.within [] "ab" "cd" []) writtenText "c").2 inside
    exact middle.1.trans shorter

/-- So comments do matter : with one of them the same document is read as another program. -/
theorem comment_changes_program :
    ¬ ∀ (gap : Gap) (whole front behind : List Xml.Node) (body : String) (p : Program),
      Cut whole front behind → ofElement (gap.fill whole) = .ok p →
        ofElement (gap.fill (front ++ .comment body :: behind)) = .ok p := by
  intro unseen
  have whole : ofElement (writtenText.fill [.text ("ab" ++ "cd")]) = .ok (writing "abcd") := by
    decide +kernel
  have hidden : ofElement (writtenText.fill ([.text "ab"] ++ .comment "c" :: [.text "cd"])) =
      .ok (writing "ab") := by
    decide +kernel
  have commented := unseen writtenText _ _ _ "c" _ (.within [] "ab" "cd" []) whole
  exact absurd (hidden.symm.trans commented) (by decide)

end Ippcode.Program
