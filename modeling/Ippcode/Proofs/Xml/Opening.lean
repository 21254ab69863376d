import Ippcode.Source
import Ippcode.Xml.Document
import Mathlib

/-!
# How documents open

Of a parser two things matter to the readers of programs. What it accepts opens with a tag
(`Parser.WantsTag`), and a byte order mark in front of a text makes no difference to it
(`Parser.SkipsMark`). The parser of the program has both properties (`wantsTag`, `skipsMark`).
-/

namespace Ippcode.Xml

/-! ## What is asked of a parser -/

/-- The first character of a text is that of a tag, behind at most one byte order mark and white
space in the sense of XML. -/
def OpensWithTag (text : List Char) : Prop :=
  ∃ mark spaces rest, text = mark ++ (spaces ++ '<' :: rest) ∧
    (mark = [] ∨ mark = [byteOrderMark]) ∧ ∀ c ∈ spaces, isSpace c = true

namespace Parser

/-- Whatever is accepted opens with a tag. -/
def WantsTag [Parser] : Prop :=
  ∀ (text : String) (root : Element), parse text = .ok root → OpensWithTag text.toList

/-- Behind a byte order mark a text is accepted with the same root, and nothing else is, as long as
there is no second mark. -/
def SkipsMark [Parser] : Prop :=
  ∀ text : String, text.toList.head? ≠ some byteOrderMark →
    ∀ root : Element, parse ("\ufeff" ++ text) = .ok root ↔ parse text = .ok root

end Parser

/-- The mark is one character. -/
theorem toList_mark (text : String) : ("\ufeff" ++ text).toList = byteOrderMark :: text.toList := by
  rw [String.toList_append]
  rfl

/-! ## The parser of the program -/

section

variable {cs r : List Char} {m : Markup} {text : String} {root : Element}

/-- What the parser of the program accepts. -/
theorem parse_eq_ok_iff : Parser.parse text = .ok root ↔ Element.ofText? text = some root := by
  unfold Parser.parse instParser
  cases read : Element.ofText? text <;> simp [read]

theorem scan?_nil : scan? [] = some [] := by
  rw [scan?]
  rfl

/-- Pieces are scanned one after the other. -/
theorem scan?_of_next? (h : next? cs = some (m, r)) : scan? cs = (scan? r).map (m :: ·) := by
  have ne : cs.isEmpty = false := by
    cases cs with
    | nil => cases h
    | cons c cs => rfl
  rw [scan?, ne, if_neg Bool.false_ne_true]
  split
  · rename_i none
    rw [none] at h
    cases h
  · rename_i m' r' h'
    rw [h'] at h
    cases h
    rfl

/-- A piece that does not begin with a tag is text. -/
theorem next?_text {c : Char} (h : c ≠ '<') : next? (c :: cs) = text? (c :: cs) := by
  unfold next?
  split <;> simp_all

/-- White space in front of a tag is skipped whole. -/
theorem skipSpaces_dropWhile (space : (cs.takeWhile (· != '<')).all isSpace = true) :
    skipSpaces cs = skipSpaces (cs.dropWhile (· != '<')) := by
  conv_lhs => rw [← List.takeWhile_append_dropWhile (p := (· != '<')) (l := cs)]
  exact List.dropWhile_append_of_pos (List.all_eq_true.mp space)

/-- Outside of all elements there is nothing but white space. So if there is a root element, what
can be read first behind white space is a tag. -/
theorem exists_mark_of_scan? {ms : List Markup} (pieces : scan? cs = some ms)
    (complete : Draft.finish? ⟨[], none⟩ ms = some root) :
    ∃ rest, skipSpaces cs = '<' :: rest := by
  cases cs with
  | nil =>
    rw [scan?_nil] at pieces
    cases pieces
    cases complete
  | cons c cs =>
    by_cases mark : c = '<'
    · subst mark
      exact ⟨cs, rfl⟩
    -- The first piece is text then. It is white space, and something follows it.
    cases text : text? (c :: cs) with
    | none =>
      rw [scan?, if_neg (by simp), next?_text mark, text] at pieces
      cases pieces
    | some piece =>
      obtain ⟨m, behind⟩ := piece
      rw [scan?_of_next? ((next?_text mark).trans text)] at pieces
      obtain ⟨ms, later, rfl⟩ := Option.map_eq_some_iff.mp pieces
      rw [text?] at text
      split_ifs at text
      cases text
      have space : ((c :: cs).takeWhile (· != '<')).all isSpace = true := by
        by_contra other
        rw [Draft.finish?, Draft.next?, if_neg other] at complete
        cases complete
      rw [skipSpaces_dropWhile space]
      have first := List.head?_dropWhile_not (· != '<') (c :: cs)
      generalize (c :: cs).dropWhile (· != '<') = behind at later first
      cases behind with
      | nil =>
        rw [scan?_nil] at later
        cases later
        rw [Draft.finish?, Draft.next?, if_pos space] at complete
        cases complete
      | cons d rest =>
        obtain rfl : d = '<' := by simpa using first
        exact ⟨rest, rfl⟩

/-- A document that is read opens with a tag, and so does its declaration. -/
theorem exists_mark_of_ofText? (h : Element.ofText? text = some root) :
    ∃ rest, skipSpaces (withoutMark text.toList) = '<' :: rest := by
  unfold Element.ofText? at h
  simp only at h
  split_ifs at h
  obtain ⟨behind, declaration, h⟩ := Option.bind_eq_some_iff.mp h
  obtain ⟨ms, pieces, complete⟩ := Option.bind_eq_some_iff.mp h
  generalize withoutMark text.toList = cs at declaration
  by_cases declared : "<?xml ".toList.isPrefixOf cs = true
  · obtain ⟨rest, rfl⟩ := List.isPrefixOf_iff_prefix.mp declared
    exact ⟨_, rfl⟩
  · rw [afterDeclaration?, if_pos (Bool.not_eq_true' _ ▸ Bool.eq_false_iff.mpr declared)]
      at declaration
    cases declaration
    exact exists_mark_of_scan? pieces complete

/-- One mark at most is left out. -/
theorem exists_mark_of_withoutMark (cs : List Char) :
    ∃ mark, cs = mark ++ withoutMark cs ∧ (mark = [] ∨ mark = [byteOrderMark]) := by
  cases cs with
  | nil => exact ⟨[], rfl, .inl rfl⟩
  | cons c cs =>
    rw [withoutMark]
    split_ifs with mark
    · exact ⟨[byteOrderMark], by rw [mark]; rfl, .inr rfl⟩
    · exact ⟨[], rfl, .inl rfl⟩

/-- The parser of the program accepts nothing that does not open with a tag. -/
theorem wantsTag : Parser.WantsTag := by
  intro text root accepted
  obtain ⟨rest, opens⟩ := exists_mark_of_ofText? (parse_eq_ok_iff.mp accepted)
  obtain ⟨mark, whole, few⟩ := exists_mark_of_withoutMark text.toList
  refine ⟨mark, (withoutMark text.toList).takeWhile isSpace, rest, ?_, few, fun c hc => ?_⟩
  · rw [← opens, skipSpaces, List.takeWhile_append_dropWhile]
    exact whole
  · exact List.all_eq_true.mp List.all_takeWhile c hc

theorem withoutMark_of_head? (h : cs.head? ≠ some byteOrderMark) : withoutMark cs = cs := by
  cases cs with
  | nil => rfl
  | cons c cs => exact if_neg fun mark => h (congrArg some mark)

/-- The parser of the program skips one mark. -/
theorem skipsMark : Parser.SkipsMark := by
  intro text h root
  have skipped : withoutMark ("\ufeff" ++ text).toList = withoutMark text.toList := by
    rw [toList_mark, withoutMark, if_pos rfl, withoutMark_of_head? h]
  rw [parse_eq_ok_iff, parse_eq_ok_iff, Element.ofText?, Element.ofText?, skipped]

end

end Ippcode.Xml
