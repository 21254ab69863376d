import Ippcode.Proofs.Document.Reading
import Ippcode.Proofs.Listing.Grammar

/-!
# The grammar of documents

A document is a tree : its root, below it an element for each instruction, and below these an
element for each argument. `Content` tells what the text of an argument may be, `IsArgument`,
`IsInstruction` and `IsDocument` what elements may be, and with it which program a document
gives. All is said of the document as a whole : arguments have the names that belong to their
positions when they are put in order, and orders increase.

The reader goes through a document from the front and remembers what it has seen. It accepts exactly
what is in the grammar, as the program that it gives (`ofElement_grammar`).
-/

namespace Ippcode.Document

open Ippcode.Text
open Ippcode.Listing (Operand)
open Xml (Element)

/-! ## The grammar -/

/-- The types whose constants are trimmed. -/
def trimmedTypes : List (String × Ty) :=
  [("int", .int), ("float", .float), ("bool", .bool), ("nil", .nil)]

/-- What the text of an argument of a kind may be, and which argument it is. -/
inductive Content : String → String → Argument → Prop
  | var {text : String} {arg : Argument} (operand : Operand .var (trimmed text) arg) :
      Content "var" text arg
  | label {text : String} {arg : Argument} (operand : Operand .label (trimmed text) arg) :
      Content "label" text arg
  | type {text : String} {arg : Argument} (operand : Operand .type (trimmed text) arg) :
      Content "type" text arg
  /-- A string is taken as it is written. -/
  | string {text : String} {value : Value} (read : Value.ofPayload .string text = .ok value) :
      Content "string" text (.constant value)
  | constant {kind text : String} {ty : Ty} (named : (kind, ty) ∈ trimmedTypes) {value : Value}
      (read : Value.ofPayload ty (trimmed text) = .ok value) : Content kind text (.constant value)

/-- No attribute has another name than these. -/
def HasOnly (e : Element) (names : List String) : Prop := ∀ a ∈ e.attributes, a.name ∈ names

/-- The element of an argument. -/
structure IsArgument (e : Element) (arg : Argument) : Prop where
  attributes : HasOnly e ["type"]
  content : ∃ kind, e.attribute? "type" = some kind ∧ Content kind e.text arg

/-- What the attribute for an order may be : decimal digits, perhaps behind a plus sign, that give
a positive number of 64 bits. -/
inductive OrderText (text : String) (order : Nat) : Prop
  | mk {sign digits : List Char} (written : (trimmed text).toList = sign ++ digits)
      (signed : sign = [] ∨ sign = ['+']) (nonempty : digits ≠ [])
      (decimal : ∀ c ∈ digits, c.isDigit = true) (value : Nat.ofDigitChars 10 digits 0 = order)
      (positive : 1 ≤ order) (small : order ≤ 2 ^ 64 - 1)

/-- The element of an instruction. The elements of its arguments may stand in any order. -/
structure IsInstruction (e : Element) (i : Instruction) : Prop where
  name : e.name = "instruction"
  attributes : HasOnly e ["order", "opcode"]
  order : ∃ text, e.attribute? "order" = some text ∧ OrderText text i.order
  opcode : ∃ text, e.attribute? "opcode" = some text ∧
    sameIgnoringCase i.opcode.mnemonic.toList (trimmed text).toList = true
  args : ∃ sorted : List Element, sorted.Perm e.elements ∧
    sorted.map Element.name = ["arg1", "arg2", "arg3"].take i.args.length ∧
    List.Forall₂ IsArgument sorted i.args
  fits : i.Fits

/-- The root of a document, and the program that it gives. -/
structure IsDocument (root : Element) (p : Program) : Prop where
  name : root.name = "program"
  attributes : HasOnly root ["language", "name", "description"]
  language : ∃ text, root.attribute? "language" = some text ∧
    sameIgnoringCase text.toList "IPPcode23".toList = true
  instructions : List.Forall₂ IsInstruction root.elements p.instructions
  increasing : (p.instructions.map Instruction.order).Pairwise (· < ·)

/-! ## Attributes -/

section

variable {e : Element} {required optional : List String} {name value : String}

theorem hasAttributes_iff :
    hasAttributes e required optional = true ↔
      HasOnly e (required ++ optional) ∧ ∀ name ∈ required, (e.attribute? name).isSome = true := by
  simp only [hasAttributes, HasOnly, Bool.and_eq_true, List.all_eq_true, Bool.or_eq_true,
    List.contains_iff_mem, List.mem_append]

theorem valueOf_eq (h : e.attribute? name = some value) : valueOf e name = value := by
  rw [valueOf, h, Option.getD_some]

theorem attribute?_eq (h : (e.attribute? name).isSome = true) :
    e.attribute? name = some (valueOf e name) := by
  obtain ⟨value, found⟩ := Option.isSome_iff_exists.mp h
  rw [valueOf_eq found, found]

end

/-! ## Arguments -/

section

variable {order : Nat} {kind text : String} {arg : Argument} {e : Element}

theorem mem_trimmedTypes_iff {ty : Ty} :
    (kind, ty) ∈ trimmedTypes ↔ kind = ty.name ∧ ty ≠ .string := by
  cases ty <;> simp [trimmedTypes, Ty.name]

theorem operand_var_iff : Operand .var text arg ↔
    ∃ v, arg = .var v ∧ isIdentifier v.name = true ∧ text = v.text := by
  rw [Listing.operand_iff, Argument.fits_var_iff]
  constructor
  · rintro ⟨written, v, rfl⟩
    obtain ⟨identifier, e⟩ := Listing.Writes.var_iff.mp written
    exact ⟨v, rfl, identifier, String.toList_inj.mp e⟩
  · rintro ⟨v, rfl, identifier, rfl⟩
    exact ⟨.var identifier, v, rfl⟩

theorem operand_label_iff : Operand .label text arg ↔
    ∃ name, arg = .label name ∧ isIdentifier name = true ∧ text = name := by
  rw [Listing.operand_iff, Argument.fits_label_iff]
  constructor
  · rintro ⟨written, name, rfl⟩
    obtain ⟨identifier, e⟩ := Listing.Writes.label_iff.mp written
    exact ⟨name, rfl, identifier, String.toList_inj.mp e⟩
  · rintro ⟨name, rfl, identifier, rfl⟩
    exact ⟨.label identifier, text, rfl⟩

theorem operand_type_iff : Operand .type text arg ↔
    ∃ ty, arg = .type ty ∧ ty.isReadable = true ∧ text = ty.name := by
  rw [Listing.operand_iff, Argument.fits_type_iff]
  constructor
  · rintro ⟨written, ty, rfl⟩
    obtain ⟨readable, e⟩ := Listing.Writes.type_iff.mp written
    exact ⟨ty, rfl, readable, String.toList_inj.mp e⟩
  · rintro ⟨ty, rfl, readable, rfl⟩
    exact ⟨.type readable, ty, rfl⟩

/-- A text of a kind is read as what it may be. -/
theorem argument_eq_ok_iff_content :
    argument order kind text = .ok arg ↔ Content kind text arg := by
  constructor
  · intro h
    by_cases hs : kind = "string"
    · subst hs
      obtain ⟨value, rfl, read⟩ := argument_string_eq_ok_iff.mp h
      exact .string read
    by_cases hb : kind ∈ bareKinds
    · have hb : kind = "var" ∨ kind = "label" ∨ kind = "type" := by
        simpa [bareKinds] using hb
      rcases hb with rfl | rfl | rfl
      · exact .var (operand_var_iff.mpr (argument_var_eq_ok_iff.mp h))
      · exact .label (operand_label_iff.mpr (argument_label_eq_ok_iff.mp h))
      · exact .type (operand_type_iff.mpr (argument_type_eq_ok_iff.mp h))
    · obtain ⟨value, rfl, whole⟩ := (argument_constant_eq_ok_iff hs hb).mp h
      obtain ⟨ty, rfl, read⟩ := Value.ofConstant_eq_ok_iff.mp whole
      refine .constant (mem_trimmedTypes_iff.mpr ⟨rfl, ?_⟩) read
      rintro rfl
      exact hs rfl
  · rintro (operand | operand | operand | read | @⟨_, _, ty, named, value, read⟩)
    · exact argument_var_eq_ok_iff.mpr (operand_var_iff.mp operand)
    · exact argument_label_eq_ok_iff.mpr (operand_label_iff.mp operand)
    · exact argument_type_eq_ok_iff.mpr (operand_type_iff.mp operand)
    · exact argument_string_eq_ok_iff.mpr ⟨_, rfl, read⟩
    · obtain ⟨rfl, other⟩ := mem_trimmedTypes_iff.mp named
      refine (argument_constant_eq_ok_iff (ty_name_ne_string other) (ty_name_not_mem ty)).mpr ?_
      exact ⟨value, rfl, Value.ofConstant_eq_ok_iff.mpr ⟨ty, rfl, read⟩⟩

/-- What is read of an element is what its name and the element itself say. -/
theorem reads_iff {read : Nat × Argument} :
    Reads order e read ↔ argumentNames[read.1]? = some e.name ∧ IsArgument e read.2 := by
  constructor
  · rintro ⟨position, attributes, read⟩
    obtain ⟨only, required⟩ := hasAttributes_iff.mp attributes
    have found := attribute?_eq (required "type" List.mem_cons_self)
    exact ⟨position?_eq_some_iff.mp position, only, _, found, argument_eq_ok_iff_content.mp read⟩
  · rintro ⟨position, only, kind, found, content⟩
    refine ⟨position?_eq_some_iff.mpr position, hasAttributes_iff.mpr ⟨only, ?_⟩, ?_⟩
    · intro name hname
      rw [List.mem_singleton.mp hname, found]
      rfl
    · rw [valueOf_eq found]
      exact argument_eq_ok_iff_content.mpr content

end

/-- What is read of elements one after another is read at positions one after another exactly if the
elements have the names of these. -/
theorem forall₂_reads_iff {order : Nat} : ∀ {args : List Argument} {start : Nat}
    {es : List Element},
    List.Forall₂ (Reads order) es ((List.range' start args.length).zip args) ↔
      es.map Element.name = (argumentNames.drop start).take args.length ∧
        List.Forall₂ IsArgument es args
  | [], start, es => by
    rw [List.length_nil, List.take_zero, List.map_eq_nil_iff, List.zip_nil_right,
      List.forall₂_nil_right_iff, List.forall₂_nil_right_iff, and_self_iff]
  | arg :: args, start, es => by
    rw [List.length_cons, List.range'_succ, List.zip_cons_cons, List.forall₂_cons_right_iff,
      List.forall₂_cons_right_iff]
    have names : ∀ {name : String}, argumentNames[start]? = some name →
        argumentNames.drop start = name :: argumentNames.drop (start + 1) := by
      intro name h
      obtain ⟨within, rfl⟩ := List.getElem?_eq_some_iff.mp h
      exact List.drop_eq_getElem_cons within
    constructor
    · rintro ⟨e, rest, first, reads, rfl⟩
      obtain ⟨named, isArgument⟩ := reads_iff.mp first
      obtain ⟨others, areArguments⟩ := forall₂_reads_iff.mp reads
      rw [names named, List.take_succ_cons, List.map_cons, others]
      exact ⟨rfl, e, rest, isArgument, areArguments, rfl⟩
    · rintro ⟨named, e, rest, isArgument, areArguments, rfl⟩
      cases hdrop : argumentNames.drop start with
      | nil =>
        rw [hdrop] at named
        cases named
      | cons name others =>
        have first : argumentNames[start]? = some name := by
          rw [← List.head?_drop, hdrop, List.head?_cons]
        rw [names first, List.take_succ_cons, List.map_cons] at named
        obtain ⟨rfl, behind⟩ := List.cons.inj named
        exact ⟨e, rest, reads_iff.mpr ⟨first, isArgument⟩,
          forall₂_reads_iff.mpr ⟨behind, areArguments⟩, rfl⟩

/-- The elements of arguments are read as those that they are when they are put in order. -/
theorem arguments_inOrder?_iff {order : Nat} {es : List Element} {args : List Argument} :
    (∃ read, arguments order [] es = .ok read ∧ inOrder? read = some args) ↔
      ∃ sorted : List Element, sorted.Perm es ∧
        sorted.map Element.name = argumentNames.take args.length ∧
        List.Forall₂ IsArgument sorted args := by
  have commutes := List.forall₂_comp_perm_eq_perm_comp_forall₂ (r := Reads order)
  constructor
  · rintro ⟨read, h, ordered⟩
    obtain ⟨reads, distinct⟩ := arguments_nil_eq_ok_iff.mp h
    have moved : Relation.Comp (List.Forall₂ (Reads order)) List.Perm es _ :=
      ⟨read, reads, (inOrder?_eq_some_iff distinct).mp ordered⟩
    rw [commutes] at moved
    obtain ⟨sorted, same, reads⟩ := moved
    exact ⟨sorted, same.symm, forall₂_reads_iff.mp reads⟩
  · rintro ⟨sorted, same, isArguments⟩
    have moved : Relation.Comp List.Perm (List.Forall₂ (Reads order)) es
        ((List.range' 0 args.length).zip args) :=
      ⟨sorted, same.symm, forall₂_reads_iff.mpr isArguments⟩
    rw [← commutes] at moved
    obtain ⟨read, reads, ordered⟩ := moved
    have distinct : (read.map Prod.fst).Nodup :=
      (ordered.map Prod.fst).nodup_iff.mpr (nodup_keys args)
    exact ⟨read, arguments_nil_eq_ok_iff.mpr ⟨reads, distinct⟩,
      (inOrder?_eq_some_iff distinct).mpr ordered⟩

/-! ## Instructions -/

theorem order?_of_plus {text : String} {digits : List Char}
    (h : (trimmed text).toList = '+' :: digits) :
    order? text = (Numeral.natOfDigits? 10 digits).filter fun n => 0 < n ∧ n < UInt64.size := by
  simp only [order?, h]

theorem order?_of_noPlus {text : String} (h : ∀ digits, (trimmed text).toList ≠ '+' :: digits) :
    order? text =
      (Numeral.natOfDigits? 10 (trimmed text).toList).filter fun n => 0 < n ∧ n < UInt64.size := by
  unfold order?
  split
  · rename_i digits written
    exact absurd written (h digits)
  · rfl

/-- The digits give the order. -/
theorem filter_natOfDigits?_eq_some_iff {digits : List Char} {order : Nat} :
    ((Numeral.natOfDigits? 10 digits).filter fun n => 0 < n ∧ n < UInt64.size) = some order ↔
      (digits ≠ [] ∧ (∀ c ∈ digits, c.isDigit = true) ∧ Nat.ofDigitChars 10 digits 0 = order) ∧
        1 ≤ order ∧ order ≤ 2 ^ 64 - 1 := by
  have range : 0 < order ∧ order < UInt64.size ↔ 1 ≤ order ∧ order ≤ 2 ^ 64 - 1 := by
    rw [UInt64.size]
    omega
  rw [Option.filter_eq_some_iff, decide_eq_true_eq, Numeral.natOfDigits?_eq_some_iff, range]
  rfl

/-- The order that a text writes is read. -/
theorem order?_eq_some_iff {text : String} {order : Nat} :
    order? text = some order ↔ OrderText text order := by
  by_cases plus : ∃ digits, (trimmed text).toList = '+' :: digits
  · obtain ⟨digits, written⟩ := plus
    rw [order?_of_plus written, filter_natOfDigits?_eq_some_iff]
    constructor
    · rintro ⟨⟨nonempty, decimal, value⟩, positive, small⟩
      exact .mk written (.inr rfl) nonempty decimal value positive small
    · rintro ⟨split, rfl | rfl, nonempty, decimal, value, positive, small⟩
      · rw [written] at split
        subst split
        exact absurd (decimal '+' List.mem_cons_self) (by decide)
      · rw [written] at split
        obtain rfl := (List.cons.inj split).2
        exact ⟨⟨nonempty, decimal, value⟩, positive, small⟩
  · have noPlus := not_exists.mp plus
    rw [order?_of_noPlus noPlus, filter_natOfDigits?_eq_some_iff]
    constructor
    · rintro ⟨⟨nonempty, decimal, value⟩, positive, small⟩
      exact .mk (List.nil_append _).symm (.inl rfl) nonempty decimal value positive small
    · rintro ⟨split, rfl | rfl, nonempty, decimal, value, positive, small⟩
      · rw [split]
        exact ⟨⟨nonempty, decimal, value⟩, positive, small⟩
      · exact absurd split (noPlus _)

theorem readsInstruction_iff {previous : Nat} {e : Element} {i : Instruction} :
    ReadsInstruction previous e i ∧ i.Fits ↔ IsInstruction e i ∧ previous < i.order := by
  constructor
  · rintro ⟨⟨name, attributes, order, later, opcode, args⟩, fits⟩
    obtain ⟨only, required⟩ := hasAttributes_iff.mp attributes
    have horder := attribute?_eq (required "order" (by simp))
    have hopcode := attribute?_eq (required "opcode" (by simp))
    exact ⟨⟨name, only, ⟨_, horder, order?_eq_some_iff.mp order⟩,
      ⟨_, hopcode, Opcode.ofMnemonic?_eq_some_iff.mp opcode⟩, arguments_inOrder?_iff.mp args, fits⟩,
      later⟩
  · rintro ⟨⟨name, only, ⟨order, horder, isOrder⟩, ⟨opcode, hopcode, named⟩, args, fits⟩, later⟩
    refine ⟨⟨name, hasAttributes_iff.mpr ⟨only, ?_⟩, ?_, later, ?_,
      arguments_inOrder?_iff.mpr args⟩, fits⟩
    · simp [horder, hopcode]
    · rw [valueOf_eq horder]
      exact order?_eq_some_iff.mpr isOrder
    · rw [valueOf_eq hopcode]
      exact Opcode.ofMnemonic?_eq_some_iff.mpr named

/-- Instructions one after another are read with orders that increase. -/
theorem instructions_iff : ∀ {previous : Nat} {es : List Element} {is : List Instruction},
    instructions previous es = .ok is ∧ (∀ i ∈ is, i.Fits) ↔
      List.Forall₂ IsInstruction es is ∧
        (previous :: is.map Instruction.order).Pairwise (· < ·)
  | previous, [], is => by
    rw [instructions, List.forall₂_nil_left_iff]
    constructor
    · rintro ⟨h, -⟩
      obtain rfl := Except.ok.inj h
      exact ⟨rfl, List.pairwise_singleton _ _⟩
    · rintro ⟨rfl, -⟩
      exact ⟨rfl, List.forall_mem_nil _⟩
  | previous, e :: es, is => by
    rw [instructions_cons_eq_ok_iff, List.forall₂_cons_left_iff]
    constructor
    · rintro ⟨⟨i, rest, first, h, rfl⟩, fits⟩
      obtain ⟨fit, allFit⟩ := List.forall_mem_cons.mp fits
      obtain ⟨isInstruction, later⟩ := readsInstruction_iff.mp ⟨first, fit⟩
      obtain ⟨areInstructions, increasing⟩ := instructions_iff.mp ⟨h, allFit⟩
      refine ⟨⟨i, rest, isInstruction, areInstructions, rfl⟩, ?_⟩
      rw [List.map_cons, List.pairwise_cons_cons_iff_of_trans]
      exact ⟨later, increasing⟩
    · rintro ⟨⟨i, rest, isInstruction, areInstructions, rfl⟩, increasing⟩
      rw [List.map_cons, List.pairwise_cons_cons_iff_of_trans] at increasing
      obtain ⟨first, fit⟩ := readsInstruction_iff.mpr ⟨isInstruction, increasing.1⟩
      obtain ⟨h, allFit⟩ := instructions_iff.mpr ⟨areInstructions, increasing.2⟩
      exact ⟨⟨i, rest, first, h, rfl⟩, List.forall_mem_cons.mpr ⟨fit, allFit⟩⟩

/-! ## Documents -/

theorem IsInstruction.order_pos {e : Element} {i : Instruction} (h : IsInstruction e i) :
    0 < i.order := by
  obtain ⟨text, -, -, -, -, -, -, positive, -⟩ := h.order
  exact positive

theorem readsProgram_iff {root : Element} {p : Program} :
    ReadsProgram root p ↔ IsDocument root p := by
  constructor
  · rintro ⟨name, attributes, language, read, fits⟩
    obtain ⟨only, required⟩ := hasAttributes_iff.mp attributes
    have found := attribute?_eq (required "language" List.mem_cons_self)
    obtain ⟨areInstructions, increasing⟩ := instructions_iff.mp ⟨read, fits⟩
    exact ⟨name, only, ⟨_, found, language⟩, areInstructions, (List.pairwise_cons.mp increasing).2⟩
  · rintro ⟨name, only, ⟨text, found, language⟩, areInstructions, increasing⟩
    have positive : ∀ order ∈ p.instructions.map Instruction.order, 0 < order := by
      intro order horder
      obtain ⟨i, hi, rfl⟩ := List.mem_map.mp horder
      obtain ⟨e, -, isInstruction⟩ := exists_left_of_mem areInstructions hi
      exact isInstruction.order_pos
    obtain ⟨read, fits⟩ :=
      instructions_iff.mpr ⟨areInstructions, List.pairwise_cons.mpr ⟨positive, increasing⟩⟩
    refine ⟨name, hasAttributes_iff.mpr ⟨only, ?_⟩, ?_, read, fits⟩
    · simp [found]
    · rw [valueOf_eq found]
      exact language

end Ippcode.Document

namespace Ippcode.Program

/-- The reader of documents accepts exactly what is in the grammar, as the program that it gives. -/
theorem ofElement_grammar (root : Xml.Element) (p : Program) :
    ofElement root = .ok p ↔ Document.IsDocument root p :=
  ofElement_eq_ok_iff.trans Document.readsProgram_iff

/-- The root of a document with these instructions. -/
def rootOf (instructions : List Xml.Node) : Xml.Element :=
  ⟨"program", [⟨none, "language", "ippCODE23"⟩, ⟨none, "name", "sum"⟩], instructions⟩

/-- An addition into the variable `GF@x` with a name for each element of an argument. -/
def addition (target left right : String) : Xml.Node :=
  .element "instruction" [⟨none, "opcode", " add "⟩, ⟨none, "order", "+07\n"⟩]
    [.element right [⟨none, "type", "int"⟩] [.text " 0x10 "], .text "\n",
      .element target [⟨none, "type", "var"⟩] [.text "GF@x"], .comment "both are read",
      .element left [⟨none, "type", "var"⟩] [.text " TF@y"]]

/-- The elements of arguments may stand in any order, and blanks around what they hold do not
matter. Their names may have no gap, and orders may not repeat. -/
theorem ofElement_grammar_addition :
    Document.IsDocument (rootOf [addition "arg1" "arg2" "arg3", .text "\n"])
      ⟨[⟨7, .binary .direct (.arithmetic .add),
        [.var ⟨.gf, "x"⟩, .var ⟨.tf, "y"⟩, .constant (.int 16)]⟩]⟩ ∧
    (∀ p, ¬ Document.IsDocument (rootOf [addition "arg1" "arg2" "arg4"]) p) ∧
    ∀ p, ¬ Document.IsDocument
      (rootOf [addition "arg1" "arg2" "arg3", addition "arg1" "arg2" "arg3"]) p := by
  have unnamed : ofElement (rootOf [addition "arg1" "arg2" "arg4"]) =
      .error (.unexpectedElement "arg4" .argument) := by decide +kernel
  have repeated :
      ofElement (rootOf [addition "arg1" "arg2" "arg3", addition "arg1" "arg2" "arg3"]) =
        .error (.orderNotIncreasing 7 7) := by decide +kernel
  refine ⟨(ofElement_grammar _ _).mp (by decide +kernel), fun p h => ?_, fun p h => ?_⟩
  · rw [(ofElement_grammar _ _).mpr h] at unnamed
    cases unnamed
  · rw [(ofElement_grammar _ _).mpr h] at repeated
    cases repeated

end Ippcode.Program
