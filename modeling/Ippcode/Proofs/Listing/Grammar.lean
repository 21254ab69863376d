import Ippcode.Proofs.Listing.RoundTrip

/-!
# The grammar of listings

A listing is a line with the header alone, and below it a line for each instruction, with its
mnemonic and one word for each position of its signature. Comments, blanks and lines without a
word do not matter. `Operand` tells position by position what may stand there, `OperationLine`
what a line may be, and `Grammar` what a whole listing is.

The grammar knows nothing of how a listing is read. The reader accepts what is in it, as the program
that it gives, and nothing else (`ofListing_grammar`).
-/

namespace Ippcode

open Ippcode.Text

namespace Listing

/-! ## The grammar -/

/-- How variables begin. -/
def variableMarks : List (String × FrameKind) := [("GF@", .gf), ("LF@", .lf), ("TF@", .tf)]

/-- How constants begin. -/
def constantMarks : List (String × Ty) :=
  [("int@", .int), ("float@", .float), ("bool@", .bool), ("string@", .string), ("nil@", .nil)]

/-- The types that have a name. -/
def typeNames : List (String × Ty) :=
  [("int", .int), ("float", .float), ("bool", .bool), ("string", .string)]

/-- What may stand in a position of a kind, and which argument it is. -/
inductive Operand : OperandKind → String → Argument → Prop
  | var {kind : OperandKind} (position : kind = .var ∨ kind = .symb) {mark name : String}
      {frame : FrameKind} (marked : (mark, frame) ∈ variableMarks)
      (identifier : isIdentifier name = true) : Operand kind (mark ++ name) (.var ⟨frame, name⟩)
  | constant {mark payload : String} {ty : Ty} (marked : (mark, ty) ∈ constantMarks)
      {value : Value} (read : Value.ofPayload ty payload = .ok value) :
      Operand .symb (mark ++ payload) (.constant value)
  | label {name : String} (identifier : isIdentifier name = true) :
      Operand .label name (.label name)
  | type {name : String} {ty : Ty} (named : (name, ty) ∈ typeNames) : Operand .type name (.type ty)

/-- What may stand in positions of these kinds. -/
inductive Operands : List OperandKind → List (List Char) → List Argument → Prop
  | nil : Operands [] [] []
  | cons {kind : OperandKind} {operand : List Char} {arg : Argument}
      (first : Operand kind (String.ofList operand) arg) {kinds : List OperandKind}
      {operands : List (List Char)} {args : List Argument} (rest : Operands kinds operands args) :
      Operands (kind :: kinds) (operand :: operands) (arg :: args)

/-- A line with an operation : a mnemonic in letters of any case, and what its positions take. -/
inductive OperationLine : List (List Char) → Opcode × List Argument → Prop
  | mk {mnemonic : List Char} {opcode : Opcode}
      (named : sameIgnoringCase opcode.mnemonic.toList mnemonic = true)
      {operands : List (List Char)} {args : List Argument}
      (positions : Operands opcode.signature operands args) :
      OperationLine (mnemonic :: operands) (opcode, args)

/-- A listing and the program that it gives. -/
inductive Grammar (text : String) (p : Program) : Prop
  | mk {header : List Char} {body : List (List (List Char))}
      (lines : tokens text.toList = [header] :: body)
      (named : sameIgnoringCase header ".IPPcode23".toList = true)
      (operations : List.Forall₂ OperationLine body p.operations)
      (orders : p.instructions.map Instruction.order = List.range' 1 p.instructions.length)

/-! ## What is written -/

theorem mem_variableMarks_iff {mark : String} {frame : FrameKind} :
    (mark, frame) ∈ variableMarks ↔ mark = frame.name ++ "@" := by
  cases frame <;> simp [variableMarks, FrameKind.name]

theorem mem_constantMarks_iff {mark : String} {ty : Ty} :
    (mark, ty) ∈ constantMarks ↔ mark = ty.name ++ "@" := by
  cases ty <;> simp [constantMarks, Ty.name]

theorem mem_typeNames_iff {name : String} {ty : Ty} :
    (name, ty) ∈ typeNames ↔ ty.isReadable = true ∧ name = ty.name := by
  cases ty <;> simp [typeNames, Ty.name, Ty.isReadable]

/-- What may stand in a position is what writes an argument that fits there. -/
theorem operand_iff {kind : OperandKind} {operand : String} {arg : Argument} :
    Operand kind operand arg ↔ Writes operand.toList arg ∧ arg.fits kind = true := by
  constructor
  · rintro (⟨position, marked, identifier⟩ | ⟨marked, read⟩ | ⟨identifier⟩ | ⟨named⟩)
    · rw [mem_variableMarks_iff.mp marked]
      refine ⟨.var (v := ⟨_, _⟩) identifier, ?_⟩
      rcases position with rfl | rfl <;> rfl
    · rw [mem_constantMarks_iff.mp marked]
      exact ⟨.constant read, rfl⟩
    · exact ⟨.label identifier, rfl⟩
    · obtain ⟨readable, rfl⟩ := mem_typeNames_iff.mp named
      exact ⟨.type readable, rfl⟩
  · rintro ⟨written, fits⟩
    cases arg with
    | var v =>
      obtain ⟨identifier, e⟩ := Writes.var_iff.mp written
      rw [String.toList_inj.mp e]
      refine .var ?_ (mem_variableMarks_iff.mpr rfl) identifier
      cases kind <;> cases fits <;> simp
    | constant value =>
      obtain ⟨payload, read, e⟩ := Writes.constant_iff.mp written
      rw [String.toList_inj.mp e]
      cases kind <;> cases fits
      exact .constant (mem_constantMarks_iff.mpr rfl) read
    | label name =>
      obtain ⟨identifier, e⟩ := Writes.label_iff.mp written
      rw [String.toList_inj.mp e]
      cases kind <;> cases fits
      exact .label identifier
    | type ty =>
      obtain ⟨readable, e⟩ := Writes.type_iff.mp written
      rw [String.toList_inj.mp e]
      cases kind <;> cases fits
      exact .type (mem_typeNames_iff.mpr ⟨readable, rfl⟩)

theorem operands_iff : ∀ {kinds : List OperandKind} {operands : List (List Char)}
    {args : List Argument},
    Operands kinds operands args ↔ List.Forall₂ Writes operands args ∧ Argument.AllFit args kinds
  | [], operands, args => by
    constructor
    · rintro ⟨⟩
      exact ⟨.nil, List.Forall₂.nil⟩
    · rintro ⟨written, fits⟩
      obtain rfl := fits.nil
      obtain rfl := List.forall₂_nil_right_iff.mp written
      exact .nil
  | kind :: kinds, operands, args => by
    constructor
    · rintro (_ | ⟨first, rest⟩)
      obtain ⟨written, fits⟩ := operand_iff.mp first
      obtain ⟨allWritten, allFit⟩ := operands_iff.mp rest
      rw [String.toList_ofList] at written
      exact ⟨.cons written allWritten, .cons fits allFit⟩
    · rintro ⟨written, fits⟩
      obtain ⟨arg, args, fit, allFit, rfl⟩ := List.forall₂_cons_right_iff.mp fits
      obtain ⟨operand, operands, first, rest, rfl⟩ := List.forall₂_cons_right_iff.mp written
      refine .cons (operand_iff.mpr ⟨?_, fit⟩) (operands_iff.mpr ⟨rest, allFit⟩)
      rwa [String.toList_ofList]

end Listing

/-- An opcode is found by its mnemonic, in letters of any case. -/
theorem Opcode.ofMnemonic?_eq_some_iff {text : String} {opcode : Opcode} :
    ofMnemonic? text = some opcode ↔
      sameIgnoringCase opcode.mnemonic.toList text.toList = true := by
  constructor
  · intro h
    have same := List.find?_some h
    exact same
  · intro same
    have lower := beq_iff_eq.mp same
    rw [← ofMnemonic?_mnemonic opcode]
    simp only [ofMnemonic?, sameIgnoringCase, lower]

namespace Listing

theorem operationLine_iff {line : List (List Char)} {op : Opcode × List Argument} :
    OperationLine line op ↔ WritesOperation line op := by
  constructor
  · rintro ⟨named, positions⟩
    obtain ⟨written, fits⟩ := operands_iff.mp positions
    refine .mk (Opcode.ofMnemonic?_eq_some_iff.mpr ?_) written fits
    rwa [String.toList_ofList]
  · rintro ⟨found, written, fits⟩
    refine .mk ?_ (operands_iff.mpr ⟨written, fits⟩)
    have := Opcode.ofMnemonic?_eq_some_iff.mp found
    rwa [String.toList_ofList] at this

theorem grammar_iff {text : String} {p : Program} :
    Grammar text p ↔ ∃ header body ops, tokens text.toList = header :: body ∧ IsHeader header ∧
      List.Forall₂ WritesOperation body ops ∧ p = Program.numbered ops := by
  constructor
  · rintro ⟨lines, named, operations, orders⟩
    refine ⟨_, _, p.operations, lines, ⟨_, rfl, named⟩, ?_,
      (Program.numbered_operations orders).symm⟩
    exact operations.imp fun _ _ => operationLine_iff.mp
  · rintro ⟨_, body, ops, lines, ⟨header, rfl, named⟩, written, rfl⟩
    refine ⟨lines, named, ?_, ?_⟩
    · rw [Program.operations, Program.numbered, Program.map_operation_numberedFrom]
      exact written.imp fun _ _ => operationLine_iff.mpr
    · rw [Program.numbered, Program.map_order_numberedFrom, Program.length_numberedFrom]

end Listing

namespace Program

/-- The reader of listings accepts exactly what is in the grammar, as the program that it gives, and
refuses anything else with one of three exit codes. -/
theorem ofListing_grammar (text : String) :
    (∀ p, ofListing text = .ok p ↔ Listing.Grammar text p) ∧
      ∀ e, ofListing text = .error e → e.code = 21 ∨ e.code = 22 ∨ e.code = 23 := by
  refine ⟨fun p => ofListing_eq_ok_iff.trans Listing.grammar_iff.symm, fun e _ => ?_⟩
  cases e <;> simp [ListingError.code]

/-- A listing with a comment, an empty line and letters of both cases is in the grammar. With a word
too many behind its first mnemonic it is refused. -/
theorem ofListing_grammar_commented :
    Listing.Grammar ".ippcode23 # version\n\n Label end#\njumpifeq end GF@x string@\\035@\r\n"
      (numbered [(.label, [.label "end"]),
        (.jumpIf .direct true, [.label "end", .var ⟨.gf, "x"⟩, .constant (.string "#@")])]) ∧
    ofListing ".IPPcode23\nLABEL end end" = .error (.arity 2 .label 1 2) ∧
    (ListingError.arity 2 .label 1 2).code = 23 := by
  have refused : ofListing ".IPPcode23\nLABEL end end" = .error (.arity 2 .label 1 2) := by
    decide +kernel
  refine ⟨((ofListing_grammar _).1 _).mp (by decide +kernel), refused, ?_⟩
  rcases (ofListing_grammar _).2 _ refused with code | code | code
  · cases code
  · cases code
  · exact code

end Program

end Ippcode
