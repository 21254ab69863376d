import Ippcode.Proofs.Document.Grammar
import Ippcode.Proofs.Listing.RoundTrip
import Ippcode.Proofs.Machine.Dialogue
import Ippcode.Proofs.Machine.Shape
import Ippcode.Proofs.Machine.Start
import Ippcode.Source
import Ippcode.Xml.Document

/-!
# Programs that the readers accept

Both readers give well-formed programs only (`Program.IsWellFormed`) : instructions fit their
opcodes, orders are positive and increase, and names are as names have to be. What tokens and
elements write is the same relation for both (`Listing.Writes`), so names are looked at once.

A program whose instructions fit is refused for one reason only : a label is defined again. The
instruction to blame is the first one that defines a label which is there already
(`Machine.repeats_of_refused`), and in front of it no label has been defined twice
(`Program.Repeats`). Once a machine has been made, no step and no run of it meets a malformed
instruction (`Program.ofForm_runnable`). All this does not depend on the parser of documents.
-/

namespace Ippcode

/-! ## Well-formed programs -/

/-- Whether the names in an argument are as they have to be. -/
def Argument.IsNamed : Argument → Prop
  | var v => isIdentifier v.name = true
  | constant _ => True
  | label name => isIdentifier name = true
  | type ty => ty.isReadable = true

/-- What the tokens of a listing write is named as it has to be. -/
theorem Listing.Writes.isNamed {token : List Char} {arg : Argument} (h : Writes token arg) :
    arg.IsNamed := by
  cases h with
  | var h | label h | type h => exact h
  | constant => exact trivial

/-- What can be written is named as it has to be. -/
theorem Argument.IsWritable.isNamed : ∀ {arg : Argument}, arg.IsWritable → arg.IsNamed
  | .var _, h | .label _, h | .type _, h => h
  | .constant _, _ => trivial

namespace Program

/-- What a program has to be like apart from its labels. -/
structure IsWellFormed (p : Program) : Prop where
  fits : ∀ i ∈ p.instructions, i.misfit? = none
  positive : ∀ i ∈ p.instructions, 0 < i.order
  increasing : (p.instructions.map Instruction.order).Pairwise (· < ·)
  named : ∀ i ∈ p.instructions, ∀ arg ∈ i.args, arg.IsNamed

variable {p : Program} {text : String}

theorem isWellFormed_of_ofListing (h : ofListing text = .ok p) : p.IsWellFormed := by
  have written := isWritable_of_ofListing h
  have orders : p.instructions.map Instruction.order = List.range' 1 p.instructions.length :=
    isNumbered_of_ofListing h
  refine ⟨fun i hi => (written i hi).fits, fun i hi => ?_, ?_,
    fun i hi arg harg => ((written i hi).args arg harg).isNamed⟩
  · have order := List.mem_map_of_mem (f := Instruction.order) hi
    rw [orders] at order
    exact (List.mem_range'_1.mp order).1
  · rw [orders]
    exact List.pairwise_lt_range'

end Program

namespace Document

/-- What the text of an element writes is named as it has to be. -/
theorem Content.isNamed {kind text : String} {arg : Argument} (h : Content kind text arg) :
    arg.IsNamed := by
  cases h with
  | var operand | label operand | type operand => exact (Listing.operand_iff.mp operand).1.isNamed
  | string | constant => exact trivial

theorem IsInstruction.isNamed {e : Xml.Element} {i : Instruction} (h : IsInstruction e i) :
    ∀ arg ∈ i.args, arg.IsNamed := by
  intro arg harg
  obtain ⟨sorted, -, -, areArguments⟩ := h.args
  obtain ⟨argument, -, isArgument⟩ := exists_left_of_mem areArguments harg
  obtain ⟨kind, -, content⟩ := isArgument.content
  exact content.isNamed

theorem IsDocument.isWellFormed {root : Xml.Element} {p : Program} (h : IsDocument root p) :
    p.IsWellFormed := by
  have written : ∀ i ∈ p.instructions, ∃ e, IsInstruction e i := by
    intro i hi
    obtain ⟨e, -, isInstruction⟩ := exists_left_of_mem h.instructions hi
    exact ⟨e, isInstruction⟩
  refine ⟨fun i hi => ?_, fun i hi => ?_, h.increasing, fun i hi => ?_⟩
  all_goals obtain ⟨e, isInstruction⟩ := written i hi
  · exact Instruction.misfit?_eq_none_iff.mpr isInstruction.fits
  · exact isInstruction.order_pos
  · exact isInstruction.isNamed

end Document

namespace Program

variable {p : Program} {text : String}

theorem isWellFormed_of_ofElement {root : Xml.Element} (h : ofElement root = .ok p) :
    p.IsWellFormed :=
  (Document.readsProgram_iff.mp (ofElement_eq_ok_iff.mp h)).isWellFormed

section

variable [Xml.Parser]

/-- What is read of a document is read of the tree that the parser gives. -/
theorem ofDocument_eq_ok_iff : ofDocument text = .ok p ↔
    ∃ root, Xml.Parser.parse text = .ok root ∧ ofElement root = .ok p := by
  unfold ofDocument
  cases Xml.Parser.parse text with
  | error said => exact ⟨nofun, nofun⟩
  | ok root =>
    refine ⟨fun h => ⟨root, rfl, h⟩, ?_⟩
    rintro ⟨_, ⟨⟩, h⟩
    exact h

theorem ofListing_of_ofForm (h : ofForm .listing text = .ok p) : ofListing text = .ok p :=
  mapError_eq_ok_iff.mp h

theorem ofDocument_of_ofForm (h : ofForm .document text = .ok p) : ofDocument text = .ok p :=
  mapError_eq_ok_iff.mp h

/-- However a program is written, what is read is well formed. -/
theorem isWellFormed_of_ofForm : ∀ {form : SourceForm}, ofForm form text = .ok p → p.IsWellFormed
  | .listing, h => isWellFormed_of_ofListing (ofListing_of_ofForm h)
  | .document, h => by
    obtain ⟨root, -, read⟩ := ofDocument_eq_ok_iff.mp (ofDocument_of_ofForm h)
    exact isWellFormed_of_ofElement read

end

end Program

/-! ## Labels that are defined again -/

namespace Program

/-- The instruction at the second position is the first one in the program that defines a label once
more, and the other one that defines it is at the first position. -/
structure Repeats (p : Program) (name : String) (first second : Nat) : Prop where
  before : first < second
  defines : p.Defines name first
  again : p.Defines name second
  distinct : ∀ (other : String) (j k : Nat), j < second → k < second →
    p.Defines other j → p.Defines other k → j = k

end Program

namespace Machine

variable {p : Program} {console : Console} {m : Machine}

/-- A program whose instructions fit their opcodes is refused at the first label that is defined
again. -/
theorem repeats_of_refused {fault : Fault} (fits : ∀ i ∈ p.instructions, i.misfit? = none)
    (refused : create p console = .error fault) :
    ∃ name first second i, p.Repeats name first second ∧ p.instructions[second]? = some i ∧
      fault = .of i (.duplicateLabel name) := by
  obtain ⟨second, blamed, blameless⟩ := create_refused refused
  cases blamed with
  | malformed here checked =>
    cases (fits _ (List.mem_of_getElem? here)).symm.trans checked
  | @repeated i name first here again before defines =>
    have distinct (other : String) (j k : Nat) (hj : j < second) (hk : k < second)
        (h : p.Defines other j) (h' : p.Defines other k) : j = k :=
      h.eq (fun fault => blameless j fault hj) (fun fault => blameless k fault hk) h'
    exact ⟨name, first, second, i, ⟨before, defines, again, distinct⟩, here, rfl⟩

/-- A fault that ends a run is a fault of one of its steps. -/
theorem exists_fault_of_run {σ : Type} {update : σ → Event → σ} {fault : Fault} :
    ∀ (limit : Nat) (s : σ) {n : Machine}, m.Reaches n →
      (run update limit s n).outcome = some (.error fault) →
        ∃ k, m.Reaches k ∧ k.step.result = .error fault
  | 0, _, _, _, h => nomatch h
  | limit + 1, s, n, reached, h => by
    cases now : n.step.outcome? with
    | none =>
      rw [run_of_running now] at h
      exact exists_fault_of_run limit _ reached.step h
    | some outcome =>
      rw [run_of_outcome now] at h
      obtain rfl : outcome = .error fault := Option.some.inj h
      refine ⟨n, reached, ?_⟩
      unfold Turn.outcome? at now
      split at now
      · cases now
      · cases now
      · next result =>
        rw [result, Except.error.inj (Option.some.inj now)]

end Machine

/-! ## What becomes of an accepted program -/

namespace Program

/-- What a reader accepts can run, whatever parser reads documents. It is well formed, and a listing
numbers its instructions from one on. A machine is made of it if no label is defined twice;
otherwise the fault is that of the second instruction that defines the same label, the first one of
the program that repeats a label. And whatever the streams do, no step and no run of the machine
meets a malformed instruction. -/
theorem ofForm_runnable [Xml.Parser] {form : SourceForm} {text : String} {p : Program}
    (accepted : ofForm form text = .ok p) :
    p.IsWellFormed ∧ (form = .listing → p.IsNumbered) ∧
    ∀ console : Console, match Machine.create p console with
      | .ok m =>
        (∀ (name : String) (j k : Nat), p.Defines name j → p.Defines name k → j = k) ∧
        (∀ (n : Machine) (fault : Fault), m.Reaches n → n.step.result = .error fault →
          ∀ misfit, fault.error ≠ .malformed misfit) ∧
        ∀ (σ : Type) (update : σ → Event → σ) (limit : Nat) (s : σ) (fault : Fault),
          (Machine.run update limit s m).outcome = some (.error fault) →
            ∀ misfit, fault.error ≠ .malformed misfit
      | .error fault => ∃ name first second i, p.Repeats name first second ∧
        p.instructions[second]? = some i ∧ fault = .of i (.duplicateLabel name) := by
  have wellFormed := isWellFormed_of_ofForm accepted
  refine ⟨wellFormed, ?_, fun console => ?_⟩
  · rintro rfl
    exact isNumbered_of_ofListing (ofListing_of_ofForm accepted)
  · cases created : Machine.create p console with
    | error fault => exact Machine.repeats_of_refused wellFormed.fits created
    | ok m =>
      have safe {n : Machine} {fault : Fault} (reached : m.Reaches n)
          (h : n.step.result = .error fault) (misfit : Misfit) :
          fault.error ≠ .malformed misfit := by
        intro same
        have noShape := Machine.step_shapeSafe (reached.fits created) h
        rw [same] at noShape
        exact noShape trivial
      refine ⟨fun name j k => Machine.defines_unique created,
        fun n fault reached => safe reached, fun σ update limit s fault h => ?_⟩
      obtain ⟨k, reached, failed⟩ := Machine.exists_fault_of_run limit s .start h
      exact safe reached failed

/-- A program that defines a label twice. -/
def repeating : Program :=
  .numbered [(.label, [.label "a"]), (.write, [.var ⟨.gf, "x"⟩]), (.label, [.label "a"])]

/-- A program that prints a variable without declaring it. -/
def undeclared : Program := ⟨[⟨7, .write, [.var ⟨.gf, "x"⟩]⟩]⟩

/-- The listing of the first program is refused at its third instruction. The document of the second
one is accepted, and its fault is no matter of how it is written. -/
theorem ofForm_runnable_repeating :
    ofSource ".IPPcode23\nLABEL a\nWRITE GF@x\nlabel a # again\n" = .ok repeating ∧
    repeating.IsNumbered ∧
    (∃ name first second i, repeating.Repeats name first second ∧
      repeating.instructions[second]? = some i ∧
      Machine.create repeating ⟨.lines [], .unlimited, .unlimited⟩ =
        .error (.of i (.duplicateLabel name))) ∧
    ofSource ("<program language='IPPcode23'><instruction order='7' opcode='write'>" ++
      "<arg1 type='var'>GF@x</arg1></instruction></program>") = .ok undeclared ∧
    undeclared.IsWellFormed ∧
    ∃ m fault, Machine.create undeclared ⟨.lines [], .unlimited, .unlimited⟩ = .ok m ∧
      (Machine.run (fun (count : Nat) _ => count + 1) 1 0 m).outcome = some (.error fault) ∧
      ∀ misfit, fault.error ≠ .malformed misfit := by
  have listed : ofSource ".IPPcode23\nLABEL a\nWRITE GF@x\nlabel a # again\n" = .ok repeating := by
    decide +kernel
  have documented : ofSource ("<program language='IPPcode23'><instruction order='7' opcode='write'>"
      ++ "<arg1 type='var'>GF@x</arg1></instruction></program>") = .ok undeclared := by
    decide +kernel
  obtain ⟨-, numbered, starts⟩ := ofForm_runnable listed
  have refused := starts ⟨.lines [], .unlimited, .unlimited⟩
  have error : Machine.create repeating ⟨.lines [], .unlimited, .unlimited⟩ = .error _ := rfl
  rw [error] at refused
  obtain ⟨name, first, second, i, repeats, here, same⟩ := refused
  obtain ⟨wellFormed, -, starts⟩ := ofForm_runnable documented
  have runs := starts ⟨.lines [], .unlimited, .unlimited⟩
  have created : Machine.create undeclared ⟨.lines [], .unlimited, .unlimited⟩ = .ok _ := rfl
  rw [created] at runs
  obtain ⟨-, -, safe⟩ := runs
  exact ⟨listed, numbered (by decide +kernel),
    ⟨name, first, second, i, repeats, here, error.trans (congrArg Except.error same)⟩,
    documented, wellFormed, _, _, created, rfl, safe Nat (fun count _ => count + 1) 1 0 _ rfl⟩

end Program

end Ippcode
