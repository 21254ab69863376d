import Ippcode.Proofs.Machine.Reach
import Ippcode.Proofs.Operation

/-!
# Checked programs keep their shape

A shape error says that an instruction does not fit its opcode, or that a label is defined twice.
`Machine.create` looks for both before anything happens, and `create_shapeSafe` says that this is
enough : no step of a machine that it has accepted ends in such an error, wherever the program
goes, whatever comes in and however the output streams behave.

The signature of an opcode and what `Instruction.perform` does with the arguments are written
apart from each other. `perform_shapeSafe` is where they meet : arguments that fit the signature
are arguments that every part of the instruction can use.
-/

namespace Ippcode

open Ippcode.Action

/-- An error about an instruction or a label as it is written. -/
def RuntimeError.IsShape : RuntimeError → Prop
  | malformed _ | duplicateLabel _ => True
  | _ => False

/-! ## Results without shape errors -/

/-- A result that is no shape error. -/
def ShapeSafe (r : Except RuntimeError α) : Prop := ∀ e, r = .error e → ¬ e.IsShape

namespace ShapeSafe

variable {r : Except RuntimeError α} {f : α → Except RuntimeError β}

@[simp] theorem ok (x : α) : ShapeSafe (.ok x) := nofun

/-- An error of another kind is allowed. -/
theorem error {e : RuntimeError} (h : ¬ e.IsShape) : ShapeSafe (.error e : Except RuntimeError α) :=
  fun _ he => by
    obtain rfl := Except.error.inj he
    exact h

/-- Steps one after another are safe if each of them is. -/
theorem bind (hr : ShapeSafe r) (hf : ∀ x, ShapeSafe (f x)) : ShapeSafe (r >>= f) := by
  cases r with
  | ok x => exact hf x
  | error e => exact error (hr e rfl)

/-- An error about operands is no shape error. -/
theorem of_operands (h : FailsByOperands r) : ShapeSafe r := by
  intro e he
  have operand := h e he
  cases e <;> first | exact operand.elim | exact nofun

/-- A stream that refuses is not the fault of the program. -/
theorem mapError_output (r : Except StreamError α) : ShapeSafe (r.mapError .output) := by
  cases r with
  | ok x => exact ok x
  | error e => exact error (by simp [RuntimeError.IsShape])

end ShapeSafe

/-! ### Memory and stacks -/

namespace Memory

variable (m : Memory) (v : VariableName)

/-- A frame that is missing is an error of the run and not of the program text. -/
theorem frame_shapeSafe (kind : FrameKind) : ShapeSafe (m.frame kind) := by
  unfold frame
  split
  · exact .ok _
  · split
    · exact .ok _
    · exact .error nofun
  · split
    · exact .ok _
    · exact .error nofun

/-- A variable that is missing in its frame is an error of the run as well. -/
theorem get_shapeSafe : ShapeSafe (m.get v) := by
  refine (m.frame_shapeSafe v.frame).bind fun f => ?_
  split
  · exact .ok _
  · exact .error nofun

/-- A variable that is declared again is not a label that is. -/
theorem declare_shapeSafe : ShapeSafe (m.declare v) := by
  refine (m.frame_shapeSafe v.frame).bind fun f => ?_
  split
  · exact .error nofun
  · exact .ok _

theorem assign_shapeSafe (x : Value) : ShapeSafe (m.assign v x) := by
  refine (m.frame_shapeSafe v.frame).bind fun f => ?_
  split
  · exact .ok _
  · exact .error nofun

/-- Moving frames may find no frame to move. -/
theorem pushTemporary_shapeSafe : ShapeSafe m.pushTemporary := by
  unfold pushTemporary
  split
  · exact .ok _
  · exact .error nofun

theorem popLocal_shapeSafe : ShapeSafe m.popLocal := by
  unfold popLocal
  split
  · exact .ok _
  · exact .error nofun

end Memory

namespace Environment

variable (e : Environment)

/-- A jump may look for a label that nobody defines. This is not known before. -/
theorem label_shapeSafe (name : String) : ShapeSafe (e.label name) := by
  unfold label
  split
  · exact .ok _
  · exact .error nofun

/-- A return may find no call. -/
theorem popCall_shapeSafe : ShapeSafe e.popCall := by
  unfold popCall
  split
  · exact .ok _
  · exact .error nofun

/-- The data stack may be empty. -/
theorem popData_shapeSafe : ShapeSafe e.popData := by
  unfold popData
  split
  · exact .ok _
  · exact .error nofun

end Environment

/-! ## Actions without shape errors -/

namespace Action

/-- An action that never fails with a shape error, whatever it works on. -/
def IsShapeSafe (act : Action α) : Prop := ∀ c, ShapeSafe (act.on c).1

namespace IsShapeSafe

variable {act : Action α} {f : α → Action β}

protected theorem pure (x : α) : IsShapeSafe (pure x) := fun _ => .ok x

/-- An action may fail with any error of another kind. -/
theorem throw {e : RuntimeError} (h : ¬ e.IsShape) : IsShapeSafe (throw e : Action α) :=
  fun _ => .error h

/-- Actions one after another are safe if each of them is, in whatever context. -/
theorem bind (hact : act.IsShapeSafe) (hf : ∀ x, (f x).IsShapeSafe) :
    (act >>= f).IsShapeSafe := by
  intro c
  have first := hact c
  rw [on_bind]
  generalize act.on c = r at first ⊢
  rcases r with ⟨e | x, c'⟩
  · exact .error (first e rfl)
  · exact hf x c'

/-- An action that gives a safe result whatever the context. -/
theorem lift {r : Except RuntimeError α} (h : ShapeSafe r) : IsShapeSafe (lift r) := fun _ => h

/-- Operations fail by their operands, which is safe. -/
theorem compute {r : Except RuntimeError α} (h : FailsByOperands r) : IsShapeSafe (Action.lift r) :=
  lift (.of_operands h)

/-- Looking something up in the environment is as safe as what is looked up. -/
theorem inspect {f : Environment → Except RuntimeError α} (h : ∀ e, ShapeSafe (f e)) :
    IsShapeSafe (inspect f) := fun c => h c.environment

theorem modifyGet (f : Context → α × Context) : IsShapeSafe (modifyGet f : Action α) :=
  fun c => .ok (f c).1

theorem change (f : Environment → Environment) : IsShapeSafe (change f) := fun _ => .ok ()

/-- Taking something out of the environment is as safe as what is taken. -/
theorem take {f : Environment → Except RuntimeError (α × Environment)}
    (h : ∀ e, ShapeSafe (f e)) : IsShapeSafe (take f) :=
  (inspect h).bind fun _ => (modifyGet _).bind fun _ => .pure _

/-- A change of memory is safe if it is so for every memory. -/
theorem changeMemory {f : Memory → Except RuntimeError Memory} (h : ∀ m, ShapeSafe (f m)) :
    IsShapeSafe (changeMemory f) :=
  (inspect fun e => h e.memory).bind fun _ => change _

end IsShapeSafe

/-- Looking for the destination of a result. -/
theorem target_shapeSafe (v : VariableName) : (target v).IsShapeSafe :=
  (IsShapeSafe.inspect fun e => e.memory.get_shapeSafe v).bind fun _ => .pure _

theorem store_shapeSafe (v : VariableName) (x : Value) : (store v x).IsShapeSafe :=
  .changeMemory fun m => m.assign_shapeSafe v x

theorem valueOf?_shapeSafe (v : VariableName) : (valueOf? v).IsShapeSafe :=
  (IsShapeSafe.inspect fun e => e.memory.get_shapeSafe v).bind fun _ => .pure _

/-- Reading a variable, which may be without a value. -/
theorem valueOf_shapeSafe (v : VariableName) : (valueOf v).IsShapeSafe := by
  refine (valueOf?_shapeSafe v).bind fun found => ?_
  cases found with
  | some x => exact .pure x
  | none => exact .throw nofun

/-- Looking for the destination of a jump. -/
theorem position_shapeSafe (label : String) : (position label).IsShapeSafe :=
  .inspect fun e => e.label_shapeSafe label

theorem pop_shapeSafe : pop.IsShapeSafe := .take Environment.popData_shapeSafe

theorem print_shapeSafe (text : String) : (print text).IsShapeSafe :=
  (IsShapeSafe.modifyGet _).bind fun _ => .lift (.mapError_output _)

theorem report_shapeSafe (text : String) : (report text).IsShapeSafe :=
  (IsShapeSafe.modifyGet _).bind fun _ => .lift (.mapError_output _)

/-- Reading a line, for which the output is flushed first. -/
theorem readLine_shapeSafe : readLine.IsShapeSafe := by
  refine IsShapeSafe.bind (fun _ => .ok _) fun c => ?_
  refine (IsShapeSafe.lift (.mapError_output _)).bind fun _ => ?_
  exact IsShapeSafe.bind (fun _ => .ok _) fun _ => .pure _

end Action

/-! ## Instructions that fit their opcodes -/

namespace Instruction

variable {i : Instruction} {v : VariableName} {a b : Argument}

/-- An argument that fits a symbol is a variable or a constant, so there is something to read. -/
theorem operand_shapeSafe (i : Instruction) (ha : a.fits .symb = true) :
    (i.operand a).IsShapeSafe := by
  rcases Argument.fits_symb_iff.mp ha with ⟨v, rfl⟩ | ⟨x, rfl⟩
  · exact valueOf_shapeSafe v
  · exact .pure x

theorem operand?_shapeSafe (i : Instruction) (ha : a.fits .symb = true) :
    (i.operand? a).IsShapeSafe := by
  rcases Argument.fits_symb_iff.mp ha with ⟨v, rfl⟩ | ⟨x, rfl⟩
  · exact valueOf?_shapeSafe v
  · exact .pure _

/-! ### Parts of instructions -/

/-- The arguments of an operation that fit are all there, and each can be used. -/
theorem computeUnary_shapeSafe (h : Argument.AllFit i.args [.var, .symb])
    {f : Value → Except RuntimeError Value} (hf : ∀ x, FailsByOperands (f x)) :
    (i.computeUnary f).IsShapeSafe := by
  obtain ⟨v, _, hargs, h⟩ := h.var
  obtain ⟨a, _, rfl, ha, h⟩ := h.symb
  obtain rfl := h.nil
  unfold computeUnary
  rw [hargs]
  refine (target_shapeSafe v).bind fun _ => (i.operand_shapeSafe ha).bind fun x => ?_
  exact (IsShapeSafe.compute (hf x)).bind fun z => store_shapeSafe v z

theorem computeBinary_shapeSafe (h : Argument.AllFit i.args [.var, .symb, .symb])
    {f : Value → Value → Except RuntimeError Value} (hf : ∀ x y, FailsByOperands (f x y)) :
    (i.computeBinary f).IsShapeSafe := by
  obtain ⟨v, _, hargs, h⟩ := h.var
  obtain ⟨a, _, rfl, ha, h⟩ := h.symb
  obtain ⟨b, _, rfl, hb, h⟩ := h.symb
  obtain rfl := h.nil
  unfold computeBinary
  rw [hargs]
  refine (target_shapeSafe v).bind fun _ => (i.operand_shapeSafe ha).bind fun x => ?_
  refine (i.operand_shapeSafe hb).bind fun y => ?_
  exact (IsShapeSafe.compute (hf x y)).bind fun z => store_shapeSafe v z

/-- On the stack there are no arguments that could fail to fit. -/
theorem computeTop_shapeSafe {f : Value → Except RuntimeError Value}
    (hf : ∀ x, FailsByOperands (f x)) : (computeTop f).IsShapeSafe :=
  pop_shapeSafe.bind fun x => (IsShapeSafe.compute (hf x)).bind fun _ => .change _

theorem computeTopTwo_shapeSafe {f : Value → Value → Except RuntimeError Value}
    (hf : ∀ x y, FailsByOperands (f x y)) : (computeTopTwo f).IsShapeSafe :=
  pop_shapeSafe.bind fun y => pop_shapeSafe.bind fun x =>
    (IsShapeSafe.compute (hf x y)).bind fun _ => .change _

/-- The destination of a replacement is its first operand as well. -/
theorem replaceChar_shapeSafe (h : Argument.AllFit i.args [.var, .symb, .symb]) :
    i.replaceChar.IsShapeSafe := by
  obtain ⟨v, _, hargs, h⟩ := h.var
  obtain ⟨a, _, rfl, ha, h⟩ := h.symb
  obtain ⟨b, _, rfl, hb, h⟩ := h.symb
  obtain rfl := h.nil
  unfold replaceChar
  rw [hargs]
  refine (target_shapeSafe v).bind fun _ => (valueOf_shapeSafe v).bind fun s => ?_
  refine (i.operand_shapeSafe ha).bind fun x => (i.operand_shapeSafe hb).bind fun y => ?_
  exact (IsShapeSafe.compute (s.setChar_failsByOperands x y)).bind fun z => store_shapeSafe v z

theorem storeType_shapeSafe (h : Argument.AllFit i.args [.var, .symb]) :
    i.storeType.IsShapeSafe := by
  obtain ⟨v, _, hargs, h⟩ := h.var
  obtain ⟨a, _, rfl, ha, h⟩ := h.symb
  obtain rfl := h.nil
  unfold storeType
  rw [hargs]
  exact (target_shapeSafe v).bind fun _ => (i.operand?_shapeSafe ha).bind fun _ =>
    store_shapeSafe v _

/-- A type that fits says how a line is read, and a line that cannot be read gives `nil`. -/
theorem readInput_shapeSafe (h : Argument.AllFit i.args [.var, .type]) :
    i.readInput.IsShapeSafe := by
  obtain ⟨v, _, hargs, h⟩ := h.var
  obtain ⟨ty, _, rfl, hnil⟩ := h.type
  obtain rfl := hnil.nil
  unfold readInput
  rw [hargs]
  exact (target_shapeSafe v).bind fun _ => readLine_shapeSafe.bind fun _ => store_shapeSafe v _

/-- The destination has to be there before a value is taken. -/
theorem popInto_shapeSafe (h : Argument.AllFit i.args [.var]) : i.popInto.IsShapeSafe := by
  obtain ⟨v, _, hargs, h⟩ := h.var
  obtain rfl := h.nil
  unfold popInto
  rw [hargs]
  exact (target_shapeSafe v).bind fun _ => pop_shapeSafe.bind fun x => store_shapeSafe v x

/-- A declaration uses the name of its variable and not its value. -/
theorem declare_shapeSafe (h : Argument.AllFit i.args [.var]) : i.declare.IsShapeSafe := by
  obtain ⟨v, _, hargs, h⟩ := h.var
  obtain rfl := h.nil
  unfold declare
  rw [hargs]
  exact .changeMemory fun m => m.declare_shapeSafe v

/-- What is done with an operand has to be safe for all of its values. -/
theorem withOperand_shapeSafe (h : Argument.AllFit i.args [.symb]) {f : Value → Action α}
    (hf : ∀ x, (f x).IsShapeSafe) : (i.withOperand f).IsShapeSafe := by
  obtain ⟨a, _, hargs, ha, h⟩ := h.symb
  obtain rfl := h.nil
  unfold withOperand
  rw [hargs]
  exact (i.operand_shapeSafe ha).bind hf

/-- A jump to a label that fits is safe, if what is done before it is. -/
theorem jumpAfter_shapeSafe (h : Argument.AllFit i.args [.label]) {before : Action Unit}
    (hbefore : before.IsShapeSafe) : (i.jumpAfter before).IsShapeSafe := by
  obtain ⟨name, _, hargs, h⟩ := h.label
  obtain rfl := h.nil
  unfold jumpAfter
  rw [hargs]
  exact (position_shapeSafe name).bind fun _ => hbefore.bind fun _ => .pure _

/-- A conditional jump needs its label and its operands, or takes these from the stack. -/
theorem jumpIf_shapeSafe {form : Form} {equal : Bool}
    (h : Argument.AllFit i.args (Opcode.jumpIf form equal).signature) :
    (i.jumpIf form equal).IsShapeSafe := by
  cases form with
  | direct =>
    obtain ⟨name, _, hargs, h⟩ := h.label
    obtain ⟨a, _, rfl, ha, h⟩ := h.symb
    obtain ⟨b, _, rfl, hb, h⟩ := h.symb
    obtain rfl := h.nil
    unfold jumpIf
    rw [hargs]
    refine (position_shapeSafe name).bind fun _ => (i.operand_shapeSafe ha).bind fun x => ?_
    refine (i.operand_shapeSafe hb).bind fun y => ?_
    exact (IsShapeSafe.compute (x.jumpEqual_failsByOperands y)).bind fun _ => .pure _
  | stack =>
    obtain ⟨name, _, hargs, h⟩ := h.label
    obtain rfl := h.nil
    unfold jumpIf
    rw [hargs]
    refine (position_shapeSafe name).bind fun _ => pop_shapeSafe.bind fun y => ?_
    refine pop_shapeSafe.bind fun x => ?_
    exact (IsShapeSafe.compute (x.jumpEqual_failsByOperands y)).bind fun _ => .pure _

theorem exit_shapeSafe (h : Argument.AllFit i.args [.symb]) : i.exit.IsShapeSafe :=
  withOperand_shapeSafe h fun x =>
    (IsShapeSafe.compute x.exitCode_failsByOperands).bind fun _ => .pure _

/-- Going on to the next instruction adds no error. -/
theorem goOn_shapeSafe {act : Action Unit} (h : act.IsShapeSafe) : (goOn act).IsShapeSafe :=
  h.bind fun _ => .pure _

/-! ### All instructions -/

/-- An instruction that fits its opcode never fails with a shape error. -/
theorem perform_shapeSafe (fits : i.Fits) (here : Nat) : (i.perform here).IsShapeSafe := by
  unfold Fits at fits
  unfold perform
  cases hop : i.opcode with rw [hop] at fits
  | move => exact goOn_shapeSafe (computeUnary_shapeSafe fits FailsByOperands.ok)
  | createFrame => exact goOn_shapeSafe (.changeMemory fun _ => .ok _)
  | pushFrame => exact goOn_shapeSafe (.changeMemory Memory.pushTemporary_shapeSafe)
  | popFrame => exact goOn_shapeSafe (.changeMemory Memory.popLocal_shapeSafe)
  | defVar => exact goOn_shapeSafe (declare_shapeSafe fits)
  | call => exact jumpAfter_shapeSafe fits (.change _)
  | ret => exact (IsShapeSafe.take Environment.popCall_shapeSafe).bind fun _ => .pure _
  | pushS => exact goOn_shapeSafe (withOperand_shapeSafe fits fun _ => .change _)
  | popS => exact goOn_shapeSafe (popInto_shapeSafe fits)
  | clearS => exact goOn_shapeSafe (.change _)
  | binary form op =>
    cases form with
    | direct => exact goOn_shapeSafe (computeBinary_shapeSafe fits op.apply_failsByOperands)
    | stack => exact goOn_shapeSafe (computeTopTwo_shapeSafe op.apply_failsByOperands)
  | unary form op =>
    cases form with
    | direct => exact goOn_shapeSafe (computeUnary_shapeSafe fits op.apply_failsByOperands)
    | stack => exact goOn_shapeSafe (computeTop_shapeSafe op.apply_failsByOperands)
  | read => exact goOn_shapeSafe (readInput_shapeSafe fits)
  | write => exact goOn_shapeSafe (withOperand_shapeSafe fits fun x => print_shapeSafe x.text)
  | concat => exact goOn_shapeSafe (computeBinary_shapeSafe fits Value.concat_failsByOperands)
  | strLen => exact goOn_shapeSafe (computeUnary_shapeSafe fits Value.strLen_failsByOperands)
  | getChar => exact goOn_shapeSafe (computeBinary_shapeSafe fits Value.getChar_failsByOperands)
  | setChar => exact goOn_shapeSafe (replaceChar_shapeSafe fits)
  | type => exact goOn_shapeSafe (storeType_shapeSafe fits)
  | label => exact goOn_shapeSafe (.pure _)
  | jump => exact jumpAfter_shapeSafe fits (.pure _)
  | jumpIf form equal => exact jumpIf_shapeSafe fits
  | exit => exact exit_shapeSafe fits
  | dPrint => exact goOn_shapeSafe (withOperand_shapeSafe fits fun x => report_shapeSafe x.text)
  | breakpoint =>
    exact goOn_shapeSafe (IsShapeSafe.bind (fun _ => .ok _) fun _ => report_shapeSafe _)

end Instruction

/-! ## Accepted programs -/

namespace Machine

variable {m n : Machine}

/-- A step of a machine whose instructions fit their opcodes raises no shape error. -/
theorem step_shapeSafe (fits : ∀ i ∈ m.instructions, i.Fits) {fault : Fault}
    (h : m.step.result = .error fault) : ¬ fault.error.IsShape := by
  cases running : m.ending with
  | some ending =>
    rw [step_of_ending running] at h
    cases h
  | none =>
    cases hi : m.instructions[m.position]? with
    | none =>
      rw [step_of_end running hi, finish] at h
      cases h
    | some i =>
      have safe := Instruction.perform_shapeSafe (fits i (Array.mem_of_getElem? hi)) m.position
        m.context
      rw [step_of_instruction running hi] at h
      generalize (i.perform m.position).on m.context = r at safe h
      rcases r with ⟨e | flow, c⟩
      · obtain rfl := Except.error.inj h
        exact safe e rfl
      · cases flow <;> cases h

/-- In an accepted program every argument is what its position demands, so no instruction fails
with a shape error in any context, and no step of any run does. -/
theorem create_shapeSafe {p : Program} {console : Console} (h : create p console = .ok m) :
    (∀ i ∈ p.instructions, i.Fits ∧ ∀ here c e, ((i.perform here).on c).1 = .error e →
      ¬ e.IsShape) ∧
    ∀ n, m.Reaches n → ∀ fault, n.step.result = .error fault → ¬ fault.error.IsShape := by
  obtain ⟨e, he, rfl⟩ := create_eq_ok h
  have fits := fits_of_enterAll he
  refine ⟨fun i hi => ⟨fits i hi, Instruction.perform_shapeSafe (fits i hi)⟩, ?_⟩
  intro n reached fault hfault
  have same : n.instructions = p.instructions.toArray := reached.instructions
  refine step_shapeSafe (fun i hi => fits i ?_) hfault
  rw [same] at hi
  exact List.mem_toArray.mp hi

/-- A program that pops what is not there. -/
def popping : Program := .numbered [(.label, [.label "a"]), (.popS, [.var ⟨.tf, "x"⟩])]

/-- Its second step is a fault, but not one of shape. -/
theorem create_shapeSafe_popping :
    ∃ (m : Machine) (fault : Fault),
      create popping ⟨.stream [], .unlimited, ⟨[], some 0, false⟩⟩ = .ok m ∧
        m.step.machine.step.result = .error fault ∧ ¬ fault.error.IsShape := by
  have created : create popping ⟨.stream [], .unlimited, ⟨[], some 0, false⟩⟩ = .ok _ := rfl
  exact ⟨_, _, created, rfl, (create_shapeSafe created).2 _ (.step .start) _ rfl⟩

end Machine

end Ippcode
