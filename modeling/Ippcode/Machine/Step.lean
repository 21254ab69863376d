import Ippcode.Machine.Action

/-!
# Machines

A machine is a program with the position of its next instruction, its environment and its
streams. `Machine.create` checks all instructions and registers all labels, in the order of the
program, before anything happens. `Machine.step` fetches one instruction and performs it; it
tells what came of that, and which events there were to observe.

* A machine that has ended stays as it is, and tells its ending again.
* After a fault the position is still that of the instruction that raised it.
-/

namespace Ippcode

/-! ## Endings and events -/

/-- How a program ends without a fault. -/
inductive Termination where
  /-- There is no instruction at the next position. -/
  | completed
  /-- The program chose an exit code. -/
  | exit (code : Nat)
  deriving DecidableEq, Repr

/-- The exit code of an ending. -/
def Termination.code : Termination → Nat
  | completed => 0
  | exit code => code

/-- What there is to observe while a program runs. -/
inductive Event where
  /-- An instruction is about to be performed in this environment. -/
  | fetched (i : Instruction) (before : Environment)
  /-- A jump or a call has gone to a label, at this position. -/
  | transferred (i : Instruction) (label : String) (target : Nat)
  /-- The program has ended without a fault, in this environment. -/
  | finished (after : Environment)
  deriving DecidableEq

/-- Where a program stands after a step without a fault. -/
inductive Progress where
  | running
  | finished (ending : Termination)
  deriving DecidableEq, Repr

/-! ## Machines -/

/-- A program at some point of its execution. -/
structure Machine where
  instructions : Array Instruction
  /-- The position of the next instruction. -/
  position : Nat
  /-- How the program has ended, once it has. -/
  ending : Option Termination
  context : Context
  deriving DecidableEq

/-- What a step leaves behind, what came of it, and its events in their order. -/
structure Turn where
  machine : Machine
  result : Except Fault Progress
  events : List Event

/-! ### The start -/

/-- The label that an instruction defines. -/
def Instruction.definedLabel? (i : Instruction) : Option String :=
  match i.opcode, i.args with
  | .label, [.label name] => some name
  | _, _ => none

namespace Environment

/-- The environment with the label that an instruction defines, if it defines one. An instruction
that does not fit its opcode is refused. -/
def enter (e : Environment) (here : Nat) (i : Instruction) : Except RuntimeError Environment :=
  match i.misfit? with
  | some m => .error (.malformed m)
  | none =>
    match i.definedLabel? with
    | some name => e.registerLabel name here
    | none => .ok e

/-- The environment with the labels that instructions from a position on define. -/
def enterAll (e : Environment) : Nat → List Instruction → Except Fault Environment
  | _, [] => .ok e
  | here, i :: rest =>
    match e.enter here i with
    | .ok e => e.enterAll (here + 1) rest
    | .error error => .error (.of i error)

end Environment

namespace Machine

/-- A machine at the start of a program. -/
def create (p : Program) (console : Console) : Except Fault Machine := do
  let e ← Environment.empty.enterAll 0 p.instructions
  return ⟨p.instructions.toArray, 0, none, ⟨e, console⟩⟩

/-! ### Steps -/

/-- Ends a program. -/
def finish (m : Machine) (ending : Termination) (events : List Event) : Turn where
  machine := { m with ending := some ending }
  result := .ok (.finished ending)
  events := events ++ [.finished m.context.environment]

/-- Lets control go where an instruction says. -/
def follow (m : Machine) (i : Instruction) (events : List Event) : Flow → Turn
  | .next => ⟨{ m with position := m.position + 1 }, .ok .running, events⟩
  | .transfer label target =>
    ⟨{ m with position := target }, .ok .running, events ++ [.transferred i label target]⟩
  | .resume target => ⟨{ m with position := target }, .ok .running, events⟩
  | .halt code => m.finish (.exit code) events

/-- Performs the next instruction, if there is one. -/
def step (m : Machine) : Turn :=
  match m.ending with
  | some ending => ⟨m, .ok (.finished ending), []⟩
  | none =>
    match m.instructions[m.position]? with
    | none => m.finish .completed []
    | some i =>
      let events := [.fetched i m.context.environment]
      match (i.perform m.position).run.run m.context with
      | (.ok flow, context) => { m with context := context }.follow i events flow
      | (.error error, context) => ⟨{ m with context := context }, .error (.of i error), events⟩

/-! ### Exchange with the outside -/

/-- Whether the next instruction may ask for a line that has not arrived yet. -/
def awaitsLine (m : Machine) : Bool :=
  m.context.console.input == .stream []
    && ((m.instructions[m.position]?).map Instruction.opcode) == some .read

/-- The machine with bytes that have arrived on its input stream. -/
def supply (m : Machine) (bytes : List UInt8) : Machine :=
  let console := m.context.console
  match console.input with
  | .lines _ => m
  | .stream rest =>
    { m with context.console := { console with input := .stream (rest ++ bytes) } }

/-- The machine with output streams that have passed on what they had taken. -/
def drain (m : Machine) : Machine :=
  let console := m.context.console
  { m with
    context.console :=
      { console with
        output := { console.output with latest := [] }
        diagnostic := { console.diagnostic with latest := [] } } }

end Machine

end Ippcode
