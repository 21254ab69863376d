import Ippcode.Machine.Console
import Ippcode.Machine.Environment
import Ippcode.Operation

/-!
# What an instruction does

An `Action` works on the environment and the streams of a program and may fail. What it did
before it failed stays done, which matters for the data stack and for the streams.

Every instruction checks and acts in one order :

1. a label to jump to is looked up;
2. a variable for the result must be declared;
3. operands are fetched from left to right, or popped from right to left;
4. the operation itself is done;
5. its result is stored.

`Instruction.perform` says where control goes then.
-/

namespace Ippcode

/-! ## Actions -/

/-- Everything that an instruction can work on. -/
structure Context where
  environment : Environment
  console : Console
  deriving DecidableEq

/-- Something that works on a context, and either gives a result or fails. -/
abbrev Action := ExceptT RuntimeError (StateM Context)

namespace Action

/-- Gives the result of a computation that leaves the context alone. -/
def lift (result : Except RuntimeError α) : Action α := ExceptT.mk (pure result)

/-- Gives what a computation finds in the environment. -/
def inspect (f : Environment → Except RuntimeError α) : Action α := do
  lift (f (← get).environment)

/-- Takes something off the environment. -/
def take (f : Environment → Except RuntimeError (α × Environment)) : Action α := do
  let (x, e) ← inspect f
  modify fun c => { c with environment := e }
  return x

/-- Changes the environment. -/
def change (f : Environment → Environment) : Action Unit :=
  modify fun c => { c with environment := f c.environment }

/-- Changes the memory. -/
def changeMemory (f : Memory → Except RuntimeError Memory) : Action Unit := do
  let m ← inspect fun e => f e.memory
  change fun e => { e with memory := m }

/-! ### Operands and results -/

/-- Checks that a variable is declared. -/
def target (v : VariableName) : Action Unit := do
  let _ ← inspect fun e => e.memory.get v

/-- Gives a declared variable a value. -/
def store (v : VariableName) (x : Value) : Action Unit := changeMemory fun m => m.assign v x

/-- The value of a declared variable, if it has one. -/
def valueOf? (v : VariableName) : Action (Option Value) := do
  let found ← inspect fun e => e.memory.get v
  return found.value

/-- The value of a declared variable. -/
def valueOf (v : VariableName) : Action Value := do
  match ← valueOf? v with
  | some x => return x
  | none => throw (.uninitialized v)

/-- The position of a label. -/
def position (label : String) : Action Nat := inspect fun e => e.label label

/-- Pushes a value onto the data stack. -/
def push (x : Value) : Action Unit := change fun e => e.pushData x

/-- Pops the data stack. -/
def pop : Action Value := take Environment.popData

/-! ### Streams -/

/-- Prints a text. -/
def print (text : String) : Action Unit := do
  let result ← modifyGet fun c =>
    let (result, output) := c.console.output.write (Text.encode text)
    (result, { c with console := { c.console with output := output } })
  lift (result.mapError .output)

/-- Shows a text on the diagnostic stream. -/
def report (text : String) : Action Unit := do
  let result ← modifyGet fun c =>
    let (result, diagnostic) := c.console.diagnostic.write (Text.encode text)
    (result, { c with console := { c.console with diagnostic := diagnostic } })
  lift (result.mapError .output)

/-- Reads the next line. What has been printed is passed on first, so a question is seen before
its answer is awaited. -/
def readLine : Action (Option String) := do
  let c ← get
  lift (c.console.output.flush.mapError .output)
  let (line, input) := c.console.input.next
  set { c with console := { c.console with input := input } }
  return line

end Action

/-! ## Instructions -/

/-- Where control goes after an instruction. -/
inductive Flow where
  /-- To the next instruction. -/
  | next
  /-- To a label, at this position. -/
  | transfer (label : String) (target : Nat)
  /-- Back to the position behind a call. -/
  | resume (target : Nat)
  /-- Nowhere : the program ends with this exit code. -/
  | halt (code : Nat)
  deriving DecidableEq, Repr

namespace Instruction

open Ippcode.Action

/-- Fails because the arguments do not fit the opcode. -/
def malformed (i : Instruction) : Action α :=
  throw (.malformed (i.misfit?.getD (.arity i.opcode i.opcode.signature.length i.args.length)))

/-- The value of an operand. -/
def operand (i : Instruction) : Argument → Action Value
  | .constant x => return x
  | .var v => valueOf v
  | _ => i.malformed

/-- The value of an operand, if it has one. -/
def operand? (i : Instruction) : Argument → Action (Option Value)
  | .constant x => return some x
  | .var v => valueOf? v
  | _ => i.malformed

/-! ### Operations -/

/-- Computes with the operand in the second argument for the variable in the first one. -/
def computeUnary (i : Instruction) (f : Value → Except RuntimeError Value) : Action Unit :=
  match i.args with
  | [.var v, a] => do
    target v
    let x ← i.operand a
    store v (← lift (f x))
  | _ => i.malformed

/-- Computes with the operands in the second and third argument for the variable in the
first one. -/
def computeBinary (i : Instruction) (f : Value → Value → Except RuntimeError Value) :
    Action Unit :=
  match i.args with
  | [.var v, a, b] => do
    target v
    let x ← i.operand a
    let y ← i.operand b
    store v (← lift (f x y))
  | _ => i.malformed

/-- Replaces the top of the data stack by what is computed with it. -/
def computeTop (f : Value → Except RuntimeError Value) : Action Unit := do
  let x ← pop
  push (← lift (f x))

/-- Replaces the two topmost values of the data stack by what is computed with them. The right
operand is on top. -/
def computeTopTwo (f : Value → Value → Except RuntimeError Value) : Action Unit := do
  let y ← pop
  let x ← pop
  push (← lift (f x y))

/-- Replaces a character of the string in the variable in the first argument. -/
def replaceChar (i : Instruction) : Action Unit :=
  match i.args with
  | [.var v, a, b] => do
    target v
    let s ← valueOf v
    let x ← i.operand a
    let y ← i.operand b
    store v (← lift (s.setChar x y))
  | _ => i.malformed

/-- Stores the name of the type of an operand. -/
def storeType (i : Instruction) : Action Unit :=
  match i.args with
  | [.var v, a] => do
    target v
    let x ← i.operand? a
    store v (.string ((x.map fun x => x.ty.name).getD ""))
  | _ => i.malformed

/-- Reads a line of input into a variable. Without a line it gets `nil`. -/
def readInput (i : Instruction) : Action Unit :=
  match i.args with
  | [.var v, .type ty] => do
    target v
    let line ← readLine
    store v ((line.map (Value.ofLine ty)).getD .nil)
  | _ => i.malformed

/-- Pops the data stack into a variable. -/
def popInto (i : Instruction) : Action Unit :=
  match i.args with
  | [.var v] => do
    target v
    store v (← pop)
  | _ => i.malformed

/-- Declares a variable. -/
def declare (i : Instruction) : Action Unit :=
  match i.args with
  | [.var v] => changeMemory fun m => m.declare v
  | _ => i.malformed

/-- Does something with the only operand. -/
def withOperand (i : Instruction) (f : Value → Action α) : Action α :=
  match i.args with
  | [a] => do f (← i.operand a)
  | _ => i.malformed

/-! ### Control -/

/-- Jumps to the label in the only argument, after `before` is done. -/
def jumpAfter (i : Instruction) (before : Action Unit) : Action Flow :=
  match i.args with
  | [.label label] => do
    let target ← position label
    before
    return .transfer label target
  | _ => i.malformed

/-- Jumps if the equality of two operands is as asked for. -/
def jumpIf (i : Instruction) (form : Form) (equal : Bool) : Action Flow :=
  match form, i.args with
  | .direct, [.label label, a, b] => do
    let target ← position label
    let x ← i.operand a
    let y ← i.operand b
    let holds ← lift (x.jumpEqual y)
    return if holds == equal then .transfer label target else .next
  | .stack, [.label label] => do
    let target ← position label
    let y ← pop
    let x ← pop
    let holds ← lift (x.jumpEqual y)
    return if holds == equal then .transfer label target else .next
  | _, _ => i.malformed

/-- Goes on where the innermost call says. -/
def returnFromCall : Action Flow := do
  let target ← take Environment.popCall
  return .resume target

/-- Ends the program with the exit code in the only operand. -/
def exit (i : Instruction) : Action Flow :=
  i.withOperand fun x => do return .halt (← lift x.exitCode)

/-! ### Dispatch -/

/-- Does something and goes on to the next instruction. -/
def goOn (act : Action Unit) : Action Flow := do
  act
  return .next

/-- Does what the opcode says. `here` is the position of the instruction. -/
def perform (here : Nat) (i : Instruction) : Action Flow :=
  match i.opcode with
  | .move => goOn (i.computeUnary .ok)
  | .createFrame => goOn (changeMemory fun m => .ok m.createTemporary)
  | .pushFrame => goOn (changeMemory Memory.pushTemporary)
  | .popFrame => goOn (changeMemory Memory.popLocal)
  | .defVar => goOn i.declare
  | .call => i.jumpAfter (change fun e => e.pushCall (here + 1))
  | .ret => returnFromCall
  | .pushS => goOn (i.withOperand push)
  | .popS => goOn i.popInto
  | .clearS => goOn (change Environment.clearData)
  | .binary .direct op => goOn (i.computeBinary op.apply)
  | .binary .stack op => goOn (computeTopTwo op.apply)
  | .unary .direct op => goOn (i.computeUnary op.apply)
  | .unary .stack op => goOn (computeTop op.apply)
  | .read => goOn i.readInput
  | .write => goOn (i.withOperand fun x => print x.text)
  | .concat => goOn (i.computeBinary Value.concat)
  | .strLen => goOn (i.computeUnary Value.strLen)
  | .getChar => goOn (i.computeBinary Value.getChar)
  | .setChar => goOn i.replaceChar
  | .type => goOn i.storeType
  | .label => goOn (pure ())
  | .jump => i.jumpAfter (pure ())
  | .jumpIf form equal => i.jumpIf form equal
  | .exit => i.exit
  | .dPrint => goOn (i.withOperand fun x => report x.text)
  | .breakpoint => goOn (do report ((← get).environment.dump i.order here))

end Instruction

end Ippcode
