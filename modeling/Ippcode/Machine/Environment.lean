import Ippcode.Machine.Memory

/-!
# The environment of a program

Everything that a running program can observe apart from its instructions and its streams :
the frames, the labels with their positions, the positions to return to, and the data stack. Both
stacks are lists that begin at the top.

`Environment.dump` is the text that shows an environment to the person who debugs a program.
-/

namespace Ippcode

/-- The memory, the labels and the stacks of a running program. -/
structure Environment where
  memory : Memory
  /-- Each label with the position of its instruction. -/
  labels : List (String × Nat)
  /-- Where the calls that are not finished go on, the innermost first. -/
  calls : List Nat
  /-- The data stack from its top down. -/
  data : List Value
  deriving DecidableEq

namespace Environment

/-- The environment of a program without labels that has not started. -/
def empty : Environment := ⟨.empty, [], [], []⟩

/-! ## Labels -/

/-- The environment with one more label. -/
def registerLabel (e : Environment) (name : String) (position : Nat) :
    Except RuntimeError Environment :=
  match e.labels.lookup name with
  | some _ => .error (.duplicateLabel name)
  | none => .ok { e with labels := (name, position) :: e.labels }

/-- The position of a label. -/
def label (e : Environment) (name : String) : Except RuntimeError Nat :=
  match e.labels.lookup name with
  | some position => .ok position
  | none => .error (.undefinedLabel name)

/-! ## Stacks -/

/-- The environment with one more unfinished call. -/
def pushCall (e : Environment) (position : Nat) : Environment :=
  { e with calls := position :: e.calls }

/-- Where the innermost call goes on, and the environment without it. -/
def popCall (e : Environment) : Except RuntimeError (Nat × Environment) :=
  match e.calls with
  | position :: rest => .ok (position, { e with calls := rest })
  | [] => .error .returnWithoutCall

/-- How many calls are not finished. -/
def callDepth (e : Environment) : Nat := e.calls.length

/-- The environment with one more value on the data stack. -/
def pushData (e : Environment) (v : Value) : Environment := { e with data := v :: e.data }

/-- The top of the data stack, and the environment without it. -/
def popData (e : Environment) : Except RuntimeError (Value × Environment) :=
  match e.data with
  | v :: rest => .ok (v, { e with data := rest })
  | [] => .error .emptyDataStack

/-- The environment with an empty data stack. -/
def clearData (e : Environment) : Environment := { e with data := [] }

/-! ## Showing an environment -/

/-- The lines that show a frame. -/
def frameLines (title : String) (f : Frame) : List String :=
  let count := f.entries.length
  s!"{title}: {count} variable(s)" :: f.entries.map fun v => "  " ++ v.text

/-- The lines that show the temporary frame. -/
def temporaryLines : Option Frame → List String
  | some f => frameLines "TF" f
  | none => ["TF: (undefined)"]

/-- The lines that show a stack of local frames from its top down. Depth counts from the bottom. -/
def localLines : List Frame → List String
  | [] => []
  | f :: fs =>
    let depth := fs.length
    frameLines s!"LF[{depth}]" f ++ localLines fs

/-- The lines that show an environment at an instruction, named by its order and its position. -/
def dumpLines (e : Environment) (order position : Nat) : List String :=
  let data := ", ".intercalate (e.data.reverse.map Value.constant)
  let depth := e.callDepth
  s!"BREAK at order {order} (instruction {position})" :: frameLines "GF" e.memory.globals
    ++ temporaryLines e.memory.temporary
    ++ (if e.memory.locals.isEmpty then ["LF: (empty stack)"] else localLines e.memory.locals)
    ++ [s!"data stack: [{data}]", s!"call depth: {depth}"]

/-- The text that shows an environment at an instruction. -/
def dump (e : Environment) (order position : Nat) : String :=
  String.join ((e.dumpLines order position).map (· ++ "\n"))

end Environment

end Ippcode
