import Ippcode.Machine.Run
import Ippcode.Proofs.Code.Signature
import Ippcode.Proofs.Result

/-!
# What actions do

`Action.on` runs an action on a context : it gives the result and the context left behind. The
equations below say what each part of an instruction does, so that nothing else needs to look
into the layers that an action is built of. Most parts only read the context; what changes is
the memory (`Context.withMemory`) or the data stack (`Context.withData`).

`Memory.get_eq_ok_iff`, `Memory.insert_eq_ok_iff` and `Memory.assign_eq_ok_iff` say when a variable
is found, added or given a value : by what `Frame.find?` gives in its frame.

`Argument.evaluate` is the value of an operand in a memory. `on_operand` : fetching an operand
that fits its position gives this value and changes nothing.
-/

namespace Ippcode

/-! ## Contexts -/

namespace Context

/-- The context with another memory. -/
def withMemory (c : Context) (m : Memory) : Context :=
  { c with environment := { c.environment with memory := m } }

/-- The context with another data stack. -/
def withData (c : Context) (data : List Value) : Context :=
  { c with environment := { c.environment with data := data } }

/-- The context with other unfinished calls. -/
def withCalls (c : Context) (calls : List Nat) : Context :=
  { c with environment := { c.environment with calls := calls } }

/-- The context with other streams. -/
def withConsole (c : Context) (console : Console) : Context := { c with console := console }

variable (c : Context) (m m' : Memory) (data data' : List Value)

/-- What is replaced can be read off again, and everything else stays. -/
@[simp] theorem memory_withMemory : (c.withMemory m).environment.memory = m := rfl

@[simp] theorem console_withMemory : (c.withMemory m).console = c.console := rfl

@[simp] theorem memory_withData : (c.withData data).environment.memory = c.environment.memory :=
  rfl

@[simp] theorem data_withData : (c.withData data).environment.data = data := rfl

@[simp] theorem calls_withData : (c.withData data).environment.calls = c.environment.calls := rfl

@[simp] theorem environment_withConsole (console : Console) :
    (c.withConsole console).environment = c.environment := rfl

/-- Only the last replacement counts. -/
@[simp] theorem withData_withData : (c.withData data).withData data' = c.withData data' := rfl

/-- Putting back what is there changes nothing. -/
@[simp] theorem withData_data : c.withData c.environment.data = c := rfl

@[simp] theorem withMemory_withMemory : (c.withMemory m).withMemory m' = c.withMemory m' := rfl

end Context

/-! ## Running an action -/

namespace Action

/-- What an action gives and leaves behind when it works on a context. -/
def on (act : Action α) (c : Context) : Except RuntimeError α × Context := act.run.run c

variable {c : Context}

/-- An action that only has a value leaves the context alone. -/
@[simp] theorem on_pure (x : α) : (pure x : Action α).on c = (.ok x, c) := rfl

/-- An error leaves the context as it was when the error occurred. -/
@[simp] theorem on_throw (e : RuntimeError) : (throw e : Action α).on c = (.error e, c) := rfl

/-- One action after another : an error of the first one is the end. -/
theorem on_bind (act : Action α) (f : α → Action β) :
    (act >>= f).on c =
      match act.on c with
      | (.ok x, c) => (f x).on c
      | (.error e, c) => (.error e, c) := by
  unfold on
  simp only [ExceptT.run_bind, StateT.run_bind]
  generalize act.run.run c = r
  rcases r with ⟨_ | _, _⟩ <;> rfl

/-- The end of an action that depends on `r` : a value of `r` leads to a result and a context, an
error leaves the context `c`. -/
def settle (r : Except RuntimeError α) (c : Context) (f : α → β × Context) :
    Except RuntimeError β × Context :=
  match r with
  | .ok x => (.ok (f x).1, (f x).2)
  | .error e => (.error e, c)

/-- With a value the action goes on. -/
@[simp] theorem settle_ok (x : α) (f : α → β × Context) :
    settle (.ok x) c f = (.ok (f x).1, (f x).2) := rfl

/-- An error ends it, and the context is the one before. -/
@[simp] theorem settle_error (e : RuntimeError) (f : α → β × Context) :
    settle (.error e) c f = (.error e, c) := rfl

@[simp] theorem on_get : (get : Action Context).on c = (.ok c, c) := rfl

/-- A result of an operation knows nothing about the context. -/
@[simp] theorem on_lift (result : Except RuntimeError α) : (lift result).on c = (result, c) := rfl

/-- Looking something up changes nothing, whether it is found or not. -/
@[simp] theorem on_inspect (f : Environment → Except RuntimeError α) :
    (inspect f).on c = (f c.environment, c) := rfl

@[simp] theorem on_change (f : Environment → Environment) :
    (change f).on c = (.ok (), { c with environment := f c.environment }) := rfl

/-! ### Memory -/

/-- A change of the memory that fails leaves the memory as it was. -/
theorem on_changeMemory (f : Memory → Except RuntimeError Memory) :
    (changeMemory f).on c = settle (f c.environment.memory) c fun m => ((), c.withMemory m) := by
  unfold changeMemory
  rw [on_bind, on_inspect]
  cases f c.environment.memory <;> rfl

/-- A destination has to be declared before anything is computed for it. -/
theorem on_target (v : VariableName) :
    (target v).on c = ((c.environment.memory.get v).map fun _ => (), c) := by
  unfold target
  rw [on_bind, on_inspect]
  cases c.environment.memory.get v <;> rfl

/-- Storing a value touches nothing but the memory. -/
theorem on_store (v : VariableName) (x : Value) :
    (store v x).on c =
      settle (c.environment.memory.assign v x) c fun m => ((), c.withMemory m) :=
  on_changeMemory _

/-- A variable that is declared may be without a value. -/
theorem on_valueOf? (v : VariableName) :
    (valueOf? v).on c = ((c.environment.memory.get v).map Variable.value, c) := by
  unfold valueOf?
  rw [on_bind, on_inspect]
  cases c.environment.memory.get v <;> rfl

/-! ### Labels and the data stack -/

theorem on_position (label : String) :
    (position label).on c = (c.environment.label label, c) := on_inspect _

@[simp] theorem on_push (x : Value) :
    (push x).on c = (.ok (), c.withData (x :: c.environment.data)) := rfl

/-- Taking from an empty stack is an error and takes nothing. -/
theorem on_pop :
    pop.on c =
      match c.environment.data with
      | x :: data => (.ok x, c.withData data)
      | [] => (.error .emptyDataStack, c) := by
  unfold pop take
  rw [on_bind, on_inspect, Environment.popData]
  cases c.environment.data <;> rfl

/-! ### Streams -/

/-- Printing changes the stream, even if the stream refuses the end of the text. -/
theorem on_print (text : String) :
    (print text).on c =
      ((c.console.output.write (Text.encode text)).1.mapError .output,
        c.withConsole
          { c.console with output := (c.console.output.write (Text.encode text)).2 }) := rfl

/-- Showing something changes the diagnostic stream, even if this refuses the end of the text. -/
theorem on_report (text : String) :
    (report text).on c =
      ((c.console.diagnostic.write (Text.encode text)).1.mapError .output,
        c.withConsole
          { c.console with diagnostic := (c.console.diagnostic.write (Text.encode text)).2 }) :=
  rfl

/-- Before a line is read, what has been printed is passed on. If this fails, no line is read. -/
theorem on_readLine :
    readLine.on c =
      settle (c.console.output.flush.mapError .output) c fun _ =>
        (c.console.input.next.1,
          c.withConsole { c.console with input := c.console.input.next.2 }) := by
  unfold readLine
  rw [on_bind, on_get]
  simp only [on_bind, on_lift]
  cases c.console.output.flush <;> rfl

end Action

/-! ## Variables in memory -/

namespace Memory

variable {m m' : Memory} {v : VariableName} {w : Variable}

/-- A variable is found in its frame, if there is this frame. -/
theorem get_eq_ok_iff :
    m.get v = .ok w ↔ ∃ f, m.frame v.frame = .ok f ∧ f.find? v.name = some w := by
  unfold get
  rw [bind_eq_ok_iff]
  refine exists_congr fun f => and_congr_right fun _ => ?_
  cases f.find? v.name <;> simp [pure_eq_ok]

/-- A variable can be declared once in each frame. -/
theorem insert_eq_ok_iff :
    m.insert w = .ok m' ↔ ∃ f, m.frame w.frame = .ok f ∧ f.find? w.name = none ∧
      m' = m.setFrame w.frame (f.insert w) := by
  unfold insert
  rw [bind_eq_ok_iff]
  refine exists_congr fun f => and_congr_right fun _ => ?_
  cases f.find? w.name <;> simp [pure_eq_ok, eq_comm]

/-- Only a declared variable can be given a value. -/
theorem assign_eq_ok_iff {x : Value} :
    m.assign v x = .ok m' ↔ ∃ f, m.frame v.frame = .ok f ∧ (f.find? v.name).isSome ∧
      m' = m.setFrame v.frame (f.assign v.name x) := by
  unfold assign
  rw [bind_eq_ok_iff]
  refine exists_congr fun f => and_congr_right fun _ => ?_
  cases f.find? v.name <;> simp [pure_eq_ok, eq_comm]

end Memory

/-! ## Operands -/

namespace Memory

/-- The value of a declared variable. -/
def valueOf (m : Memory) (v : VariableName) : Except RuntimeError Value := do
  match (← m.get v).value with
  | some x => .ok x
  | none => .error (.uninitialized v)

/-- What a frame contains is found there. -/
theorem get_of_contains {m : Memory} {v : VariableName} (h : m.contains v = .ok true) :
    ∃ found, m.get v = .ok found := by
  unfold contains at h
  unfold get
  cases hf : m.frame v.frame with
  | error e =>
    rw [hf] at h
    cases h
  | ok f =>
    cases hv : f.find? v.name with
    | none => simp [hf, hv, pure, Except.pure] at h
    | some w => exact ⟨w, by simp only [ok_bind, hv]; rfl⟩

end Memory

/-- Reading a variable as an operand : it is declared, and it has a value. -/
theorem Action.on_valueOf {c : Context} (v : VariableName) :
    (valueOf v).on c = (c.environment.memory.valueOf v, c) := by
  unfold valueOf Memory.valueOf
  rw [on_bind, on_valueOf?]
  cases c.environment.memory.get v with
  | error e => rfl
  | ok found => cases h : found.value <;> simp [h]

namespace Argument

/-- The value of an operand. What is neither a constant nor a variable counts as `nil`. -/
def evaluate (m : Memory) : Argument → Except RuntimeError Value
  | constant x => .ok x
  | var v => m.valueOf v
  | _ => .ok .nil

end Argument

namespace Instruction

/-- An operand is a constant or a variable. Reading it changes nothing. -/
theorem on_operand (i : Instruction) {a : Argument} (h : a.fits .symb = true)
    {c : Context} : (i.operand a).on c = (a.evaluate c.environment.memory, c) := by
  rcases Argument.fits_symb_iff.mp h with ⟨v, rfl⟩ | ⟨x, rfl⟩
  · exact Action.on_valueOf v
  · rfl

/-- An action of an instruction that does not jump. -/
theorem on_goOn (act : Action Unit) {c : Context} :
    (goOn act).on c = ((act.on c).1.map fun _ => .next, (act.on c).2) := by
  unfold goOn
  rw [Action.on_bind]
  rcases act.on c with ⟨_ | _, _⟩ <;> rfl

end Instruction

/-! ## Steps -/

namespace Machine

variable {m : Machine}

/-- A machine that has come to an end stays there. -/
theorem step_of_ending {ending : Termination} (h : m.ending = some ending) :
    m.step = ⟨m, .ok (.finished ending), []⟩ := by
  unfold step
  rw [h]

/-- Behind its last instruction a machine completes. -/
theorem step_of_end (running : m.ending = none) (h : m.instructions[m.position]? = none) :
    m.step = m.finish .completed [] := by
  unfold step
  rw [running]
  simp only [h]

/-- A machine with a next instruction does what its action does. -/
theorem step_of_instruction (running : m.ending = none) {i : Instruction}
    (h : m.instructions[m.position]? = some i) :
    m.step =
      match (i.perform m.position).on m.context with
      | (.ok flow, c) =>
        { m with context := c }.follow i [.fetched i m.context.environment] flow
      | (.error e, c) =>
        ⟨{ m with context := c }, .error (.of i e), [.fetched i m.context.environment]⟩ := by
  unfold step Action.on
  rw [running]
  simp only [h]
  rcases (i.perform m.position).run.run m.context with ⟨_ | _, _⟩ <;> rfl

end Machine

end Ippcode
