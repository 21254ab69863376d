import Ippcode.Proofs.Machine.Reach
import Ippcode.Proofs.Machine.StackForm

/-!
# What becomes of an instruction

An instruction that fits its opcode either succeeds, and has done one of the things that
`Instruction.Does` lists, or fails, and leaves behind what `Instruction.Fails` says. That there is
nothing else is `perform_ends`, and `Machine.step_outcome` is the same about the steps of a machine.
What is true of all instructions follows from these lists, without another look at how an
instruction works.

`Action.Ends` specifies both ends of an action. Most actions are `Atomic` : when they fail they have
changed nothing. They read what they need first and change the context by their last part, so
atomicity is proved part by part (`Reads.bind`). Two instructions store a value after they have
taken it out of the context; they are atomic because the variable was found before
(`assign_of_get`).
-/

namespace Ippcode

open Ippcode.Action

/-! ## Ends of actions -/

namespace Action

variable {c : Context} {act : Action α} {f : α → Action β}

/-- An action that works on `c` gives a result and leaves a context that are as `done` says, or it
fails and leaves a context that is as `failed` says. -/
def Ends (act : Action α) (c : Context) (done : α → Context → Prop)
    (failed : RuntimeError → Context → Prop) : Prop :=
  match act.on c with
  | (.ok x, c') => done x c'
  | (.error e, c') => failed e c'

/-- An action that works on `c` ends as `done` says, or fails and changes nothing. -/
def Atomic (act : Action α) (c : Context) (done : α → Context → Prop) : Prop :=
  act.Ends c done fun _ c' => c' = c

/-- An action that never changes anything. -/
def Reads (act : Action α) : Prop := ∀ c, (act.on c).2 = c

/-- What is known about an end can be weakened. -/
theorem Ends.mono {done done' : α → Context → Prop} {failed failed' : RuntimeError → Context → Prop}
    (h : act.Ends c done failed) (hdone : ∀ x c', done x c' → done' x c')
    (hfailed : ∀ e c', failed e c' → failed' e c') : act.Ends c done' failed' := by
  unfold Ends at h ⊢
  generalize act.on c = r at h ⊢
  rcases r with ⟨e | x, c'⟩
  · exact hfailed e c' h
  · exact hdone x c' h

/-- An action that reads first ends as the rest of it does, or fails before anything has changed. -/
theorem Reads.ends_bind (reads : act.Reads) {done : β → Context → Prop}
    {failed : RuntimeError → Context → Prop}
    (unchanged : ∀ e, (act.on c).1 = .error e → failed e c)
    (rest : ∀ x, (act.on c).1 = .ok x → (f x).Ends c done failed) :
    (act >>= f).Ends c done failed := by
  have same := reads c
  unfold Ends at rest ⊢
  rw [on_bind]
  generalize act.on c = r at same unchanged rest ⊢
  rcases r with ⟨e | x, c'⟩
  · obtain rfl : c' = c := same
    exact unchanged e rfl
  · obtain rfl : c' = c := same
    exact rest x rfl

/-- Behind an action that only reads, an action that changes everything or nothing is still one. -/
theorem Reads.bind (reads : act.Reads) {done : β → Context → Prop}
    (rest : ∀ x, (act.on c).1 = .ok x → (f x).Atomic c done) : (act >>= f).Atomic c done :=
  reads.ends_bind (fun _ _ => rfl) rest

/-- Operations look at values and change nothing. -/
theorem reads_lift (r : Except RuntimeError α) : (lift r).Reads := fun _ => rfl

theorem reads_inspect (g : Environment → Except RuntimeError α) : (inspect g).Reads := fun _ => rfl

/-- Looking for a variable changes nothing, whether it is there or not. -/
theorem reads_target (v : VariableName) : (target v).Reads := fun c => by rw [on_target]

theorem reads_valueOf? (v : VariableName) : (valueOf? v).Reads := fun c => by rw [on_valueOf?]

theorem reads_valueOf (v : VariableName) : (valueOf v).Reads := fun c => by rw [on_valueOf]

/-- A memory is changed as a whole or not at all. -/
theorem changeMemory_atomic (g : Memory → Except RuntimeError Memory) :
    (changeMemory g).Atomic c fun _ c' =>
      ∃ m, g c.environment.memory = .ok m ∧ c' = c.withMemory m := by
  unfold Atomic Ends
  rw [on_changeMemory]
  cases h : g c.environment.memory with
  | error e => rfl
  | ok m => exact ⟨m, rfl, rfl⟩

end Action

/-! ## The two lists -/

namespace Opcode

/-- Whether an opcode computes a value and stores it in the variable in its first position. -/
def storesResult : Opcode → Bool
  | move | binary .direct _ | unary .direct _ | concat | strLen | getChar | setChar | type => true
  | _ => false

/-- How many operands an opcode pops off the data stack to compute with them or to compare them. -/
def stackOperands : Opcode → Nat
  | unary .stack _ => 1
  | binary .stack _ | jumpIf .stack _ => 2
  | _ => 0

end Opcode

namespace Environment

variable {e : Environment} {name : String} {target : Nat}

/-- Whether an argument is a label that is not defined. -/
def lacks (e : Environment) : Argument → Bool
  | .label name => (e.labels.lookup name).isNone
  | _ => false

theorem label_eq_ok_iff : e.label name = .ok target ↔ e.labels.lookup name = some target := by
  unfold label
  cases e.labels.lookup name <;> simp

theorem lacks_of_label_eq_ok (h : e.label name = .ok target) : e.lacks (.label name) = false := by
  rw [lacks, label_eq_ok_iff.mp h, Option.isNone_some]

/-- A label that cannot be found is what an instruction may lack. -/
theorem lacks_of_label_eq_error {error : RuntimeError} (h : e.label name = .error error) :
    e.lacks (.label name) = true := by
  simp only [lacks]
  cases found : e.labels.lookup name with
  | none => rfl
  | some target =>
    rw [label_eq_ok_iff.mpr found] at h
    cases h

end Environment

namespace Instruction

/-- The instruction stores this value in the variable in its first argument. -/
def Stores (i : Instruction) (x : Value) (c c' : Context) : Prop :=
  ∃ v rest m, i.args = .var v :: rest ∧ c.environment.memory.assign v x = .ok m ∧
    c' = c.withMemory m

/-- The two operands of a conditional jump to a label, and the context in which they are gone from
the data stack. -/
inductive Compares (i : Instruction) (c : Context) :
    Form → String → Value → Value → Context → Prop
  | direct {label : String} {a b : Argument} {x y : Value} (args : i.args = [.label label, a, b])
      (left : a.evaluate c.environment.memory = .ok x)
      (right : b.evaluate c.environment.memory = .ok y) : Compares i c .direct label x y c
  | stack {label : String} {x y : Value} {data : List Value} (args : i.args = [.label label])
      (operands : c.environment.data = y :: x :: data) :
      Compares i c .stack label x y (c.withData data)

/-- What an instruction at the position `here` has done when it has succeeded : where control goes
from there, and in which context. -/
inductive Does (i : Instruction) (here : Nat) (c : Context) : Flow → Context → Prop
  | createFrame (op : i.opcode = .createFrame) :
      Does i here c .next (c.withMemory c.environment.memory.createTemporary)
  | pushFrame (op : i.opcode = .pushFrame) {m : Memory}
      (memory : c.environment.memory.pushTemporary = .ok m) : Does i here c .next (c.withMemory m)
  | popFrame (op : i.opcode = .popFrame) {m : Memory}
      (memory : c.environment.memory.popLocal = .ok m) : Does i here c .next (c.withMemory m)
  | declare (op : i.opcode = .defVar) {v : VariableName} {m : Memory} (args : i.args = [.var v])
      (memory : c.environment.memory.declare v = .ok m) : Does i here c .next (c.withMemory m)
  | store (op : i.opcode.storesResult = true) {x : Value} {c' : Context}
      (stores : i.Stores x c c') : Does i here c .next c'
  | read (op : i.opcode = .read) {v : VariableName} {ty : Ty} (args : i.args = [.var v, .type ty])
      (flushed : c.console.output.flush = .ok ()) {c' : Context}
      (stores : i.Stores ((c.console.input.next.1.map (Value.ofLine ty)).getD .nil)
        (c.withConsole { c.console with input := c.console.input.next.2 }) c') :
      Does i here c .next c'
  | push (op : i.opcode = .pushS) {a : Argument} {x : Value} (args : i.args = [a])
      (value : a.evaluate c.environment.memory = .ok x) :
      Does i here c .next (c.withData (x :: c.environment.data))
  | pop (op : i.opcode = .popS) {x : Value} {data : List Value} {c' : Context}
      (top : c.environment.data = x :: data) (stores : i.Stores x (c.withData data) c') :
      Does i here c .next c'
  | clear (op : i.opcode = .clearS) : Does i here c .next (c.withData [])
  | computeTop {u : Unary} (op : i.opcode = .unary .stack u) {x z : Value} {data : List Value}
      (operands : c.environment.data = x :: data) (result : u.apply x = .ok z) :
      Does i here c .next (c.withData (z :: data))
  | computeTopTwo {b : Binary} (op : i.opcode = .binary .stack b) {x y z : Value}
      {data : List Value} (operands : c.environment.data = y :: x :: data)
      (result : b.apply x y = .ok z) : Does i here c .next (c.withData (z :: data))
  | write (op : i.opcode = .write) {a : Argument} {x : Value} (args : i.args = [a])
      (value : a.evaluate c.environment.memory = .ok x)
      (accepted : (c.console.output.write (Text.encode x.text)).1 = .ok ()) :
      Does i here c .next (c.withConsole
        { c.console with output := (c.console.output.write (Text.encode x.text)).2 })
  | report (op : i.opcode = .dPrint ∨ i.opcode = .breakpoint) {text : String}
      (accepted : (c.console.diagnostic.write (Text.encode text)).1 = .ok ()) :
      Does i here c .next (c.withConsole
        { c.console with diagnostic := (c.console.diagnostic.write (Text.encode text)).2 })
  | label (op : i.opcode = .label) : Does i here c .next c
  | jump (op : i.opcode = .jump) {label : String} {target : Nat} (args : i.args = [.label label])
      (found : c.environment.label label = .ok target) :
      Does i here c (.transfer label target) c
  | call (op : i.opcode = .call) {label : String} {target : Nat} (args : i.args = [.label label])
      (found : c.environment.label label = .ok target) :
      Does i here c (.transfer label target) (c.withCalls ((here + 1) :: c.environment.calls))
  | ret (op : i.opcode = .ret) {target : Nat} {calls : List Nat}
      (top : c.environment.calls = target :: calls) :
      Does i here c (.resume target) (c.withCalls calls)
  | taken {form : Form} {equal : Bool} (op : i.opcode = .jumpIf form equal) {label : String}
      {target : Nat} {x y : Value} {c' : Context} (operands : i.Compares c form label x y c')
      (found : c.environment.label label = .ok target) (holds : x.jumpEqual y = .ok equal) :
      Does i here c (.transfer label target) c'
  | skipped {form : Form} {equal : Bool} (op : i.opcode = .jumpIf form equal) {label : String}
      {x y : Value} {c' : Context} (operands : i.Compares c form label x y c')
      (holds : x.jumpEqual y = .ok !equal) : Does i here c .next c'
  | exit (op : i.opcode = .exit) {a : Argument} {x : Value} {code : Nat} (args : i.args = [a])
      (value : a.evaluate c.environment.memory = .ok x) (accepted : x.exitCode = .ok code) :
      Does i here c (.halt code) c

/-- The data stack that an instruction leaves behind when it fails : it has popped its operands, as
far as there are any, unless its label is not defined. -/
def dataLeft (i : Instruction) (e : Environment) : List Value :=
  if i.args.any e.lacks then e.data else e.data.drop (min i.opcode.stackOperands e.data.length)

/-- What an instruction leaves behind in a context when it fails with an error. Apart from its
operands on the data stack, it is what was there before; only a stream that has refused a text may
have taken the beginning of it. -/
structure Fails (i : Instruction) (c : Context) (error : RuntimeError) (left : Context) : Prop where
  memory : left.environment.memory = c.environment.memory
  labels : left.environment.labels = c.environment.labels
  calls : left.environment.calls = c.environment.calls
  data : left.environment.data = i.dataLeft c.environment
  input : left.console.input = c.console.input
  output : left.console.output = c.console.output ∨
    i.opcode = .write ∧ ∃ cause, error = .output cause
  diagnostic : left.console.diagnostic = c.console.diagnostic ∨
    (i.opcode = .dPrint ∨ i.opcode = .breakpoint) ∧ ∃ cause, error = .output cause

variable {i : Instruction} {here : Nat} {c : Context} {e : RuntimeError}

theorem dataLeft_of_stackOperands (h : i.opcode.stackOperands = 0) (e : Environment) :
    i.dataLeft e = e.data := by
  simp [dataLeft, h]

/-- If nothing is lacking, the operands have been taken from the stack when an instruction fails. -/
theorem dataLeft_of_defined {e : Environment} (h : i.args.any e.lacks = false) :
    i.dataLeft e = e.data.drop i.opcode.stackOperands := by
  rw [dataLeft, h, if_neg Bool.false_ne_true]
  exact List.drop_eq_drop_iff.mpr (by omega)

/-- An instruction that has changed nothing fails as it should, if it pops no operands. -/
theorem Fails.unchanged (h : i.dataLeft c.environment = c.environment.data) : i.Fails c e c :=
  ⟨rfl, rfl, rfl, h.symm, rfl, .inl rfl, .inl rfl⟩

/-- An instruction that has only popped its operands fails as it should. -/
theorem Fails.popped (h : i.args.any c.environment.lacks = false) :
    i.Fails c e (c.withData (c.environment.data.drop i.opcode.stackOperands)) :=
  ⟨rfl, rfl, rfl, (dataLeft_of_defined h).symm, rfl, .inl rfl, .inl rfl⟩

/-- An instruction that pops no operands leaves the environment as it was when it fails. -/
theorem Fails.environment {left : Context} (fails : i.Fails c e left)
    (plain : i.opcode.stackOperands = 0) : left.environment = c.environment := by
  have data : left.environment.data = c.environment.data :=
    fails.data.trans (dataLeft_of_stackOperands plain _)
  change Environment.mk _ _ _ _ = _
  rw [fails.memory, fails.labels, fails.calls, data]

end Instruction

/-- An atomic action of an instruction that pops no operands fails as it should. -/
theorem Action.Atomic.ends {i : Instruction} {c : Context} {act : Action α}
    {done : α → Context → Prop} (h : act.Atomic c done) (plain : i.opcode.stackOperands = 0) :
    act.Ends c done (i.Fails c) :=
  Ends.mono h (fun _ _ hd => hd) fun _ _ same =>
    same ▸ .unchanged (Instruction.dataLeft_of_stackOperands plain _)

/-! ## Parts of instructions -/

namespace Instruction

variable {i : Instruction} {here : Nat} {c : Context}

section Parts

variable {a : Argument} {v : VariableName}

theorem reads_operand (i : Instruction) (ha : a.fits .symb = true) : (i.operand a).Reads :=
  fun c => by rw [i.on_operand ha]

theorem reads_operand? (i : Instruction) (ha : a.fits .symb = true) : (i.operand? a).Reads := by
  rcases Argument.fits_symb_iff.mp ha with ⟨v, rfl⟩ | ⟨x, rfl⟩
  · exact reads_valueOf? v
  · exact fun _ => rfl

/-- What an operand is read as is the value of its argument. -/
theorem evaluate_of_on_operand (ha : a.fits .symb = true) {x : Value}
    (h : ((i.operand a).on c).1 = .ok x) : a.evaluate c.environment.memory = .ok x := by
  rwa [i.on_operand ha] at h

/-! ### Results in variables -/

/-- Storing the result is all that such an instruction does. -/
theorem store_atomic (op : i.opcode.storesResult = true) {rest : List Argument}
    (hargs : i.args = .var v :: rest) (x : Value) :
    (store v x).Atomic c fun _ c' => i.Does here c .next c' :=
  (changeMemory_atomic _).mono
    (fun _ _ ⟨m, hm, hc⟩ => .store op ⟨v, rest, m, hargs, hm, hc⟩) fun _ _ h => h

/-- An operation that fails has stored nothing. -/
theorem computeUnary_atomic (op : i.opcode.storesResult = true)
    (fits : Argument.AllFit i.args [.var, .symb]) (f : Value → Except RuntimeError Value) :
    (i.computeUnary f).Atomic c fun _ c' => i.Does here c .next c' := by
  obtain ⟨v, _, hargs, h⟩ := fits.var
  obtain ⟨a, _, rfl, ha, h⟩ := h.symb
  obtain rfl := h.nil
  unfold computeUnary
  rw [hargs]
  refine (reads_target v).bind fun _ _ => (i.reads_operand ha).bind fun x _ => ?_
  exact (reads_lift (f x)).bind fun z _ => store_atomic op hargs z

theorem computeBinary_atomic (op : i.opcode.storesResult = true)
    (fits : Argument.AllFit i.args [.var, .symb, .symb])
    (f : Value → Value → Except RuntimeError Value) :
    (i.computeBinary f).Atomic c fun _ c' => i.Does here c .next c' := by
  obtain ⟨v, _, hargs, h⟩ := fits.var
  obtain ⟨a, _, rfl, ha, h⟩ := h.symb
  obtain ⟨b, _, rfl, hb, h⟩ := h.symb
  obtain rfl := h.nil
  unfold computeBinary
  rw [hargs]
  refine (reads_target v).bind fun _ _ => (i.reads_operand ha).bind fun x _ => ?_
  refine (i.reads_operand hb).bind fun y _ => ?_
  exact (reads_lift (f x y)).bind fun z _ => store_atomic op hargs z

theorem replaceChar_atomic (op : i.opcode.storesResult = true)
    (fits : Argument.AllFit i.args [.var, .symb, .symb]) :
    i.replaceChar.Atomic c fun _ c' => i.Does here c .next c' := by
  obtain ⟨v, _, hargs, h⟩ := fits.var
  obtain ⟨a, _, rfl, ha, h⟩ := h.symb
  obtain ⟨b, _, rfl, hb, h⟩ := h.symb
  obtain rfl := h.nil
  unfold replaceChar
  rw [hargs]
  refine (reads_target v).bind fun _ _ => (reads_valueOf v).bind fun s _ => ?_
  refine (i.reads_operand ha).bind fun x _ => (i.reads_operand hb).bind fun y _ => ?_
  exact (reads_lift (s.setChar x y)).bind fun z _ => store_atomic op hargs z

theorem storeType_atomic (op : i.opcode.storesResult = true)
    (fits : Argument.AllFit i.args [.var, .symb]) :
    i.storeType.Atomic c fun _ c' => i.Does here c .next c' := by
  obtain ⟨v, _, hargs, h⟩ := fits.var
  obtain ⟨a, _, rfl, ha, h⟩ := h.symb
  obtain rfl := h.nil
  unfold storeType
  rw [hargs]
  exact (reads_target v).bind fun _ _ => (i.reads_operand? ha).bind fun _ _ =>
    store_atomic op hargs _

/-! ### Values that are taken before they are stored -/

/-- Once its variable is found, a value can be stored. -/
theorem assign_of_on_target (h : ((target v).on c).1 = .ok ()) (x : Value) :
    ∃ m, c.environment.memory.assign v x = .ok m := by
  rw [on_target] at h
  cases found : c.environment.memory.get v with
  | error e =>
    rw [found] at h
    cases h
  | ok w =>
    obtain ⟨f, hf, hw⟩ := Memory.get_eq_ok_iff.mp found
    exact ⟨_, Memory.assign_eq_ok_iff.mpr ⟨f, hf, Option.isSome_of_eq_some hw, rfl⟩⟩

/-- A value is taken only if it can be stored. -/
theorem popInto_atomic (op : i.opcode = .popS) (fits : Argument.AllFit i.args [.var]) :
    i.popInto.Atomic c fun _ c' => i.Does here c .next c' := by
  obtain ⟨v, _, hargs, h⟩ := fits.var
  obtain rfl := h.nil
  unfold popInto
  rw [hargs]
  refine (reads_target v).bind fun _ found => ?_
  unfold Atomic Ends
  rw [on_bind, on_pop]
  cases top : c.environment.data with
  | nil => rfl
  | cons x data =>
    obtain ⟨m, hm⟩ := assign_of_on_target found x
    simp only [on_store, Context.memory_withData, hm, settle_ok]
    exact .pop op top ⟨v, [], m, hargs, hm, rfl⟩

/-- A line is taken only if it can be stored. -/
theorem readInput_atomic (op : i.opcode = .read) (fits : Argument.AllFit i.args [.var, .type]) :
    i.readInput.Atomic c fun _ c' => i.Does here c .next c' := by
  obtain ⟨v, _, hargs, h⟩ := fits.var
  obtain ⟨ty, _, rfl, hnil⟩ := h.type
  obtain rfl := hnil.nil
  unfold readInput
  rw [hargs]
  refine (reads_target v).bind fun _ found => ?_
  unfold Atomic Ends
  rw [on_bind, on_readLine]
  cases flushed : c.console.output.flush with
  | error e => rfl
  | ok u =>
    obtain ⟨m, hm⟩ :=
      assign_of_on_target found ((c.console.input.next.1.map (Value.ofLine ty)).getD .nil)
    simp only [Except.mapError, settle_ok, on_store, Context.environment_withConsole, hm]
    exact .read op hargs flushed ⟨v, [.type ty], m, hargs, hm, rfl⟩

/-- A declaration adds one variable or none. -/
theorem declare_atomic (op : i.opcode = .defVar) (fits : Argument.AllFit i.args [.var]) :
    i.declare.Atomic c fun _ c' => i.Does here c .next c' := by
  obtain ⟨v, _, hargs, h⟩ := fits.var
  obtain rfl := h.nil
  unfold declare
  rw [hargs]
  exact (changeMemory_atomic _).mono (fun _ _ ⟨m, hm, hc⟩ => hc ▸ .declare op hargs hm)
    fun _ _ h => h

/-! ### The data stack -/

/-- Popping two operands takes off what there is of them, also if that is not enough. -/
theorem pop_two_ends {f : Value → Value → Action α} {done : α → Context → Prop}
    {failed : RuntimeError → Context → Prop}
    (few : failed .emptyDataStack (c.withData (c.environment.data.drop 2)))
    (enough : ∀ x y data, c.environment.data = y :: x :: data →
      (f x y).Ends (c.withData data) done failed) :
    (do let y ← pop; let x ← pop; f x y : Action α).Ends c done failed := by
  unfold Ends at enough ⊢
  rw [on_bind, on_pop]
  rcases hd : c.environment.data with _ | ⟨y, _ | ⟨x, data⟩⟩
  · rw [hd, List.drop_nil, ← hd, Context.withData_data] at few
    exact few
  · rw [hd] at few
    exact few
  · exact enough x y data hd

/-- On the stack a failing operation has taken its operand. -/
theorem computeTop_ends {u : Unary} (op : i.opcode = .unary .stack u) (hargs : i.args = []) :
    (computeTop u.apply).Ends c (fun _ c' => i.Does here c .next c') (i.Fails c) := by
  have popped (e : RuntimeError) := Fails.popped (i := i) (c := c) (e := e) (by rw [hargs]; rfl)
  rw [op, Opcode.stackOperands] at popped
  unfold computeTop Ends
  rw [on_bind, on_pop]
  cases hd : c.environment.data with
  | nil =>
    rw [hd, List.drop_nil, ← hd, Context.withData_data] at popped
    exact popped .emptyDataStack
  | cons x data =>
    simp only [on_bind, on_lift]
    rw [hd] at popped
    cases hz : u.apply x with
    | error e => exact popped e
    | ok z => exact .computeTop op hd hz

/-- On the stack a failing operation has taken both operands, or the one that there was. -/
theorem computeTopTwo_ends {b : Binary} (op : i.opcode = .binary .stack b) (hargs : i.args = []) :
    (computeTopTwo b.apply).Ends c (fun _ c' => i.Does here c .next c') (i.Fails c) := by
  have popped (e : RuntimeError) := Fails.popped (i := i) (c := c) (e := e) (by rw [hargs]; rfl)
  rw [op, Opcode.stackOperands] at popped
  refine pop_two_ends (popped .emptyDataStack) fun x y data hd => ?_
  rw [hd] at popped
  unfold Ends
  simp only [on_bind, on_lift]
  cases hz : b.apply x y with
  | error e => exact popped e
  | ok z => exact .computeTopTwo op hd hz

/-! ### Single operands -/

theorem withOperand_ends {f : Value → Action α} {done : α → Context → Prop}
    {failed : RuntimeError → Context → Prop} (fits : Argument.AllFit i.args [.symb])
    (unchanged : ∀ e, failed e c)
    (rest : ∀ a x, i.args = [a] → a.evaluate c.environment.memory = .ok x →
      (f x).Ends c done failed) : (i.withOperand f).Ends c done failed := by
  obtain ⟨a, _, hargs, ha, h⟩ := fits.symb
  obtain rfl := h.nil
  unfold withOperand
  rw [hargs]
  exact (i.reads_operand ha).ends_bind (fun e _ => unchanged e) fun x hx =>
    rest a x hargs (evaluate_of_on_operand ha hx)

/-- What a stream has accepted of a text stays accepted, even if the rest is refused. -/
theorem print_ends (op : i.opcode = .write) (fits : Argument.AllFit i.args [.symb]) :
    (i.withOperand fun x => print x.text).Ends c (fun _ c' => i.Does here c .next c')
      (i.Fails c) := by
  have plain : i.dataLeft c.environment = c.environment.data :=
    dataLeft_of_stackOperands (by rw [op]; rfl) _
  refine withOperand_ends fits (fun _ => .unchanged plain) fun a x hargs hx => ?_
  unfold Ends
  rw [on_print]
  cases accepted : (c.console.output.write (Text.encode x.text)).1 with
  | error cause => exact ⟨rfl, rfl, rfl, plain.symm, rfl, .inr ⟨op, cause, rfl⟩, .inl rfl⟩
  | ok _ => exact .write op hargs hx accepted

theorem report_ends (op : i.opcode = .dPrint ∨ i.opcode = .breakpoint) (text : String) :
    (report text).Ends c (fun _ c' => i.Does here c .next c') (i.Fails c) := by
  have plain : i.dataLeft c.environment = c.environment.data :=
    dataLeft_of_stackOperands (by rcases op with op | op <;> rw [op] <;> rfl) _
  unfold Ends
  rw [on_report]
  cases accepted : (c.console.diagnostic.write (Text.encode text)).1 with
  | error cause => exact ⟨rfl, rfl, rfl, plain.symm, rfl, .inl rfl, .inr ⟨op, cause, rfl⟩⟩
  | ok _ => exact .report op accepted

/-! ### Control -/

/-- What is done before a jump is done only if the label can be found. -/
theorem jumpAfter_atomic {before : Action Unit} {c' : Context}
    (fits : Argument.AllFit i.args [.label]) (hbefore : before.on c = (.ok (), c'))
    (does : ∀ label target, i.args = [.label label] → c.environment.label label = .ok target →
      i.Does here c (.transfer label target) c') :
    (i.jumpAfter before).Atomic c (i.Does here c) := by
  obtain ⟨label, _, hargs, h⟩ := fits.label
  obtain rfl := h.nil
  unfold jumpAfter
  rw [hargs]
  refine Reads.bind (reads_inspect _) fun target found => ?_
  unfold Atomic Ends
  rw [on_bind, hbefore]
  exact does label target hargs found

/-- A return goes behind the latest call. -/
theorem on_returnFromCall :
    returnFromCall.on c =
      match c.environment.calls with
      | target :: calls => (.ok (.resume target), c.withCalls calls)
      | [] => (.error .returnWithoutCall, c) := by
  unfold returnFromCall take
  simp only [on_bind, on_inspect, Environment.popCall]
  cases c.environment.calls <;> rfl

theorem returnFromCall_atomic (op : i.opcode = .ret) :
    returnFromCall.Atomic c (i.Does here c) := by
  unfold Atomic Ends
  rw [on_returnFromCall]
  cases top : c.environment.calls with
  | nil => rfl
  | cons target calls => exact .ret op top

theorem exit_atomic (op : i.opcode = .exit) (fits : Argument.AllFit i.args [.symb]) :
    i.exit.Atomic c (i.Does here c) := by
  refine withOperand_ends fits (fun _ => rfl) fun a x hargs hx => ?_
  exact (reads_lift x.exitCode).bind fun code accepted => .exit op hargs hx accepted

/-- A conditional jump that knows its operands. -/
theorem does_of_compares {form : Form} {equal holds : Bool} (op : i.opcode = .jumpIf form equal)
    {label : String} {target : Nat} {x y : Value} {c' : Context}
    (operands : i.Compares c form label x y c') (found : c.environment.label label = .ok target)
    (h : x.jumpEqual y = .ok holds) :
    i.Does here c (if holds == equal then .transfer label target else .next) c' := by
  cases same : holds == equal with
  | true =>
    obtain rfl := eq_of_beq same
    exact .taken op operands found h
  | false =>
    have opposite : holds = !equal := by cases holds <;> cases equal <;> trivial
    exact .skipped op operands (opposite ▸ h)

/-- A conditional jump compares its arguments and changes nothing. -/
theorem jumpIf_direct_atomic {equal : Bool} (op : i.opcode = .jumpIf .direct equal)
    (fits : Argument.AllFit i.args [.label, .symb, .symb]) :
    (i.jumpIf .direct equal).Atomic c (i.Does here c) := by
  obtain ⟨label, _, hargs, h⟩ := fits.label
  obtain ⟨a, _, rfl, ha, h⟩ := h.symb
  obtain ⟨b, _, rfl, hb, h⟩ := h.symb
  obtain rfl := h.nil
  unfold jumpIf
  rw [hargs]
  refine Reads.bind (reads_inspect _) fun target found => ?_
  refine (i.reads_operand ha).bind fun x hx => (i.reads_operand hb).bind fun y hy => ?_
  refine (reads_lift (x.jumpEqual y)).bind fun holds h => ?_
  have operands : i.Compares c .direct label x y c :=
    .direct hargs (evaluate_of_on_operand ha hx) (evaluate_of_on_operand hb hy)
  exact does_of_compares op operands found h

/-- On the stack it takes what it compares. -/
theorem jumpIf_stack_ends {equal : Bool} (op : i.opcode = .jumpIf .stack equal)
    (fits : Argument.AllFit i.args [.label]) :
    (i.jumpIf .stack equal).Ends c (i.Does here c) (i.Fails c) := by
  obtain ⟨label, _, hargs, h⟩ := fits.label
  obtain rfl := h.nil
  unfold jumpIf
  rw [hargs]
  refine Reads.ends_bind (reads_inspect _) (fun e he => .unchanged ?_) fun target found => ?_
  · have undefined : c.environment.lacks (.label label) = true :=
      Environment.lacks_of_label_eq_error he
    simp [dataLeft, hargs, undefined]
  · have popped (e : RuntimeError) := Fails.popped (i := i) (c := c) (e := e)
      (by simp [hargs, Environment.lacks_of_label_eq_ok found])
    rw [op, Opcode.stackOperands] at popped
    refine pop_two_ends (popped .emptyDataStack) fun x y data hd => ?_
    rw [hd] at popped
    unfold Ends
    simp only [on_bind, on_lift]
    cases h : x.jumpEqual y with
    | error e => exact popped e
    | ok holds => exact does_of_compares op (.stack hargs hd) found h

end Parts

/-! ## All instructions -/

/-- Going on to the next instruction is done whenever the action is. -/
theorem goOn_ends {act : Action Unit}
    (h : act.Ends c (fun _ c' => i.Does here c .next c') (i.Fails c)) :
    (goOn act).Ends c (i.Does here c) (i.Fails c) := by
  unfold Ends at h ⊢
  rw [on_goOn]
  generalize act.on c = r at h ⊢
  rcases r with ⟨e | u, c'⟩
  · exact h
  · exact h

theorem goOn_of_atomic {act : Action Unit} (plain : i.opcode.stackOperands = 0)
    (h : act.Atomic c fun _ c' => i.Does here c .next c') :
    (goOn act).Ends c (i.Does here c) (i.Fails c) := goOn_ends (h.ends plain)

/-- An instruction that fits its opcode has done something of what is listed, or it fails and
leaves behind what it should. -/
theorem perform_ends (fits : i.Fits) (here : Nat) (c : Context) :
    (i.perform here).Ends c (i.Does here c) (i.Fails c) := by
  unfold Fits at fits
  unfold perform
  cases hop : i.opcode with rw [hop] at fits
  | move => exact goOn_of_atomic (hop ▸ rfl) (computeUnary_atomic (hop ▸ rfl) fits _)
  | createFrame =>
    exact goOn_of_atomic (hop ▸ rfl) ((changeMemory_atomic _).mono
      (fun _ _ ⟨m, hm, hc⟩ => by cases hm; exact hc ▸ .createFrame hop) fun _ _ h => h)
  | pushFrame =>
    exact goOn_of_atomic (hop ▸ rfl) ((changeMemory_atomic _).mono
      (fun _ _ ⟨m, hm, hc⟩ => hc ▸ .pushFrame hop hm) fun _ _ h => h)
  | popFrame =>
    exact goOn_of_atomic (hop ▸ rfl) ((changeMemory_atomic _).mono
      (fun _ _ ⟨m, hm, hc⟩ => hc ▸ .popFrame hop hm) fun _ _ h => h)
  | defVar => exact goOn_of_atomic (hop ▸ rfl) (declare_atomic hop fits)
  | call => exact (jumpAfter_atomic fits (on_change _) fun _ _ => .call hop).ends (hop ▸ rfl)
  | ret => exact (returnFromCall_atomic hop).ends (hop ▸ rfl)
  | pushS =>
    exact goOn_of_atomic (hop ▸ rfl) (withOperand_ends fits (fun _ => rfl) fun _ _ args value =>
      .push hop args value)
  | popS => exact goOn_of_atomic (hop ▸ rfl) (popInto_atomic hop fits)
  | clearS => exact goOn_ends (.clear hop)
  | binary form op =>
    cases form with
    | direct => exact goOn_of_atomic (hop ▸ rfl) (computeBinary_atomic (hop ▸ rfl) fits _)
    | stack => exact goOn_ends (computeTopTwo_ends hop fits.nil)
  | unary form op =>
    cases form with
    | direct => exact goOn_of_atomic (hop ▸ rfl) (computeUnary_atomic (hop ▸ rfl) fits _)
    | stack => exact goOn_ends (computeTop_ends hop fits.nil)
  | read => exact goOn_of_atomic (hop ▸ rfl) (readInput_atomic hop fits)
  | write => exact goOn_ends (print_ends hop fits)
  | concat => exact goOn_of_atomic (hop ▸ rfl) (computeBinary_atomic (hop ▸ rfl) fits _)
  | strLen => exact goOn_of_atomic (hop ▸ rfl) (computeUnary_atomic (hop ▸ rfl) fits _)
  | getChar => exact goOn_of_atomic (hop ▸ rfl) (computeBinary_atomic (hop ▸ rfl) fits _)
  | setChar => exact goOn_of_atomic (hop ▸ rfl) (replaceChar_atomic (hop ▸ rfl) fits)
  | type => exact goOn_of_atomic (hop ▸ rfl) (storeType_atomic (hop ▸ rfl) fits)
  | label => exact goOn_ends (.label hop)
  | jump => exact (jumpAfter_atomic fits (on_pure _) fun _ _ => .jump hop).ends (hop ▸ rfl)
  | jumpIf form equal =>
    cases form with
    | direct => exact (jumpIf_direct_atomic hop fits).ends (hop ▸ rfl)
    | stack => exact jumpIf_stack_ends hop fits
  | exit => exact (exit_atomic hop fits).ends (hop ▸ rfl)
  | dPrint =>
    exact goOn_ends (withOperand_ends fits
      (fun _ => .unchanged (dataLeft_of_stackOperands (hop ▸ rfl) _)) fun _ x _ _ =>
        report_ends (.inl hop) x.text)
  | breakpoint =>
    have reads : (get : Action Context).Reads := fun _ => rfl
    exact goOn_ends (reads.ends_bind
      (fun _ _ => .unchanged (dataLeft_of_stackOperands (hop ▸ rfl) _)) fun _ _ =>
        report_ends (.inr hop) _)

end Instruction

/-! ## Steps -/

namespace Machine

/-- What becomes of a machine by a step. -/
inductive StepOutcome (m : Machine) : Turn → Prop
  /-- It has ended before. -/
  | ended {ending : Termination} (ends : m.ending = some ending) :
      StepOutcome m ⟨m, .ok (.finished ending), []⟩
  /-- It ends because there is no instruction. -/
  | completed (running : m.ending = none) (next : m.instructions[m.position]? = none) :
      StepOutcome m (m.finish .completed [])
  /-- Its next instruction succeeds. -/
  | done (running : m.ending = none) {i : Instruction}
      (next : m.instructions[m.position]? = some i) {flow : Flow} {c : Context}
      (does : i.Does m.position m.context flow c) :
      StepOutcome m ({ m with context := c }.follow i [.fetched i m.context.environment] flow)
  /-- Its next instruction fails. -/
  | failed (running : m.ending = none) {i : Instruction}
      (next : m.instructions[m.position]? = some i) {e : RuntimeError} {c : Context}
      (fails : i.Fails m.context e c) :
      StepOutcome m
        ⟨{ m with context := c }, .error (.of i e), [.fetched i m.context.environment]⟩

/-- A step of a machine whose instructions fit their opcodes has one of these outcomes. -/
theorem step_outcome {m : Machine} (fits : ∀ i ∈ m.instructions, i.Fits) :
    m.StepOutcome m.step := by
  cases running : m.ending with
  | some ending =>
    rw [step_of_ending running]
    exact .ended running
  | none =>
    cases next : m.instructions[m.position]? with
    | none =>
      rw [step_of_end running next]
      exact .completed running next
    | some i =>
      have ends := i.perform_ends (fits i (Array.mem_of_getElem? next)) m.position m.context
      rw [step_of_instruction running next]
      unfold Ends at ends
      generalize (i.perform m.position).on m.context = r at ends ⊢
      rcases r with ⟨e | flow, c⟩
      · exact .failed running next ends
      · exact .done running next ends

end Machine

end Ippcode
