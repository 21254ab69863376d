import Ippcode.Proofs.Code.Signature
import Ippcode.Proofs.Machine.Effect

/-!
# Direct forms and stack forms

Fourteen operations and the two conditional jumps come in a direct form and in a stack form. The
direct form is the same as pushing its operands, using the stack form and popping the result,
although the two fetch their operands in different places and the stack form pops them from right
to left (`stackForm_agrees`).

`Machine.Faces` says which code a machine is about to execute, `Machine.proceed` executes it by
steps. That two pieces of code do the same, as far as a program can tell, is `Agree` : without
a fault they leave the same memory and streams, and the stacks as they were; otherwise they
raise the same error.
-/

namespace Ippcode

open Ippcode.Action

/-! ## Executing code -/

namespace Machine

/-- The next instructions begin with these opcodes and arguments. -/
def Faces (m : Machine) (code : List (Opcode × List Argument)) : Prop :=
  code <+: (m.instructions.toList.drop m.position).map Instruction.operation

/-- So many steps, up to the first fault. -/
def proceed : Nat → Machine → Except Fault Machine
  | 0, m => .ok m
  | count + 1, m =>
    match m.step.result with
    | .ok _ => proceed count m.step.machine
    | .error fault => .error fault

/-- The machine at the start of a piece of code. -/
def facing (c : Context) (code : List (Opcode × List Argument)) : Machine :=
  ⟨(Program.numbered code).instructions.toArray, 0, none, c⟩

/-- The machine at a position, to which its next instruction has sent it with this context. -/
def moveTo (m : Machine) (target : Nat) (c : Context) : Machine :=
  { m with context := c, position := target }

variable {m : Machine} {op : Opcode} {args : List Argument} {code : List (Opcode × List Argument)}

theorem Faces.next (h : m.Faces ((op, args) :: code)) :
    ∃ i, m.instructions[m.position]? = some i ∧ i.opcode = op ∧ i.args = args := by
  obtain ⟨rest, h⟩ := h
  cases hd : m.instructions.toList.drop m.position with
  | nil => simp [hd] at h
  | cons i is =>
    simp only [hd, List.map_cons, List.cons_append, List.cons.injEq, Instruction.operation,
      Prod.mk.injEq] at h
    refine ⟨i, ?_, h.1.1.symm, h.1.2.symm⟩
    have := congrArg List.head? hd
    rwa [List.head?_drop, List.head?_cons, Array.getElem?_toList] at this

theorem Faces.moveTo (h : m.Faces ((op, args) :: code)) (c : Context) :
    (m.moveTo (m.position + 1) c).Faces code := by
  obtain ⟨rest, h⟩ := h
  refine ⟨rest, ?_⟩
  have := congrArg List.tail h
  rwa [List.cons_append, List.tail_cons, ← List.map_tail, List.tail_drop] at this

/-! ### Results of code -/

/-- What becomes of code that computes `r` : an error of `r` is a fault, a value is what the code
goes on with. -/
def Yields (r : Except RuntimeError α) (next : α → Except Fault Machine)
    (result : Except Fault Machine) : Prop :=
  match r with
  | .ok x => result = next x
  | .error e => ∃ fault, result = .error fault ∧ fault.error = e

theorem Yields.bind {r : Except RuntimeError α} {f : α → Except RuntimeError β}
    {next : α → Except Fault Machine} {next' : β → Except Fault Machine}
    {result : Except Fault Machine} (first : Yields r next result)
    (rest : ∀ x, Yields (f x) next' (next x)) : Yields (r >>= f) next' result := by
  cases r with
  | error e => exact first
  | ok x =>
    have : result = next x := first
    rw [this]
    exact rest x

/-- Where control goes from the position `here`, while the program goes on. -/
def landing (here : Nat) : Flow → Nat
  | .next | .halt _ => here + 1
  | .transfer _ target | .resume target => target

/-- One step of the code, by what its instruction does. -/
theorem yields_step (h : m.Faces ((op, args) :: code)) (running : m.ending = none)
    {r : Except RuntimeError α} {f : α → Flow × Context} {c : Context}
    (spec : ∀ i : Instruction, i.opcode = op → i.args = args →
      (i.perform m.position).on m.context = settle r c f)
    (goesOn : ∀ x exit, (f x).1 ≠ .halt exit) (count : Nat) :
    Yields r (fun x => (m.moveTo (landing m.position (f x).1) (f x).2).proceed count)
      (m.proceed (count + 1)) := by
  obtain ⟨i, hi, hop, hargs⟩ := h.next
  rw [proceed, step_of_instruction running hi, spec i hop hargs]
  cases r with
  | error e => exact ⟨.of i e, rfl, rfl⟩
  | ok x =>
    cases hf : (f x).1 with
    | halt exit => exact absurd hf (goesOn x exit)
    | next => simp only [Yields, settle, follow, hf, landing, moveTo]
    | transfer label target => simp only [Yields, settle, follow, hf, landing, moveTo]
    | resume target => simp only [Yields, settle, follow, hf, landing, moveTo]

end Machine

/-! ## What the instructions do -/

namespace Instruction

variable {i : Instruction} {here : Nat} {c : Context} {v : VariableName} {a b : Argument}

theorem perform_pushS (hop : i.opcode = .pushS) (hargs : i.args = [a]) (ha : a.fits .symb = true) :
    (i.perform here).on c =
      settle (a.evaluate c.environment.memory) c fun x =>
        (.next, c.withData (x :: c.environment.data)) := by
  simp only [perform, hop, withOperand, hargs, on_goOn, on_bind, i.on_operand ha]
  cases a.evaluate c.environment.memory <;> rfl

theorem perform_popS (hop : i.opcode = .popS) (hargs : i.args = [.var v])
    {found : Variable} (hv : c.environment.memory.get v = .ok found) {x : Value}
    {data : List Value} (hd : c.environment.data = x :: data) :
    (i.perform here).on c =
      settle (c.environment.memory.assign v x) (c.withData data) fun m =>
        (.next, (c.withMemory m).withData data) := by
  simp only [perform, hop, popInto, hargs, on_goOn, on_bind, on_target, hv, map_ok, on_pop, hd,
    on_store, Context.memory_withData]
  cases c.environment.memory.assign v x <;> rfl

/-- The direct form of an operation with one operand. -/
theorem perform_unary_direct {op : Unary} (hop : i.opcode = .unary .direct op)
    (hargs : i.args = [.var v, a]) {found : Variable}
    (hv : c.environment.memory.get v = .ok found) (ha : a.fits .symb = true) :
    (i.perform here).on c =
      settle (do
          let x ← a.evaluate c.environment.memory
          let z ← op.apply x
          c.environment.memory.assign v z)
        c fun m => (.next, c.withMemory m) := by
  simp only [perform, hop, computeUnary, hargs, on_goOn, on_bind, on_target, hv, map_ok,
    i.on_operand ha, on_lift]
  cases a.evaluate c.environment.memory with
  | error e => rfl
  | ok x =>
    simp only [ok_bind]
    cases op.apply x with
    | error e => rfl
    | ok z =>
      simp only [on_store, ok_bind]
      cases c.environment.memory.assign v z <;> rfl

/-- The direct form of an operation with two operands. -/
theorem perform_binary_direct {op : Binary} (hop : i.opcode = .binary .direct op)
    (hargs : i.args = [.var v, a, b]) {found : Variable}
    (hv : c.environment.memory.get v = .ok found) (ha : a.fits .symb = true)
    (hb : b.fits .symb = true) :
    (i.perform here).on c =
      settle (do
          let x ← a.evaluate c.environment.memory
          let y ← b.evaluate c.environment.memory
          let z ← op.apply x y
          c.environment.memory.assign v z)
        c fun m => (.next, c.withMemory m) := by
  simp only [perform, hop, computeBinary, hargs, on_goOn, on_bind, on_target, hv, map_ok,
    i.on_operand ha, i.on_operand hb, on_lift]
  cases a.evaluate c.environment.memory with
  | error e => rfl
  | ok x =>
    simp only [ok_bind]
    cases b.evaluate c.environment.memory with
    | error e => rfl
    | ok y =>
      simp only [ok_bind]
      cases op.apply x y with
      | error e => rfl
      | ok z =>
        simp only [on_store, ok_bind]
        cases c.environment.memory.assign v z <;> rfl

/-- The stack form of an operation with one operand. -/
theorem perform_unary_stack {op : Unary} (hop : i.opcode = .unary .stack op) {x : Value}
    {data : List Value} (hd : c.environment.data = x :: data) :
    (i.perform here).on c =
      settle (op.apply x) (c.withData data) fun z => (.next, c.withData (z :: data)) := by
  simp only [perform, hop, computeTop, on_goOn, on_bind, on_pop, hd, on_lift]
  cases op.apply x <;> rfl

/-- The stack form of an operation with two operands. The right one is on top. -/
theorem perform_binary_stack {op : Binary} (hop : i.opcode = .binary .stack op) {x y : Value}
    {data : List Value} (hd : c.environment.data = y :: x :: data) :
    (i.perform here).on c =
      settle (op.apply x y) (c.withData data) fun z => (.next, c.withData (z :: data)) := by
  simp only [perform, hop, computeTopTwo, on_goOn, on_bind, on_pop, hd, Context.data_withData,
    on_lift]
  cases op.apply x y <;> rfl

/-- Where a conditional jump goes, once it is known whether its operands are equal. -/
def branch (label : String) (target : Nat) (equal holds : Bool) : Flow :=
  if holds == equal then .transfer label target else .next

/-- The direct form of a conditional jump to a label that is defined. -/
theorem perform_jumpIf_direct {equal : Bool} {label : String} {target : Nat}
    (hop : i.opcode = .jumpIf .direct equal) (hargs : i.args = [.label label, a, b])
    (hl : c.environment.label label = .ok target) (ha : a.fits .symb = true)
    (hb : b.fits .symb = true) :
    (i.perform here).on c =
      settle (do
          let x ← a.evaluate c.environment.memory
          let y ← b.evaluate c.environment.memory
          x.jumpEqual y)
        c fun holds => (branch label target equal holds, c) := by
  simp only [perform, hop, jumpIf, hargs, on_bind, on_position, hl, i.on_operand ha,
    i.on_operand hb, on_lift]
  cases a.evaluate c.environment.memory with
  | error e => rfl
  | ok x =>
    simp only [ok_bind]
    cases b.evaluate c.environment.memory with
    | error e => rfl
    | ok y =>
      simp only [ok_bind]
      cases x.jumpEqual y <;> rfl

/-- The stack form of a conditional jump to a label that is defined. -/
theorem perform_jumpIf_stack {equal : Bool} {label : String} {target : Nat}
    (hop : i.opcode = .jumpIf .stack equal) (hargs : i.args = [.label label])
    (hl : c.environment.label label = .ok target) {x y : Value} {data : List Value}
    (hd : c.environment.data = y :: x :: data) :
    (i.perform here).on c =
      settle (x.jumpEqual y) (c.withData data) fun holds =>
        (branch label target equal holds, c.withData data) := by
  simp only [perform, hop, jumpIf, hargs, on_bind, on_position, hl, on_pop, hd,
    Context.data_withData, on_lift, Context.withData_withData]
  cases x.jumpEqual y <;> rfl

end Instruction

/-! ## Agreement -/

namespace Machine

/-- What executing two pieces of code from the environment `e` on has in common if they do the
same. `ends` says where they end without a fault. -/
inductive Agree (e : Environment) (ends : Nat → Nat → Prop) :
    Except Fault Machine → Except Fault Machine → Prop
  | done {x y : Machine} (context : x.context = y.context)
      (data : x.context.environment.data = e.data) (calls : x.context.environment.calls = e.calls)
      (position : ends x.position y.position) : Agree e ends (.ok x) (.ok y)
  | failed {f g : Fault} (error : f.error = g.error) : Agree e ends (.error f) (.error g)

/-- Code that computes the same and goes on alike agrees. -/
theorem Agree.of_yields {e : Environment} {ends : Nat → Nat → Prop} {r : Except RuntimeError α}
    {x y : α → Machine} {s t : Except Fault Machine} (hs : Yields r (fun z => .ok (x z)) s)
    (ht : Yields r (fun z => .ok (y z)) t)
    (same : ∀ z, Agree e ends (.ok (x z)) (.ok (y z))) : Agree e ends s t := by
  cases r with
  | ok z =>
    have hs : s = .ok (x z) := hs
    have ht : t = .ok (y z) := ht
    rw [hs, ht]
    exact same z
  | error error =>
    obtain ⟨f, rfl, hf⟩ := hs
    obtain ⟨g, rfl, hg⟩ := ht
    exact .failed (hf.trans hg.symm)

variable {m n : Machine} {a b : Argument} {code : List (Opcode × List Argument)}

theorem yields_push (h : m.Faces ((.pushS, [a]) :: code)) (running : m.ending = none)
    (ha : a.fits .symb = true) (count : Nat) :
    Yields (a.evaluate m.context.environment.memory)
      (fun x => (m.moveTo (m.position + 1)
        (m.context.withData (x :: m.context.environment.data))).proceed count)
      (m.proceed (count + 1)) :=
  yields_step h running (fun _ hop hargs => Instruction.perform_pushS hop hargs ha)
    (fun _ _ => nofun) count

theorem yields_push_two (h : m.Faces ((.pushS, [a]) :: (.pushS, [b]) :: code))
    (running : m.ending = none) (ha : a.fits .symb = true) (hb : b.fits .symb = true) (count : Nat)
    {f : Value → Value → Except RuntimeError α} {next : α → Except Fault Machine}
    (rest : ∀ x y, Yields (f x y) next
      ((m.moveTo (m.position + 2)
        (m.context.withData (y :: x :: m.context.environment.data))).proceed count)) :
    Yields (do
        let x ← a.evaluate m.context.environment.memory
        let y ← b.evaluate m.context.environment.memory
        f x y)
      next (m.proceed (count + 2)) := by
  refine (yields_push h running ha (count + 1)).bind fun x => ?_
  have second := yields_push (h.moveTo (m.context.withData (x :: m.context.environment.data)))
    running hb count
  exact second.bind fun y => rest x y

theorem yields_pop {v : VariableName} (h : m.Faces [(.popS, [.var v])]) (running : m.ending = none)
    {found : Variable} (hv : m.context.environment.memory.get v = .ok found) {x : Value}
    {data : List Value} (hd : m.context.environment.data = x :: data) :
    Yields (m.context.environment.memory.assign v x)
      (fun memory => .ok (m.moveTo (m.position + 1) ((m.context.withMemory memory).withData data)))
      (m.proceed 1) :=
  yields_step h running (fun _ hop hargs => Instruction.perform_popS hop hargs hv hd)
    (fun _ _ => nofun) 0

/-! ### Operations -/

theorem agree_unary (context : m.context = n.context) (hm : m.ending = none)
    (hn : n.ending = none) {op : Unary} {v : VariableName}
    (hv : m.context.environment.memory.contains v = .ok true) (ha : a.fits .symb = true)
    (direct : m.Faces [(.unary .direct op, [.var v, a])])
    (stack : n.Faces [(.pushS, [a]), (.unary .stack op, []), (.popS, [.var v])]) :
    Agree m.context.environment (fun x y => x = m.position + 1 ∧ y = n.position + 3)
      (m.proceed 1) (n.proceed 3) := by
  obtain ⟨found, hv⟩ := Memory.get_of_contains hv
  have hdirect := yields_step direct hm
    (fun i hop hargs => Instruction.perform_unary_direct hop hargs hv ha) (fun _ _ => nofun) 0
  rw [context] at hv hdirect
  have hstack : Yields (do
        let x ← a.evaluate n.context.environment.memory
        let z ← op.apply x
        n.context.environment.memory.assign v z)
      (fun memory => .ok (n.moveTo (n.position + 3) (n.context.withMemory memory)))
      (n.proceed 3) := by
    refine (yields_push stack hn ha 2).bind fun x => ?_
    have operation := yields_step (m := n.moveTo (n.position + 1)
        (n.context.withData (x :: n.context.environment.data)))
      (stack.moveTo _) hn (fun i hop _ => Instruction.perform_unary_stack hop rfl)
      (fun _ _ => nofun) 1
    refine operation.bind fun z => ?_
    exact yields_pop
      (m := n.moveTo (n.position + 2) (n.context.withData (z :: n.context.environment.data)))
      ((stack.moveTo (n.context.withData [x])).moveTo _) hn hv rfl
  rw [context]
  exact .of_yields hdirect hstack fun memory => .done rfl rfl rfl ⟨rfl, rfl⟩

theorem agree_binary (context : m.context = n.context) (hm : m.ending = none)
    (hn : n.ending = none) {op : Binary} {v : VariableName}
    (hv : m.context.environment.memory.contains v = .ok true) (ha : a.fits .symb = true)
    (hb : b.fits .symb = true) (direct : m.Faces [(.binary .direct op, [.var v, a, b])])
    (stack : n.Faces
      [(.pushS, [a]), (.pushS, [b]), (.binary .stack op, []), (.popS, [.var v])]) :
    Agree m.context.environment (fun x y => x = m.position + 1 ∧ y = n.position + 4)
      (m.proceed 1) (n.proceed 4) := by
  obtain ⟨found, hv⟩ := Memory.get_of_contains hv
  have hdirect := yields_step direct hm
    (fun i hop hargs => Instruction.perform_binary_direct hop hargs hv ha hb) (fun _ _ => nofun) 0
  rw [context] at hv hdirect
  have hstack : Yields (do
        let x ← a.evaluate n.context.environment.memory
        let y ← b.evaluate n.context.environment.memory
        let z ← op.apply x y
        n.context.environment.memory.assign v z)
      (fun memory => .ok (n.moveTo (n.position + 4) (n.context.withMemory memory)))
      (n.proceed 4) := by
    refine yields_push_two stack hn ha hb 2 fun x y => ?_
    have operation := yields_step (m := n.moveTo (n.position + 2)
        (n.context.withData (y :: x :: n.context.environment.data)))
      ((stack.moveTo (n.context.withData [x])).moveTo _) hn
      (fun i hop _ => Instruction.perform_binary_stack hop rfl) (fun _ _ => nofun) 1
    refine operation.bind fun z => ?_
    exact yields_pop
      (m := n.moveTo (n.position + 3) (n.context.withData (z :: n.context.environment.data)))
      (((stack.moveTo (n.context.withData [x])).moveTo (n.context.withData [y])).moveTo _) hn hv rfl
  rw [context]
  exact .of_yields hdirect hstack fun memory => .done rfl rfl rfl ⟨rfl, rfl⟩

/-! ### Conditional jumps -/

theorem agree_jumpIf (context : m.context = n.context) (hm : m.ending = none)
    (hn : n.ending = none) {equal : Bool} {label : String} {target : Nat}
    (hl : m.context.environment.label label = .ok target) (ha : a.fits .symb = true)
    (hb : b.fits .symb = true) (direct : m.Faces [(.jumpIf .direct equal, [.label label, a, b])])
    (stack : n.Faces [(.pushS, [a]), (.pushS, [b]), (.jumpIf .stack equal, [.label label])]) :
    Agree m.context.environment
      (fun x y => (x = target ∧ y = target) ∨ (x = m.position + 1 ∧ y = n.position + 3))
      (m.proceed 1) (n.proceed 3) := by
  have goesOn : ∀ holds exit, Instruction.branch label target equal holds ≠ .halt exit := by
    intro holds exit
    unfold Instruction.branch
    split <;> simp
  have hdirect := yields_step direct hm
    (fun i hop hargs => Instruction.perform_jumpIf_direct hop hargs hl ha hb) goesOn 0
  rw [context] at hl hdirect
  have hstack : Yields (do
        let x ← a.evaluate n.context.environment.memory
        let y ← b.evaluate n.context.environment.memory
        x.jumpEqual y)
      (fun holds => .ok (n.moveTo
        (landing (n.position + 2) (Instruction.branch label target equal holds)) n.context))
      (n.proceed 3) := by
    refine yields_push_two stack hn ha hb 1 fun x y => ?_
    have spec (i : Instruction) (hop : i.opcode = .jumpIf .stack equal)
        (hargs : i.args = [.label label]) :
        (i.perform (n.position + 2)).on
            (n.context.withData (y :: x :: n.context.environment.data)) =
          settle (x.jumpEqual y) (n.context.withData n.context.environment.data) fun holds =>
            (Instruction.branch label target equal holds,
              n.context.withData n.context.environment.data) :=
      Instruction.perform_jumpIf_stack
        (c := n.context.withData (y :: x :: n.context.environment.data)) hop hargs hl rfl
    exact yields_step (m := n.moveTo (n.position + 2) _)
      ((stack.moveTo (n.context.withData [x])).moveTo _) hn spec goesOn 0
  rw [context]
  refine .of_yields hdirect hstack fun holds => .done rfl rfl rfl ?_
  unfold Instruction.branch
  split
  · exact .inl ⟨rfl, rfl⟩
  · exact .inr ⟨rfl, rfl⟩

/-- Whatever the environment, a direct form does what its stack form does with the operands pushed
before and the result popped behind it. -/
theorem stackForm_agrees (context : m.context = n.context) (hm : m.ending = none)
    (hn : n.ending = none) :
    (∀ (op : Unary) (v : VariableName) (a : Argument),
      m.context.environment.memory.contains v = .ok true → a.fits .symb = true →
      m.Faces [(.unary .direct op, [.var v, a])] →
      n.Faces [(.pushS, [a]), (.unary .stack op, []), (.popS, [.var v])] →
      Agree m.context.environment (fun x y => x = m.position + 1 ∧ y = n.position + 3)
        (m.proceed 1) (n.proceed 3)) ∧
    (∀ (op : Binary) (v : VariableName) (a b : Argument),
      m.context.environment.memory.contains v = .ok true → a.fits .symb = true →
      b.fits .symb = true → m.Faces [(.binary .direct op, [.var v, a, b])] →
      n.Faces [(.pushS, [a]), (.pushS, [b]), (.binary .stack op, []), (.popS, [.var v])] →
      Agree m.context.environment (fun x y => x = m.position + 1 ∧ y = n.position + 4)
        (m.proceed 1) (n.proceed 4)) ∧
    (∀ (equal : Bool) (label : String) (target : Nat) (a b : Argument),
      m.context.environment.label label = .ok target → a.fits .symb = true →
      b.fits .symb = true → m.Faces [(.jumpIf .direct equal, [.label label, a, b])] →
      n.Faces [(.pushS, [a]), (.pushS, [b]), (.jumpIf .stack equal, [.label label])] →
      Agree m.context.environment
        (fun x y => (x = target ∧ y = target) ∨ (x = m.position + 1 ∧ y = n.position + 3))
        (m.proceed 1) (n.proceed 3)) :=
  ⟨fun _ _ _ hv ha direct stack => agree_unary context hm hn hv ha direct stack,
    fun _ _ _ _ hv ha hb direct stack => agree_binary context hm hn hv ha hb direct stack,
    fun _ _ _ _ _ hl ha hb direct stack => agree_jumpIf context hm hn hl ha hb direct stack⟩

/-- The context of a program that has set the global variable `x`. -/
def settled (x : Value) : Context :=
  ⟨⟨⟨⟨[⟨⟨.gf, "x"⟩, some x⟩]⟩, none, []⟩, [("end", 5)], [], [.bool true]⟩,
    ⟨.lines [], .unlimited, .unlimited⟩⟩

/-- The result goes into a variable that is an operand too, whatever the type of its value. -/
theorem stackForm_agrees_overwriting :
    Agree (settled (.int 7)).environment (fun x y => x = 1 ∧ y = 3)
        ((facing (settled (.int 7))
          [(.unary .direct .intToChar, [.var ⟨.gf, "x"⟩, .var ⟨.gf, "x"⟩])]).proceed 1)
        ((facing (settled (.int 7))
          [(.pushS, [.var ⟨.gf, "x"⟩]), (.unary .stack .intToChar, []),
            (.popS, [.var ⟨.gf, "x"⟩])]).proceed 3) ∧
      Agree (settled .nil).environment (fun x y => x = 1 ∧ y = 4)
        ((facing (settled .nil)
          [(.binary .direct (.arithmetic .sub),
            [.var ⟨.gf, "x"⟩, .constant (.int 2), .var ⟨.gf, "x"⟩])]).proceed 1)
        ((facing (settled .nil)
          [(.pushS, [.constant (.int 2)]), (.pushS, [.var ⟨.gf, "x"⟩]),
            (.binary .stack (.arithmetic .sub), []), (.popS, [.var ⟨.gf, "x"⟩])]).proceed 4) ∧
      Agree (settled .nil).environment (fun x y => (x = 5 ∧ y = 5) ∨ (x = 1 ∧ y = 3))
        ((facing (settled .nil)
          [(.jumpIf .direct true,
            [.label "end", .var ⟨.gf, "x"⟩, .constant (.bool true)])]).proceed 1)
        ((facing (settled .nil)
          [(.pushS, [.var ⟨.gf, "x"⟩]), (.pushS, [.constant (.bool true)]),
            (.jumpIf .stack true, [.label "end"])]).proceed 3) := by
  refine ⟨?_, ?_, ?_⟩
  · refine (stackForm_agrees (m := facing (settled (.int 7)) _) (n := facing (settled (.int 7)) _)
      (Eq.refl (settled (.int 7))) rfl rfl).1 .intToChar ⟨.gf, "x"⟩ (.var ⟨.gf, "x"⟩)
      ?_ ?_ ?_ ?_
    · rfl
    · rfl
    · exact ⟨[], rfl⟩
    · exact ⟨[], rfl⟩
  · refine (stackForm_agrees (m := facing (settled .nil) _) (n := facing (settled .nil) _)
      (Eq.refl (settled .nil)) rfl rfl).2.1 (.arithmetic .sub) ⟨.gf, "x"⟩ (.constant (.int 2))
      (.var ⟨.gf, "x"⟩) ?_ ?_ ?_ ?_ ?_
    · rfl
    · rfl
    · rfl
    · exact ⟨[], rfl⟩
    · exact ⟨[], rfl⟩
  · refine (stackForm_agrees (m := facing (settled .nil) _) (n := facing (settled .nil) _)
      (Eq.refl (settled .nil)) rfl rfl).2.2 true "end" 5 (.var ⟨.gf, "x"⟩)
      (.constant (.bool true)) ?_ ?_ ?_ ?_ ?_
    · rfl
    · rfl
    · rfl
    · exact ⟨[], rfl⟩
    · exact ⟨[], rfl⟩

end Machine

end Ippcode
