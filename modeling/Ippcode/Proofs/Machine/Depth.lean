import Mathlib.Data.List.DropRight
import Ippcode.Proofs.Machine.Call
import Ippcode.Proofs.Statistics

/-!
# How low stacks get

A step works on the top of the stacks only. It leaves a lower part of the data stack as it is and
puts something else above it (`step_data`), makes a call or finishes one, and pushes a local frame,
pops one or changes the top one (`step_locals`). So what is not reached in any of the steps among
moves is the same behind them (`eq_after`).

How low a stack gets is told by the machines before and behind a step, with one exception : a stack
form pops its operands before it pushes its result. In the middle of its step the data stack is
lower than before and behind (`Machine.lowestHeight`).
-/

namespace Ippcode

/-! ## Bottoms of stacks -/

section

variable {top base : List α} {k : Nat}

/-- What is above `base` does not matter for what is in it. -/
theorem rtake_append (h : k ≤ base.length) : (top ++ base).rtake k = base.rtake k := by
  rw [List.rtake, List.rtake, List.length_append, Nat.add_sub_assoc h, List.drop_append,
    List.drop_eq_nil_of_le (by omega), List.nil_append, Nat.add_sub_cancel_left]

/-- What is pushed onto a stack is not seen at its bottom. -/
theorem rtake_cons {x : α} (h : k ≤ base.length) : (x :: base).rtake k = base.rtake k := by
  rw [← List.singleton_append, rtake_append h]

theorem rtake_of_length (h : base.length = k) : base.rtake k = base := by
  rw [List.rtake, h, Nat.sub_self, List.drop_zero]

/-- What is taken from a stack is not seen at its bottom. -/
theorem rtake_tail (h : k < base.length) : base.tail.rtake k = base.rtake k := by
  cases base with
  | nil => cases h
  | cons x base => exact (rtake_cons (Nat.le_of_lt_succ h)).symm

end

/-! ## Parts of steps -/

/-- How many values a step pushes onto the data stack. -/
def Turn.pushes (t : Turn) : Nat := (t.performed?.map Opcode.pushes).getD 0

/-- No step pushes two values. -/
theorem Turn.pushes_le_one (t : Turn) : t.pushes ≤ 1 := by
  unfold pushes Opcode.pushes
  cases t.performed? with
  | none => exact Nat.zero_le 1
  | some op =>
    rw [Option.map_some, Option.getD_some]
    split <;> omega

/-- An instruction that fails has popped some values. -/
theorem Instruction.dataLeft_eq_drop (i : Instruction) (e : Environment) :
    ∃ count, i.dataLeft e = e.data.drop count := by
  unfold dataLeft
  split
  · exact ⟨0, rfl⟩
  · exact ⟨_, rfl⟩

namespace Memory

variable {m m' : Memory} {op : Option Opcode}

/-- What becomes of the local frames when an instruction of this opcode is performed, or none. -/
inductive MovesLocals (op : Option Opcode) (m m' : Memory) : Prop
  | kept (stays : op ≠ some .pushFrame ∧ op ≠ some .popFrame)
      (depth : m'.locals.length = m.locals.length) (below : m'.locals.tail = m.locals.tail)
  | pushed (push : op = some .pushFrame) {f : Frame} (locals : m'.locals = f :: m.locals)
  | popped (pop : op = some .popFrame) {f : Frame} (locals : m.locals = f :: m'.locals)

/-- Another frame in place of one leaves the local frames below the top as they are. -/
theorem locals_setFrame {kind : FrameKind} {f : Frame} (h : m.frame kind = .ok f) (g : Frame) :
    (m.setFrame kind g).locals.length = m.locals.length ∧
      (m.setFrame kind g).locals.tail = m.locals.tail := by
  cases kind with
  | gf | tf => exact ⟨rfl, rfl⟩
  | lf =>
    cases there : m.locals with
    | nil => simp [frame, there] at h
    | cons top rest => simp [setFrame, there]

/-- A frame that is replaced does not move. -/
theorem movesLocals_setFrame (stays : op ≠ some .pushFrame ∧ op ≠ some .popFrame)
    {kind : FrameKind} {f : Frame} (h : m.frame kind = .ok f) (g : Frame) :
    MovesLocals op m (m.setFrame kind g) :=
  .kept stays (locals_setFrame h g).1 (locals_setFrame h g).2

/-- The frames below the top one stay as they are, and so does the top one while a frame is above
it. -/
theorem MovesLocals.rtake (h : MovesLocals op m m') {k : Nat} (before : k ≤ m.locals.length)
    (behind : k ≤ m'.locals.length) : m'.locals.rtake (k - 1) = m.locals.rtake (k - 1) := by
  cases h with
  | kept stays depth below =>
    rcases k with _ | k
    · simp
    · rw [Nat.add_sub_cancel, ← rtake_tail behind, ← rtake_tail before, below]
  | pushed push locals =>
    rw [locals]
    exact rtake_cons (by omega)
  | popped pop locals =>
    rw [locals]
    exact (rtake_cons (by omega)).symm

end Memory

namespace Instruction

variable {i : Instruction} {here : Nat} {c c' : Context} {flow : Flow} {x : Value}

theorem Stores.movesLocals (op : i.opcode.assigns = true) (h : i.Stores x c c') :
    Memory.MovesLocals (some i.opcode) c.environment.memory c'.environment.memory := by
  obtain ⟨v, rest, m, args, assigned, rfl⟩ := h
  obtain ⟨f, hf, -, rfl⟩ := Memory.assign_eq_ok_iff.mp assigned
  refine Memory.movesLocals_setFrame ?_ hf _
  constructor <;> intro moves <;> rw [Option.some.inj moves] at op <;> cases op

/-- Local frames move in two instructions only. -/
theorem Does.movesLocals (h : i.Does here c flow c') :
    Memory.MovesLocals (some i.opcode) c.environment.memory c'.environment.memory := by
  cases h with
  | createFrame op => exact .kept (by simp [op]) rfl rfl
  | pushFrame op memory =>
    unfold Memory.pushTemporary at memory
    split at memory <;> cases memory
    exact .pushed (congrArg some op) rfl
  | popFrame op memory =>
    unfold Memory.popLocal at memory
    split at memory <;> cases memory
    next there => exact .popped (congrArg some op) there
  | declare op args memory =>
    obtain ⟨f, hf, -, rfl⟩ := Memory.insert_eq_ok_iff.mp memory
    exact Memory.movesLocals_setFrame (by simp [op]) hf _
  | store op stores => exact stores.movesLocals (Opcode.roles_of_storesResult op).1
  | read op args flushed stores | pop op top stores =>
    have moves := stores.movesLocals (op ▸ rfl)
    exact moves
  | taken op operands | skipped op operands =>
    obtain ⟨data, rfl⟩ := operands.eq_withData
    exact .kept (by simp [op]) rfl rfl
  | report op => exact .kept (by rcases op with op | op <;> simp [op]) rfl rfl
  | computeTop op | computeTopTwo op | push op | clear op | write op | label op | jump op | call op
  | ret op | exit op => exact .kept (by simp [op]) rfl rfl

end Instruction

namespace Machine

variable {p : Program} {console : Console} {m n : Machine} {k : Nat}

/-! ## Heights -/

/-- The data stack of a machine. -/
def data (n : Machine) : List Value := n.context.environment.data

/-- The unfinished calls of a machine. -/
def calls (n : Machine) : List Nat := n.context.environment.calls

/-- How many values are on the data stack. -/
def dataHeight (n : Machine) : Nat := n.data.length

/-- How many local frames there are. -/
def localDepth (n : Machine) : Nat := n.memory.locals.length

/-- How many values are on the data stack in a step when there are fewest. What a step pushes comes
at its very end, so this is before that. -/
def lowestHeight (n : Machine) : Nat := n.step.machine.dataHeight - n.step.pushes

/-! ## Steps -/

/-- A step replaces what is above the lowest height that the data stack has in it. -/
theorem step_data (fits : ∀ i ∈ n.instructions, i.Fits) :
    ∃ popped pushed base, n.data = popped ++ base ∧ n.step.machine.data = pushed ++ base ∧
      base.length = n.lowestHeight ∧ pushed.length = n.step.pushes := by
  have outcome := step_outcome fits
  unfold lowestHeight dataHeight data
  generalize n.step = t at outcome ⊢
  cases outcome with
  | ended ends => exact ⟨[], [], _, rfl, rfl, rfl, rfl⟩
  | completed running next => exact ⟨[], [], _, rfl, rfl, rfl, rfl⟩
  | @done running i next flow c does =>
    obtain ⟨-, pushed, length, data⟩ := does.data
    have performed := performed?_follow (m := { n with context := c }) i n.context.environment flow
    rw [Turn.pushes, performed, Option.map_some, Option.getD_some, context_follow, data,
      List.length_append, length]
    exact ⟨_, pushed, _, (List.take_append_drop ..).symm, rfl, (Nat.add_sub_cancel_left ..).symm,
      length⟩
  | @failed running i next error c fails =>
    obtain ⟨count, left⟩ := i.dataLeft_eq_drop n.context.environment
    have data : c.environment.data = n.context.environment.data.drop count := fails.data.trans left
    exact ⟨_, [], _, (List.take_append_drop count _).symm, data, congrArg List.length data.symm,
      rfl⟩

/-- What is below all that a step touches stays as it is. -/
theorem rtake_data_step (fits : ∀ i ∈ n.instructions, i.Fits) (h : k ≤ n.lowestHeight) :
    n.step.machine.data.rtake k = n.data.rtake k := by
  obtain ⟨popped, pushed, base, before, behind, length, -⟩ := step_data fits
  rw [before, behind, rtake_append (length ▸ h), rtake_append (length ▸ h)]

/-- Behind a step the data stack is at most one higher than it was at the lowest. -/
theorem dataHeight_step_le : n.step.machine.dataHeight ≤ n.lowestHeight + 1 := by
  have := n.step.pushes_le_one
  unfold lowestHeight
  omega

/-- Calls below the lesser of both depths are the same. -/
theorem rtake_calls_step (fits : ∀ i ∈ n.instructions, i.Fits) (before : k ≤ n.callDepth)
    (behind : k ≤ n.step.machine.callDepth) : n.step.machine.calls.rtake k = n.calls.rtake k := by
  unfold callDepth Environment.callDepth at before behind
  unfold calls
  cases step_calls fits with
  | kept op calls => rw [calls]
  | called op calls =>
    rw [calls]
    exact rtake_cons before
  | returned op calls =>
    rw [calls]
    exact (rtake_cons behind).symm

/-- A step moves local frames as its instruction says, and changes at most the one at the top. -/
theorem step_locals (fits : ∀ i ∈ n.instructions, i.Fits) :
    n.memory.MovesLocals n.step.performed? n.step.machine.memory := by
  have outcome := step_outcome fits
  unfold memory
  generalize n.step = t at outcome ⊢
  cases outcome with
  | ended ends => exact .kept ⟨nofun, nofun⟩ rfl rfl
  | completed running next => exact .kept ⟨nofun, nofun⟩ rfl rfl
  | @done running i next flow c does =>
    have performed := performed?_follow (m := { n with context := c }) i n.context.environment flow
    rw [performed, context_follow]
    exact does.movesLocals
  | failed running next fails =>
    rw [fails.memory]
    exact .kept ⟨nofun, nofun⟩ rfl rfl

/-! ## Moves -/

/-- Steps begin and end at machines among moves. -/
theorem mem_machinesIn_of_mem_stepsIn : ∀ (moves : List Move) {n j : Machine},
    j ∈ n.stepsIn moves → j ∈ n.machinesIn moves ∧ j.step.machine ∈ n.machinesIn moves
  | [], _, _, h => absurd h List.not_mem_nil
  | .step :: moves, n, j, h => by
    rcases List.mem_cons.mp h with rfl | h
    · exact ⟨List.mem_cons_self, List.mem_cons_of_mem _ (mem_machinesIn_self moves _)⟩
    · exact (mem_machinesIn_of_mem_stepsIn moves h).imp (List.mem_cons_of_mem _)
        (List.mem_cons_of_mem _)
  | .supply bytes :: moves, n, j, h =>
    (mem_machinesIn_of_mem_stepsIn (n := n.supply bytes) moves h).imp (List.mem_cons_of_mem _)
      (List.mem_cons_of_mem _)
  | .drain :: moves, n, j, h =>
    (mem_machinesIn_of_mem_stepsIn (n := n.drain) moves h).imp (List.mem_cons_of_mem _)
      (List.mem_cons_of_mem _)

theorem after_mem_machinesIn : ∀ (moves : List Move) (n : Machine),
    n.after moves ∈ n.machinesIn moves
  | [], _ => List.mem_cons_self
  | move :: moves, n => List.mem_cons_of_mem _ (after_mem_machinesIn moves (n.move move))

/-- What no step changes in the environment stays as it is. -/
theorem eq_after {g : Environment → α} : ∀ (moves : List Move) {n : Machine},
    (∀ j ∈ n.stepsIn moves,
      g j.step.machine.context.environment = g j.context.environment) →
    g (n.after moves).context.environment = g n.context.environment
  | [], _, _ => rfl
  | .step :: moves, n, h =>
    (eq_after (n := n.step.machine) moves fun j hj => h j (List.mem_cons_of_mem n hj)).trans
      (h n List.mem_cons_self)
  | .supply bytes :: moves, n, h =>
    (eq_after (n := n.supply bytes) moves h).trans (congrArg g (environment_supply bytes))
  | .drain :: moves, n, h => eq_after (n := n.drain) moves h

section

variable (created : create p console = .ok m) (reached : m.Reaches n) {moves : List Move}

include created reached

/-- Nothing is touched below the lowest height of a segment. -/
theorem rtake_data_after (high : ∀ j ∈ n.stepsIn moves, k ≤ j.lowestHeight) :
    (n.after moves).data.rtake k = n.data.rtake k :=
  eq_after (g := fun e => e.data.rtake k) moves fun j hj =>
    rtake_data_step ((reached.of_mem_stepsIn moves hj).fits created) (high j hj)

/-- A call that is unfinished all the time stays on the call stack. -/
theorem rtake_calls_after (deep : ∀ j ∈ n.machinesIn moves, k ≤ j.callDepth) :
    (n.after moves).calls.rtake k = n.calls.rtake k :=
  eq_after (g := fun e => e.calls.rtake k) moves fun j hj =>
    have among := mem_machinesIn_of_mem_stepsIn moves hj
    rtake_calls_step ((reached.of_mem_stepsIn moves hj).fits created) (deep j among.1)
      (deep _ among.2)

/-- A local frame that is covered all the time stays as it is. -/
theorem rtake_locals_after (deep : ∀ j ∈ n.machinesIn moves, k ≤ j.localDepth) :
    (n.after moves).memory.locals.rtake (k - 1) = n.memory.locals.rtake (k - 1) :=
  eq_after (g := fun e => e.memory.locals.rtake (k - 1)) moves fun j hj =>
    have among := mem_machinesIn_of_mem_stepsIn moves hj
    (step_locals ((reached.of_mem_stepsIn moves hj).fits created)).rtake (deep j among.1)
      (deep _ among.2)

end

end Machine

end Ippcode
