import Ippcode.Proofs.Machine.Depth
import Ippcode.Proofs.Machine.Reading
import Ippcode.Proofs.Machine.Simulation

/-!
# What is covered on a stack

What lies on a stack so low that it is not reached stays as it is. For local frames there is more to
say : a program reaches only the top one, so it cannot find out what the frames below are either.
With other frames in place of the covered ones (`Machine.withCovered`), everything happens in the
same way as long as they are covered (`after_withCovered`). Only `BREAK` shows all frames, so what
the diagnostic stream gets differs, and it must not refuse it.

A step is the same because the memory answers alike and is changed alike above the covered frames
(`isFaithful_covering`); popping a frame is all that could uncover one.

`covered_untouched` puts everything together. In particular a routine that pushes a frame and pops
it again gives back the frames of its caller, and a value that is pushed is what is popped when the
data stack is down again.
-/

namespace Ippcode

/-! ## Other frames below -/

/-- Below the top one, the elements of a list are cut off at the same place. -/
theorem rdrop_cons {x : α} {xs : List α} {k : Nat} (h : k ≤ xs.length) :
    (x :: xs).rdrop k = x :: xs.rdrop k := by
  rw [List.rdrop, List.length_cons, Nat.sub_add_comm h, List.take_succ_cons]
  rfl

namespace Memory

variable {m : Memory} {k : Nat} {base : List Frame} {kind : FrameKind} {v : VariableName}

/-- The memory with other frames in place of the `k` lowest local ones. -/
def withCovered (k : Nat) (base : List Frame) (m : Memory) : Memory :=
  { m with locals := m.locals.rdrop k ++ base }

theorem pushTemporary_withCovered (h : k ≤ m.locals.length) :
    (m.withCovered k base).pushTemporary = m.pushTemporary.map (withCovered k base) := by
  unfold pushTemporary
  cases there : m.temporary with
  | none => simp [withCovered, there]
  | some f => simp [withCovered, there, rdrop_cons h]

variable (deep : k < m.locals.length)

include deep

/-- There is a top frame, which is not covered. -/
theorem exists_top : ∃ f fs, m.locals = f :: fs ∧ k ≤ fs.length := by
  cases locals : m.locals with
  | nil => simp [locals] at deep
  | cons f fs => exact ⟨f, fs, rfl, by simpa [locals, Nat.lt_succ_iff] using deep⟩

theorem frame_withCovered (kind : FrameKind) :
    (m.withCovered k base).frame kind = m.frame kind := by
  obtain ⟨f, fs, locals, above⟩ := exists_top deep
  cases kind with
  | gf | tf => rfl
  | lf => simp [frame, withCovered, locals, rdrop_cons above]

theorem setFrame_withCovered (kind : FrameKind) (g : Frame) :
    (m.withCovered k base).setFrame kind g = (m.setFrame kind g).withCovered k base := by
  obtain ⟨f, fs, locals, above⟩ := exists_top deep
  cases kind with
  | gf | tf => rfl
  | lf => simp [setFrame, withCovered, locals, rdrop_cons above]

theorem get_withCovered : (m.withCovered k base).get v = m.get v := by
  unfold get
  rw [frame_withCovered deep]

/-- What works on a frame does the same above other covered ones. -/
theorem bind_frame_withCovered (kind : FrameKind) {f f' : Frame → Except RuntimeError Memory}
    (alike : ∀ g, f' g = (f g).map (withCovered k base)) :
    ((m.withCovered k base).frame kind >>= f') =
      (m.frame kind >>= f).map (withCovered k base) := by
  rw [frame_withCovered deep]
  cases m.frame kind with
  | error e => rfl
  | ok g => exact alike g

theorem assign_withCovered (x : Value) :
    (m.withCovered k base).assign v x = (m.assign v x).map (withCovered k base) := by
  refine bind_frame_withCovered deep v.frame fun f => ?_
  rw [setFrame_withCovered deep]
  cases f.find? v.name <;> rfl

theorem insert_withCovered (v : Variable) :
    (m.withCovered k base).insert v = (m.insert v).map (withCovered k base) := by
  refine bind_frame_withCovered deep v.frame fun f => ?_
  rw [setFrame_withCovered deep]
  cases f.find? v.name <;> rfl

theorem popLocal_withCovered :
    (m.withCovered k base).popLocal = m.popLocal.map (withCovered k base) := by
  obtain ⟨f, fs, locals, above⟩ := exists_top deep
  simp [popLocal, withCovered, locals, rdrop_cons above]

end Memory

/-- The second memory has other frames in place of the `k` lowest local ones, and these are covered.
All the rest is the same, except for what the diagnostic streams have taken. -/
def Correspondence.covering (k : Nat) (base : List Frame) (R : Output → Output → Prop) :
    Correspondence :=
  ⟨.keep, id, fun ls ls' => ls' = ls,
    fun m m' => k < m.locals.length ∧ m' = m.withCovered k base, Console.AgreesUpTo R⟩

namespace Correspondence

variable {k : Nat} {base : List Frame} {R : Output → Output → Prop}

/-- Nothing that is asked of a memory is answered by a covered frame. -/
theorem isFaithful_covering : (covering k base R).IsFaithful fun _ => True where
  lookup h _ := by
    rw [show _ = _ from h]
    exact Option.map_id_apply.symm
  get {m m' v} h _ := by
    obtain ⟨deep, rfl⟩ := h
    have same : (m.withCovered k base).get v = m.get v := Memory.get_withCovered deep
    exact same ▸ .rfl_keep fun _ => rfl
  assign {m m' v} x h _ := by
    obtain ⟨deep, rfl⟩ := h
    have same : (m.withCovered k base).assign v x = _ := Memory.assign_withCovered deep x
    refine same ▸ .map_keep fun left assigned => ⟨?_, rfl⟩
    obtain ⟨f, hf, -, rfl⟩ := Memory.assign_eq_ok_iff.mp assigned
    rwa [(Memory.locals_setFrame hf _).1]
  declare {m m' v} h _ := by
    obtain ⟨deep, rfl⟩ := h
    have same : (m.withCovered k base).declare v = _ := Memory.insert_withCovered deep ⟨v, none⟩
    refine same ▸ .map_keep fun left declared => ⟨?_, rfl⟩
    obtain ⟨f, hf, -, rfl⟩ := Memory.insert_eq_ok_iff.mp declared
    rwa [(Memory.locals_setFrame hf _).1]
  createTemporary h := by
    obtain ⟨deep, rfl⟩ := h
    exact ⟨deep, rfl⟩
  pushTemporary {m m'} h := by
    obtain ⟨deep, rfl⟩ := h
    refine Memory.pushTemporary_withCovered deep.le ▸ .map_keep fun left pushed => ⟨?_, rfl⟩
    unfold Memory.pushTemporary at pushed
    split at pushed <;> cases pushed
    exact Nat.lt_succ_of_lt deep

end Correspondence

namespace Machine

variable {p : Program} {console : Console} {m n n' : Machine} {k : Nat} {base : List Frame}
  {R : Output → Output → Prop} {i : Instruction} {moves : List Move}

/-- The machine with other frames in place of its `k` lowest local ones. -/
def withCovered (k : Nat) (base : List Frame) (n : Machine) : Machine :=
  { n with context := n.context.withMemory (n.memory.withCovered k base) }

/-- The machine with another diagnostic stream. -/
def withDiagnostic (diagnostic : Output) (n : Machine) : Machine :=
  { n with context := n.context.withConsole { n.context.console with diagnostic := diagnostic } }

/-- No step among moves is at a `BREAK`. -/
def IsQuiet (n : Machine) (moves : List Move) : Prop :=
  ∀ j ∈ n.stepsIn moves, j.fetched?.map Instruction.opcode ≠ some .breakpoint

/-- A step that moves frames changes the memory and goes on. -/
theorem step_of_changeMemory (h : n.fetched? = some i) {f : Memory → Except RuntimeError Memory}
    (perform : ∀ here, i.perform here = Instruction.goOn (Action.changeMemory f)) {left : Memory}
    (moved : f n.memory = .ok left) :
    n.step = ⟨{ n with position := n.position + 1, context := n.context.withMemory left },
      .ok .running, [.fetched i n.context.environment]⟩ := by
  obtain ⟨running, next⟩ := fetched?_eq_some_iff.mp h
  rw [step_of_instruction running next, perform, Instruction.on_goOn, Action.on_changeMemory,
    show f n.context.environment.memory = _ from moved]
  rfl

theorem perform_pushFrame (op : i.opcode = .pushFrame) (here : Nat) :
    i.perform here = Instruction.goOn (Action.changeMemory Memory.pushTemporary) := by
  rw [Instruction.perform, op]

theorem perform_popFrame (op : i.opcode = .popFrame) (here : Nat) :
    i.perform here = Instruction.goOn (Action.changeMemory Memory.popLocal) := by
  rw [Instruction.perform, op]

/-- A frame is moved above other ones in the same way. -/
theorem step_withCovered (base : List Frame) (h : n.fetched? = some i)
    {f : Memory → Except RuntimeError Memory}
    (perform : ∀ here, i.perform here = Instruction.goOn (Action.changeMemory f)) {left : Memory}
    (moved : f n.memory = .ok left)
    (alike : f (n.memory.withCovered k base) = (f n.memory).map (Memory.withCovered k base))
    (diagnostic : Output) :
    ((n.withCovered k base).withDiagnostic diagnostic).step.machine =
      (n.step.machine.withCovered k base).withDiagnostic diagnostic := by
  rw [moved] at alike
  rw [step_of_changeMemory h perform moved,
    step_of_changeMemory (n := (n.withCovered k base).withDiagnostic diagnostic) h perform alike]
  rfl

/-- The step that is the same with other covered frames is one that uncovers none. -/
theorem Matches.step_covering (h : n.Matches (.covering k base R) n')
    (deep : k < n.step.machine.localDepth)
    (same : Output.WritesAlike R)
    (shows : n.fetched?.map Instruction.opcode = some .breakpoint →
      (Correspondence.covering k base R).ShowsAnything) :
    SameResult .keep n n' n.step.result n'.step.result ∧
      n.step.machine.Matches (.covering k base R) n'.step.machine := by
  have behind : n.position + 1 = n'.position + 1 := congrArg (· + 1) h.position.symm
  refine h.step behind fun i i' renamed fetched => ?_
  refine Instruction.perform_matches renamed Correspondence.isFaithful_covering (fun _ _ => trivial)
    behind h.context (fun pop => ?_)
    (fun _ _ => Correspondence.sharesStreams_of_agreesUpTo rfl same)
    (fun op => shows (by rw [fetched, Option.map_some, op]))
  obtain ⟨above, covered⟩ := h.context.memory
  rw [covered, Memory.popLocal_withCovered above]
  refine .map_keep fun left popped => ⟨?_, rfl⟩
  rwa [localDepth, step_of_changeMemory fetched (perform_popFrame pop) popped] at deep

/-- The same instruction gives the same result. -/
theorem SameResult.eq {r r' : Except Fault Progress} (h : SameResult .keep n n' r r')
    (same : n'.fetched? = n.fetched?) : r' = r := by
  cases h with
  | ok progress => rfl
  | error next next' e =>
    rw [RuntimeError.rename_keep, Option.some.inj (next'.symm.trans (same.trans next))]

theorem Matches.after_covering (h : n.Matches (.covering k base R) n')
    (program : n'.instructions = n.instructions)
    (deep : ∀ j ∈ n.machinesIn moves, k < j.localDepth)
    (same : Output.WritesAlike R)
    (cleared : ∀ {o o' : Output}, R o o' → R { o with latest := [] } { o' with latest := [] })
    (shows : n.IsQuiet moves ∨ (Correspondence.covering k base R).ShowsAnything) :
    (n.after moves).Matches (.covering k base R) (n'.after moves) ∧
      List.Forall₂ (fun j j' : Machine => j'.step.result = j.step.result)
        (n.stepsIn moves) (n'.stepsIn moves) := by
  refine Matches.after rfl cleared moves h fun j hj j' hj' alike => ?_
  obtain ⟨result, left⟩ := alike.step_covering (deep _ (mem_machinesIn_of_mem_stepsIn moves hj).2)
    same fun op => shows.resolve_left fun quiet => quiet j hj op
  refine ⟨result.eq ?_, left⟩
  have instructions : j'.instructions = j.instructions := by
    rw [(Reaches.of_mem_stepsIn moves .start hj').instructions, program,
      (Reaches.of_mem_stepsIn moves .start hj).instructions]
  rw [fetched?, fetched?, alike.ending, alike.position, instructions]
  rfl

/-- Machines that correspond are equal except for the covered frames and what is shown. -/
theorem Matches.eq_withCovered (h : n.Matches (.covering k base R) n')
    (program : n'.instructions = n.instructions) :
    n' = (n.withCovered k base).withDiagnostic n'.context.console.diagnostic := by
  obtain ⟨labels, ⟨-, memory⟩, calls, data, input, output, -⟩ := h.context
  have position := h.position
  have ending := h.ending
  obtain ⟨instructions, here, ends, ⟨⟨m, ls, cs, ds⟩, ⟨i, o, d⟩⟩⟩ := n'
  cases program
  cases position
  cases ending
  cases labels
  cases memory
  cases calls.trans (List.map_id _)
  cases data
  cases input
  cases output
  rfl

theorem matches_withCovered (deep : k < n.localDepth)
    (same : R n.context.console.diagnostic n.context.console.diagnostic) :
    n.Matches (.covering k base R) (n.withCovered k base) where
  instructions j := by
    change Option.Rel _ n.instructions[j]? n.instructions[j]?
    cases n.instructions[j]? with
    | none => exact .none
    | some i => exact .some (.keep i)
  position := rfl
  ending := rfl
  context := ⟨rfl, ⟨deep, rfl⟩, (List.map_id _).symm, rfl, rfl, rfl, same⟩

/-- With other frames in place of the covered ones, the steps among moves have the same results and
lead to the same machine, again with the other frames covered. If it has come to a `BREAK`,
something else has been shown, which makes no difference to a stream that takes everything. -/
theorem after_withCovered (base : List Frame) (deep : ∀ j ∈ n.machinesIn moves, k < j.localDepth)
    (shows : n.IsQuiet moves ∨ n.context.console.diagnostic.room = none) :
    ((n.withCovered k base).turnsIn moves).map Turn.result = (n.turnsIn moves).map Turn.result ∧
      ∃ diagnostic,
        (n.withCovered k base).after moves =
          ((n.after moves).withCovered k base).withDiagnostic diagnostic ∧
        (n.IsQuiet moves → diagnostic = (n.after moves).context.console.diagnostic) := by
  have start : k < n.localDepth := deep n (mem_machinesIn_self moves n)
  have results {n' : Machine}
      (h : List.Forall₂ (fun j j' : Machine => j'.step.result = j.step.result)
        (n.stepsIn moves) (n'.stepsIn moves)) :
      (n'.turnsIn moves).map Turn.result = (n.turnsIn moves).map Turn.result := by
    rw [← map_step_stepsIn, ← map_step_stepsIn, List.map_map, List.map_map, ← List.forall₂_eq_eq_eq,
      List.forall₂_map_left_iff, List.forall₂_map_right_iff]
    exact h.flip
  have program {n' : Machine} (h : n'.instructions = n.instructions) :
      (n'.after moves).instructions = (n.after moves).instructions := by
    rw [(Reaches.start.after moves).instructions, h, (Reaches.start.after moves).instructions]
  by_cases quiet : n.IsQuiet moves
  · obtain ⟨left, steps⟩ := (matches_withCovered (R := Eq) start rfl).after_covering rfl deep
      Output.writesAlike_eq (fun h => h ▸ rfl) (.inl quiet)
    exact ⟨results steps, _, left.eq_withCovered (program rfl),
      fun _ => left.context.console.diagnostic.symm⟩
  · have room := shows.resolve_left quiet
    obtain ⟨left, steps⟩ := (matches_withCovered start ⟨room, room⟩).after_covering rfl deep
      Output.writesAlike_bothUnlimited id
      (.inr (Correspondence.showsAnything_of_agreesUpTo rfl))
    exact ⟨results steps, _, left.eq_withCovered (program rfl), fun h => absurd h quiet⟩

/-! ## Routines and pushed values -/

theorem performed?_eq_some_iff (fits : ∀ i ∈ n.instructions, i.Fits) {op : Opcode} :
    n.step.performed? = some op ↔
      ∃ i progress, n.fetched? = some i ∧ i.opcode = op ∧ n.step.result = .ok progress := by
  simp only [fetched?_eq_some_iff]
  have outcome := step_outcome fits
  generalize n.step = t at outcome ⊢
  cases outcome with
  | ended ends => simp [Turn.performed?, ends]
  | completed running next => simp [Turn.performed?, finish, next]
  | @done running i next flow c does =>
    have performed := performed?_follow (m := { n with context := c }) i n.context.environment flow
    rw [performed]
    cases flow <;> simp [running, next, follow, finish]
  | failed running next fails => simp [Turn.performed?]

/-- What a machine performs with success is done. -/
theorem does_of_performed (fits : ∀ i ∈ n.instructions, i.Fits) {op : Opcode}
    (h : n.step.performed? = some op) : ∃ i flow, n.fetched? = some i ∧ i.opcode = op ∧
      i.Does n.position n.context flow n.step.machine.context := by
  obtain ⟨i, progress, fetched, op, ok⟩ := (performed?_eq_some_iff fits).mp h
  obtain ⟨flow, does⟩ := step_does fits fetched ok
  exact ⟨i, flow, fetched, op, does⟩

end Machine

namespace Instruction

variable {i : Instruction} {here : Nat} {c c' : Context} {flow : Flow}

theorem Does.of_pushFrame (op : i.opcode = .pushFrame) (h : i.Does here c flow c') :
    ∃ m, c.environment.memory.pushTemporary = .ok m := by
  cases h
  case pushFrame _ memory => exact ⟨_, memory⟩
  all_goals simp_all [Opcode.storesResult]

theorem Does.of_popFrame (op : i.opcode = .popFrame) (h : i.Does here c flow c') :
    ∃ m, c.environment.memory.popLocal = .ok m := by
  cases h
  case popFrame _ memory => exact ⟨_, memory⟩
  all_goals simp_all [Opcode.storesResult]

theorem Does.of_pushS (op : i.opcode = .pushS) {a : Argument} (args : i.args = [a])
    (h : i.Does here c flow c') : ∃ x, a.evaluate c.environment.memory = .ok x ∧
      c'.environment.data = x :: c.environment.data := by
  cases h
  case push _ x args' value =>
    cases args.symm.trans args'
    exact ⟨x, value, rfl⟩
  all_goals simp_all [Opcode.storesResult]

theorem Does.of_popS (op : i.opcode = .popS) {v : VariableName} (args : i.args = [.var v])
    (h : i.Does here c flow c') : ∃ x, c.environment.data = x :: c'.environment.data ∧
      c.environment.memory.assign v x = .ok c'.environment.memory := by
  cases h
  case pop x data top stores =>
    obtain ⟨w, rest, m, args', assigned, rfl⟩ := stores
    cases args.symm.trans args'
    exact ⟨x, top, assigned⟩
  all_goals simp_all [Opcode.storesResult]

end Instruction

namespace Machine

variable {p : Program} {console : Console} {m n : Machine} {k : Nat} {base : List Frame}
  {moves : List Move}

section

variable (created : create p console = .ok m) (reached : m.Reaches n)

include created reached

/-- If the local frames are as many again as before one was pushed, and there were more in between,
the frame has been popped and all others are as they were. -/
theorem locals_of_popped (pushed : n.step.performed? = some .pushFrame)
    (inner : ∀ j ∈ n.step.machine.machinesIn moves, n.localDepth < j.localDepth)
    (back : (n.step.machine.after moves).step.machine.localDepth = n.localDepth) :
    (n.step.machine.after moves).step.performed? = some .popFrame ∧
      (n.step.machine.after moves).step.machine.memory.locals = n.memory.locals := by
  have kept := rtake_locals_after (k := n.localDepth + 1) created reached.step inner
  have deep := inner _ (after_mem_machinesIn moves _)
  have fits := (reached.step.after moves).fits created
  have start : n.step.machine.memory.locals.rtake n.localDepth = n.memory.locals := by
    cases step_locals (reached.fits created) with
    | kept stays => exact absurd pushed stays.1
    | pushed _ locals => exact locals ▸ (rtake_cons le_rfl).trans (rtake_of_length rfl)
    | popped pop => cases pop.symm.trans pushed
  rw [Nat.add_sub_cancel, start] at kept
  generalize n.step.machine.after moves = q at kept deep fits back ⊢
  cases step_locals fits with
  | kept _ depth =>
    have : q.step.machine.localDepth = q.localDepth := depth
    omega
  | pushed _ locals =>
    have : q.step.machine.localDepth = q.localDepth + 1 := congrArg List.length locals
    omega
  | popped pop locals =>
    rw [locals, rtake_cons back.ge, rtake_of_length back] at kept
    exact ⟨pop, kept⟩

/-- A value that was pushed is what is popped when the data stack is as high again as before, and
was higher all the time in between. -/
theorem assign_of_popped {a : Argument} {v : VariableName} {i i' : Instruction}
    (fetched : n.fetched? = some i) (pushArgs : i.args = [a])
    (pushed : n.step.performed? = some .pushS)
    (inner : ∀ j ∈ n.step.machine.stepsIn moves, n.dataHeight < j.lowestHeight)
    (fetched' : (n.step.machine.after moves).fetched? = some i') (popArgs : i'.args = [.var v])
    (popped : (n.step.machine.after moves).step.performed? = some .popS)
    (back : (n.step.machine.after moves).step.machine.dataHeight = n.dataHeight) :
    ∃ x, a.evaluate n.memory = .ok x ∧
      (n.step.machine.after moves).memory.assign v x =
        .ok (n.step.machine.after moves).step.machine.memory := by
  have kept := rtake_data_after (k := n.dataHeight + 1) created reached.step inner
  obtain ⟨_, flow, found, op, does⟩ := does_of_performed (reached.fits created) pushed
  cases found.symm.trans fetched
  obtain ⟨x, value, data⟩ := does.of_pushS op pushArgs
  obtain ⟨_, flow', found', op', does'⟩ :=
    does_of_performed ((reached.step.after moves).fits created) popped
  cases found'.symm.trans fetched'
  obtain ⟨y, data', assigned⟩ := does'.of_popS op' popArgs
  have height : (n.step.machine.after moves).data.length = n.dataHeight + 1 :=
    (congrArg List.length data').trans (congrArg (· + 1) back)
  have height' : n.step.machine.data.length = n.dataHeight + 1 := congrArg List.length data
  rw [rtake_of_length height, rtake_of_length height'] at kept
  obtain ⟨rfl, -⟩ := List.cons.inj (data'.symm.trans (kept.trans data))
  exact ⟨y, value, assigned⟩

/-- A routine that pushes a frame and pops it at the end does the same for a caller with other local
frames, and leaves these to it. -/
theorem routine_withCovered (pushed : n.step.performed? = some .pushFrame)
    (inner : ∀ j ∈ n.step.machine.machinesIn moves, n.localDepth < j.localDepth)
    (popped : (n.step.machine.after moves).step.performed? = some .popFrame)
    (shows : n.step.machine.IsQuiet moves ∨ n.context.console.diagnostic.room = none) :
    ∃ diagnostic,
      ((n.withCovered n.localDepth base).step.machine.after moves).step.machine =
        ((n.step.machine.after moves).step.machine.withCovered n.localDepth base).withDiagnostic
          diagnostic := by
  obtain ⟨i, flow, fetched, op, does⟩ := does_of_performed (reached.fits created) pushed
  obtain ⟨left, memory⟩ := does.of_pushFrame op
  have step := step_of_changeMemory fetched (perform_pushFrame op) memory
  have enters : (n.withCovered n.localDepth base).step.machine =
      n.step.machine.withCovered n.localDepth base := by
    have entered := step_withCovered base fetched (perform_pushFrame op) memory
      (Memory.pushTemporary_withCovered le_rfl) n.context.console.diagnostic
    rw [step] at entered ⊢
    exact entered
  have room : n.step.machine.context.console = n.context.console := by
    rw [step, Context.console_withMemory]
  obtain ⟨-, diagnostic, after, -⟩ := after_withCovered base inner (room ▸ shows)
  obtain ⟨i', flow', fetched', op', does'⟩ :=
    does_of_performed ((reached.step.after moves).fits created) popped
  obtain ⟨left', memory'⟩ := does'.of_popFrame op'
  refine ⟨diagnostic, ?_⟩
  rw [enters, after]
  exact step_withCovered base fetched' (perform_popFrame op') memory'
    (Memory.popLocal_withCovered (inner _ (after_mem_machinesIn moves _))) diagnostic

end

/-- Among moves, and among moves behind the first step of a routine, what is covered on the stacks
is left alone. -/
structure LeavesCovered (n : Machine) (moves : List Move) : Prop where
  /-- If there are never fewer than `k` values on the data stack, not even in the middle of a step,
  the lowest `k` are the same. -/
  data : ∀ k, (∀ j ∈ n.stepsIn moves, k ≤ j.lowestHeight) →
    (n.after moves).data.rtake k = n.data.rtake k
  /-- If there are never fewer before and behind a step, one of these may be replaced in it. -/
  dataBetween : ∀ k, (∀ j ∈ n.machinesIn moves, k ≤ j.dataHeight) →
    (n.after moves).data.rtake (k - 1) = n.data.rtake (k - 1)
  calls : ∀ k, (∀ j ∈ n.machinesIn moves, k ≤ j.callDepth) →
    (n.after moves).calls.rtake k = n.calls.rtake k
  /-- Of the local frames, the top one is not covered. -/
  locals : ∀ k, (∀ j ∈ n.machinesIn moves, k ≤ j.localDepth) →
    (n.after moves).memory.locals.rtake (k - 1) = n.memory.locals.rtake (k - 1)
  /-- With other frames in place of the covered ones, there are the same results and the same
  machine with the other frames. Only what `BREAK` has shown may differ. -/
  unseen : ∀ k base, (∀ j ∈ n.machinesIn moves, k < j.localDepth) →
    n.IsQuiet moves ∨ n.context.console.diagnostic.room = none →
    ((n.withCovered k base).turnsIn moves).map Turn.result = (n.turnsIn moves).map Turn.result ∧
      ∃ diagnostic,
        (n.withCovered k base).after moves =
          ((n.after moves).withCovered k base).withDiagnostic diagnostic ∧
        (n.IsQuiet moves → diagnostic = (n.after moves).context.console.diagnostic)
  /-- A routine that pushes a frame is over when there are as many local frames as before. Then it
  has popped its frame and left those of its caller as they were, and it would have done the same
  for a caller with others. -/
  routine : n.step.performed? = some .pushFrame →
    (∀ j ∈ n.step.machine.machinesIn moves, n.localDepth < j.localDepth) →
    (n.step.machine.after moves).step.machine.localDepth = n.localDepth →
    (n.step.machine.after moves).step.performed? = some .popFrame ∧
      (n.step.machine.after moves).step.machine.memory.locals = n.memory.locals ∧
      ∀ base, n.step.machine.IsQuiet moves ∨ n.context.console.diagnostic.room = none →
        ∃ diagnostic,
          ((n.withCovered n.localDepth base).step.machine.after moves).step.machine =
            ((n.step.machine.after moves).step.machine.withCovered n.localDepth
              base).withDiagnostic diagnostic
  /-- A value that is pushed is what is stored by the step that pops it, when the data stack is as
  high again as before. -/
  popped : ∀ i i' a v, n.fetched? = some i → i.args = [a] → n.step.performed? = some .pushS →
    (∀ j ∈ n.step.machine.stepsIn moves, n.dataHeight < j.lowestHeight) →
    (n.step.machine.after moves).fetched? = some i' → i'.args = [.var v] →
    (n.step.machine.after moves).step.performed? = some .popS →
    (n.step.machine.after moves).step.machine.dataHeight = n.dataHeight →
    ∃ x, a.evaluate n.memory = .ok x ∧
      (n.step.machine.after moves).memory.assign v x =
        .ok (n.step.machine.after moves).step.machine.memory

/-- In a run of an accepted program, what is covered on the stacks is left alone, whatever happens
meanwhile. -/
theorem covered_untouched (created : create p console = .ok m) (reached : m.Reaches n)
    (moves : List Move) : n.LeavesCovered moves where
  data _ high := rtake_data_after created reached high
  dataBetween k high := by
    refine rtake_data_after created reached fun j hj => ?_
    have behind := high _ (mem_machinesIn_of_mem_stepsIn moves hj).2
    have := j.dataHeight_step_le
    omega
  calls _ deep := rtake_calls_after created reached deep
  locals _ deep := rtake_locals_after created reached deep
  unseen _ base deep shows := after_withCovered base deep shows
  routine pushed inner back := by
    obtain ⟨popped, same⟩ := locals_of_popped created reached pushed inner back
    exact ⟨popped, same, fun _ shows =>
      routine_withCovered created reached pushed inner popped shows⟩
  popped _ _ _ _ fetched pushArgs pushed inner fetched' popArgs popped back :=
    assign_of_popped created reached fetched pushArgs pushed inner fetched' popArgs popped back

/-- A program with a value on the data stack and a variable in a local frame, while a routine works
with its own. -/
def sheltering : Program :=
  .numbered [(.jump, [.label "main"]), (.label, [.label "f"]), (.createFrame, []),
    (.defVar, [.var ⟨.tf, "x"⟩]), (.pushFrame, []), (.pushS, [.constant (.int 7)]),
    (.pushS, [.constant (.int 8)]), (.binary .stack (.arithmetic .add), []),
    (.popS, [.var ⟨.lf, "x"⟩]), (.popFrame, []), (.ret, []), (.label, [.label "main"]),
    (.createFrame, []), (.defVar, [.var ⟨.tf, "x"⟩]),
    (.move, [.var ⟨.tf, "x"⟩, .constant (.int 1)]), (.pushFrame, []),
    (.pushS, [.constant (.int 5)]), (.call, [.label "f"]), (.popS, [.var ⟨.lf, "x"⟩])]

/-- The routine pushes its frame in the twelfth step and pops it five steps later. Then the local
frame of its caller is as before. The value that is pushed in the seventh step is stored by the last
one. -/
theorem covered_untouched_sheltering :
    ∃ m : Machine, create sheltering ⟨.stream [], .unlimited, .unlimited⟩ = .ok m ∧
      ((m.after (List.replicate 11 .step)).step.machine.after
          (List.replicate 4 .step)).step.machine.memory.locals =
        (m.after (List.replicate 11 .step)).memory.locals ∧
      ((m.after (List.replicate 6 .step)).step.machine.after
          (List.replicate 11 .step)).memory.assign ⟨.lf, "x"⟩ (.int 5) =
        .ok ((m.after (List.replicate 6 .step)).step.machine.after
          (List.replicate 11 .step)).step.machine.memory := by
  have created : create sheltering ⟨.stream [], .unlimited, .unlimited⟩ = .ok _ := rfl
  refine ⟨_, created, ?_, ?_⟩
  · have kept := covered_untouched created (Reaches.start.after (List.replicate 11 .step))
      (List.replicate 4 .step)
    exact (kept.routine (by decide) (by decide) (by decide)).2.1
  · have kept := covered_untouched created (Reaches.start.after (List.replicate 6 .step))
      (List.replicate 11 .step)
    obtain ⟨x, value, stored⟩ := kept.popped ⟨17, .pushS, [.constant (.int 5)]⟩
      ⟨19, .popS, [.var ⟨.lf, "x"⟩]⟩ (.constant (.int 5)) ⟨.lf, "x"⟩ rfl rfl (by decide) (by decide)
      rfl rfl (by decide) (by decide)
    cases value
    exact stored

end Machine

end Ippcode
