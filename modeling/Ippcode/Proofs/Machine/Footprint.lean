import Ippcode.Proofs.Machine.Fault
import Ippcode.Proofs.Machine.Place
import Ippcode.Proofs.Machine.Trace

/-!
# Footprints of instructions

A successful instruction leaves everything alone that its opcode has nothing to do with. What it
can touch is listed in `Instruction.Footprint`, part by part : the variables (`Rewrites`), the
unfinished calls and the data stack, and the streams (`Exchanges`). Each list has one case for each
kind of opcode, told by the opcode alone, and says all that happens there.

Variables of one name in several frames are told apart by the places of their frames, and frames
are followed while they move (`Machine.placeAfter`). So what has a value keeps having one as long as
its frame lives, whatever happens to the program (`step_footprint`).
-/

namespace Ippcode

open Memory

/-! ## What an opcode has to do with -/

namespace Opcode

/-- Whether an opcode moves frames. -/
def movesFrames : Opcode → Bool
  | createFrame | pushFrame | popFrame => true
  | _ => false

/-- Whether an opcode gives the variable in its first argument a value. -/
def assigns (op : Opcode) : Bool := op != .defVar && op.signature.head? == some .var

/-- Whether an opcode has to do with the streams. -/
def usesStreams : Opcode → Bool
  | read | write | dPrint | breakpoint => true
  | _ => false

/-- How many values an opcode takes off a data stack. -/
def pops (op : Opcode) (data : List Value) : Nat :=
  match op with
  | clearS => data.length
  | popS => 1
  | _ => op.stackOperands

/-- How many values an opcode puts on the data stack. -/
def pushes : Opcode → Nat
  | pushS | binary .stack _ | unary .stack _ => 1
  | _ => 0

variable {op : Opcode} {m : Memory}

/-- What an opcode that stores its result has to do with. -/
theorem roles_of_storesResult (h : op.storesResult = true) :
    op.assigns = true ∧ op.usesStreams = false ∧ op.pushes = 0 ∧ ∀ data, op.pops data = 0 := by
  cases op with
  | binary form | unary form =>
    cases form with
    | direct => exact ⟨rfl, rfl, rfl, fun _ => rfl⟩
    | stack => cases h
  | _ => first | exact ⟨rfl, rfl, rfl, fun _ => rfl⟩ | cases h

/-- An opcode that gives a variable a value moves no frames. -/
theorem movesFrames_of_assigns (h : op.assigns = true) : op.movesFrames = false := by
  cases op <;> first | rfl | cases h

theorem carries?_of_stays (h : op.movesFrames = false) (place : FramePlace) :
    op.carries? m place = some place := by
  cases op <;> first | rfl | cases h

end Opcode

/-! ## Lines of input -/

/-- How input is shortened by its first line, if it has one. -/
inductive Input.TakesLine : Input → Input → Prop
  | known (lines : List String) : TakesLine (.lines lines) (.lines lines.tail)
  /-- A line that ends, with its end. -/
  | ended (line : List UInt8) {rest : List UInt8} (plain : 0x0A ∉ line) :
      TakesLine (.stream (line ++ 0x0A :: rest)) (.stream rest)
  /-- All that is left if there is no end of a line. -/
  | last {line : List UInt8} (plain : 0x0A ∉ line) : TakesLine (.stream line) (.stream [])

namespace Input

theorem takesLine_cons {b : UInt8} (plain : b ≠ 0x0A) {bytes rest : List UInt8}
    (h : TakesLine (.stream bytes) (.stream rest)) :
    TakesLine (.stream (b :: bytes)) (.stream rest) := by
  cases h with
  | ended line none => exact .ended (b :: line) (by simp [plain.symm, none])
  | last none => exact .last (by simp [plain.symm, none])

theorem takesLine_cutLine : ∀ bytes : List UInt8,
    TakesLine (.stream bytes) (.stream (Text.cutLine bytes).2)
  | [] => .last List.not_mem_nil
  | b :: bytes => by
    unfold Text.cutLine
    split
    · next ends => exact ends ▸ .ended [] List.not_mem_nil
    · next plain => exact takesLine_cons plain (takesLine_cutLine bytes)

theorem takesLine_next : ∀ input : Input, input.TakesLine input.next.2
  | lines [] => .known []
  | lines (l :: ls) => .known (l :: ls)
  | stream bytes => takesLine_cutLine bytes

end Input

/-! ## A text that is taken -/

/-- A stream that refuses nothing of a text has taken exactly the text. -/
theorem Output.accepted_of_write {o : Output} {bytes : List UInt8}
    (h : (o.write bytes).1 = .ok ()) : (o.write bytes).2.accepted = o.accepted ++ bytes := by
  have all : (o.fitting bytes).length = bytes.length := by
    by_contra short
    simp [write, short] at h
  have start : o.fitting bytes <+: bytes := by
    unfold fitting
    split
    · exact List.prefix_rfl
    · exact List.take_prefix _ _
  rw [accepted_write, start.eq_of_length all]

/-! ## Footprints -/

namespace Instruction

/-- What becomes of the variables. -/
inductive Rewrites (i : Instruction) (m : Memory) : Memory → Prop
  /-- Frames are moved as a whole. -/
  | moved (op : i.opcode.movesFrames = true) {m' : Memory} (carries : Carries i.opcode m m') :
      Rewrites i m m'
  /-- One variable is added, without a value. -/
  | declared (op : i.opcode = .defVar) {v : VariableName} {m' : Memory} (args : i.args = [.var v])
      (except : m.AgreeExcept (m.address v) m') (before : m.look (m.address v) = none)
      (after : m'.look (m.address v) = some ⟨v, none⟩) : Rewrites i m m'
  /-- One variable is given a value. -/
  | assigned (op : i.opcode.assigns = true) {v : VariableName} {rest : List Argument} {m' : Memory}
      (args : i.args = .var v :: rest) (except : m.AgreeExcept (m.address v) m') {w : Variable}
      {x : Value} (before : m.look (m.address v) = some w)
      (after : m'.look (m.address v) = some { w with value := some x }) : Rewrites i m m'
  | untouched (op : i.opcode.movesFrames = false ∧ i.opcode ≠ .defVar ∧ i.opcode.assigns = false) :
      Rewrites i m m

/-- What is exchanged with the streams. -/
inductive Exchanges (i : Instruction) (c : Context) : Console → Prop
  /-- An operand is printed. -/
  | printed (op : i.opcode = .write) {a : Argument} {x : Value} (args : i.args = [a])
      (value : a.evaluate c.environment.memory = .ok x) {output : Output}
      (accepted : output.accepted = c.console.output.accepted ++ Text.encode x.text) :
      Exchanges i c { c.console with output := output }
  /-- Something is shown on the diagnostic stream. -/
  | reported (op : i.opcode = .dPrint ∨ i.opcode = .breakpoint) {text : String}
      {diagnostic : Output}
      (accepted : diagnostic.accepted = c.console.diagnostic.accepted ++ Text.encode text) :
      Exchanges i c { c.console with diagnostic := diagnostic }
  /-- A line of input is taken. -/
  | taken (op : i.opcode = .read) {input : Input} (takes : c.console.input.TakesLine input) :
      Exchanges i c { c.console with input := input }
  | silent (op : i.opcode.usesStreams = false) : Exchanges i c c.console

/-- All that an instruction at the position `here` can have done to a context. -/
structure Footprint (i : Instruction) (here : Nat) (c c' : Context) : Prop where
  memory : i.Rewrites c.environment.memory c'.environment.memory
  labels : c'.environment.labels = c.environment.labels
  calls : match i.opcode with
    | .call => c'.environment.calls = (here + 1) :: c.environment.calls
    | .ret => ∃ target, c.environment.calls = target :: c'.environment.calls
    | _ => c'.environment.calls = c.environment.calls
  /-- The values that are popped are there, and what is below them stays. -/
  data : i.opcode.pops c.environment.data ≤ c.environment.data.length ∧
    ∃ results, results.length = i.opcode.pushes ∧
      c'.environment.data = results ++ c.environment.data.drop (i.opcode.pops c.environment.data)
  streams : i.Exchanges c c'.console

variable {i : Instruction} {here : Nat} {c c' : Context} {flow : Flow} {m m' : Memory} {x : Value}

/-! ### Variables -/

namespace Rewrites

/-- Which variables are declared is changed only by a declaration and by moving frames. -/
theorem isSome_look (h : i.Rewrites m m') (stay : i.opcode.movesFrames = false)
    (op : i.opcode ≠ .defVar) (a : Address) : (m'.look a).isSome = (m.look a).isSome := by
  cases h with
  | moved moves => cases moves.symm.trans stay
  | declared declares => exact absurd declares op
  | @assigned _ v _ _ _ except _ _ before after =>
    by_cases same : a = m.address v
    · rw [same, before, after, Option.isSome_some, Option.isSome_some]
    · rw [except.others a same]
  | untouched => rfl

/-- A variable that has a value has one where its frame is then. -/
theorem isInitialized (h : i.Rewrites m m') {a : Address} (there : m.IsInitialized a)
    {place' : FramePlace} (carried : i.opcode.carries? m a.place = some place') :
    m'.IsInitialized ⟨place', a.name⟩ := by
  obtain ⟨w, found, value⟩ := there
  obtain ⟨f, hf, hw⟩ := Option.bind_eq_some_iff.mp found
  cases h with
  | moved op carries =>
    refine ⟨{ w with frame := place'.kind }, ?_, value⟩
    rw [look_of_frameAt (carries.carried hf carried), Frame.find?_mark, hw, Option.map_some]
  | @declared op v _ args except before after =>
    rw [Opcode.carries?_of_stays (by rw [op]; rfl)] at carried
    cases carried
    have other : a ≠ m.address v := fun same => by simp [same, before] at found
    exact ⟨w, (except.others a other).trans found, value⟩
  | @assigned op v _ _ _ except w' x before after =>
    rw [Opcode.carries?_of_stays (Opcode.movesFrames_of_assigns op)] at carried
    cases carried
    by_cases same : a = m.address v
    · exact ⟨_, same ▸ after, rfl⟩
    · exact ⟨w, (except.others a same).trans found, value⟩
  | untouched op =>
    rw [Opcode.carries?_of_stays op.1] at carried
    cases carried
    exact ⟨w, found, value⟩

end Rewrites

theorem Stores.rewrites (op : i.opcode.assigns = true) (h : i.Stores x c c') :
    i.Rewrites c.environment.memory c'.environment.memory := by
  obtain ⟨v, rest, m, args, assigned, rfl⟩ := h
  obtain ⟨except, w, before, after⟩ := assign_look assigned
  exact .assigned op args except before after

theorem Does.rewrites (marked : c.environment.memory.Marked) (h : i.Does here c flow c') :
    i.Rewrites c.environment.memory c'.environment.memory := by
  cases h with
  | createFrame op => exact .moved (op ▸ rfl) (op ▸ marked.createTemporary_carries)
  | pushFrame op memory => exact .moved (op ▸ rfl) (op ▸ marked.pushTemporary_carries memory)
  | popFrame op memory => exact .moved (op ▸ rfl) (op ▸ marked.popLocal_carries memory)
  | declare op args memory =>
    obtain ⟨except, before, after⟩ := insert_look memory
    exact .declared op args except before after
  | store op stores => exact stores.rewrites (Opcode.roles_of_storesResult op).1
  | read op args flushed stores | pop op top stores =>
    have rewrites := stores.rewrites (op ▸ rfl)
    exact rewrites
  | @taken form _ op _ _ _ _ _ operands | @skipped form _ op _ _ _ _ operands =>
    obtain ⟨data, rfl⟩ := operands.eq_withData
    refine .untouched (op ▸ ⟨rfl, nofun, ?_⟩)
    cases form <;> rfl
  | report op =>
    refine .untouched ?_
    rcases op with op | op <;> rw [op] <;> exact ⟨rfl, nofun, rfl⟩
  | computeTop op | computeTopTwo op | push op | clear op | write op | label op | jump op | call op
  | ret op | exit op => exact .untouched (by rw [op]; exact ⟨rfl, nofun, rfl⟩)

theorem Does.marked (marked : c.environment.memory.Marked) (h : i.Does here c flow c') :
    c'.environment.memory.Marked := by
  cases h with
  | createFrame op => exact marked.createTemporary
  | pushFrame op memory => exact marked.pushTemporary memory
  | popFrame op memory => exact marked.popLocal memory
  | declare op args memory => exact marked.insert memory
  | store op stores | read op args flushed stores | pop op top stores =>
    obtain ⟨v, rest, m, args, assigned, rfl⟩ := stores
    exact Marked.assign marked assigned
  | taken op operands | skipped op operands =>
    obtain ⟨data, rfl⟩ := operands.eq_withData
    exact marked
  | _ => exact marked

/-! ### Stacks and streams -/

/-- Storing a value changes only the memory. -/
theorem Stores.eq_withMemory (h : i.Stores x c c') : ∃ m, c' = c.withMemory m := by
  obtain ⟨v, rest, m, -, -, same⟩ := h
  exact ⟨m, same⟩

theorem Does.calls (h : i.Does here c flow c') :
    match i.opcode with
    | .call => c'.environment.calls = (here + 1) :: c.environment.calls
    | .ret => ∃ target, c.environment.calls = target :: c'.environment.calls
    | _ => c'.environment.calls = c.environment.calls := by
  cases h.controls.2 with
  | next op calls | jump op calls =>
    split
    · exact absurd ‹_› op.1
    · exact absurd ‹_› op.2
    · exact calls
  | call op calls =>
    rw [op]
    exact calls
  | ret op calls =>
    rw [op]
    exact ⟨_, calls⟩
  | exit op calls =>
    rw [op]
    exact calls

theorem Compares.data {form : Form} {equal : Bool} {label : String} {x y : Value}
    (op : i.opcode = .jumpIf form equal) (h : i.Compares c form label x y c') :
    i.opcode.pops c.environment.data ≤ c.environment.data.length ∧
      c'.environment.data = c.environment.data.drop (i.opcode.pops c.environment.data) := by
  rw [op]
  cases h with
  | direct => exact ⟨Nat.zero_le _, rfl⟩
  | stack args operands =>
    rw [operands]
    exact ⟨Nat.le_add_left _ _, rfl⟩

theorem Does.data (h : i.Does here c flow c') :
    i.opcode.pops c.environment.data ≤ c.environment.data.length ∧
      ∃ results, results.length = i.opcode.pushes ∧
        c'.environment.data =
          results ++ c.environment.data.drop (i.opcode.pops c.environment.data) := by
  cases h with
  | store op stores =>
    obtain ⟨m, rfl⟩ := stores.eq_withMemory
    obtain ⟨-, -, pushes, pops⟩ := Opcode.roles_of_storesResult op
    rw [pushes, pops]
    exact ⟨Nat.zero_le _, [], rfl, rfl⟩
  | read op args flushed stores =>
    obtain ⟨m, rfl⟩ := stores.eq_withMemory
    rw [op]
    exact ⟨Nat.zero_le _, [], rfl, rfl⟩
  | pop op top stores =>
    obtain ⟨m, rfl⟩ := stores.eq_withMemory
    rw [op, top]
    exact ⟨Nat.le_add_left _ _, [], rfl, rfl⟩
  | @push op a x args value =>
    rw [op]
    exact ⟨Nat.zero_le _, [x], rfl, rfl⟩
  | clear op =>
    rw [op]
    exact ⟨le_rfl, [], rfl, List.drop_length.symm⟩
  | @computeTop u op x z data operands | @computeTopTwo b op x y z data operands =>
    rw [op, operands]
    exact ⟨Nat.le_add_left _ _, [z], rfl, rfl⟩
  | taken op operands | skipped op operands =>
    obtain ⟨enough, rest⟩ := operands.data op
    exact ⟨enough, [], by rw [op]; rfl, rest⟩
  | report op =>
    rcases op with op | op <;> rw [op] <;> exact ⟨Nat.zero_le _, [], rfl, rfl⟩
  | createFrame op | pushFrame op | popFrame op | declare op | write op | label op | jump op
  | call op | ret op | exit op =>
    rw [op]
    exact ⟨Nat.zero_le _, [], rfl, rfl⟩

theorem Does.exchanges (h : i.Does here c flow c') : i.Exchanges c c'.console := by
  cases h with
  | store op stores =>
    obtain ⟨m, rfl⟩ := stores.eq_withMemory
    exact .silent (Opcode.roles_of_storesResult op).2.1
  | read op args flushed stores =>
    obtain ⟨m, rfl⟩ := stores.eq_withMemory
    exact .taken op (Input.takesLine_next _)
  | pop op top stores =>
    obtain ⟨m, rfl⟩ := stores.eq_withMemory
    exact .silent (op ▸ rfl)
  | write op args value accepted =>
    exact .printed op args value (Output.accepted_of_write accepted)
  | report op accepted => exact .reported op (Output.accepted_of_write accepted)
  | taken op operands | skipped op operands =>
    obtain ⟨data, rfl⟩ := operands.eq_withData
    exact .silent (op ▸ rfl)
  | createFrame op | pushFrame op | popFrame op | declare op | push op | clear op | computeTop op
  | computeTopTwo op | label op | jump op | call op | ret op | exit op => exact .silent (op ▸ rfl)

theorem Does.footprint (marked : c.environment.memory.Marked) (h : i.Does here c flow c') :
    i.Footprint here c c' :=
  ⟨h.rewrites marked, h.controls.1, h.calls, h.data, h.exchanges⟩

end Instruction

/-! ## Footprints of steps -/

namespace Machine

variable {p : Program} {console : Console} {m n : Machine} {i : Instruction} {progress : Progress}

/-- The memory of a machine. -/
def memory (m : Machine) : Memory := m.context.environment.memory

theorem context_follow (c : Context) (events : List Event) (flow : Flow) :
    ({ m with context := c }.follow i events flow).machine.context = c := by
  cases flow <;> rfl

/-- A step that fetches no instruction changes nothing that the program can observe. -/
theorem step_context_of_unfetched (h : n.fetched? = none) : n.step.machine.context = n.context := by
  unfold fetched? at h
  cases running : n.ending with
  | some ending => rw [step_of_ending running]
  | none =>
    rw [running, Option.isSome_none, if_neg Bool.false_ne_true] at h
    rw [step_of_end running h, finish]

/-- A step that fetches an instruction and is no fault has done what the instruction does. -/
theorem step_does (fits : ∀ i ∈ n.instructions, i.Fits) (h : n.fetched? = some i)
    (ok : n.step.result = .ok progress) :
    ∃ flow, i.Does n.position n.context flow n.step.machine.context := by
  have outcome := step_outcome fits
  unfold fetched? at h
  generalize n.step = t at ok outcome ⊢
  cases outcome with
  | ended ends => simp [ends] at h
  | completed running next => simp [running, next] at h
  | done running next does =>
    simp only [running, next, Option.isSome_none, Bool.false_eq_true, if_false] at h
    cases h
    exact ⟨_, by rwa [context_follow]⟩
  | failed running next fails => cases ok

theorem step_memory_of_fault (fits : ∀ i ∈ n.instructions, i.Fits) {fault : Fault}
    (h : n.step.result = .error fault) : n.step.machine.memory = n.memory := by
  obtain ⟨i, c, -, -, fails, step⟩ := step_fails fits h
  rw [step]
  exact fails.memory

/-- The memory of a program is marked as it should be all the time. -/
theorem Reaches.marked (created : create p console = .ok m) (reached : m.Reaches n) :
    n.memory.Marked := by
  induction reached with
  | start =>
    obtain ⟨e, he, rfl⟩ := create_eq_ok created
    have start : e.memory = Memory.empty :=
      congrArg Environment.memory (Environment.enterAll_labels he).1
    change e.memory.Marked
    rw [start]
    exact marked_empty
  | @step n reached ih =>
    have fits := reached.fits created
    cases result : n.step.result with
    | error fault => exact step_memory_of_fault fits result ▸ ih
    | ok progress =>
      cases fetched : n.fetched? with
      | none =>
        rw [memory, step_context_of_unfetched fetched]
        exact ih
      | some i =>
        obtain ⟨flow, does⟩ := step_does fits fetched result
        exact does.marked ih
  | supply bytes _ ih => rwa [memory, environment_supply]
  | drain _ ih => exact ih

/-! ### Following a frame -/

/-- Where the frame of a place is after a step, if it is still there. -/
def placeAfterStep? (n : Machine) (place : FramePlace) : Option FramePlace :=
  match n.fetched?, n.step.result with
  | some i, .ok _ => i.opcode.carries? n.memory place
  | _, _ => some place

/-- Where the frame of a place is after moves, if it is still there. -/
def placeAfter? : Machine → List Move → FramePlace → Option FramePlace
  | _, [], place => some place
  | n, .step :: moves, place => (n.placeAfterStep? place).bind (n.step.machine.placeAfter? moves)
  | n, .supply bytes :: moves, place => (n.supply bytes).placeAfter? moves place
  | n, .drain :: moves, place => n.drain.placeAfter? moves place

theorem step_isInitialized (fits : ∀ i ∈ n.instructions, i.Fits) (marked : n.memory.Marked)
    {a : Address} (there : n.memory.IsInitialized a) {place' : FramePlace}
    (carried : n.placeAfterStep? a.place = some place') :
    n.step.machine.memory.IsInitialized ⟨place', a.name⟩ := by
  unfold placeAfterStep? at carried
  cases fetched : n.fetched? with
  | none =>
    simp only [fetched, Option.some.injEq] at carried
    rw [memory, step_context_of_unfetched fetched]
    exact carried ▸ there
  | some i =>
    cases result : n.step.result with
    | error fault =>
      simp only [fetched, result, Option.some.injEq] at carried
      rw [step_memory_of_fault fits result]
      exact carried ▸ there
    | ok progress =>
      simp only [fetched, result] at carried
      obtain ⟨flow, does⟩ := step_does fits fetched result
      exact (does.rewrites marked).isInitialized there carried

/-- A variable that has a value keeps having one as long as its frame lives. -/
theorem isInitialized_after (created : create p console = .ok m) :
    ∀ (moves : List Move) {n : Machine}, m.Reaches n → ∀ {a : Address} {place' : FramePlace},
      n.memory.IsInitialized a → n.placeAfter? moves a.place = some place' →
        (n.after moves).memory.IsInitialized ⟨place', a.name⟩
  | [], _, _, _, _, there, carried => Option.some.inj carried ▸ there
  | .step :: moves, n, reached, a, _, there, carried => by
    obtain ⟨place, first, rest⟩ := Option.bind_eq_some_iff.mp carried
    have there : n.step.machine.memory.IsInitialized ⟨place, a.name⟩ :=
      step_isInitialized (reached.fits created) (reached.marked created) there first
    exact isInitialized_after created moves reached.step (a := ⟨place, a.name⟩) there rest
  | .supply bytes :: moves, n, reached, a, _, there, carried => by
    have there : (n.supply bytes).memory.IsInitialized a := by rwa [memory, environment_supply]
    exact isInitialized_after created moves (reached.supply bytes) there carried
  | .drain :: moves, _, reached, _, _, there, carried =>
    isInitialized_after created moves reached.drain there carried

/-- In a run of an accepted program, a step that is no fault leaves the footprint of its
instruction, and nothing if there is no instruction. Only declarations and moves of frames change
which variables are declared. And a variable that has a value keeps having one as long as its frame
lives, whatever happens. -/
theorem step_footprint (created : create p console = .ok m) (reached : m.Reaches n) :
    (∀ progress, n.step.result = .ok progress →
      (n.fetched? = none → n.step.machine.context = n.context) ∧
      ∀ i, n.fetched? = some i → i.Footprint n.position n.context n.step.machine.context ∧
        (i.opcode.movesFrames = false → i.opcode ≠ .defVar →
          ∀ a, (n.step.machine.memory.look a).isSome = (n.memory.look a).isSome)) ∧
    ∀ moves a place', n.memory.IsInitialized a → n.placeAfter? moves a.place = some place' →
      (n.after moves).memory.IsInitialized ⟨place', a.name⟩ := by
  refine ⟨fun progress ok => ⟨step_context_of_unfetched, fun i fetched => ?_⟩,
    fun moves a place' => isInitialized_after created moves reached⟩
  obtain ⟨flow, does⟩ := step_does (reached.fits created) fetched ok
  have footprint := does.footprint (reached.marked created)
  exact ⟨footprint, footprint.memory.isSome_look⟩

/-- A program with a variable in a frame that is pushed and popped, and a global one of the same
name. -/
def shadowing : Program :=
  .numbered [(.createFrame, []), (.defVar, [.var ⟨.tf, "x"⟩]),
    (.move, [.var ⟨.tf, "x"⟩, .constant (.int 7)]), (.pushFrame, []),
    (.defVar, [.var ⟨.gf, "x"⟩]), (.move, [.var ⟨.gf, "x"⟩, .var ⟨.lf, "x"⟩]), (.popFrame, [])]

/-- The variable that has a value after three steps is in a local frame after the fourth, and
temporary again in the end. The sixth step gives the global variable a value and leaves the local
one as it is. -/
theorem step_footprint_shadowing :
    ∃ m : Machine, create shadowing ⟨.stream [], .unlimited, .unlimited⟩ = .ok m ∧
      (m.after (List.replicate 3 .step)).placeAfter? [.step] .temporary = some (.locals 0) ∧
      (m.after (List.replicate 7 .step)).memory.IsInitialized ⟨.temporary, "x"⟩ ∧
      Instruction.Footprint ⟨6, .move, [.var ⟨.gf, "x"⟩, .var ⟨.lf, "x"⟩]⟩ 5
        (m.after (List.replicate 5 .step)).context (m.after (List.replicate 6 .step)).context := by
  have created : create shadowing ⟨.stream [], .unlimited, .unlimited⟩ = .ok _ := rfl
  refine ⟨_, created, rfl, ?_, ?_⟩
  · obtain ⟨-, kept⟩ := step_footprint created (Reaches.start.after (List.replicate 3 .step))
    exact kept (List.replicate 4 .step) ⟨.temporary, "x"⟩ .temporary ⟨_, rfl, rfl⟩ rfl
  · obtain ⟨steps, -⟩ := step_footprint created (Reaches.start.after (List.replicate 5 .step))
    exact ((steps .running rfl).2 _ rfl).1

end Machine

end Ippcode
