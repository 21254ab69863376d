import Ippcode.Proofs.Machine.Call
import Ippcode.Proofs.Machine.Dialogue

/-!
# Programs that only go forward

A program goes forward if every label that a jump, a call or a conditional jump names is behind the
instruction that names it (`Program.IsForward`). Such a program stops, whatever comes in and however
the streams behave, although a return goes back to the position behind its call, and although a
routine may be performed exponentially often.

What stops it is a bound on the steps to come (`Machine.stepsLeft`). `Machine.reserve` is such a
bound for the instructions from a position on, and doubles with each instruction : what is left at
a call suffices for the routine, which is behind the call, and for what is behind the call, where
control comes back. So the steps left are the reserve at the position of the machine and at every
position to which an unfinished call goes back. Each step that goes on uses up one of them, and no
other step adds any (`stepsLeft_step`).
-/

namespace Ippcode

/-! ## Forward programs -/

/-- The label to which an instruction may go. -/
def Instruction.destination? (i : Instruction) : Option String :=
  match i.opcode.mayTransfer, i.args with
  | true, .label name :: _ => some name
  | _, _ => none

/-- An instruction that goes to a label names it. -/
theorem Instruction.Does.destination? {i : Instruction} {here target : Nat} {c c' : Context}
    {label : String} (h : i.Does here c (.transfer label target) c') :
    i.destination? = some label := by
  have named : i.args.head? = some (.label label) := by
    cases h.controls.2 with
    | jump op calls named | call op calls named => exact named
  have transfers : i.opcode.mayTransfer = true := by
    by_contra stays
    have goesTo := h.goesTo?
    rw [goesTo?_of_mayTransfer (Bool.eq_false_of_not_eq_true stays)] at goesTo
    cases goesTo
  unfold Instruction.destination?
  rw [transfers]
  cases hargs : i.args with
  | nil => simp [hargs] at named
  | cons a rest =>
    rw [hargs, List.head?_cons] at named
    rw [Option.some.inj named]

namespace Program

/-- Each label that an instruction may go to is behind this instruction. A label that is not defined
may be named anywhere. -/
def IsForward (p : Program) : Prop :=
  ∀ (here : Nat) (i : Instruction) (name : String) (target : Nat),
    p.instructions[here]? = some i → i.destination? = some name → p.Defines name target →
      here < target

/-- Whether a program goes forward can be seen by comparing each two of its instructions. -/
theorem isForward_iff {p : Program} : p.IsForward ↔
    ∀ here target : Fin p.instructions.length,
      ∀ name ∈ p.instructions[here].destination?,
        p.instructions[target].definedLabel? = some name → here < target := by
  constructor
  · intro h here target name named defines
    exact h here _ name target (List.getElem?_eq_getElem here.2) named
      ⟨_, List.getElem?_eq_getElem target.2, Instruction.definedLabel?_eq_some_iff.mp defines⟩
  · rintro h here i name target found named ⟨j, there, defines⟩
    obtain ⟨inside, rfl⟩ := List.getElem?_eq_some_iff.mp found
    obtain ⟨inside', rfl⟩ := List.getElem?_eq_some_iff.mp there
    exact h ⟨here, inside⟩ ⟨target, inside'⟩ name named
      (Instruction.definedLabel?_eq_some_iff.mpr defines)

instance (p : Program) : Decidable p.IsForward := decidable_of_iff' _ isForward_iff

end Program

/-! ## The steps that are left -/

namespace Machine

variable {p : Program} {console : Console} {m n : Machine}

/-- How many steps there are at most from a position in a program of this length on, until control
goes back to an earlier call : one at the end of the program, and before each instruction twice as
many as behind it, and one. -/
def reserve (length position : Nat) : Nat := 2 ^ (length + 1 - position) - 1

theorem reserve_succ (length position : Nat) (h : position ≤ length) :
    reserve length position = 2 * reserve length (position + 1) + 1 := by
  have exponent : length + 1 - position = length + 1 - (position + 1) + 1 := by omega
  have positive := Nat.two_pow_pos (length + 1 - (position + 1))
  unfold reserve
  rw [exponent, Nat.pow_succ]
  omega

theorem reserve_pos {length position : Nat} (h : position ≤ length) :
    0 < reserve length position := by
  rw [reserve_succ length position h]
  omega

/-- There is not more left farther ahead. -/
theorem reserve_le {length position position' : Nat} (h : position ≤ position') :
    reserve length position' ≤ reserve length position :=
  Nat.sub_le_sub_right (Nat.pow_le_pow_right Nat.two_pos (by omega)) 1

/-- How many steps a machine takes at most before it ends or fails, if it only goes forward. -/
def stepsLeft (n : Machine) : Nat :=
  reserve n.instructions.size n.position +
    (n.context.environment.calls.map (reserve n.instructions.size)).sum

/-- An instruction that is performed uses up a step, unless it ends the program. -/
theorem stepsLeft_follow (h : n.Controlled p) (forward : p.IsForward) {i : Instruction}
    (next : n.instructions[n.position]? = some i) {flow : Flow} {c : Context}
    (does : i.Does n.position n.context flow c) (events : List Event) :
    ({ n with context := c }.follow i events flow).machine.stepsLeft +
        (if ({ n with context := c }.follow i events flow).outcome?.isNone then 1 else 0) ≤
      n.stepsLeft := by
  obtain ⟨there, inside⟩ := h.lt_length next
  have size : n.instructions.size = p.instructions.length := by
    rw [h.instructions, List.size_toArray]
  have now := reserve_succ n.instructions.size n.position (by omega)
  -- a label that control goes to is farther ahead than the next instruction
  have ahead {label : String} {target : Nat} (named : i.destination? = some label)
      (found : n.context.environment.label label = .ok target) :
      reserve n.instructions.size target ≤ reserve n.instructions.size (n.position + 1) :=
    reserve_le (forward _ i label target there named (h.defines_of_label found).1)
  have named (label : String) (target : Nat) (same : flow = .transfer label target) :
      i.destination? = some label := by
    subst same
    exact does.destination?
  cases does.controls.2 with
  | next op calls =>
    simp only [Machine.follow, stepsLeft, calls, Turn.outcome?, Option.isNone_none, if_true]
    omega
  | jump op calls _ found =>
    have ahead := ahead (named _ _ rfl) found
    simp only [Machine.follow, stepsLeft, calls, Turn.outcome?, Option.isNone_none, if_true]
    omega
  | call op calls _ found =>
    have ahead := ahead (named _ _ rfl) found
    simp only [Machine.follow, stepsLeft, calls, Turn.outcome?, Option.isNone_none, if_true,
      List.map_cons, List.sum_cons]
    omega
  | ret op calls =>
    simp only [Machine.follow, stepsLeft, calls, Turn.outcome?, Option.isNone_none, if_true,
      List.map_cons, List.sum_cons]
    omega
  | exit op calls small =>
    simp [Machine.follow, finish, stepsLeft, calls, Turn.outcome?]

/-- A step that goes on uses up one of the steps that are left, and no other step adds any. -/
theorem stepsLeft_step (h : n.Controlled p) (fits : ∀ i ∈ n.instructions, i.Fits)
    (forward : p.IsForward) :
    n.step.machine.stepsLeft + (if n.step.outcome?.isNone then 1 else 0) ≤ n.stepsLeft := by
  have outcome := step_outcome fits
  generalize n.step = t at outcome ⊢
  cases outcome with
  | ended ends => exact le_rfl
  | completed running next => exact le_rfl
  | done running next does => exact stepsLeft_follow h forward next does _
  | failed running next fails =>
    simp [stepsLeft, fails.calls, Turn.outcome?]

/-- There is always at least one step left. -/
theorem stepsLeft_pos (h : n.Controlled p) : 0 < n.stepsLeft := by
  have position : n.position ≤ n.instructions.size := by
    rw [h.instructions, List.size_toArray]
    exact h.position
  exact Nat.add_pos_left (reserve_pos position) _

theorem stepsLeft_start (created : create p console = .ok m) :
    m.stepsLeft = 2 ^ (p.instructions.length + 1) - 1 := by
  have noCalls := create_calls created
  obtain ⟨e, -, rfl⟩ := create_eq_ok created
  rw [stepsLeft, noCalls, List.map_nil, List.sum_nil, reserve, List.size_toArray]
  rfl

theorem stepsLeft_supply (bytes : List UInt8) : (n.supply bytes).stepsLeft = n.stepsLeft := by
  obtain ⟨console, same⟩ := n.supply_eq bytes
  rw [same]
  rfl

/-- However many steps are taken, only so many of them go on as are left. -/
theorem stepsLeft_after (created : create p console = .ok m) (forward : p.IsForward) :
    ∀ (moves : List Move) {n : Machine}, m.Reaches n →
      (n.after moves).stepsLeft + (n.turnsIn moves).countP (·.outcome?.isNone) ≤ n.stepsLeft
  | [], _, _ => le_rfl
  | .step :: moves, n, reached => by
    have first := stepsLeft_step (reached.controlled created) (reached.fits created) forward
    have rest := stepsLeft_after created forward moves reached.step
    change (n.step.machine.after moves).stepsLeft + ((n.step :: _).countP _) ≤ _
    rw [List.countP_cons]
    omega
  | .supply bytes :: moves, n, reached =>
    stepsLeft_supply (n := n) bytes ▸ stepsLeft_after created forward moves (reached.supply bytes)
  | .drain :: moves, _, reached => stepsLeft_after created forward moves reached.drain

/-! ## Runs -/

/-- A run that is cut off consists of steps that go on. -/
theorem countP_of_run {σ : Type} {update : σ → Event → σ} : ∀ {limit : Nat} {s : σ} {m : Machine},
    (run update limit s m).outcome = none →
      (m.turnsIn (.replicate limit .step)).countP (·.outcome?.isNone) = limit
  | 0, _, _, _ => rfl
  | limit + 1, s, m, h => by
    cases now : m.step.outcome? with
    | none =>
      rw [run_of_running now] at h
      change (m.step :: _).countP _ = _
      rw [List.countP_cons_of_pos (by simp [now])]
      exact congrArg (· + 1) (countP_of_run h)
    | some outcome =>
      rw [run_of_outcome now] at h
      cases h

/-- An accepted program that only goes forward stops, whatever its input and its output streams are
and whoever observes it : with as many instructions as it has, it is over after this number of steps
at most. It has completed then, it has chosen an exit code, or there was a fault. Also if input
comes in only between the steps, and if the program goes on behind faults, no more steps than this
go on. -/
theorem forward_stops (created : create p console = .ok m) (forward : p.IsForward) :
    (∀ (σ : Type) (update : σ → Event → σ) (s : σ),
      ∃ outcome,
        (run update (2 ^ (p.instructions.length + 1) - 1) s m).outcome = some outcome) ∧
    ∀ moves : List Move,
      (m.turnsIn moves).countP (·.outcome?.isNone) < 2 ^ (p.instructions.length + 1) - 1 := by
  have bounded (moves : List Move) :
      (m.turnsIn moves).countP (·.outcome?.isNone) < 2 ^ (p.instructions.length + 1) - 1 := by
    have used := stepsLeft_after created forward moves .start
    have more := stepsLeft_pos ((Reaches.start.after moves).controlled created)
    rw [stepsLeft_start created] at used
    omega
  refine ⟨fun σ update s => ?_, bounded⟩
  refine Option.ne_none_iff_exists'.mp fun cutOff => ?_
  have all := countP_of_run cutOff
  exact absurd all (bounded _).ne

/-- A program that calls a routine twice, which calls another one twice. -/
def shared : Program :=
  .numbered [(.call, [.label "outer"]), (.call, [.label "outer"]), (.jump, [.label "end"]),
    (.label, [.label "outer"]), (.call, [.label "inner"]), (.call, [.label "inner"]), (.ret, []),
    (.label, [.label "inner"]), (.ret, []), (.label, [.label "end"])]

/-- Its inner routine is performed four times. -/
theorem forward_stops_shared :
    ∃ m : Machine, create shared ⟨.stream [], .unlimited, .unlimited⟩ = .ok m ∧
      shared.IsForward ∧
      (∃ outcome, (run (fun count _ => count + 1) 2047 0 m).outcome = some outcome) ∧
      (m.turnsIn (.replicate 22 .step)).countP (·.outcome?.isNone) < 2047 ∧
      (m.turnsIn (.replicate 22 .step)).countP (·.performed? = some .ret) = 6 := by
  have created : create shared ⟨.stream [], .unlimited, .unlimited⟩ = .ok _ := rfl
  have forward : shared.IsForward := by decide
  obtain ⟨stops, bounded⟩ := forward_stops created forward
  exact ⟨_, created, forward, stops Nat _ 0, bounded _, rfl⟩

end Machine

end Ippcode
