import Ippcode.Proofs.Machine.Control

/-!
# Calls and their returns

A call remembers the position behind it, a return goes where the innermost call says, and no
other instruction touches the unfinished calls (`step_calls`). So calls and returns are like
brackets, whatever else happens between them : until the depth is again what it was before a call,
the position behind this call stays at the same place among the unfinished calls
(`remembered_until`), and the step that brings the depth back is the return to it. There are as
many unfinished calls as calls have been performed without a return (`depth_balance`), so a return
without a call is what it says.
-/

namespace Ippcode

/-- The opcode of the instruction that a step has performed without a fault, if it has performed
one. -/
def Turn.performed? (t : Turn) : Option Opcode :=
  match t.result, t.events with
  | .ok _, .fetched i _ :: _ => some i.opcode
  | _, _ => none

namespace Machine

variable {p : Program} {console : Console} {m n : Machine}

/-- How many calls of a machine are not finished. -/
def callDepth (m : Machine) : Nat := m.context.environment.callDepth

/-- How often an instruction of this opcode has been performed in these steps. -/
def performances (op : Opcode) (turns : List Turn) : Nat :=
  (turns.filterMap Turn.performed?).count op

theorem performed?_follow (i : Instruction) (e : Environment) (flow : Flow) :
    (m.follow i [.fetched i e] flow).performed? = some i.opcode := by
  cases flow <;> rfl

/-- What a step of a machine does to the unfinished calls. -/
inductive CallOutcome (n : Machine) (t : Turn) : Prop
  | kept (op : t.performed? ≠ some .call ∧ t.performed? ≠ some .ret)
      (calls : t.machine.context.environment.calls = n.context.environment.calls)
  | called (op : t.performed? = some .call)
      (calls : t.machine.context.environment.calls =
        (n.position + 1) :: n.context.environment.calls)
  | returned (op : t.performed? = some .ret)
      (calls : n.context.environment.calls =
        t.machine.position :: t.machine.context.environment.calls)

theorem step_calls (fits : ∀ i ∈ n.instructions, i.Fits) : n.CallOutcome n.step := by
  have outcome := step_outcome fits
  generalize n.step = t at outcome ⊢
  cases outcome with
  | ended ends => exact .kept ⟨nofun, nofun⟩ rfl
  | completed running next => exact .kept ⟨nofun, nofun⟩ rfl
  | @done running i next flow c does =>
    have performed := performed?_follow (m := { n with context := c }) i n.context.environment flow
    cases does.controls.2 with
    | next op calls | jump op calls named found =>
      exact .kept (by rw [performed]; simpa using op) calls
    | call op calls named found => exact .called (op ▸ performed) calls
    | ret op calls => exact .returned (op ▸ performed) calls
    | exit op calls small => exact .kept (by rw [performed, op]; simp) calls
  | failed running next fails => exact .kept ⟨nofun, nofun⟩ fails.calls

/-! ## Brackets -/

/-- The position `r` stays where it is among the unfinished calls, above `base`, as long as no step
brings the depth back to that of `base`. -/
theorem remembered_until (created : create p console = .ok m) {r : Nat} {base : List Nat} :
    ∀ (moves : List Move) {n : Machine}, m.Reaches n →
      (∃ inner, n.context.environment.calls = inner ++ r :: base) →
      (∀ t ∈ n.turnsIn moves, t.machine.callDepth ≠ base.length) →
      ∃ inner, (n.after moves).context.environment.calls = inner ++ r :: base
  | [], _, _, inside, _ => inside
  | .step :: moves, n, reached, ⟨inner, inside⟩, deep => by
    have deeper : n.step.machine.callDepth ≠ base.length := deep _ List.mem_cons_self
    have step : ∃ inner, n.step.machine.context.environment.calls = inner ++ r :: base := by
      cases step_calls (reached.fits created) with
      | kept op calls => exact ⟨inner, calls.trans inside⟩
      | called op calls =>
        exact ⟨(n.position + 1) :: inner, by rw [calls, inside, List.cons_append]⟩
      | returned op calls =>
        rw [inside] at calls
        cases inner with
        | nil =>
          obtain ⟨-, rfl⟩ := List.cons.inj calls
          exact absurd rfl deeper
        | cons top inner => exact ⟨inner, (List.cons.inj calls).2.symm⟩
    exact remembered_until created moves reached.step step
      fun t ht => deep t (List.mem_cons_of_mem _ ht)
  | .supply bytes :: moves, n, reached, inside, deep => by
    have same : (n.supply bytes).context.environment = _ := environment_supply bytes
    exact remembered_until created moves (reached.supply bytes) (same ▸ inside) deep
  | .drain :: moves, _, reached, inside, deep =>
    remembered_until created moves reached.drain inside deep

/-- A step that brings the depth back to that of `base` returns to the position above it. -/
theorem returns_to (created : create p console = .ok m) (reached : m.Reaches n) {r : Nat}
    {base inner : List Nat} (inside : n.context.environment.calls = inner ++ r :: base)
    (back : n.step.machine.callDepth = base.length) :
    n.step.performed? = some .ret ∧ n.step.machine.position = r := by
  unfold callDepth Environment.callDepth at back
  have depth := congrArg List.length inside
  simp only [List.length_append, List.length_cons] at depth
  cases step_calls (reached.fits created) with
  | kept op calls =>
    rw [calls] at back
    omega
  | called op calls =>
    rw [calls, List.length_cons] at back
    omega
  | returned op calls =>
    rw [calls, List.length_cons, back] at depth
    obtain rfl : inner = [] := List.eq_nil_of_length_eq_zero (by omega)
    rw [inside] at calls
    exact ⟨op, (List.cons.inj calls).1.symm⟩

/-! ## Balance -/

theorem performances_cons (op : Opcode) (t : Turn) (turns : List Turn) :
    performances op (t :: turns) =
      performances op turns + if t.performed? = some op then 1 else 0 := by
  unfold performances
  cases h : t.performed? with
  | none => simp [h]
  | some other => simp [h, List.count_cons]

/-- Each call makes the depth greater by one, and each return makes it less by one. -/
theorem depth_balance (created : create p console = .ok m) :
    ∀ (moves : List Move) {n : Machine}, m.Reaches n →
      n.callDepth + performances .call (n.turnsIn moves) =
        (n.after moves).callDepth + performances .ret (n.turnsIn moves)
  | [], _, _ => rfl
  | .step :: moves, n, reached => by
    have rest := depth_balance created moves reached.step
    change n.callDepth + performances .call (n.step :: n.step.machine.turnsIn moves) =
      (n.step.machine.after moves).callDepth +
        performances .ret (n.step :: n.step.machine.turnsIn moves)
    rw [performances_cons, performances_cons]
    have outcome := step_calls (reached.fits created)
    generalize n.step = t at rest outcome ⊢
    unfold callDepth Environment.callDepth at rest ⊢
    cases outcome with
    | kept op calls =>
      rw [if_neg op.1, if_neg op.2, ← calls]
      exact rest
    | called op calls =>
      rw [op, if_pos rfl, if_neg (by simp)]
      rw [calls, List.length_cons] at rest
      omega
    | returned op calls =>
      rw [op, if_pos rfl, if_neg (by simp), calls, List.length_cons]
      omega
  | .supply bytes :: moves, n, reached => by
    have rest := depth_balance created moves (reached.supply bytes)
    unfold callDepth at rest ⊢
    rw [environment_supply] at rest
    exact rest
  | .drain :: moves, _, reached => depth_balance created moves reached.drain

/-- A return fails exactly if there is no unfinished call. -/
theorem step_return (running : n.ending = none) {i : Instruction}
    (next : n.instructions[n.position]? = some i) (op : i.opcode = .ret) :
    n.step.result = .error (.of i .returnWithoutCall) ↔ n.callDepth = 0 := by
  have performed : i.perform n.position = Instruction.returnFromCall := by
    rw [Instruction.perform, op]
  rw [step_of_instruction running next, performed, Instruction.on_returnFromCall, callDepth,
    Environment.callDepth]
  cases n.context.environment.calls with
  | nil => simp
  | cons target calls => simp [follow]

/-- In a run of an accepted program, a step that brings the depth back, for the first time, to what
it was before a call is a return to the position behind this call. A return fails for want of a call
exactly if as many returns as calls have been performed. -/
theorem calls_return (created : create p console = .ok m) :
    (∀ before between : List Move,
      (m.after before).step.performed? = some .call →
      (∀ t ∈ (m.after before).step.machine.turnsIn between,
        t.machine.callDepth ≠ (m.after before).callDepth) →
      ((m.after before).step.machine.after between).step.machine.callDepth =
        (m.after before).callDepth →
      ((m.after before).step.machine.after between).step.performed? = some .ret ∧
        ((m.after before).step.machine.after between).step.machine.position =
          (m.after before).position + 1) ∧
    ∀ (moves : List Move) (i : Instruction), (m.after moves).ending = none →
      (m.after moves).instructions[(m.after moves).position]? = some i → i.opcode = .ret →
      ((m.after moves).step.result = .error (.of i .returnWithoutCall) ↔
        performances .ret (m.turnsIn moves) = performances .call (m.turnsIn moves)) := by
  refine ⟨fun before between called deep back => ?_, fun moves i running next op => ?_⟩
  · have reached : m.Reaches (m.after before) := Reaches.start.after before
    cases step_calls (reached.fits created) with
    | kept op => exact absurd called op.1
    | returned op => cases op.symm.trans called
    | called op calls =>
      obtain ⟨inner, inside⟩ :=
        remembered_until created between reached.step ⟨[], calls⟩ deep
      exact returns_to created (reached.step.after between) inside back
  · have balance := depth_balance created moves Reaches.start
    have noCalls : m.callDepth = 0 := by
      rw [callDepth, Environment.callDepth, create_calls created, List.length_nil]
    rw [step_return running next op]
    omega

/-- A program with a call inside a call, and a return too many. -/
def returning : Program :=
  .numbered [(.jump, [.label "main"]), (.label, [.label "inner"]), (.ret, []),
    (.label, [.label "outer"]), (.call, [.label "inner"]), (.ret, []),
    (.label, [.label "main"]), (.call, [.label "outer"]), (.ret, [])]

/-- The outer call at 7 is finished four steps later at 8, where the last return fails. -/
theorem calls_return_returning :
    ∃ m : Machine, create returning ⟨.stream [], .unlimited, .unlimited⟩ = .ok m ∧
      (((m.after [.step, .step]).step.machine.after
          [.step, .step, .step, .step]).step.performed? = some .ret ∧
        ((m.after [.step, .step]).step.machine.after
          [.step, .step, .step, .step]).step.machine.position = 8) ∧
      (m.after (List.replicate 8 .step)).step.result =
        .error ⟨9, .ret, .returnWithoutCall⟩ := by
  have created : create returning ⟨.stream [], .unlimited, .unlimited⟩ = .ok _ := rfl
  obtain ⟨brackets, balance⟩ := calls_return created
  refine ⟨_, created, brackets [.step, .step] [.step, .step, .step, .step] rfl ?_ rfl, ?_⟩
  · decide
  · exact (balance (List.replicate 8 .step) ⟨9, .ret, []⟩ rfl rfl rfl).mpr rfl

end Machine

end Ippcode
