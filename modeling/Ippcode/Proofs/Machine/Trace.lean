import Ippcode.Proofs.Machine.Control

/-!
# What there is to observe

The events of a run are told by the machines at which its steps begin (`Machine.callOuts`) : each
instruction that is fetched, in the environment before it has done anything; behind it the transfer
of control, if the instruction goes to its label; and the end of the program, once. It does not
matter for this what an instruction does otherwise, nor whether it fails (`step_events`).

`Instruction.goesTo?` says when an instruction goes to its label without looking at how it does so.
A program that has ended stays as it is, and nothing more is observed (`create_observed`).
-/

namespace Ippcode

/-! ## Going to a label -/

/-- Whether an opcode may lead to a label. -/
def Opcode.mayTransfer : Opcode → Bool
  | jump | call | jumpIf _ _ => true
  | _ => false

/-- The label that control has gone to. -/
def Flow.label? : Flow → Option String
  | transfer label _ => some label
  | _ => none

namespace Instruction

variable {i : Instruction} {here : Nat} {c c' : Context} {flow : Flow}

/-- The label that an instruction goes to if it succeeds : a jump and a call go to their label in
any case, a conditional jump does if its operands compare as it asks. -/
def goesTo? (i : Instruction) (c : Context) : Option String :=
  match i.opcode, i.args, c.environment.data with
  | .jump, [.label name], _ | .call, [.label name], _ => some name
  | .jumpIf .direct equal, [.label name, a, b], _ =>
    let holds := do
      let x ← a.evaluate c.environment.memory
      let y ← b.evaluate c.environment.memory
      x.jumpEqual y
    if holds = .ok equal then some name else none
  | .jumpIf .stack equal, [.label name], y :: x :: _ =>
    if x.jumpEqual y = .ok equal then some name else none
  | _, _, _ => none

theorem goesTo?_of_mayTransfer (h : i.opcode.mayTransfer = false) : i.goesTo? c = none := by
  unfold goesTo?
  split <;> simp_all [Opcode.mayTransfer]

/-- A conditional jump goes to its label if the comparison of its operands is as it asks. -/
theorem Compares.goesTo? {form : Form} {equal holds : Bool} {label : String} {x y : Value}
    (op : i.opcode = .jumpIf form equal) (operands : i.Compares c form label x y c')
    (h : x.jumpEqual y = .ok holds) :
    i.goesTo? c = if holds = equal then some label else none := by
  unfold Instruction.goesTo?
  cases operands with
  | direct args left right => simp [op, args, left, right, h]
  | stack args operands => simp [op, args, operands, h]

/-- A successful instruction has gone where it goes. -/
theorem Does.goesTo? (h : i.Does here c flow c') : i.goesTo? c = flow.label? := by
  cases h with
  | jump op args found | call op args found =>
    unfold Instruction.goesTo?
    rw [op, args]
    rfl
  | taken op operands found holds =>
    rw [operands.goesTo? op holds, if_pos rfl]
    rfl
  | skipped op operands holds =>
    rw [operands.goesTo? op holds, if_neg (Bool.not_ne_self _)]
    rfl
  | store op stores =>
    refine goesTo?_of_mayTransfer ?_
    cases hop : i.opcode <;> simp_all [Opcode.storesResult, Opcode.mayTransfer]
  | report op accepted =>
    refine goesTo?_of_mayTransfer ?_
    rcases op with op | op <;> rw [op] <;> rfl
  | createFrame op | pushFrame op | popFrame op | declare op | read op | push op | pop op | clear op
  | computeTop op | computeTopTwo op | write op | label op | ret op | exit op =>
    exact goesTo?_of_mayTransfer (by rw [op]; rfl)

end Instruction

/-! ## Events of a step -/

namespace Machine

variable {p : Program} {console : Console} {m n : Machine}

/-- The instruction that a step fetches : there is one as long as the program has not ended and the
position is not behind its last instruction. -/
def fetched? (n : Machine) : Option Instruction :=
  if n.ending.isSome then none else n.instructions[n.position]?

/-- The transfer of control by a step that is no fault : an instruction, the label that it goes to,
and the position where the machine is then. -/
def transfer? (n : Machine) : Option (Instruction × String × Nat) :=
  match n.fetched?, n.step.result with
  | some i, .ok _ =>
    (i.goesTo? n.context).map fun label => (i, label, n.step.machine.position)
  | _, _ => none

/-- Whether the program ends by a step. -/
def finishes (n : Machine) : Bool := n.ending.isNone && n.step.machine.ending.isSome

/-- What there is to observe in a step. -/
def callOuts (n : Machine) : List Event :=
  (n.fetched?.map fun i => .fetched i n.context.environment).toList
    ++ (n.transfer?.map fun (i, label, target) => .transferred i label target).toList
    ++ if n.finishes then [.finished n.step.machine.context.environment] else []

theorem step_events (fits : ∀ i ∈ n.instructions, i.Fits) : n.step.events = n.callOuts := by
  have outcome := step_outcome fits
  unfold callOuts transfer? finishes fetched?
  generalize n.step = t at outcome ⊢
  cases outcome with
  | ended ends => simp [ends]
  | completed running next => simp [running, next, finish]
  | @done running i next flow c does =>
    cases flow <;> simp [running, next, does.goesTo?, Flow.label?, follow, finish]
  | failed running next fails => simp [running, next]

/-! ## Events of a run -/

/-- The machines at which the steps among moves begin, in their order. -/
def stepsIn : Machine → List Move → List Machine
  | _, [] => []
  | m, .step :: moves => m :: stepsIn m.step.machine moves
  | m, .supply bytes :: moves => stepsIn (m.supply bytes) moves
  | m, .drain :: moves => stepsIn m.drain moves

/-- All that there is to observe among moves. -/
def trace (m : Machine) (moves : List Move) : List Event := (m.turnsIn moves).flatMap Turn.events

theorem map_step_stepsIn : ∀ (moves : List Move) (n : Machine),
    (n.stepsIn moves).map step = n.turnsIn moves
  | [], _ => rfl
  | .step :: moves, n => congrArg (n.step :: ·) (map_step_stepsIn moves n.step.machine)
  | .supply bytes :: moves, n => map_step_stepsIn moves (n.supply bytes)
  | .drain :: moves, n => map_step_stepsIn moves n.drain

theorem Reaches.of_mem_stepsIn : ∀ (moves : List Move) {n k : Machine}, m.Reaches n →
    k ∈ n.stepsIn moves → m.Reaches k
  | [], _, _, _, h => absurd h List.not_mem_nil
  | .step :: moves, _, _, reached, h => by
    rcases List.mem_cons.mp h with rfl | h
    · exact reached
    · exact of_mem_stepsIn moves reached.step h
  | .supply bytes :: moves, _, _, reached, h => of_mem_stepsIn moves (reached.supply bytes) h
  | .drain :: moves, _, _, reached, h => of_mem_stepsIn moves reached.drain h

/-- The steps of a run of an accepted program are observed one after the other. -/
theorem trace_eq (created : create p console = .ok m) (reached : m.Reaches n)
    (moves : List Move) : n.trace moves = (n.stepsIn moves).flatMap callOuts := by
  unfold trace
  rw [← map_step_stepsIn, List.flatMap_map]
  refine List.flatMap_congr fun k hk => step_events ?_
  exact (Reaches.of_mem_stepsIn moves reached hk).fits created

/-! ### The end of a program -/

@[simp] theorem ending_supply (bytes : List UInt8) : (m.supply bytes).ending = m.ending := by
  obtain ⟨console, same⟩ := m.supply_eq bytes
  rw [same]

/-- A program has ended behind a step that says so, and only there. -/
theorem ending_step_iff (fits : ∀ i ∈ n.instructions, i.Fits) {ending : Termination} :
    n.step.machine.ending = some ending ↔ n.step.result = .ok (.finished ending) := by
  refine ⟨fun h => ?_, fun h => (step_finished fits h).1⟩
  have outcome := step_outcome fits
  generalize n.step = t at h outcome ⊢
  cases outcome with
  | ended ends =>
    rw [ends] at h
    rw [Option.some.inj h]
  | completed running next =>
    rw [← Option.some.inj h]
    rfl
  | @done running i next flow c does =>
    cases flow with
    | halt code =>
      rw [← Option.some.inj h]
      rfl
    | next | transfer | resume => cases running.symm.trans h
  | failed running next fails => cases running.symm.trans h

/-- A program that has ended stays as it is in all further steps. -/
theorem step_of_mem_stepsIn {ending : Termination} : ∀ (moves : List Move) {n k : Machine},
    n.ending = some ending → k ∈ n.stepsIn moves → k.step = ⟨k, .ok (.finished ending), []⟩
  | [], _, _, _, h => absurd h List.not_mem_nil
  | .step :: moves, n, k, ended, h => by
    rcases List.mem_cons.mp h with rfl | h
    · exact step_of_ending ended
    · rw [step_of_ending ended] at h
      exact step_of_mem_stepsIn moves ended h
  | .supply bytes :: moves, n, k, ended, h =>
    step_of_mem_stepsIn moves ((ending_supply bytes).trans ended) h
  | .drain :: moves, n, k, ended, h => step_of_mem_stepsIn (n := n.drain) moves ended h

/-- A program has ended after moves if it had ended before, or if one of the steps says so. -/
theorem ending_after_iff (created : create p console = .ok m) {ending : Termination} :
    ∀ (moves : List Move) {n : Machine}, m.Reaches n →
      ((n.after moves).ending = some ending ↔
        n.ending = some ending ∨ ∃ t ∈ n.turnsIn moves, t.result = .ok (.finished ending))
  | [], n, _ => by simp [after, turnsIn]
  | .step :: moves, n, reached => by
    have rest : (n.step.machine.after moves).ending = some ending ↔ _ :=
      ending_after_iff created moves reached.step
    rw [ending_step_iff (reached.fits created)] at rest
    have again : n.ending = some ending → n.step.result = .ok (.finished ending) :=
      fun ended => by rw [step_of_ending ended]
    change (n.step.machine.after moves).ending = some ending ↔
      _ ∨ ∃ t ∈ n.step :: n.step.machine.turnsIn moves, _
    rw [rest]
    simp only [List.mem_cons, exists_eq_or_imp]
    tauto
  | .supply bytes :: moves, n, reached => by
    have rest : ((n.supply bytes).after moves).ending = some ending ↔ _ :=
      ending_after_iff created moves (reached.supply bytes)
    rwa [ending_supply] at rest
  | .drain :: moves, _, reached => ending_after_iff created moves reached.drain

end Machine

/-- Whether an event tells that the program has ended. -/
def Event.isFinished : Event → Bool
  | finished _ => true
  | _ => false

namespace Machine

theorem countP_callOuts (n : Machine) :
    n.callOuts.countP Event.isFinished = if n.finishes then 1 else 0 := by
  unfold callOuts
  cases n.fetched? <;> cases n.transfer? <;> split <;> rfl

/-- The end of the program is observed once, in the step by which it comes. -/
theorem countP_trace (created : create p console = .ok m) : ∀ (moves : List Move) {n : Machine},
    m.Reaches n →
      (n.trace moves).countP Event.isFinished + (if n.ending.isSome then 1 else 0) =
        if (n.after moves).ending.isSome then 1 else 0
  | [], _, _ => Nat.zero_add _
  | .step :: moves, n, reached => by
    have rest := countP_trace created moves reached.step
    have first := n.countP_callOuts
    rw [← step_events (reached.fits created)] at first
    change ((n.step.events ++ n.step.machine.trace moves).countP _) + _ =
      if (n.step.machine.after moves).ending.isSome then 1 else 0
    rw [List.countP_append, first, ← rest]
    unfold finishes
    cases ended : n.ending with
    | none => cases n.step.machine.ending <;> simp [Nat.add_comm]
    | some ending => simp [step_of_ending ended, ended]
  | .supply bytes :: moves, n, reached => by
    have rest := countP_trace created moves (reached.supply bytes)
    rwa [ending_supply] at rest
  | .drain :: moves, _, reached => countP_trace created moves reached.drain

/-- What there is to observe of an accepted program, whatever happens to it : step after step what
`callOuts` says, and the end once, if it comes. It has come if a step says so; from then on
every step says it again, changes nothing and has nothing to observe. -/
theorem create_observed (created : create p console = .ok m) (moves : List Move) :
    m.trace moves = (m.stepsIn moves).flatMap callOuts ∧
      (m.trace moves).countP Event.isFinished =
        (if (m.after moves).ending.isSome then 1 else 0) ∧
      ∀ ending,
        ((m.after moves).ending = some ending ↔
          ∃ t ∈ m.turnsIn moves, t.result = .ok (.finished ending)) ∧
        ((m.after moves).ending = some ending → ∀ more, ∀ n ∈ (m.after moves).stepsIn more,
          n.step = ⟨n, .ok (.finished ending), []⟩) := by
  have start : m.ending = none := by
    obtain ⟨e, -, rfl⟩ := create_eq_ok created
    rfl
  have counted := countP_trace created moves .start
  rw [start] at counted
  refine ⟨trace_eq created .start moves, counted, fun ending => ⟨?_, fun ended more n hn => ?_⟩⟩
  · rw [ending_after_iff created moves .start, start]
    simp
  · exact step_of_mem_stepsIn more ended hn

/-- A program with a call, a conditional jump that is not taken and one that is. -/
def branching : Program :=
  .numbered [(.call, [.label "f"]),
    (.jumpIf .direct true, [.label "end", .constant (.int 1), .constant (.int 2)]),
    (.jumpIf .direct false, [.label "end", .constant (.int 1), .constant (.int 2)]),
    (.label, [.label "f"]), (.ret, []), (.label, [.label "end"])]

/-- In eight steps it completes, and the last step has nothing to observe. Two of its three
instructions that may go to a label do so. -/
theorem create_observed_branching :
    ∃ m : Machine, create branching ⟨.stream [], .unlimited, .unlimited⟩ = .ok m ∧
      m.trace (List.replicate 8 .step) =
        (m.stepsIn (List.replicate 8 .step)).flatMap callOuts ∧
      (m.stepsIn (List.replicate 8 .step)).filterMap transfer? =
        [(⟨1, .call, [.label "f"]⟩, "f", 3),
          (⟨3, .jumpIf .direct false, [.label "end", .constant (.int 1), .constant (.int 2)]⟩,
            "end", 5)] ∧
      (m.trace (List.replicate 8 .step)).countP Event.isFinished = 1 := by
  have created : create branching ⟨.stream [], .unlimited, .unlimited⟩ = .ok _ := rfl
  obtain ⟨observed, finished, -⟩ := create_observed created (List.replicate 8 .step)
  exact ⟨_, created, observed, rfl, finished⟩

end Machine

end Ippcode
