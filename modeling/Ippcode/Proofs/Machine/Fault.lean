import Ippcode.Proofs.Machine.Outcome

/-!
# What a fault leaves behind

A step that ends in a fault has done nothing that cannot be undone, with two exceptions : the stack
forms have popped their operands, and a stream that has refused a text may have taken the
beginning of it. The position is still that of the instruction, no call and no line of input is
lost, and there is no event behind the one that tells of the instruction (`fault_leaves`).

It follows from what an instruction that fails leaves behind (`Instruction.Fails`).
-/

namespace Ippcode

namespace Machine

variable {m n : Machine}

/-- Letting control go on is no fault. -/
theorem follow_ne_error (m : Machine) (i : Instruction) (events : List Event) (flow : Flow)
    (fault : Fault) : (m.follow i events flow).result ≠ .error fault := by
  cases flow <;> exact nofun

/-- A step of a machine whose instructions fit their opcodes leaves behind, when it is a fault, what
its instruction does. -/
theorem step_fails (fits : ∀ i ∈ m.instructions, i.Fits) {fault : Fault}
    (h : m.step.result = .error fault) :
    ∃ i c, m.ending = none ∧ m.instructions[m.position]? = some i ∧
      i.Fails m.context fault.error c ∧
      m.step = ⟨{ m with context := c }, .error (.of i fault.error),
        [.fetched i m.context.environment]⟩ := by
  have outcome := step_outcome fits
  generalize m.step = t at h outcome ⊢
  cases outcome with
  | ended _ => cases h
  | completed _ _ => cases h
  | done _ _ _ => exact absurd h (follow_ne_error _ _ _ _ _)
  | failed running next fails =>
    obtain rfl := Except.error.inj h
    exact ⟨_, _, running, next, fails, rfl⟩

/-- In a run of an accepted program, a step that is a fault leaves the machine at its instruction,
with nothing to observe but that the instruction was fetched. Memory, labels, calls and input are
as before. So is the data stack, unless the instruction takes its operands from there, and so is the
output, unless the instruction was printing. -/
theorem fault_leaves {p : Program} {console : Console} (created : create p console = .ok m)
    (reached : m.Reaches n) {fault : Fault} (h : n.step.result = .error fault) :
    ∃ i, n.instructions[n.position]? = some i ∧ fault = .of i fault.error ∧
      n.step.events = [.fetched i n.context.environment] ∧
      n.step.machine.instructions = n.instructions ∧ n.step.machine.position = n.position ∧
      n.step.machine.ending = n.ending ∧
      i.Fails n.context fault.error n.step.machine.context ∧
      (i.opcode.stackOperands = 0 →
        n.step.machine.context.environment = n.context.environment) := by
  obtain ⟨i, c, -, next, fails, step⟩ := step_fails (reached.fits created) h
  rw [step] at h ⊢
  exact ⟨i, next, (Except.error.inj h).symm, rfl, rfl, rfl, rfl, fails, fails.environment⟩

/-- A program that adds what is no number. -/
def adding : Program :=
  .numbered [(.pushS, [.constant (.int 1)]), (.pushS, [.constant (.int 2)]),
    (.pushS, [.constant .nil]), (.binary .stack (.arithmetic .add), [])]

/-- Both operands are gone after its fault, and the value below them is still there. -/
theorem fault_leaves_adding :
    ∃ (m : Machine) (fault : Fault),
      create adding ⟨.stream [], .unlimited, .unlimited⟩ = .ok m ∧
        (m.after [.step, .step, .step]).step.result = .error fault ∧
        (m.after [.step, .step, .step]).step.machine.context.environment.data = [.int 1] := by
  have created : create adding ⟨.stream [], .unlimited, .unlimited⟩ = .ok _ := rfl
  obtain ⟨i, next, -, -, -, -, -, fails, -⟩ :=
    fault_leaves created (Reaches.start.after [.step, .step, .step]) rfl
  refine ⟨_, _, created, rfl, fails.data.trans ?_⟩
  cases next
  rfl

end Machine

end Ippcode
