import Ippcode.Proofs.Tally
import Ippcode.Statistics

/-!
# The most frequent opcodes

Which opcodes are most frequent is a property of the program alone, and no event that is observed
while it runs changes it (`frequent_foldl`). What is reported are the names of all opcodes that
nothing in the program is more frequent than, each once, and in the order in which the program uses
them first (`Program.ListsMostFrequent`).
-/

namespace Ippcode

/-! ## Names of opcodes -/

/-- No two opcodes share a name. -/
theorem Opcode.mnemonic_injective : Opcode.mnemonic.Injective := by
  intro op op' same
  have found := ofMnemonic?_mnemonic op
  rw [same, ofMnemonic?_mnemonic] at found
  exact (Option.some.inj found).symm

namespace Program

/-- The opcodes of a program, one for each instruction. -/
def opcodes (p : Program) : List Opcode := p.instructions.map Instruction.opcode

/-- How many instructions of a program have this opcode. -/
def occurrences (p : Program) (op : Opcode) : Nat := p.instructions.countP (·.opcode = op)

/-- An opcode occurs as often as the list of all opcodes says. -/
theorem count_opcodes (p : Program) (op : Opcode) : p.opcodes.count op = p.occurrences op := by
  rw [opcodes, List.count_eq_countP, List.countP_map]
  rfl

theorem mem_opcodes_iff {p : Program} {op : Opcode} : op ∈ p.opcodes ↔ 0 < p.occurrences op := by
  rw [← count_opcodes, List.count_pos_iff]

/-- The names of the opcodes that are most frequent in a program. -/
structure ListsMostFrequent (p : Program) (names : List String) : Prop where
  once : names.Nodup
  /-- Exactly the opcodes that occur and that nothing occurs more often than. -/
  mem_iff : ∀ name, name ∈ names ↔ ∃ op, op.mnemonic = name ∧ 0 < p.occurrences op ∧
    ∀ other, p.occurrences other ≤ p.occurrences op
  /-- In the order of their first appearance. -/
  ordered : names.Pairwise fun a b =>
    (p.opcodes.map Opcode.mnemonic).idxOf a < (p.opcodes.map Opcode.mnemonic).idxOf b

/-- A program with itself once more behind it. -/
def twice (p : Program) : Program := ⟨p.instructions ++ p.instructions⟩

end Program

/-! ## What is reported -/

namespace Statistics

/-- The most frequent opcodes are those that no other one outnumbers. -/
theorem mem_frequentOpcodes_iff {p : Program} {op : Opcode} : op ∈ frequentOpcodes p ↔
    0 < p.occurrences op ∧ ∀ other, p.occurrences other ≤ p.occurrences op := by
  rw [frequentOpcodes, Tally.mem_mostFrequent_ofList, ← Program.mem_opcodes_iff]
  simp only [← Program.count_opcodes]
  rfl

theorem listsMostFrequent (p : Program) :
    p.ListsMostFrequent ((frequentOpcodes p).map Opcode.mnemonic) := by
  have ordered : Tally.InOrderOf p.opcodes (frequentOpcodes p) :=
    Tally.mostFrequent_ofList_inOrderOf _
  have named := ordered.map Opcode.mnemonic_injective
  refine ⟨named.nodup, fun name => ?_, named⟩
  rw [List.mem_map]
  refine exists_congr fun op => ?_
  rw [mem_frequentOpcodes_iff, and_comm]

theorem frequentOpcodes_eq_nil_iff {p : Program} :
    frequentOpcodes p = [] ↔ p.instructions = [] := by
  rw [frequentOpcodes, Tally.mostFrequent_ofList_eq_nil_iff, List.map_eq_nil_iff]

/-- Doubling a program doubles all its counts. -/
theorem frequentOpcodes_twice (p : Program) : frequentOpcodes p.twice = frequentOpcodes p := by
  rw [frequentOpcodes, Program.twice, List.map_append, Tally.mostFrequent_ofList_append_self]
  rfl

/-- No event changes what is most frequent in the program. -/
theorem frequent_foldl : ∀ (events : List Event) (s : Statistics),
    (events.foldl observe s).frequent = s.frequent
  | [], _ => rfl
  | event :: events, s => by
    have first : (s.observe event).frequent = s.frequent := by
      cases event with
      | fetched i before =>
        unfold observe
        dsimp only
        split_ifs <;> rfl
      | transferred => rfl
      | finished => rfl
    rw [List.foldl_cons, frequent_foldl events, first]

/-- What is reported of a program, whatever happens while it runs : the names of exactly the opcodes
that occur most often in it, each once and in the order of their first appearance. There are none
only in an empty program, and a second copy of the program behind it changes nothing. -/
theorem frequent_exact (p : Program) :
    p.ListsMostFrequent ((frequentOpcodes p).map Opcode.mnemonic) ∧
    ((frequentOpcodes p).map Opcode.mnemonic = [] ↔ p.instructions = []) ∧
    (frequentOpcodes p.twice).map Opcode.mnemonic = (frequentOpcodes p).map Opcode.mnemonic ∧
    ∀ events : List Event, (events.foldl observe (ofProgram p)).line .frequent =
      ",".intercalate ((frequentOpcodes p).map Opcode.mnemonic) := by
  refine ⟨listsMostFrequent p, ?_, ?_, fun events => ?_⟩
  · rw [List.map_eq_nil_iff, frequentOpcodes_eq_nil_iff]
  · rw [frequentOpcodes_twice]
  · rw [line, frequentText, frequent_foldl]
    rfl

/-- Opcodes that are equally frequent stand in the order of the program. -/
example : frequentOpcodes (.numbered [(.write, [.constant (.int 1)]), (.createFrame, []),
    (.createFrame, []), (.write, [.constant (.int 2)]), (.pushFrame, [])]) =
      [.write, .createFrame] := by
  decide

end Statistics

end Ippcode
