import Ippcode.Machine.Step
import Ippcode.Tally

/-!
# Statistics

Statistics of one execution of a program : how many instructions were performed, which of them
most often, and how many variables had a value at once, and besides which opcodes are most
frequent in the program. Labels and the instructions that only show something do not count as
performed.

Statistics are an observer (`Statistics.observe`). A report is a list of items, each of them one
line of a file.
-/

namespace Ippcode

/-! ## Counters -/

/-- Whether an opcode counts as performed. -/
def Opcode.isCounted : Opcode → Bool
  | label | dPrint | breakpoint => false
  | _ => true

/-- What is counted while a program runs. -/
structure Statistics where
  /-- The opcodes that are most frequent in the program. -/
  frequent : List Opcode
  /-- How many instructions were performed. -/
  performedCount : Nat
  /-- How often the instruction of each order was performed, by ascending orders. -/
  performed : Tally Nat
  /-- The greatest number of variables with a value. -/
  mostInitialized : Nat
  deriving DecidableEq

namespace Statistics

/-- The opcodes that occur most often in a program, in the order of their first occurrence. -/
def frequentOpcodes (p : Program) : List Opcode :=
  (Tally.ofList (p.instructions.map Instruction.opcode)).mostFrequent

/-- The statistics of a program that has not started. -/
def ofProgram (p : Program) : Statistics := ⟨frequentOpcodes p, 0, .empty, 0⟩

/-- Takes notice of an environment. -/
def sample (s : Statistics) (e : Environment) : Statistics :=
  { s with mostInitialized := max s.mostInitialized e.memory.initializedCount }

/-- Takes notice of an event. -/
def observe (s : Statistics) : Event → Statistics
  | .fetched i before =>
    let s := s.sample before
    if i.opcode.isCounted then
      { s with
        performedCount := s.performedCount + 1
        performed := s.performed.addAscending i.order }
    else s
  | .transferred .. => s
  | .finished after => s.sample after

/-! ## Results -/

/-- The order of the instruction that was performed most often, the least one if there
are several. -/
def hottest? (s : Statistics) : Option Nat := s.performed.topmost?.map Prod.fst

/-- The mnemonics of the opcodes that are most frequent in the program. -/
def frequentText (s : Statistics) : String := ",".intercalate (s.frequent.map Opcode.mnemonic)

end Statistics

/-! ## Reports -/

/-- What a line of a report shows. -/
inductive ReportItem where
  | performedCount
  | hottest
  | mostInitialized
  | frequent
  | text (t : String)
  | emptyLine
  deriving DecidableEq, Repr

/-- A file with the items that are to be written to it. -/
structure ReportRequest where
  path : String
  items : List ReportItem
  deriving DecidableEq, Repr

namespace Statistics

/-- A natural number in decimal. -/
def numberText (n : Nat) : String := String.ofList (Nat.toDigits 10 n)

/-- The line of a report that shows an item. -/
def line (s : Statistics) : ReportItem → String
  | .performedCount => numberText s.performedCount
  | .hottest => (s.hottest?.map numberText).getD ""
  | .mostInitialized => numberText s.mostInitialized
  | .frequent => s.frequentText
  | .text t => t
  | .emptyLine => ""

/-- The text of a report. -/
def report (s : Statistics) (items : List ReportItem) : String :=
  String.join (items.map fun item => s.line item ++ "\n")

end Statistics

end Ippcode
