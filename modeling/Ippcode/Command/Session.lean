import Ippcode.Command.Directory
import Ippcode.Command.Options
import Ippcode.Machine.Run
import Ippcode.Source
import Ippcode.Xml.Document

/-!
# Sessions

A session is one call of the command line. `RunOptions.start` reads what an execution needs,
`Session.run` runs the program, and `Execution.conclude` says what is left to do when it has
stopped. First its output has to be passed on. Then reports are written, in the order in which
they were asked for, if and only if the program came to an end without a fault. Files are written
by any `FileWriter`, so a session on files concludes as one on a directory.

`Command.perform` is a whole session on a directory, as a function. Documents are read by any
parser; the one in `Ippcode.Xml.Document` is that of the program.
-/

namespace Ippcode

/-! ## What can go wrong -/

/-- Why a command fails. -/
inductive CommandError where
  | usage (cause : UsageError)
  /-- The standard input is not a source text. -/
  | unreadableInput (cause : FileError)
  | unreadable (path : String) (cause : FileError)
  | source (cause : SourceError)
  /-- The output of the program cannot be passed on. -/
  | unflushed (cause : StreamError)
  | fault (cause : Fault)
  | unwritable (path : String) (cause : FileError)
  deriving DecidableEq

namespace CommandError

/-- All that is said about the error. -/
def text : CommandError → String
  | usage cause => cause.text
  | unreadableInput cause => "error: cannot read source from stdin: " ++ cause.message ++ "\n"
  | unreadable path cause => s!"error: cannot read '{path}': " ++ cause.message ++ "\n"
  | source cause => "error: " ++ cause.message ++ "\n"
  | unflushed cause => "error: cannot write output: " ++ cause.message ++ "\n"
  | fault cause => "error: " ++ cause.message ++ "\n"
  | unwritable path cause => s!"error: cannot write '{path}': " ++ cause.message ++ "\n"

/-- The exit code of the error. -/
def code : CommandError → Nat
  | usage _ => 10
  | unreadableInput _ | unreadable .. => 11
  | source cause => cause.code
  | unflushed _ => 99
  | fault cause => cause.code
  | unwritable .. => 12

end CommandError

/-! ## Reading -/

/-- How the files that a command names are read. -/
abbrev FileReader := String → Except FileError (List UInt8)

/-- Bytes as text. -/
def textOfBytes (bytes : List UInt8) : Except FileError String :=
  match Text.decode? bytes with
  | some text => .ok text
  | none => .error .notText

/-- The text of a file. -/
def FileReader.text (reader : FileReader) (path : String) : Except CommandError String :=
  ((reader path).bind textOfBytes).mapError (.unreadable path)

/-- The program that a text writes. -/
def programOfText [Xml.Parser] (text : String) : Except CommandError Program :=
  (Program.ofSource text).mapError .source

/-! ## Executions -/

/-- A program that is about to run, its streams, and the reports to write about it. -/
structure Session where
  program : Program
  console : Console
  reports : List ReportRequest

/-- What an execution begins with. Without an input file the program reads the standard input,
line by line. -/
def RunOptions.start [Xml.Parser] (o : RunOptions) (reader : FileReader) (stdin : List UInt8)
    (stdout stderr : Output) : Except CommandError Session := do
  let text ← match o.source with
    | some path => reader.text path
    | none => (textOfBytes stdin).mapError .unreadableInput
  let program ← programOfText text
  let input ← match o.input with
    | some path => (reader.text path).map Input.ofText
    | none => pure (Input.stream stdin)
  return ⟨program, ⟨input, stdout, stderr⟩, o.reports⟩

/-- What a program leaves behind that has stopped, or that no machine could be made of. -/
structure Execution where
  console : Console
  statistics : Statistics
  result : Except Fault Termination

/-- Runs the program of a session, in at most `limit` steps. -/
def Session.run (s : Session) (limit : Nat) : Option Execution :=
  let statistics := Statistics.ofProgram s.program
  match Machine.create s.program s.console with
  | .error fault => some ⟨s.console, statistics, .error fault⟩
  | .ok machine =>
    let run := machine.run Statistics.observe limit statistics
    run.outcome.map fun result => ⟨run.machine.context.console, run.observed, result⟩

/-! ## Reports -/

/-- How bytes are written to the file that a path names. -/
abbrev FileWriter (m : Type → Type) := String → List UInt8 → m (Except FileError Unit)

section

variable {m : Type → Type} [Monad m] (write : FileWriter m)

/-- Writes reports one after the other, up to the first whose file cannot be written. -/
def Statistics.writeReports (s : Statistics) : List ReportRequest → m (Except CommandError Unit)
  | [] => return .ok ()
  | r :: rest => do
    match ← write r.path (Text.encode (s.report r.items)) with
    | .ok () => s.writeReports rest
    | .error e => return .error (.unwritable r.path e)

/-- What is left to do when a program has stopped : the exit code, or what goes wrong. Output that
has not been passed on comes before a fault, and a fault before the reports. -/
def Execution.conclude (x : Execution) (flushed : Except StreamError Unit)
    (reports : List ReportRequest) : m (Except CommandError Nat) :=
  match flushed, x.result with
  | .error cause, _ => return .error (.unflushed cause)
  | .ok (), .error fault => return .error (.fault fault)
  | .ok (), .ok ending => do
    match ← x.statistics.writeReports write reports with
    | .ok () => return .ok ending.code
    | .error e => return .error e

end

/-! ## Whole sessions -/

/-- What a session leaves behind. -/
structure Outcome where
  code : Nat
  /-- What was printed. -/
  output : List UInt8
  /-- What was shown besides. -/
  diagnostic : List UInt8
  directory : Directory
  deriving DecidableEq

/-- The exit code of a process that cannot show what went wrong. -/
def panicCode : Nat := 101

namespace Outcome

/-- The outcome of a session that prints a text and shows another. -/
def of (code : Nat) (output diagnostic : String) (d : Directory) : Outcome :=
  ⟨code, Text.encode output, Text.encode diagnostic, d⟩

/-- The outcome of a session that fails : the error is shown behind all that was shown before. -/
def failing (e : CommandError) (stdout stderr : Output) (d : Directory) : Outcome :=
  let (shown, stderr) := stderr.write (Text.encode e.text)
  let code := match shown with
    | .ok () => e.code
    | .error _ => panicCode
  ⟨code, stdout.accepted, stderr.accepted, d⟩

end Outcome

/-- Writing to a directory. -/
def Directory.writer : FileWriter (StateM Directory) := fun path bytes d =>
  match d.write path bytes with
  | .ok d => (.ok (), d)
  | .error e => (.error e, d)

/-- What a session leaves behind whose program has stopped. -/
def Execution.outcome (x : Execution) (reports : List ReportRequest) (d : Directory) : Outcome :=
  let ⟨_, stdout, stderr⟩ := x.console
  match x.conclude Directory.writer stdout.flush reports d with
  | (.ok code, d) => ⟨code, stdout.accepted, stderr.accepted, d⟩
  | (.error e, d) => .failing e stdout stderr d

/-- Executes a program, in at most `limit` steps. -/
def RunOptions.execute [Xml.Parser] (o : RunOptions) (limit : Nat) (d : Directory)
    (stdin : List UInt8) (stdout stderr : Output) : Option Outcome :=
  match o.start d.read stdin stdout stderr with
  | .error e => some (.failing e stdout stderr d)
  | .ok session => (session.run limit).map fun x => x.outcome session.reports d

/-- Reads a program and says how many instructions it has. -/
def checkSource [Xml.Parser] (reader : FileReader) (path : String) :
    Except CommandError String := do
  let program ← programOfText (← reader.text path)
  let count := program.instructions.length
  return s!"OK: {path} ({count} instructions)\n"

/-- A session on a directory, whose streams take everything. Only the execution of a program in
more than `limit` steps has no outcome. -/
def Command.perform [Xml.Parser] (arguments : List String) (limit : Nat) (d : Directory)
    (stdin : List UInt8) : Option Outcome :=
  let failed (e : CommandError) := some (Outcome.failing e .unlimited .unlimited d)
  match Command.ofArguments arguments with
  | .error e => failed (.usage e)
  | .ok .help => some (.of 0 "" usageText d)
  | .ok (.check path) =>
    match checkSource d.read path with
    | .ok text => some (.of 0 text "" d)
    | .error e => failed e
  | .ok (.run options) => options.execute limit d stdin .unlimited .unlimited

end Ippcode
