import Ippcode.Command.Session

/-!
# The program

Reads the files that a command names, executes the command and writes what comes of it. While
a program runs, its output is passed on after each step, and a line of the standard input is read
when the program asks for one.
-/

namespace Ippcode

/-- What the system says about a file. Some operations give the number of an error with the
opposite sign. -/
def FileError.ofSystem : IO.Error → FileError
  | .noFileOrDirectory .. => .missing
  | .inappropriateType _ number details | .permissionDenied _ number details =>
    let number := min number (0 - number)
    if number = 20 then .notFolder
    else if number = 21 then .isFolder
    else .system s!"{details} (os error {number})"
  | e => .system (toString e)

/-- The files with these names, as far as they can be read. -/
def readFiles (paths : List String) : IO FileReader := do
  let files ← paths.mapM fun (path : String) => do
    let content ← (IO.FS.readBinFile path).toBaseIO
    return (path, (content.mapError FileError.ofSystem).map fun bytes => bytes.data.toList)
  return fun path => (files.lookup path).getD (.error .missing)

/-- The next line of a stream, with its end. -/
partial def takeLine (stream : IO.FS.Stream) (line : List UInt8) : IO (List UInt8) := do
  let bytes := (← stream.read 1).data.toList
  let line := line ++ bytes
  if bytes.isEmpty || bytes == [0x0A] then return line else takeLine stream line

/-- What the system says about a stream. -/
def StreamError.ofSystem (e : IO.Error) : StreamError := .system (FileError.ofSystem e).message

/-- Passes on what has been printed. -/
def passOn (stdout : IO.FS.Stream) (bytes : List UInt8) : ExceptT StreamError IO Unit :=
  ExceptT.mk do
    let passed ← (do stdout.write bytes.toByteArray; stdout.flush : IO Unit).toBaseIO
    return passed.mapError StreamError.ofSystem

/-- Runs a machine to its end, as long as its output can be passed on. -/
partial def drive (stdin stdout stderr : IO.FS.Stream) (machine : Machine)
    (statistics : Statistics) : ExceptT StreamError IO Execution := do
  let arrived ← if machine.awaitsLine then takeLine stdin [] else pure []
  let machine := machine.supply arrived
  let turn := machine.step
  let statistics := turn.observe Statistics.observe statistics
  let console := turn.machine.context.console
  unless console.output.latest.isEmpty do
    passOn stdout console.output.accepted
  unless console.diagnostic.latest.isEmpty do
    stderr.write console.diagnostic.accepted.toByteArray
  let machine := turn.machine.drain
  match turn.outcome? with
  | none => drive stdin stdout stderr machine statistics
  | some result => return ⟨machine.context.console, statistics, result⟩

/-- Shows an error and gives its exit code. -/
def fail (e : CommandError) : IO UInt32 := do
  IO.eprint e.text
  return e.code.toUInt32

/-- Writes a file. -/
def writeFile : FileWriter IO := fun path bytes => do
  let written ← (IO.FS.writeBinFile path bytes.toByteArray).toBaseIO
  return written.mapError FileError.ofSystem

/-- Executes a program. -/
def execute (options : RunOptions) : IO UInt32 := do
  let stdin ← IO.getStdin
  let stdout ← IO.getStdout
  let reader ← readFiles (options.source.toList ++ options.input.toList)
  let arrived ← if options.source.isNone then stdin.readBinToEnd else pure .empty
  match options.start reader arrived.data.toList .unlimited .unlimited with
  | .error e => fail e
  | .ok session =>
    let statistics := Statistics.ofProgram session.program
    let stopped ← match Machine.create session.program session.console with
      | .error fault => pure (.ok ⟨session.console, statistics, .error fault⟩)
      | .ok machine => (drive stdin stdout (← IO.getStderr) machine statistics).run
    match stopped with
    | .error cause => fail (.unflushed cause)
    | .ok x =>
      let flushed ← (passOn stdout []).run
      match ← x.conclude writeFile flushed session.reports with
      | .ok code => return code.toUInt32
      | .error e => fail e

/-- One call of the command line. -/
def commandLine (arguments : List String) : IO UInt32 := do
  match Command.ofArguments arguments with
  | .error e => fail (.usage e)
  | .ok .help =>
    IO.eprint usageText
    return 0
  | .ok (.check path) =>
    match checkSource (← readFiles [path]) path with
    | .ok text =>
      IO.print text
      return 0
    | .error e => fail e
  | .ok (.run options) => execute options

end Ippcode

/-- The program : its arguments, and its exit code. It panics if it cannot show what it has to
say. -/
def main (arguments : List String) : IO UInt32 := do
  match ← (Ippcode.commandLine arguments).toBaseIO with
  | .ok code => return code
  | .error _ => return Ippcode.panicCode.toUInt32
