import Ippcode.Statistics

/-!
# Command lines

What a person asks for on the command line : help, the execution of a program, or a check of a
source text. `Command.ofArguments` reads the arguments after the name of the program.

The options of an execution may come in any order, except that an item belongs to the report
that was asked for last. `RunOptions.arguments` writes options back as arguments.
-/

namespace Ippcode

/-! ## Usage -/

/-- The text that explains the command line. -/
def usageText : String :=
  "Usage: ippcode <command> [args]\n\nCommands:\n"
    ++ "  run [--source=FILE] [--input=FILE]   "
    ++ "Execute a program (missing one is read from stdin)\n"
    ++ "  check <source>                       "
    ++ "Read a program (text or XML) without running it\n\n"
    ++ "Statistics options for run (each item belongs to the preceding --stats):\n"
    ++ "  --stats=FILE      Start a group written to FILE\n"
    ++ "  --insts           Executed instructions\n"
    ++ "  --hot             Order of the most executed instruction\n"
    ++ "  --vars            Most initialized variables at once\n"
    ++ "  --frequent        Most frequent opcodes in the source\n"
    ++ "  --print=STRING    STRING itself\n"
    ++ "  --eol             An empty line\n"

/-- Why options of an execution make no sense. -/
inductive OptionError where
  | missingFileName (option : String)
  | repeated (option : String)
  | unknown (argument : String)
  /-- An item comes before any report. -/
  | noReport (argument : String)
  | neitherSourceNorInput
  deriving DecidableEq, Repr

/-- The text of the error. -/
def OptionError.message : OptionError → String
  | missingFileName option => s!"{option} needs a file name"
  | repeated option => s!"{option} given more than once"
  | unknown argument => s!"unknown option '{argument}'"
  | noReport argument => s!"'{argument}' must follow a --stats=FILE option"
  | neitherSourceNorInput => "at least one of --source and --input is required"

/-- Why arguments are no command. -/
inductive UsageError where
  | noCommand
  | unknownCommand (name : String)
  | options (cause : OptionError)
  /-- A check does not have exactly one source. -/
  | checkArity
  deriving DecidableEq, Repr

/-- All that is said about the error. -/
def UsageError.text : UsageError → String
  | noCommand => usageText
  | unknownCommand name => s!"error: unknown command '{name}'\n\n" ++ usageText
  | options cause =>
    "error: " ++ cause.message
      ++ "\nUsage: ippcode run [--source=FILE] [--input=FILE] [--stats=FILE ...]\n"
  | checkArity => "error: check requires exactly one source file\nUsage: ippcode check <source>\n"

/-! ## Options of an execution -/

/-- What to execute, what it reads, and which reports to write about it. What is not given is
taken from the standard input. -/
structure RunOptions where
  source : Option String
  input : Option String
  reports : List ReportRequest
  deriving DecidableEq, Repr

namespace RunOptions

/-- The options before any argument. -/
def empty : RunOptions := ⟨none, none, []⟩

/-- What an argument says for an option : the text after its name and an equals sign. -/
def setting? (option argument : String) : Option String :=
  ((option ++ "=").toList.isPrefixOf? argument.toList).map String.ofList

/-- The item that an argument asks for. -/
def item? (argument : String) : Option ReportItem :=
  if argument = "--insts" then some .performedCount
  else if argument = "--hot" then some .hottest
  else if argument = "--vars" then some .mostInitialized
  else if argument = "--frequent" then some .frequent
  else if argument = "--eol" then some .emptyLine
  else (setting? "--print" argument).map .text

/-- A path where there was none. -/
def setPath (option : String) (old : Option String) (path : String) :
    Except OptionError (Option String) :=
  if path.isEmpty then .error (.missingFileName option)
  else if old.isSome then .error (.repeated option)
  else .ok (some path)

/-- The requests with an item added to the last one, if there is one. -/
def addItem? (item : ReportItem) : List ReportRequest → Option (List ReportRequest)
  | [] => none
  | [r] => some [{ r with items := r.items ++ [item] }]
  | r :: rs => (addItem? item rs).map (r :: ·)

/-- The options with what one more argument says. -/
def extend (o : RunOptions) (argument : String) : Except OptionError RunOptions :=
  match setting? "--source" argument with
  | some path => (setPath "--source" o.source path).map fun p => { o with source := p }
  | none =>
    match setting? "--input" argument with
    | some path => (setPath "--input" o.input path).map fun p => { o with input := p }
    | none =>
      match setting? "--stats" argument with
      | some path =>
        if path.isEmpty then .error (.missingFileName "--stats")
        else .ok { o with reports := o.reports ++ [⟨path, []⟩] }
      | none =>
        match item? argument with
        | some item =>
          match addItem? item o.reports with
          | some reports => .ok { o with reports := reports }
          | none => .error (.noReport argument)
        | none => .error (.unknown argument)

/-- The options that arguments say. -/
def ofArguments (arguments : List String) : Except OptionError RunOptions := do
  let o ← arguments.foldlM extend empty
  if o.source.isNone && o.input.isNone then throw .neitherSourceNorInput
  return o

/-! ### Writing options -/

/-- The argument that asks for an item. -/
def itemArgument : ReportItem → String
  | .performedCount => "--insts"
  | .hottest => "--hot"
  | .mostInitialized => "--vars"
  | .frequent => "--frequent"
  | .text t => "--print=" ++ t
  | .emptyLine => "--eol"

/-- The arguments that ask for a report. -/
def reportArguments (r : ReportRequest) : List String :=
  ("--stats=" ++ r.path) :: r.items.map itemArgument

/-- The arguments that say the options. -/
def arguments (o : RunOptions) : List String :=
  (o.source.map ("--source=" ++ ·)).toList ++ (o.input.map ("--input=" ++ ·)).toList
    ++ o.reports.flatMap reportArguments

end RunOptions

/-! ## Commands -/

/-- What a person asks for. -/
inductive Command where
  | help
  | run (options : RunOptions)
  | check (path : String)
  deriving DecidableEq, Repr

/-- The command that arguments say. -/
def Command.ofArguments : List String → Except UsageError Command
  | [] => .error .noCommand
  | name :: arguments =>
    if name = "run" then ((RunOptions.ofArguments arguments).map run).mapError .options
    else if name = "check" then
      match arguments with
      | [path] => .ok (check path)
      | _ => .error .checkArity
    else if name = "help" ∨ name = "--help" ∨ name = "-h" then .ok help
    else .error (.unknownCommand name)

end Ippcode
