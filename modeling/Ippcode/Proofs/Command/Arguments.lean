import Ippcode.Proofs.Command.Options

/-!
# Command lines of an execution

A command line is read from left to right, and each argument is checked against what has been read
so far. Whether it is accepted as a whole is a property of its arguments and their order
(`RunOptions.IsCommandLine`), and so are the options that it says (`RunOptions.Means`).

Options that a command line can say are those of the command line that they are written as, and the
arguments that name a source or an input may stand anywhere (`ofArguments_exact`).
-/

namespace Ippcode.RunOptions

variable {o : RunOptions} {arguments moved : List String} {option argument path : String}

/-! ## Command lines and options -/

/-- Whether an argument begins with a mark. -/
def beginsWith (mark argument : String) : Bool := mark.toList.isPrefixOf argument.toList

/-- The arguments that name no source and no input. -/
def requests (arguments : List String) : List String :=
  arguments.filter fun argument =>
    !(beginsWith "--source=" argument || beginsWith "--input=" argument)

/-- The command lines that are accepted. -/
structure IsCommandLine (arguments : List String) : Prop where
  known : ∀ argument ∈ arguments, IsOption argument
  source : arguments.countP (beginsWith "--source=") ≤ 1
  input : arguments.countP (beginsWith "--input=") ≤ 1
  given : ∃ path, "--source=" ++ path ∈ arguments ∨ "--input=" ++ path ∈ arguments
  /-- No item comes before all reports. -/
  grouped : ∀ front argument rest, arguments = front ++ argument :: rest → IsItem argument →
    ∃ path, "--stats=" ++ path ∈ front

/-- The options that a command line says : its paths, and one report for each argument that asks for
one, with all items up to the next of these arguments. -/
structure Means (arguments : List String) (o : RunOptions) : Prop where
  source : ∀ path, o.source = some path ↔ "--source=" ++ path ∈ arguments
  input : ∀ path, o.input = some path ↔ "--input=" ++ path ∈ arguments
  reports : o.reports.flatMap reportArguments = requests arguments

/-- Options that can be said : all paths are names, and a source or an input is given. -/
structure IsComplete (o : RunOptions) : Prop where
  source : o.source ≠ some ""
  input : o.input ≠ some ""
  reports : ∀ r ∈ o.reports, r.path ≠ ""
  given : ¬ (o.source = none ∧ o.input = none)

/-- The same arguments, of which those that name a source or an input may have moved. -/
structure Moves (arguments moved : List String) : Prop where
  perm : moved.Perm arguments
  others : requests moved = requests arguments

/-! ## Paths -/

/-- A setting is told by how it begins. -/
theorem isSome_setting? (option argument : String) :
    (setting? option argument).isSome = beginsWith (option ++ "=") argument := by
  rw [setting?, Option.isSome_map, List.isSome_isPrefixOf?_eq_isPrefixOf]
  rfl

theorem requests_eq (arguments : List String) :
    requests arguments = arguments.filter fun argument => !namesFile argument := by
  simp only [namesFile, isSome_setting?]
  rfl

/-- The paths are those of the arguments. -/
theorem mem_paths_iff : path ∈ arguments.filterMap (setting? option) ↔
    option ++ "=" ++ path ∈ arguments := by
  simp only [List.mem_filterMap, setting?_eq_some_iff, exists_eq_right]

/-- There are as many paths as settings. -/
theorem length_paths (option : String) (arguments : List String) :
    (arguments.filterMap (setting? option)).length =
      arguments.countP (beginsWith (option ++ "=")) := by
  rw [List.length_filterMap_eq_countP]
  simp only [isSome_setting?]

/-- One path at most fills one slot at most. -/
theorem exists_of_length_le {paths : List String} (h : paths.length ≤ 1) :
    ∃ slot : Option String, slot.toList = paths := by
  match paths, h with
  | [], _ => exact ⟨none, rfl⟩
  | [path], _ => exact ⟨some path, rfl⟩

theorem length_toList_le (slot : Option String) : slot.toList.length ≤ 1 := by
  cases slot with
  | none => exact Nat.zero_le 1
  | some _ => exact Nat.le_refl 1

/-- A single path has no other order. -/
theorem eq_toList_of_perm {slot : Option String} {paths : List String}
    (h : paths.Perm slot.toList) : paths = slot.toList := by
  cases slot with
  | none => exact List.perm_nil.mp h
  | some path => exact List.perm_singleton.mp h

/-- Paths of options are names. -/
theorem IsOption.named (h : IsOption argument) : setting? "--source" argument ≠ some "" ∧
    setting? "--input" argument ≠ some "" ∧ setting? "--stats" argument ≠ some "" := by
  cases h with
  | @source path named =>
    obtain ⟨own, input, stats⟩ := setting?_source path
    rw [own, input, stats]
    exact ⟨fun same => named (Option.some.inj same), nofun, nofun⟩
  | @input path named =>
    obtain ⟨source, own, stats⟩ := setting?_input path
    rw [source, own, stats]
    exact ⟨nofun, fun same => named (Option.some.inj same), nofun⟩
  | @report path named =>
    obtain ⟨source, input, own⟩ := setting?_stats path
    rw [source, input, own]
    exact ⟨nofun, nofun, fun same => named (Option.some.inj same)⟩
  | item isItem =>
    obtain ⟨item, rfl⟩ := isItem_iff.mp isItem
    obtain ⟨source, input, stats⟩ := setting?_itemArgument item
    rw [source, input, stats]
    exact ⟨nofun, nofun, nofun⟩

/-! ## Accepted command lines -/

/-- Items and reports, one after the other. -/
theorem exists_reports : ∀ {arguments : List String},
    (∀ argument ∈ arguments, IsOption argument ∧ namesFile argument = false) →
      ∃ (items : List ReportItem) (reports : List ReportRequest),
        arguments = items.map itemArgument ++ reports.flatMap reportArguments
  | [], _ => ⟨[], [], rfl⟩
  | argument :: arguments, h => by
    obtain ⟨⟨known, other⟩, h⟩ := List.forall_mem_cons.mp h
    obtain ⟨items, reports, rfl⟩ := exists_reports h
    cases known with
    | @source path =>
      rw [namesFile, (setting?_source path).1, Option.isSome_some, Bool.true_or] at other
      cases other
    | @input path =>
      rw [namesFile, (setting?_input path).2.1, Option.isSome_some, Bool.or_true] at other
      cases other
    | @report path named => exact ⟨[], ⟨path, items⟩ :: reports, rfl⟩
    | item isItem =>
      obtain ⟨item, rfl⟩ := isItem_iff.mp isItem
      exact ⟨item :: items, reports, rfl⟩

/-- Items name no file to read. -/
theorem IsItem.not_namesFile (h : IsItem argument) : namesFile argument = false := by
  obtain ⟨item, rfl⟩ := isItem_iff.mp h
  obtain ⟨source, input, -⟩ := setting?_itemArgument item
  rw [namesFile, source, input]
  rfl

/-- All arguments that ask for reports belong to one, if the first of them begins one. -/
theorem IsCommandLine.exists_reports (h : IsCommandLine arguments) :
    ∃ reports : List ReportRequest, reports.flatMap reportArguments =
      arguments.filter fun argument => !namesFile argument := by
  have about : ∀ argument ∈ arguments.filter fun argument => !namesFile argument,
      IsOption argument ∧ namesFile argument = false := by
    intro argument mem
    obtain ⟨mem, other⟩ := List.mem_filter.mp mem
    exact ⟨h.known argument mem, by simpa using other⟩
  obtain ⟨items, reports, parts⟩ := RunOptions.exists_reports about
  cases items with
  | nil => exact ⟨reports, parts.symm⟩
  | cons item items =>
    obtain ⟨front, rest, rfl, skipped, -⟩ := List.filter_eq_cons_iff.mp parts
    obtain ⟨path, mem⟩ := h.grouped front _ rest rfl (isItem_iff.mpr ⟨item, rfl⟩)
    have names := skipped _ mem
    obtain ⟨source, input, -⟩ := setting?_stats path
    rw [namesFile, source, input] at names
    exact absurd rfl names

/-- Command lines are accepted. -/
theorem IsCommandLine.accepted (h : IsCommandLine arguments) :
    ∃ o, ofArguments arguments = .ok o := by
  obtain ⟨source, sources⟩ := exists_of_length_le ((length_paths "--source" _).trans_le h.source)
  obtain ⟨input, inputs⟩ := exists_of_length_le ((length_paths "--input" _).trans_le h.input)
  obtain ⟨reports, asked⟩ := h.exists_reports
  refine ⟨⟨source, input, reports⟩,
    ofArguments_eq_ok_iff.mpr ⟨⟨h.known, sources, inputs, asked⟩, ?_⟩⟩
  rintro ⟨rfl, rfl⟩
  obtain ⟨path, mem | mem⟩ := h.given
  · exact List.not_mem_nil (sources ▸ mem_paths_iff.mpr mem)
  · exact List.not_mem_nil (inputs ▸ mem_paths_iff.mpr mem)

/-- What is accepted is meant by the arguments. -/
theorem means_of_ofArguments (h : ofArguments arguments = .ok o) : Means arguments o := by
  obtain ⟨⟨-, source, input, reports⟩, -⟩ := ofArguments_eq_ok_iff.mp h
  refine ⟨fun path => ?_, fun path => ?_, ?_⟩
  · rw [← Option.mem_toList, source]
    exact mem_paths_iff
  · rw [← Option.mem_toList, input]
    exact mem_paths_iff
  · rw [requests_eq]
    exact reports

/-- A command line says one thing only. -/
theorem Means.unique {o' : RunOptions} (h : Means arguments o) (h' : Means arguments o') :
    o = o' := by
  ext path
  · exact (h.source path).trans (h'.source path).symm
  · exact (h.input path).trans (h'.input path).symm
  · rw [reportArguments_inj (h.reports.trans h'.reports.symm)]

/-- An item of an accepted command line has a report in front of it. -/
theorem exists_path_of_isItem (h : ofArguments arguments = .ok o) {front rest : List String}
    (split : arguments = front ++ argument :: rest) (isItem : IsItem argument) :
    ∃ path, "--stats=" ++ path ∈ front := by
  have reports := ofArguments_reports h
  rw [split, List.filter_append,
    List.filter_cons_of_pos (by simp [isItem.not_namesFile])] at reports
  cases asked : front.filter fun argument => !namesFile argument with
  | nil =>
    rw [asked] at reports
    obtain ⟨path, same⟩ := exists_path_of_reportArguments reports
    obtain ⟨item, rfl⟩ := isItem_iff.mp isItem
    exact absurd same (itemArgument_ne_report item path)
  | cons first others =>
    rw [asked] at reports
    obtain ⟨path, rfl⟩ := exists_path_of_reportArguments reports
    exact ⟨path, (List.mem_filter.mp (asked ▸ List.mem_cons_self)).1⟩

/-- Whatever is accepted is a command line. -/
theorem isCommandLine_of_ofArguments (h : ofArguments arguments = .ok o) :
    IsCommandLine arguments := by
  obtain ⟨⟨known, source, input, -⟩, given⟩ := ofArguments_eq_ok_iff.mp h
  have means := means_of_ofArguments h
  refine ⟨known, ?_, ?_, ?_, fun front argument rest => exists_path_of_isItem h⟩
  · exact (length_paths "--source" arguments).symm.trans_le
      ((congrArg List.length source).symm.trans_le (length_toList_le o.source))
  · exact (length_paths "--input" arguments).symm.trans_le
      ((congrArg List.length input).symm.trans_le (length_toList_le o.input))
  · by_contra none
    simp only [not_exists, not_or, ← means.source, ← means.input] at none
    exact given ⟨Option.eq_none_iff_forall_ne_some.mpr fun path => (none path).1,
      Option.eq_none_iff_forall_ne_some.mpr fun path => (none path).2⟩

/-! ## Options that are written and read -/

/-- Options that come of arguments can be written as arguments. -/
theorem isComplete_of_ofArguments (h : ofArguments arguments = .ok o) : o.IsComplete := by
  obtain ⟨adds, given⟩ := ofArguments_eq_ok_iff.mp h
  have means := means_of_ofArguments h
  refine ⟨fun none => ?_, fun none => ?_, fun r mem none => ?_, given⟩
  · exact (adds.known _ ((means.source "").mp none)).named.1 (setting?_source "").1
  · exact (adds.known _ ((means.input "").mp none)).named.2.1 (setting?_input "").2.1
  · have asked : "--stats=" ++ r.path ∈ o.reports.flatMap reportArguments :=
      List.mem_flatMap.mpr ⟨r, mem, List.mem_cons_self⟩
    rw [means.reports, none, requests, List.mem_filter] at asked
    exact (adds.known _ asked.1).named.2.2 (setting?_stats "").2.2

theorem adds_source {source : Option String} (h : source ≠ some "") :
    empty.Adds (source.map ("--source=" ++ ·)).toList ⟨source, none, []⟩ := by
  cases source with
  | none => exact adds_nil_iff.mpr rfl
  | some path => exact (Extends.source (fun same => h (congrArg some same)) rfl).adds

theorem adds_input (source : Option String) {input : Option String} (h : input ≠ some "") :
    (⟨source, none, []⟩ : RunOptions).Adds (input.map ("--input=" ++ ·)).toList
      ⟨source, input, []⟩ := by
  cases input with
  | none => exact adds_nil_iff.mpr rfl
  | some path => exact (Extends.input (fun same => h (congrArg some same)) rfl).adds

/-- Reports are added one behind the other, each with its items. -/
theorem adds_reports (source input : Option String) {reports : List ReportRequest}
    (h : ∀ r ∈ reports, r.path ≠ "") : (⟨source, input, []⟩ : RunOptions).Adds
      (reports.flatMap reportArguments) ⟨source, input, reports⟩ := by
  have asked : ∀ argument ∈ reports.flatMap reportArguments, IsOption argument ∧
      setting? "--source" argument = none ∧ setting? "--input" argument = none := by
    intro argument mem
    obtain ⟨r, hr, mem⟩ := List.mem_flatMap.mp mem
    rcases List.mem_cons.mp mem with rfl | mem
    · exact ⟨.report (h r hr), (setting?_stats r.path).1, (setting?_stats r.path).2.1⟩
    · obtain ⟨item, -, rfl⟩ := List.mem_map.mp mem
      exact ⟨.item (isItem_iff.mpr ⟨item, rfl⟩), (setting?_itemArgument item).1,
        (setting?_itemArgument item).2.1⟩
  refine ⟨fun argument mem => (asked argument mem).1, ?_, ?_, ?_⟩
  · rw [List.filterMap_eq_nil_iff.mpr fun argument mem => (asked argument mem).2.1, List.append_nil]
  · rw [List.filterMap_eq_nil_iff.mpr fun argument mem => (asked argument mem).2.2, List.append_nil]
  · refine (List.filter_eq_self.mpr fun argument mem => ?_).symm
    rw [namesFile, (asked argument mem).2.1, (asked argument mem).2.2]
    rfl

/-- What is written is read back. -/
theorem IsComplete.ofArguments_arguments (h : o.IsComplete) : ofArguments o.arguments = .ok o :=
  have paths := (adds_source h.source).append_iff.mpr (adds_input o.source h.input)
  ofArguments_eq_ok_iff.mpr
    ⟨paths.append_iff.mpr (adds_reports o.source o.input h.reports), h.given⟩

/-! ## Moved arguments -/

theorem Moves.symm (h : Moves arguments moved) : Moves moved arguments :=
  ⟨h.perm.symm, h.others.symm⟩

/-- Where files to read are named does not matter. -/
theorem Moves.accepted (h : Moves arguments moved) (accepted : ofArguments arguments = .ok o) :
    ofArguments moved = .ok o := by
  obtain ⟨⟨known, source, input, reports⟩, given⟩ := ofArguments_eq_ok_iff.mp accepted
  have others := h.others
  rw [requests_eq, requests_eq] at others
  refine ofArguments_eq_ok_iff.mpr ⟨⟨fun argument mem => known _ (h.perm.mem_iff.mp mem), ?_, ?_,
    reports.trans (congrArg _ others.symm)⟩, given⟩
  · exact (eq_toList_of_perm (source ▸ h.perm.filterMap (setting? "--source"))).symm
  · exact (eq_toList_of_perm (input ▸ h.perm.filterMap (setting? "--input"))).symm

/-- A command line is accepted exactly if it is one of those that are documented, and as the options
that it says, which are no others. Options that can be said are read back from their own arguments,
and arguments that name a source or an input may stand anywhere. -/
theorem ofArguments_exact (arguments : List String) :
    ((∃ o, ofArguments arguments = .ok o) ↔ IsCommandLine arguments) ∧
    (∀ o, ofArguments arguments = .ok o ↔ IsCommandLine arguments ∧ Means arguments o) ∧
    (∀ o, ofArguments arguments = .ok o → o.IsComplete) ∧
    (∀ o : RunOptions, o.IsComplete → ofArguments o.arguments = .ok o) ∧
    ∀ moved, Moves arguments moved →
      ∀ o, ofArguments moved = .ok o ↔ ofArguments arguments = .ok o := by
  refine ⟨⟨?_, IsCommandLine.accepted⟩, fun o => ⟨fun h => ?_, ?_⟩,
    fun o => isComplete_of_ofArguments, fun o => IsComplete.ofArguments_arguments,
    fun moved h o => ⟨h.symm.accepted, h.accepted⟩⟩
  · rintro ⟨o, h⟩
    exact isCommandLine_of_ofArguments h
  · exact ⟨isCommandLine_of_ofArguments h, means_of_ofArguments h⟩
  · rintro ⟨documented, means⟩
    obtain ⟨o', h⟩ := documented.accepted
    rwa [means.unique (means_of_ofArguments h)]

/-- An item whose text looks like another option, a report without items, and a source that is given
between two items. -/
theorem ofArguments_exact_interspersed :
    IsCommandLine ["--stats=a", "--print=--eol", "--source=s", "--vars", "--stats=b"] ∧
    Means ["--stats=a", "--print=--eol", "--source=s", "--vars", "--stats=b"]
      ⟨some "s", none, [⟨"a", [.text "--eol", .mostInitialized]⟩, ⟨"b", []⟩]⟩ ∧
    ofArguments (RunOptions.arguments
        ⟨some "s", none, [⟨"a", [.text "--eol", .mostInitialized]⟩, ⟨"b", []⟩]⟩) =
      .ok ⟨some "s", none, [⟨"a", [.text "--eol", .mostInitialized]⟩, ⟨"b", []⟩]⟩ ∧
    ofArguments ["--stats=a", "--print=--eol", "--vars", "--stats=b", "--source=s"] =
      .ok ⟨some "s", none, [⟨"a", [.text "--eol", .mostInitialized]⟩, ⟨"b", []⟩]⟩ := by
  have accepted : ofArguments ["--stats=a", "--print=--eol", "--source=s", "--vars", "--stats=b"] =
      .ok ⟨some "s", none, [⟨"a", [.text "--eol", .mostInitialized]⟩, ⟨"b", []⟩]⟩ := rfl
  obtain ⟨-, reads, complete, written, anywhere⟩ := ofArguments_exact
    ["--stats=a", "--print=--eol", "--source=s", "--vars", "--stats=b"]
  have moves : Moves ["--stats=a", "--print=--eol", "--source=s", "--vars", "--stats=b"]
      ["--stats=a", "--print=--eol", "--vars", "--stats=b", "--source=s"] :=
    ⟨by decide, by decide⟩
  obtain ⟨documented, means⟩ := (reads _).mp accepted
  exact ⟨documented, means, written _ (complete _ accepted), (anywhere _ moves _).mpr accepted⟩

end Ippcode.RunOptions
