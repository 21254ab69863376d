import Ippcode.Command.Options
import Ippcode.Proofs.Result

/-!
# Arguments of an execution

One more argument says one more thing (`Extends`), and this is all that `RunOptions.extend` takes
from it (`extend_eq_ok_iff`). The three kinds of options do not meddle with each other. So a whole
command line can be looked at three times (`Adds`) : for the paths of the source, for those of the
input, and for the arguments that ask for reports, which are those of the reports in their order
(`ofArguments_reports`).
-/

namespace Ippcode.RunOptions

attribute [ext] RunOptions

/-! ## One argument -/

theorem setting?_eq_some_iff {option argument value : String} :
    setting? option argument = some value ↔ argument = option ++ "=" ++ value := by
  unfold setting?
  rw [Option.map_eq_some_iff]
  simp only [List.isPrefixOf?_eq_some_iff_append_eq]
  constructor
  · rintro ⟨rest, whole, rfl⟩
    apply String.toList_inj.mp
    rw [String.toList_append, String.toList_ofList, whole]
  · rintro rfl
    exact ⟨value.toList, String.toList_append.symm, String.ofList_toList⟩

/-- An argument without this option in front says nothing for it. -/
theorem setting?_eq_none {option argument : String}
    (h : ¬ (option ++ "=").toList <+: argument.toList) : setting? option argument = none := by
  refine Option.eq_none_iff_forall_not_mem.mpr fun value hv => h ?_
  rw [setting?_eq_some_iff.mp hv, String.toList_append (s := option ++ "=")]
  exact List.prefix_append _ _

theorem item?_eq_some_iff {argument : String} {item : ReportItem} :
    item? argument = some item ↔ argument = itemArgument item := by
  unfold item?
  constructor
  · intro h
    split_ifs at h with e e e e e
    all_goals try
      obtain rfl := Option.some.inj h
      exact e
    obtain ⟨t, ht, rfl⟩ := Option.map_eq_some_iff.mp h
    exact setting?_eq_some_iff.mp ht
  · rintro rfl
    cases item with
    | text t =>
      have other {name : String} (h : ¬ name.toList.take 8 = "--print=".toList) :
          itemArgument (.text t) ≠ name := by
        rintro rfl
        exact h (by simp [itemArgument, String.toList_append])
      rw [if_neg (other (by decide)), if_neg (other (by decide)), if_neg (other (by decide)),
        if_neg (other (by decide)), if_neg (other (by decide))]
      exact Option.map_eq_some_iff.mpr ⟨t, setting?_eq_some_iff.mpr rfl, rfl⟩
    | _ => rfl

/-- An item belongs to the last report. -/
theorem addItem?_append (item : ReportItem) (r : ReportRequest) : ∀ front : List ReportRequest,
    addItem? item (front ++ [r]) = some (front ++ [{ r with items := r.items ++ [item] }])
  | [] => rfl
  | first :: front => by
    rw [List.cons_append, addItem?, addItem?_append item r front]
    · rfl
    · exact fun none => List.append_ne_nil_of_right_ne_nil front (List.cons_ne_nil r []) none

/-- What one more argument adds to options. -/
inductive Extends (o : RunOptions) : String → RunOptions → Prop
  | source {path : String} (named : path ≠ "") (first : o.source = none) :
      Extends o ("--source=" ++ path) { o with source := some path }
  | input {path : String} (named : path ≠ "") (first : o.input = none) :
      Extends o ("--input=" ++ path) { o with input := some path }
  | report {path : String} (named : path ≠ "") :
      Extends o ("--stats=" ++ path) { o with reports := o.reports ++ [⟨path, []⟩] }
  | item {item : ReportItem} {front : List ReportRequest} {r : ReportRequest}
      (last : o.reports = front ++ [r]) : Extends o (itemArgument item)
        { o with reports := front ++ [{ r with items := r.items ++ [item] }] }

theorem setPath_eq_ok_iff {option path : String} {old new : Option String} :
    setPath option old path = .ok new ↔ path ≠ "" ∧ old = none ∧ new = some path := by
  unfold setPath
  rw [ne_eq, ← String.isEmpty_iff]
  split_ifs with unnamed given
  · exact iff_of_false nofun fun h => h.1 unnamed
  · refine iff_of_false nofun fun h => ?_
    rw [h.2.1] at given
    cases given
  · rw [Except.ok.injEq, eq_comm]
    exact ⟨fun h => ⟨unnamed, Option.not_isSome_iff_eq_none.mp given, h⟩, fun h => h.2.2⟩

theorem setting?_source (path : String) : setting? "--source" ("--source=" ++ path) = some path ∧
    setting? "--input" ("--source=" ++ path) = none ∧
      setting? "--stats" ("--source=" ++ path) = none :=
  ⟨setting?_eq_some_iff.mpr rfl, setting?_eq_none (by simp), setting?_eq_none (by simp)⟩

theorem setting?_input (path : String) : setting? "--source" ("--input=" ++ path) = none ∧
    setting? "--input" ("--input=" ++ path) = some path ∧
      setting? "--stats" ("--input=" ++ path) = none :=
  ⟨setting?_eq_none (by simp), setting?_eq_some_iff.mpr rfl, setting?_eq_none (by simp)⟩

theorem setting?_stats (path : String) : setting? "--source" ("--stats=" ++ path) = none ∧
    setting? "--input" ("--stats=" ++ path) = none ∧
      setting? "--stats" ("--stats=" ++ path) = some path :=
  ⟨setting?_eq_none (by simp), setting?_eq_none (by simp), setting?_eq_some_iff.mpr rfl⟩

theorem setting?_itemArgument (item : ReportItem) :
    setting? "--source" (itemArgument item) = none ∧
      setting? "--input" (itemArgument item) = none ∧
        setting? "--stats" (itemArgument item) = none := by
  cases item with
  | text t =>
    exact ⟨setting?_eq_none (by simp [itemArgument]), setting?_eq_none (by simp [itemArgument]),
      setting?_eq_none (by simp [itemArgument])⟩
  | _ => decide

theorem extend_eq_ok_iff {o o' : RunOptions} {argument : String} :
    o.extend argument = .ok o' ↔ o.Extends argument o' := by
  constructor
  · intro h
    unfold extend at h
    split at h
    · rename_i path said
      obtain ⟨_, set, rfl⟩ := map_eq_ok_iff.mp h
      obtain ⟨named, first, rfl⟩ := setPath_eq_ok_iff.mp set
      rw [setting?_eq_some_iff.mp said]
      exact .source named first
    split at h
    · rename_i path said
      obtain ⟨_, set, rfl⟩ := map_eq_ok_iff.mp h
      obtain ⟨named, first, rfl⟩ := setPath_eq_ok_iff.mp set
      rw [setting?_eq_some_iff.mp said]
      exact .input named first
    split at h
    · rename_i path said
      rw [setting?_eq_some_iff.mp said]
      split at h
      · cases h
      · rename_i named
        obtain rfl := Except.ok.inj h
        exact .report (mt String.isEmpty_iff.mpr named)
    split at h
    · rename_i item said
      rw [item?_eq_some_iff.mp said]
      rcases List.eq_nil_or_concat o.reports with none | ⟨front, r, last⟩
      · rw [none] at h
        cases h
      · rw [List.concat_eq_append] at last
        rw [last, addItem?_append] at h
        obtain rfl := Except.ok.inj h
        exact .item last
    · cases h
  · intro h
    unfold extend
    cases h with
    | source named first =>
      rw [(setting?_source _).1]
      exact map_eq_ok_iff.mpr ⟨_, setPath_eq_ok_iff.mpr ⟨named, first, rfl⟩, rfl⟩
    | @input path named first =>
      obtain ⟨source, input, -⟩ := setting?_input path
      rw [source, input]
      exact map_eq_ok_iff.mpr ⟨_, setPath_eq_ok_iff.mpr ⟨named, first, rfl⟩, rfl⟩
    | @report path named =>
      obtain ⟨source, input, stats⟩ := setting?_stats path
      rw [source, input, stats]
      exact if_neg (mt String.isEmpty_iff.mp named)
    | @item item front r last =>
      obtain ⟨source, input, stats⟩ := setting?_itemArgument item
      rw [source, input, stats, item?_eq_some_iff.mpr rfl, last]
      simp only [addItem?_append]

/-! ## Reports -/

theorem itemArgument_inj {item item' : ReportItem} (same : itemArgument item = itemArgument item') :
    item = item' :=
  Option.some.inj ((item?_eq_some_iff.mpr rfl).symm.trans (item?_eq_some_iff.mpr same))

/-- No item is asked for by an argument that asks for a report. -/
theorem itemArgument_ne_report (item : ReportItem) (path : String) :
    itemArgument item ≠ "--stats=" ++ path := by
  intro same
  have none := (setting?_itemArgument item).2.2
  rw [same, (setting?_stats path).2.2] at none
  cases none

/-- The arguments of reports begin with one that asks for a report. -/
theorem exists_path_of_reportArguments {reports : List ReportRequest} {argument : String}
    {rest : List String} (h : reports.flatMap reportArguments = argument :: rest) :
    ∃ path, argument = "--stats=" ++ path := by
  cases reports with
  | nil => cases h
  | cons r reports => exact ⟨r.path, (List.cons.inj h).1.symm⟩

/-- Where the items of a report end, the next report begins. -/
theorem items_inj {reports reports' : List ReportRequest} : ∀ {items items' : List ReportItem},
    items.map itemArgument ++ reports.flatMap reportArguments =
      items'.map itemArgument ++ reports'.flatMap reportArguments →
    items = items' ∧ reports.flatMap reportArguments = reports'.flatMap reportArguments
  | [], [], h => ⟨rfl, h⟩
  | [], item :: _, h => by
    obtain ⟨path, same⟩ := exists_path_of_reportArguments h
    exact absurd same (itemArgument_ne_report item path)
  | item :: _, [], h => by
    obtain ⟨path, same⟩ := exists_path_of_reportArguments h.symm
    exact absurd same (itemArgument_ne_report item path)
  | item :: items, item' :: items', h => by
    obtain ⟨first, rest⟩ := List.cons.inj h
    obtain ⟨rfl, later⟩ := items_inj rest
    exact ⟨by rw [itemArgument_inj first], later⟩

/-- Reports are told by their arguments. -/
theorem reportArguments_inj : ∀ {reports reports' : List ReportRequest},
    reports.flatMap reportArguments = reports'.flatMap reportArguments → reports = reports'
  | [], [], _ => rfl
  | [], _ :: _, h => by cases h
  | _ :: _, [], h => by cases h
  | ⟨path, items⟩ :: reports, ⟨path', items'⟩ :: reports', h => by
    obtain ⟨first, rest⟩ := List.cons.inj h
    have samePath : path = path' := (String.append_right_inj _).mp first
    obtain ⟨sameItems, later⟩ : items = items' ∧ _ := items_inj rest
    rw [samePath, sameItems, reportArguments_inj later]

/-! ## All arguments -/

/-- An argument that says what to execute and what it reads. -/
def namesFile (argument : String) : Bool :=
  (setting? "--source" argument).isSome || (setting? "--input" argument).isSome

/-- An argument that asks for something to be reported. -/
inductive IsItem : String → Prop
  | performedCount : IsItem "--insts"
  | hottest : IsItem "--hot"
  | mostInitialized : IsItem "--vars"
  | frequent : IsItem "--frequent"
  | emptyLine : IsItem "--eol"
  | text (t : String) : IsItem ("--print=" ++ t)

theorem isItem_iff {argument : String} :
    IsItem argument ↔ ∃ item, argument = itemArgument item := by
  constructor
  · rintro ⟨⟩
    exacts [⟨.performedCount, rfl⟩, ⟨.hottest, rfl⟩, ⟨.mostInitialized, rfl⟩, ⟨.frequent, rfl⟩,
      ⟨.emptyLine, rfl⟩, ⟨.text _, rfl⟩]
  · rintro ⟨item, rfl⟩
    cases item with
    | performedCount => exact .performedCount
    | hottest => exact .hottest
    | mostInitialized => exact .mostInitialized
    | frequent => exact .frequent
    | text t => exact .text t
    | emptyLine => exact .emptyLine

/-- An argument that may stand in a command line. -/
inductive IsOption : String → Prop
  | source {path : String} (named : path ≠ "") : IsOption ("--source=" ++ path)
  | input {path : String} (named : path ≠ "") : IsOption ("--input=" ++ path)
  | report {path : String} (named : path ≠ "") : IsOption ("--stats=" ++ path)
  | item {argument : String} (h : IsItem argument) : IsOption argument

/-- What arguments say, one kind of option at a time : the paths that are given, and the arguments
that ask for reports. -/
structure Adds (o : RunOptions) (arguments : List String) (o' : RunOptions) : Prop where
  known : ∀ argument ∈ arguments, IsOption argument
  source : o'.source.toList = o.source.toList ++ arguments.filterMap (setting? "--source")
  input : o'.input.toList = o.input.toList ++ arguments.filterMap (setting? "--input")
  reports : o'.reports.flatMap reportArguments = o.reports.flatMap reportArguments
    ++ arguments.filter fun argument => !namesFile argument

variable {o o' next : RunOptions} {argument : String} {arguments : List String}

theorem Extends.adds (h : o.Extends argument next) : o.Adds [argument] next := by
  cases h with
  | @source path named first =>
    obtain ⟨own, input, -⟩ := setting?_source path
    refine ⟨List.forall_mem_singleton.mpr (.source named), ?_, ?_, ?_⟩
    · simp [own, first]
    · simp [input]
    · simp [namesFile, own]
  | @input path named first =>
    obtain ⟨source, own, -⟩ := setting?_input path
    refine ⟨List.forall_mem_singleton.mpr (.input named), ?_, ?_, ?_⟩
    · simp [source]
    · simp [own, first]
    · simp [namesFile, own]
  | @report path named =>
    obtain ⟨source, input, -⟩ := setting?_stats path
    refine ⟨List.forall_mem_singleton.mpr (.report named), ?_, ?_, ?_⟩
    · simp [source]
    · simp [input]
    · simp [namesFile, source, input, reportArguments]
  | @item item front r last =>
    obtain ⟨source, input, -⟩ := setting?_itemArgument item
    refine ⟨List.forall_mem_singleton.mpr (.item (isItem_iff.mpr ⟨item, rfl⟩)), ?_, ?_, ?_⟩
    · simp [source]
    · simp [input]
    · simp [namesFile, source, input, last, reportArguments]

/-- A path, if there is one, is told by the list of it. -/
theorem eq_of_toList {old new : Option String} (h : new.toList = old.toList) : new = old := by
  rw [← Option.head?_toList (o := new), h, Option.head?_toList]

theorem adds_nil_iff : o.Adds [] o' ↔ o' = o := by
  constructor
  · rintro ⟨-, source, input, reports⟩
    rw [List.filterMap_nil, List.append_nil] at source input
    rw [List.filter_nil, List.append_nil] at reports
    exact RunOptions.ext (eq_of_toList source) (eq_of_toList input) (reportArguments_inj reports)
  · rintro rfl
    exact ⟨nofun, (List.append_nil _).symm, (List.append_nil _).symm, (List.append_nil _).symm⟩

/-- What the first arguments say is there already when the others are read. -/
theorem Adds.append_iff {first rest : List String} (h : o.Adds first next) :
    o.Adds (first ++ rest) o' ↔ next.Adds rest o' := by
  constructor
  · rintro ⟨known, source, input, reports⟩
    rw [List.filterMap_append, ← List.append_assoc, ← h.source] at source
    rw [List.filterMap_append, ← List.append_assoc, ← h.input] at input
    rw [List.filter_append, ← List.append_assoc, ← h.reports] at reports
    exact ⟨(List.forall_mem_append.mp known).2, source, input, reports⟩
  · rintro ⟨known, source, input, reports⟩
    rw [h.source, List.append_assoc, ← List.filterMap_append] at source
    rw [h.input, List.append_assoc, ← List.filterMap_append] at input
    rw [h.reports, List.append_assoc, ← List.filter_append] at reports
    exact ⟨List.forall_mem_append.mpr ⟨h.known, known⟩, source, input, reports⟩

/-- A path that is followed by another one was not given before. -/
theorem eq_none_of_toList {old new : Option String} {path : String} {paths : List String}
    (h : new.toList = old.toList ++ path :: paths) : old = none := by
  cases old with
  | none => rfl
  | some old =>
    have length := congrArg List.length h
    have short : new.toList.length ≤ 1 := by cases new <;> simp
    simp at length
    omega

theorem Adds.exists_extends (h : o.Adds (argument :: arguments) o') :
    ∃ next, o.Extends argument next := by
  obtain ⟨known, source, input, reports⟩ := h
  cases (List.forall_mem_cons.mp known).1 with
  | @source path named =>
    rw [List.filterMap_cons_some (setting?_source path).1] at source
    exact ⟨_, .source named (eq_none_of_toList source)⟩
  | @input path named =>
    rw [List.filterMap_cons_some (setting?_input path).2.1] at input
    exact ⟨_, .input named (eq_none_of_toList input)⟩
  | report named => exact ⟨_, .report named⟩
  | item isItem =>
    obtain ⟨item, rfl⟩ := isItem_iff.mp isItem
    rcases List.eq_nil_or_concat' o.reports with none | ⟨front, r, last⟩
    · obtain ⟨sourceless, inputless, -⟩ := setting?_itemArgument item
      rw [none, List.filter_cons_of_pos (by simp [namesFile, sourceless, inputless])] at reports
      obtain ⟨path, same⟩ := exists_path_of_reportArguments reports
      exact absurd same (itemArgument_ne_report item path)
    · exact ⟨_, .item last⟩

theorem foldlM_extend_eq_ok_iff : ∀ {arguments : List String} {o : RunOptions},
    arguments.foldlM extend o = .ok o' ↔ o.Adds arguments o'
  | [], o => by
    rw [adds_nil_iff, eq_comm]
    exact ⟨fun h => (Except.ok.inj h.symm).symm, fun h => h ▸ rfl⟩
  | argument :: arguments, o => by
    rw [List.foldlM_cons, bind_eq_ok_iff]
    constructor
    · rintro ⟨next, first, rest⟩
      exact (extend_eq_ok_iff.mp first).adds.append_iff.mpr (foldlM_extend_eq_ok_iff.mp rest)
    · intro h
      obtain ⟨next, first⟩ := h.exists_extends
      exact ⟨next, extend_eq_ok_iff.mpr first,
        foldlM_extend_eq_ok_iff.mpr (first.adds.append_iff.mp h)⟩

/-- Arguments are accepted if they say all of the options, and a source or an input is among
them. -/
theorem ofArguments_eq_ok_iff :
    ofArguments arguments = .ok o ↔
      empty.Adds arguments o ∧ ¬ (o.source = none ∧ o.input = none) := by
  unfold ofArguments
  rw [bind_eq_ok_iff]
  constructor
  · rintro ⟨_, folded, rest⟩
    split at rest
    · cases rest
    · next given =>
      obtain rfl := Except.ok.inj rest
      exact ⟨foldlM_extend_eq_ok_iff.mp folded, by simpa using given⟩
  · rintro ⟨adds, given⟩
    refine ⟨o, foldlM_extend_eq_ok_iff.mpr adds, ?_⟩
    rw [if_neg (by simpa using given)]
    rfl

/-- The arguments that ask for reports are those of the reports, in this order. -/
theorem ofArguments_reports (h : ofArguments arguments = .ok o) :
    o.reports.flatMap reportArguments = arguments.filter fun argument => !namesFile argument :=
  (ofArguments_eq_ok_iff.mp h).1.reports

end Ippcode.RunOptions
