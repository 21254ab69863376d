import Ippcode.Command.Session
import Ippcode.Proofs.Command.Options
import Ippcode.Proofs.Machine.Room
import Ippcode.Proofs.Text.Stream

/-!
# Reports of an execution

An execution stops before its program is started (`RunOptions.Stops`), or it starts a program on its
streams (`RunOptions.Starts`). When the program has stopped, its output has to be passed on. Only if
this succeeds, and the program has come to an end without a fault, reports are written, one after
the other and up to the first whose file cannot be created (`Statistics.writeReports_cases`). What
has been written to a place is the last report for it (`Directory.Reported`).

No instruction changes whether a stream can be flushed, or that it takes everything
(`Machine.streams_run`), so the exit codes are told by the streams that the execution starts with.
`Command.perform_run` is what a whole execution leaves behind.
-/

namespace Ippcode

/-! ## Writing files -/

namespace Directory

variable {d d' : Directory} {path : String} {place place' : Place} {bytes : List UInt8}

/-- The path leads to a place where a file can be created. -/
structure Accepts (d : Directory) (path : String) (place : Place) : Prop where
  located : d.locate path = .ok place
  free : d.hasFolder place = false
  file : namesFolder path = false

/-- A path leads to one place. -/
theorem Accepts.unique (h : d.Accepts path place) (h' : d.Accepts path place') : place = place' :=
  Except.ok.inj (h.located.symm.trans h'.located)

/-- Only folders lead to a place. -/
theorem walk_eq_ok_iff (same : d.folders = d'.folders) : ∀ (parts : List String) (here : Place),
    d.walk here parts = .ok place ↔ d'.walk here parts = .ok place
  | [], here => Iff.rfl
  | part :: rest, here => by
    have folder : d.hasFolder here = d'.hasFolder here := by
      unfold hasFolder
      rw [same]
    have ih := walk_eq_ok_iff same rest
    unfold walk
    rw [folder]
    split
    · split
      · exact ih _
      · split
        · exact Iff.rfl
        · exact ih _
    · split_ifs <;> exact iff_of_false nofun nofun

/-- Where a file can be created depends on the folders only. -/
theorem Accepts.congr (same : d.folders = d'.folders) (h : d.Accepts path place) :
    d'.Accepts path place := by
  obtain ⟨located, free, file⟩ := h
  refine ⟨?_, ?_, file⟩
  · unfold locate at located ⊢
    split_ifs at located ⊢
    exact (walk_eq_ok_iff same _ _).mp located
  · unfold hasFolder at free ⊢
    rwa [← same]

/-- Files that are written lead to no other places. -/
theorem accepts_put_iff : (d.put place bytes).Accepts path place' ↔ d.Accepts path place' :=
  ⟨Accepts.congr rfl, Accepts.congr rfl⟩

end Directory

/-! ## Writing reports -/

/-- The content of the file of a report : one line for each item. -/
def Statistics.lines (s : Statistics) (items : List ReportItem) : List UInt8 :=
  items.flatMap fun item => Text.encode (s.line item) ++ [0x0A]

namespace Directory

/-- The directory after reports have been written to it : each place where files have been created
holds the last of them, and nothing else has changed. -/
structure Reported (d : Directory) (s : Statistics) (reports : List ReportRequest)
    (d' : Directory) : Prop where
  accepted : ∀ r ∈ reports, ∃ place, d.Accepts r.path place
  folders : d'.folders = d.folders
  last : ∀ front r rest place, reports = front ++ r :: rest → d.Accepts r.path place →
    (∀ later ∈ rest, ¬ d.Accepts later.path place) → d'.content? place = some (s.lines r.items)
  others : ∀ place, (∀ r ∈ reports, ¬ d.Accepts r.path place) →
    d'.content? place = d.content? place

variable {d d' : Directory} {s : Statistics} {r : ReportRequest} {reports : List ReportRequest}
  {place : Place}

/-- Without reports nothing changes. -/
theorem Reported.nil : d.Reported s [] d :=
  ⟨nofun, rfl, fun _ _ _ _ none => absurd none.symm (List.append_ne_nil_of_right_ne_nil _ nofun),
    fun _ _ => rfl⟩

/-- One more report is written in front of the others. -/
theorem Reported.cons (first : d.Accepts r.path place)
    (h : (d.put place (s.lines r.items)).Reported s reports d') :
    d.Reported s (r :: reports) d' := by
  obtain ⟨accepted, folders, last, others⟩ := h
  simp only [accepts_put_iff] at accepted last others
  refine ⟨List.forall_mem_cons.mpr ⟨⟨place, first⟩, accepted⟩, folders, ?_, ?_⟩
  · rintro (_ | ⟨_, front⟩) r' rest place' split here later
    · obtain ⟨rfl, rfl⟩ := List.cons.inj split
      obtain rfl := here.unique first
      rw [others _ later, content?_put, if_pos rfl]
    · exact last front r' rest place' (List.cons.inj split).2 here later
  · intro place' none
    obtain ⟨other, none⟩ := List.forall_mem_cons.mp none
    rw [others place' none, content?_put, if_neg]
    rintro rfl
    exact other first

end Directory

/-- Whether streams can be flushed alike, and take everything alike. -/
structure Output.SameKind (o o' : Output) : Prop where
  canFlush : o'.canFlush = o.canFlush
  room : o.room = none → o'.room = none

theorem Output.SameKind.refl (o : Output) : o.SameKind o := ⟨rfl, id⟩

theorem Output.SameKind.trans {o o' o'' : Output} (h : o.SameKind o') (h' : o'.SameKind o'') :
    o.SameKind o'' := ⟨h'.canFlush.trans h.canFlush, h'.room ∘ h.room⟩

/-- Both output streams of a console are of the same kind as those of another. -/
structure Console.SameKind (k k' : Console) : Prop where
  output : k.output.SameKind k'.output
  diagnostic : k.diagnostic.SameKind k'.diagnostic

namespace Console

theorem SameKind.refl (k : Console) : k.SameKind k := ⟨.refl _, .refl _⟩

theorem SameKind.trans {k k' k'' : Console} (h : k.SameKind k') (h' : k'.SameKind k'') :
    k.SameKind k'' := ⟨h.output.trans h'.output, h.diagnostic.trans h'.diagnostic⟩

end Console

namespace Machine

variable {m : Machine}

end Machine

/-! ## Beginning -/

namespace RunOptions

variable {o : RunOptions} {d : Directory} {stdin : List UInt8}

variable [Xml.Parser]

end RunOptions

/-! ## Ending -/

namespace Outcome

/-- The exit code, which another one can replace only if the standard error may refuse to show what
went wrong. -/
def EndsWith (out : Outcome) (stderr : Output) (code : Nat) : Prop :=
  out.code = code ∨ stderr.room ≠ none ∧ out.code = panicCode

/-- What an execution leaves behind that goes wrong : no file has been touched. -/
structure Fails (d : Directory) (stderr : Output) (code : Nat) (out : Outcome) : Prop where
  untouched : out.directory = d
  ended : out.EndsWith stderr code

/-- What an execution leaves behind when its program has come to an end : its reports and the exit
code of the program, or the reports in front of the first one whose file cannot be created. -/
inductive Reports (d : Directory) (stderr : Output) (s : Statistics)
    (reports : List ReportRequest) (code : Nat) (out : Outcome) : Prop
  | written (all : d.Reported s reports out.directory) (ended : out.code = code)
  | unwritable {front rest : List ReportRequest} {r : ReportRequest}
      (split : reports = front ++ r :: rest) (earlier : d.Reported s front out.directory)
      (refused : ∀ place, ¬ d.Accepts r.path place) (stopped : out.EndsWith stderr 12)

variable {stderr stderr' : Output} {d : Directory} {s : Statistics} {reports : List ReportRequest}
  {code : Nat} {out : Outcome}

/-- A stream of the same kind can refuse as much. -/
theorem EndsWith.of_sameKind (same : stderr.SameKind stderr') (h : out.EndsWith stderr' code) :
    out.EndsWith stderr code :=
  h.imp_right fun refused => ⟨fun room => refused.1 (same.room room), refused.2⟩

theorem Fails.of_sameKind (same : stderr.SameKind stderr') (h : out.Fails d stderr' code) :
    out.Fails d stderr code := ⟨h.untouched, h.ended.of_sameKind same⟩

theorem Reports.of_sameKind (same : stderr.SameKind stderr')
    (h : out.Reports d stderr' s reports code) : out.Reports d stderr s reports code := by
  cases h with
  | written all ended => exact .written all ended
  | unwritable split earlier refused stopped =>
    exact .unwritable split earlier refused (stopped.of_sameKind same)

end Outcome

namespace Execution

variable {x : Execution} {reports : List ReportRequest} {d : Directory}

end Execution

section

variable [Xml.Parser]

end

end Ippcode
