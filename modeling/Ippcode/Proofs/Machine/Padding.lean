import Ippcode.Proofs.Machine.Relocation
import Ippcode.Proofs.Machine.Trace

/-!
# Programs with breakpoints put in

A padded program (`Program.extended`) is a program with additional breakpoints anywhere between its
instructions. Each of its positions has an origin in the program itself (`Program.original`) : how
many of the program's own instructions stand before it. Padding is invisible to the program, as long
as the diagnostic stream refuses nothing : both programs are accepted or refused with the same fault
(`create_padded`), and while they run, the two machines correspond (`Machine.Padded`). A step of an
own instruction is matched by the same step of the program itself (`Padded.step_own`), and a step of
an additional breakpoint does not count (`Padded.step_added`). There are only finitely many of these
before the next own step (`Padded.induct`), so each run of the program is matched as well
(`breakpoints_invisible`).
-/

namespace Ippcode

/-! ## Padding -/

/-- An entry of a padded program. -/
inductive Entry where
  /-- An instruction of the program itself. -/
  | own (i : Instruction)
  /-- An additional breakpoint with this order. -/
  | added (order : Nat)

namespace Entry

/-- The instruction of an entry. -/
def instruction : Entry → Instruction
  | own i => i
  | added order => ⟨order, .breakpoint, []⟩

/-- The instruction of an entry of the program itself. -/
def own? : Entry → Option Instruction
  | own i => some i
  | added _ => none

end Entry

namespace Program

/-- The program itself. -/
def original (entries : List Entry) : Program := ⟨entries.filterMap Entry.own?⟩

/-- The program with its additional breakpoints. -/
def extended (entries : List Entry) : Program := ⟨entries.map Entry.instruction⟩

/-- How many of the program's own instructions stand before a position of the padded program. -/
def origin (entries : List Entry) (position : Nat) : Nat :=
  ((entries.take position).filterMap Entry.own?).length

variable {entries : List Entry} {k : Nat}

theorem getElem?_extended :
    (extended entries).instructions[k]? = entries[k]?.map Entry.instruction := List.getElem?_map

/-- The origin of a position behind an additional breakpoint is that of the breakpoint. -/
theorem origin_of_added {order : Nat} (h : entries[k]? = some (.added order)) :
    origin entries (k + 1) = origin entries k := by
  simp [origin, List.take_add_one, h, Entry.own?]

theorem origin_of_own {i : Instruction} (h : entries[k]? = some (.own i)) :
    origin entries (k + 1) = origin entries k + 1 := by
  simp [origin, List.take_add_one, h, Entry.own?]

/-- What stands in the program at an origin is the next own instruction. -/
theorem getElem?_origin :
    (original entries).instructions[origin entries k]? =
      ((entries.drop k).filterMap Entry.own?).head? := by
  have parts : (original entries).instructions =
      (entries.take k).filterMap Entry.own? ++ (entries.drop k).filterMap Entry.own? := by
    rw [← List.filterMap_append, List.take_append_drop]
    rfl
  rw [parts, origin, List.getElem?_append_right le_rfl, Nat.sub_self, List.head?_eq_getElem?]

theorem getElem?_origin_of_own {i : Instruction} (h : entries[k]? = some (.own i)) :
    (original entries).instructions[origin entries k]? = some i := by
  obtain ⟨inside, same⟩ := List.getElem?_eq_some_iff.mp h
  rw [getElem?_origin, List.drop_eq_getElem_cons inside, same]
  rfl

theorem getElem?_origin_of_end (h : entries[k]? = none) :
    (original entries).instructions[origin entries k]? = none := by
  rw [getElem?_origin, List.drop_eq_nil_of_le (List.getElem?_eq_none_iff.mp h)]
  rfl

end Program

open Program

/-! ## The start -/

variable {entries : List Entry} {e : Environment} {f : Nat → Nat}

namespace Environment

theorem registerLabel_relocate (name : String) (here : Nat) :
    (e.relocate f).registerLabel name (f here) =
      (e.registerLabel name here).map (Environment.relocate f) := by
  unfold registerLabel
  simp only [relocate, lookup_relocate]
  cases e.labels.lookup name <;> rfl

theorem enter_relocate (here : Nat) (i : Instruction) :
    (e.relocate f).enter (f here) i = (e.enter here i).map (Environment.relocate f) := by
  unfold enter
  cases i.misfit? with
  | some misfit => rfl
  | none =>
    cases i.definedLabel? with
    | none => rfl
    | some name => exact registerLabel_relocate name here

/-- Entering the rest of a program gives the same, padded or not, apart from positions. -/
theorem enterAll_padded : ∀ (passed rest : List Entry) (e : Environment), entries = passed ++ rest →
    (e.relocate (origin entries)).enterAll (origin entries passed.length)
        (original rest).instructions =
      (e.enterAll passed.length (extended rest).instructions).map (relocate (origin entries))
  | _, [], _, _ => rfl
  | passed, entry :: rest, e, split => by
    have here : entries[passed.length]? = some entry := by simp [split]
    have next (e : Environment) := enterAll_padded (passed ++ [entry]) rest e
      (by rw [split, List.append_assoc, List.singleton_append])
    rw [List.length_append, List.length_singleton] at next
    cases entry with
    | added order =>
      -- a breakpoint fits its opcode and defines no label
      rw [origin_of_added here] at next
      exact next e
    | own i =>
      rw [origin_of_own here] at next
      change (e.relocate _).enterAll _ (i :: (original rest).instructions) =
        (e.enterAll _ (i :: (extended rest).instructions)).map _
      unfold enterAll
      rw [enter_relocate]
      cases e.enter passed.length i with
      | error error => rfl
      | ok entered => exact next entered

end Environment

namespace Machine

/-! ## Corresponding machines -/

/-- The second machine executes the padded program and stands where the first one stands in the
program itself. -/
structure Padded (entries : List Entry) (m m' : Machine) : Prop where
  instructions : m.instructions = (original entries).instructions.toArray
  instructions' : m'.instructions = (extended entries).instructions.toArray
  position : m.position = origin entries m'.position
  ending : m.ending = m'.ending
  context : m.context.Alike (origin entries) m'.context

/-- Whether the next step of a machine is that of an additional breakpoint. -/
def pauses (m : Machine) (entries : List Entry) : Bool :=
  m.ending.isNone && (entries[m.position]?).any fun entry => entry.own?.isNone

/-- The steps of two machines are the same, apart from positions. -/
structure SameTurn (entries : List Entry) (t t' : Turn) : Prop where
  result : t.result = t'.result
  events : t.events = t'.events.map (Event.relocate (origin entries))
  machine : Padded entries t.machine t'.machine

variable {console : Console} {m m' : Machine}

/-- A program and the padded program are accepted both or refused with the same fault. -/
theorem create_padded (entries : List Entry)
    (refusesNothing : console.diagnostic.room = none) :
    (∃ fault, create (original entries) console = .error fault ∧
      create (extended entries) console = .error fault) ∨
    ∃ m m', create (original entries) console = .ok m ∧ create (extended entries) console = .ok m' ∧
      Padded entries m m' := by
  have entered : Environment.empty.enterAll 0 (original entries).instructions = _ :=
    Environment.enterAll_padded [] entries .empty rfl
  unfold create
  rw [entered]
  cases Environment.empty.enterAll 0 (extended entries).instructions with
  | error fault => exact .inl ⟨fault, rfl, rfl⟩
  | ok e =>
    exact .inr ⟨_, _, rfl, rfl, rfl, rfl, rfl, rfl, rfl, rfl, rfl, refusesNothing, refusesNothing⟩

/-- What an additional breakpoint does. -/
theorem perform_breakpoint (order here : Nat) {c : Context}
    (refusesNothing : c.console.diagnostic.room = none) :
    ∃ diagnostic : Output, diagnostic.room = none ∧
      (Instruction.perform here ⟨order, .breakpoint, []⟩).on c =
        (.ok .next, c.withConsole { c.console with diagnostic := diagnostic }) := by
  have written := Output.write_of_room refusesNothing
    (Text.encode (c.environment.dump order here))
  refine ⟨_, written.2, ?_⟩
  rw [Instruction.perform, Instruction.on_goOn, Action.on_bind, Action.on_get]
  simp only [Action.on_report, written.1]
  rfl

namespace Padded

/-- An additional breakpoint comes next. -/
theorem next_of_pauses (h : Padded entries m m') (pauses : m'.pauses entries = true) :
    m'.ending = none ∧ ∃ order, entries[m'.position]? = some (.added order) ∧
      m'.instructions[m'.position]? = some ⟨order, .breakpoint, []⟩ := by
  unfold Machine.pauses at pauses
  rw [Bool.and_eq_true, Option.isNone_iff_eq_none] at pauses
  obtain ⟨running, additional⟩ := pauses
  refine ⟨running, ?_⟩
  rw [h.instructions', List.getElem?_toArray, getElem?_extended]
  generalize entries[m'.position]? = entry at additional ⊢
  rcases entry with _ | ⟨i | order⟩
  · cases additional
  · cases additional
  · exact ⟨order, rfl, rfl⟩

/-- The step of an additional breakpoint changes nothing but the position and what has been
shown. -/
theorem step_added (h : Padded entries m m') (pauses : m'.pauses entries = true) :
    m'.step.result = .ok .running ∧ Padded entries m m'.step.machine ∧
      m'.step.machine.position = m'.position + 1 ∧ m'.position < entries.length ∧
      ∃ order, m'.step.events = [.fetched ⟨order, .breakpoint, []⟩ m'.context.environment] := by
  obtain ⟨running, order, there, next⟩ := h.next_of_pauses pauses
  obtain ⟨diagnostic, room, performed⟩ :=
    perform_breakpoint order m'.position h.context.diagnostic.2
  rw [step_of_instruction running next, performed]
  refine ⟨rfl, ⟨h.instructions, h.instructions', ?_, h.ending, ?_⟩, rfl,
    (List.getElem?_eq_some_iff.mp there).1, order, rfl⟩
  · exact h.position.trans (origin_of_added there).symm
  · exact ⟨h.context.environment, h.context.input, h.context.output, h.context.diagnostic.1, room⟩

/-- Control goes on in the same way behind two actions that have done alike. -/
theorem follow (h : Padded entries m m') {c c' : Context}
    (context : c.Alike (origin entries) c')
    (behind : origin entries (m'.position + 1) = m.position + 1) (i : Instruction)
    {events : List Event} (flow : Flow) :
    SameTurn entries
      ({ m with context := c }.follow i (events.map (Event.relocate (origin entries)))
        (flow.relocate (origin entries)))
      ({ m' with context := c' }.follow i events flow) := by
  have moved {position position' : Nat} (same : position = origin entries position') :
      Padded entries { m with context := c, position := position }
        { m' with context := c', position := position' } :=
    ⟨h.instructions, h.instructions', same, h.ending, context⟩
  cases flow with
  | next => exact ⟨rfl, rfl, moved behind.symm⟩
  | transfer label target =>
    refine ⟨rfl, ?_, moved rfl⟩
    simp [Machine.follow, Flow.relocate, Event.relocate]
  | resume target => exact ⟨rfl, rfl, moved rfl⟩
  | halt code =>
    refine ⟨rfl, ?_, h.instructions, h.instructions', h.position, rfl, context⟩
    simp [Machine.follow, finish, Flow.relocate, Event.relocate, context.environment]

/-- Behind its last entry the padded program completes, and so does the program itself. -/
theorem step_completed (h : Padded entries m m') (running : m'.ending = none)
    (behind : entries[m'.position]? = none) : SameTurn entries m.step m'.step := by
  have next : m.instructions[m.position]? = none := by
    rw [h.instructions, h.position, List.getElem?_toArray, getElem?_origin_of_end behind]
  have next' : m'.instructions[m'.position]? = none := by
    rw [h.instructions', List.getElem?_toArray, getElem?_extended, behind, Option.map_none]
  rw [step_of_end (h.ending.trans running) next, step_of_end running next']
  refine ⟨rfl, ?_, h.instructions, h.instructions', h.position, rfl, h.context⟩
  simp [finish, Event.relocate, h.context.environment]

/-- An own instruction does the same in both programs. -/
theorem step_instruction (h : Padded entries m m') (running : m'.ending = none) {i : Instruction}
    (there : entries[m'.position]? = some (.own i)) : SameTurn entries m.step m'.step := by
  have next : m.instructions[m.position]? = some i := by
    rw [h.instructions, h.position, List.getElem?_toArray, getElem?_origin_of_own there]
  have next' : m'.instructions[m'.position]? = some i := by
    rw [h.instructions', List.getElem?_toArray, getElem?_extended, there]
    rfl
  have behind : origin entries (m'.position + 1) = m.position + 1 := by
    rw [origin_of_own there, h.position]
  have fetched : [Event.fetched i m.context.environment] =
      [Event.fetched i m'.context.environment].map (Event.relocate (origin entries)) := by
    rw [h.context.environment]
    rfl
  obtain ⟨result, left⟩ := i.perform_alike behind _ _ h.context
  rw [step_of_instruction (h.ending.trans running) next, step_of_instruction running next', fetched]
  generalize (i.perform m.position).on m.context = r at result left ⊢
  generalize (i.perform m'.position).on m'.context = r' at result left ⊢
  obtain ⟨r, c⟩ := r
  obtain ⟨error | flow, c'⟩ := r'
  · obtain rfl : r = .error error := result
    exact ⟨rfl, rfl, h.instructions, h.instructions', h.position, h.ending, left⟩
  · obtain rfl : r = .ok (flow.relocate (origin entries)) := result
    exact h.follow left behind i flow

/-- Any step but that of an additional breakpoint is matched by the same step of the program
itself. -/
theorem step_own (h : Padded entries m m') (own : m'.pauses entries = false) :
    SameTurn entries m.step m'.step := by
  cases running : m'.ending with
  | some ending =>
    rw [step_of_ending running, step_of_ending (h.ending.trans running)]
    exact ⟨rfl, rfl, h⟩
  | none =>
    unfold pauses at own
    rw [running, Option.isNone_none, Bool.true_and] at own
    cases there : entries[m'.position]? with
    | none => exact h.step_completed running there
    | some entry =>
      cases entry with
      | own i => exact h.step_instruction running there
      | added order =>
        rw [there] at own
        cases own

/-! ## Runs -/

/-- What is true where an own step comes next, and before an additional breakpoint if it is behind
it, is true. -/
theorem induct {motive : Machine → Prop}
    (added : ∀ m', Padded entries m m' → m'.pauses entries = true → motive m'.step.machine →
      motive m')
    (own : ∀ m', Padded entries m m' → m'.pauses entries = false → motive m')
    (h : Padded entries m m') : motive m' := by
  -- the next own step comes at the end of the program at the latest
  induction left : entries.length - m'.position using Nat.strongRecOn generalizing m' with
  | ind left ih =>
    cases pauses : m'.pauses entries with
    | false => exact own m' h pauses
    | true =>
      obtain ⟨-, next, further, inside, -⟩ := h.step_added pauses
      exact added m' h pauses (ih _ (by omega) next rfl)

theorem supply (h : Padded entries m m') (bytes : List UInt8) :
    Padded entries (m.supply bytes) (m'.supply bytes) := by
  have input := h.context.input
  unfold Machine.supply
  cases same : m'.context.console.input with
  | lines rest =>
    simp only [input, same]
    exact h
  | stream rest =>
    simp only [input, same]
    exact ⟨h.instructions, h.instructions', h.position, h.ending, h.context.environment, rfl,
      h.context.output, h.context.diagnostic⟩

theorem drain (h : Padded entries m m') : Padded entries m.drain m'.drain :=
  ⟨h.instructions, h.instructions', h.position, h.ending, h.context.environment, h.context.input,
    congrArg (fun output : Output => { output with latest := [] }) h.context.output,
    h.context.diagnostic⟩

end Padded

/-- The moves without the steps of additional breakpoints. -/
def ownMoves (entries : List Entry) : Machine → List Move → List Move
  | _, [] => []
  | m, .step :: moves =>
    if m.pauses entries then ownMoves entries m.step.machine moves
    else .step :: ownMoves entries m.step.machine moves
  | m, .supply bytes :: moves => .supply bytes :: ownMoves entries (m.supply bytes) moves
  | m, .drain :: moves => .drain :: ownMoves entries m.drain moves

/-- The steps among moves, without those of additional breakpoints. -/
def ownTurns (entries : List Entry) (m : Machine) (moves : List Move) : List Turn :=
  ((m.stepsIn moves).filter fun n => !n.pauses entries).map step

theorem Padded.after : ∀ (moves : List Move) {m m' : Machine}, Padded entries m m' →
    Padded entries (m.after (m'.ownMoves entries moves)) (m'.after moves) ∧
      List.Forall₂ (SameTurn entries) (m.turnsIn (m'.ownMoves entries moves))
        (m'.ownTurns entries moves)
  | [], _, _, h => ⟨h, .nil⟩
  | .step :: moves, m, m', h => by
    unfold ownMoves ownTurns stepsIn
    cases pauses : m'.pauses entries with
    | true =>
      rw [if_pos rfl, List.filter_cons_of_neg (by simp [pauses])]
      exact Padded.after moves (h.step_added pauses).2.1
    | false =>
      rw [if_neg Bool.false_ne_true, List.filter_cons_of_pos (by simp [pauses]), List.map_cons]
      have same := h.step_own pauses
      obtain ⟨machines, turns⟩ := Padded.after moves same.machine
      exact ⟨machines, .cons same turns⟩
  | .supply bytes :: moves, _, _, h => Padded.after moves (h.supply bytes)
  | .drain :: moves, _, _, h => Padded.after moves h.drain

/-- All along, the padded program stands somewhere in the program itself. -/
theorem Padded.of_mem_stepsIn : ∀ (moves : List Move) {m m' n : Machine}, Padded entries m m' →
    n ∈ m'.stepsIn moves → ∃ k, Padded entries k n
  | [], _, _, _, _, hn => absurd hn List.not_mem_nil
  | .step :: moves, m, m', n, h, hn => by
    rcases List.mem_cons.mp hn with rfl | hn
    · exact ⟨m, h⟩
    · have next := (Padded.after [.step] h).1
      exact Padded.of_mem_stepsIn moves next hn
  | .supply bytes :: moves, _, _, _, h, hn => Padded.of_mem_stepsIn moves (h.supply bytes) hn
  | .drain :: moves, _, _, _, h, hn => Padded.of_mem_stepsIn moves h.drain hn

/-- Whatever happens to a program can happen to the padded program, with additional breakpoints in
between. -/
theorem Padded.exists_moves : ∀ (moves : List Move) {m m' : Machine}, Padded entries m m' →
    ∃ moves', m'.ownMoves entries moves' = moves
  | [], _, _, _ => ⟨[], rfl⟩
  | .step :: moves, m, m', h => by
    refine h.induct (motive := fun m' => ∃ moves', m'.ownMoves entries moves' = .step :: moves)
      (fun m' _ pauses later => ?_) (fun m' h own => ?_)
    · obtain ⟨moves', same⟩ := later
      exact ⟨.step :: moves', by rw [ownMoves, if_pos pauses, same]⟩
    · obtain ⟨moves', same⟩ := Padded.exists_moves moves (h.step_own own).machine
      exact ⟨.step :: moves', by rw [ownMoves, own, if_neg Bool.false_ne_true, same]⟩
  | .supply bytes :: moves, _, _, h => by
    obtain ⟨moves', same⟩ := Padded.exists_moves moves (h.supply bytes)
    exact ⟨.supply bytes :: moves', by rw [ownMoves, same]⟩
  | .drain :: moves, _, _, h => by
    obtain ⟨moves', same⟩ := Padded.exists_moves moves h.drain
    exact ⟨.drain :: moves', by rw [ownMoves, same]⟩

/-! ### The end of a run -/

/-- A run ends in this way and leaves this machine behind. -/
def Ends (m : Machine) (outcome : Except Fault Termination) (n : Machine) : Prop :=
  ∃ limit, m.run (fun _ _ => ()) limit () = ⟨n, (), some outcome⟩

variable {n n' : Machine} {outcome : Except Fault Termination}

theorem ends_step (h : m.step.outcome? = some outcome) : m.Ends outcome m.step.machine :=
  ⟨1, by simp [run, h]⟩

theorem Ends.of_step (running : m.step.outcome? = none) (h : m.step.machine.Ends outcome n) :
    m.Ends outcome n := by
  obtain ⟨limit, ends⟩ := h
  refine ⟨limit + 1, ?_⟩
  simp only [run, running]
  exact ends

theorem SameTurn.outcome? {t t' : Turn} (h : SameTurn entries t t') : t.outcome? = t'.outcome? := by
  rw [Turn.outcome?, Turn.outcome?, h.result]

/-- The step of an additional breakpoint does not end a run. -/
theorem Padded.outcome?_of_pauses (h : Padded entries m m') (pauses : m'.pauses entries = true) :
    m'.step.outcome? = none := by
  rw [Turn.outcome?, (h.step_added pauses).1]

/-- A run of the padded program ends if the run of the program itself does. -/
theorem Padded.ends : ∀ {limit : Nat} {m m' n : Machine}, Padded entries m m' →
    m.run (fun _ _ => ()) limit () = ⟨n, (), some outcome⟩ →
      ∃ n', m'.Ends outcome n' ∧ Padded entries n n'
  | 0, _, _, _, _, ended => nomatch congrArg Run.outcome ended
  | limit + 1, m, m', n, h, ended => by
    refine h.induct (motive := fun m' => ∃ n', m'.Ends outcome n' ∧ Padded entries n n')
      (fun m' h pauses later => ?_) (fun m' h own => ?_)
    · obtain ⟨n', ends, same⟩ := later
      exact ⟨n', ends.of_step (h.outcome?_of_pauses pauses), same⟩
    · have same := h.step_own own
      unfold run at ended
      cases now : m.step.outcome? with
      | none =>
        simp only [now] at ended
        obtain ⟨n', ends, machines⟩ := Padded.ends same.machine ended
        exact ⟨n', ends.of_step (same.outcome?.symm.trans now), machines⟩
      | some outcome' =>
        simp only [now] at ended
        cases ended
        exact ⟨_, ends_step (same.outcome?.symm.trans now), same.machine⟩

/-- A run of the program itself ends if the run of the padded program does. -/
theorem Padded.ends_original : ∀ {limit : Nat} {m m' n' : Machine}, Padded entries m m' →
    m'.run (fun _ _ => ()) limit () = ⟨n', (), some outcome⟩ →
      ∃ n, m.Ends outcome n ∧ Padded entries n n'
  | 0, _, _, _, _, ended => nomatch congrArg Run.outcome ended
  | limit + 1, m, m', n', h, ended => by
    unfold run at ended
    cases pauses : m'.pauses entries with
    | true =>
      simp only [h.outcome?_of_pauses pauses] at ended
      exact Padded.ends_original (h.step_added pauses).2.1 ended
    | false =>
      have same := h.step_own pauses
      cases now : m'.step.outcome? with
      | none =>
        simp only [now] at ended
        obtain ⟨n, ends, machines⟩ := Padded.ends_original same.machine ended
        exact ⟨n, ends.of_step (same.outcome?.trans now), machines⟩
      | some outcome' =>
        simp only [now] at ended
        cases ended
        exact ⟨_, ends_step (same.outcome?.trans now), same.machine⟩

/-! ### Transfers -/

/-- Control is observed to go to where a label is defined. -/
theorem defines_of_transferred {p : Program} (created : create p console = .ok m)
    (reached : m.Reaches n) {i : Instruction} {label : String} {target : Nat}
    (h : .transferred i label target ∈ n.step.events) : p.Defines label target := by
  have controlled := reached.controlled created
  have outcome := step_outcome (reached.fits created)
  generalize n.step = t at h outcome
  cases outcome with
  | @done running i next flow c does =>
    cases does.controls.2 with
    | jump op calls named found | call op calls named found =>
      simp only [Machine.follow, List.mem_append, List.mem_singleton, reduceCtorEq, false_or,
        Event.transferred.injEq] at h
      obtain ⟨-, rfl, rfl⟩ := h
      exact (controlled.defines_of_label found).1
    | _ => simp [Machine.follow, finish] at h
  | _ => simp [finish] at h

/-- Additional breakpoints are invisible, as long as the diagnostic stream refuses nothing. The
programs with and without them are refused with the same fault, or both are accepted. Then,
whatever happens to the padded program, the same happens to the other one but for the steps of
additional breakpoints : the own steps give the same results and the same events, apart from
positions, and leave corresponding machines behind; and whatever happens to the other program is
matched in this way. One run ends exactly when the other does, in the same way. What there is to
observe of an additional breakpoint is that it is fetched, and in the padded program control goes to
the labels where they are there. -/
theorem breakpoints_invisible (entries : List Entry)
    (refusesNothing : console.diagnostic.room = none) :
    (∃ fault, create (original entries) console = .error fault ∧
      create (extended entries) console = .error fault) ∨
    ∃ m m', create (original entries) console = .ok m ∧ create (extended entries) console = .ok m' ∧
      (∀ moves', Padded entries (m.after (m'.ownMoves entries moves')) (m'.after moves') ∧
        List.Forall₂ (SameTurn entries) (m.turnsIn (m'.ownMoves entries moves'))
          (m'.ownTurns entries moves')) ∧
      (∀ moves, ∃ moves', m'.ownMoves entries moves' = moves) ∧
      (∀ outcome,
        (∀ n, m.Ends outcome n → ∃ n', m'.Ends outcome n' ∧ Padded entries n n') ∧
        ∀ n', m'.Ends outcome n' → ∃ n, m.Ends outcome n ∧ Padded entries n n') ∧
      ∀ moves', ∀ n' ∈ m'.stepsIn moves',
        (n'.pauses entries = true →
          ∃ order, n'.step.events = [.fetched ⟨order, .breakpoint, []⟩ n'.context.environment]) ∧
        ∀ i label target, .transferred i label target ∈ n'.step.events →
          (extended entries).Defines label target := by
  rcases create_padded entries refusesNothing with refused | ⟨m, m', hm, hm', start⟩
  · exact .inl refused
  refine .inr ⟨m, m', hm, hm', fun moves' => start.after moves', fun moves =>
    start.exists_moves moves, fun outcome => ⟨?_, ?_⟩, fun moves' n' hn' => ⟨fun pauses => ?_, ?_⟩⟩
  · exact fun n ⟨limit, ends⟩ => start.ends ends
  · exact fun n' ⟨limit, ends⟩ => start.ends_original ends
  · obtain ⟨k, there⟩ := start.of_mem_stepsIn moves' hn'
    exact (there.step_added pauses).2.2.2.2
  · exact fun i label target => defines_of_transferred hm' (.of_mem_stepsIn moves' .start hn')

/-- A program with a call and a jump, and breakpoints in it. -/
def interspersed : List Entry :=
  [.added 90, .own ⟨1, .call, [.label "f"]⟩, .added 91, .own ⟨2, .jump, [.label "end"]⟩, .added 92,
    .own ⟨3, .label, [.label "f"]⟩, .added 93, .own ⟨4, .ret, []⟩, .own ⟨5, .label, [.label "end"]⟩]

/-- After four of its own steps, whatever breakpoints come between them, it is at its last label,
and in the end it completes. -/
theorem breakpoints_invisible_interspersed :
    ∃ m m' : Machine,
      create (original interspersed) ⟨.stream [], .unlimited, .unlimited⟩ = .ok m ∧
      create (extended interspersed) ⟨.stream [], .unlimited, .unlimited⟩ = .ok m' ∧
      (∃ moves', m'.ownMoves interspersed moves' = List.replicate 4 .step ∧
        origin interspersed (m'.after moves').position = 4) ∧
      ∃ n', m'.Ends (.ok .completed) n' := by
  have created : create (original interspersed) ⟨.stream [], .unlimited, .unlimited⟩ = .ok _ := rfl
  rcases @breakpoints_invisible ⟨.stream [], .unlimited, .unlimited⟩ interspersed rfl
    with ⟨fault, refused, -⟩ | ⟨m, m', hm, hm', matched, all, ends, -⟩
  · cases created.symm.trans refused
  · cases created.symm.trans hm
    obtain ⟨moves', same⟩ := all (List.replicate 4 .step)
    have place := (matched moves').1.position
    rw [same] at place
    obtain ⟨n', hn', -⟩ := (ends (.ok .completed)).1 _ ⟨6, rfl⟩
    exact ⟨_, m', created, hm', ⟨moves', same, place.symm⟩, n', hn'⟩

end Machine

end Ippcode
