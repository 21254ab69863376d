import Ippcode.Proofs.Machine.Dialogue
import Ippcode.Proofs.Machine.RenamedMemory
import Ippcode.Proofs.Statistics

/-!
# Programs under other names

Names of labels and variables and the orders of instructions have no meaning of their own. If a
program is written with other names, which tell apart what the names of the program tell apart, and
with any orders, it does the same (`create_renamed`) : it is refused at the same instruction, or it
is at the same positions all the time, with the same values on its stacks, the same variables under
their other names, the same exchange with its streams, and the same end. Only a `BREAK` shows
something else.

The labels of a machine are entered by the same instructions, so they are found at the same
positions (`enterAll_renamed`). From there on the machines correspond (`Correspondence.ofNames`).
-/

namespace Ippcode

variable {ρ : Renaming} {L V : Set String}

/-! ## Programs -/

namespace Program

/-- The second program is the first one under other names, with any orders. -/
def Renamed (ρ : Renaming) (p p' : Program) : Prop :=
  List.Forall₂ (Instruction.Renamed ρ) p.instructions p'.instructions

/-- The labels that a program names. -/
def labelNames (p : Program) : Set String :=
  {name | ∃ i ∈ p.instructions, Argument.label name ∈ i.args}

/-- The names of the variables of a program. They may occur with several frames. -/
def variableNames (p : Program) : Set String :=
  {name | ∃ i ∈ p.instructions, ∃ v : VariableName, Argument.var v ∈ i.args ∧ v.name = name}

end Program

/-- All names in an argument are among these. -/
def Argument.IsAmong (L V : Set String) : Argument → Prop
  | label name => name ∈ L
  | var v => v.name ∈ V
  | _ => True

theorem Program.isAmong_names {p : Program} {i : Instruction} (hi : i ∈ p.instructions)
    {a : Argument} (ha : a ∈ i.args) : a.IsAmong p.labelNames p.variableNames := by
  cases a with
  | label name => exact ⟨i, hi, ha⟩
  | var v => exact ⟨i, hi, v, ha, rfl⟩
  | constant | type => exact trivial

/-! ## Labels -/

/-- Labels under other names, at the same positions. -/
def renameLabels (ρ : Renaming) (labels : List (String × Nat)) : List (String × Nat) :=
  labels.map fun (name, position) => (ρ.ofLabel name, position)

/-- A label is found under its other name at the same position. -/
theorem lookup_renameLabels (injective : Set.InjOn ρ.ofLabel L) {name : String} (known : name ∈ L) :
    ∀ {labels : List (String × Nat)}, (∀ l ∈ labels, l.1 ∈ L) →
      (renameLabels ρ labels).lookup (ρ.ofLabel name) = labels.lookup name
  | [], _ => rfl
  | (other, position) :: labels, h => by
    obtain ⟨there, rest⟩ := List.forall_mem_cons.mp h
    have same : (ρ.ofLabel name == ρ.ofLabel other) = (name == other) := by
      rw [Bool.eq_iff_iff, beq_iff_eq, beq_iff_eq]
      exact injective.eq_iff known there
    have ih := lookup_renameLabels injective known rest
    unfold renameLabels at ih ⊢
    rw [List.map_cons, List.lookup_cons, List.lookup_cons, same, ih]

/-- The same instructions define labels. -/
theorem Instruction.Renamed.definedLabel? {i i' : Instruction} (h : i.Renamed ρ i') :
    i'.definedLabel? = i.definedLabel?.map ρ.ofLabel := by
  ext name'
  simp only [Option.map_eq_some_iff, definedLabel?_eq_some_iff, h.opcode, h.args,
    List.map_eq_singleton_iff, Argument.rename_eq_label]
  constructor
  · rintro ⟨op, _, args, name, rfl, rfl⟩
    exact ⟨name, ⟨op, args⟩, rfl⟩
  · rintro ⟨name, ⟨op, args⟩, rfl⟩
    exact ⟨op, _, args, name, rfl, rfl⟩

namespace Environment

/-- The environment with its labels under other names. -/
def renameLabels (ρ : Renaming) (e : Environment) : Environment :=
  { e with labels := Ippcode.renameLabels ρ e.labels }

/-- The labels of an environment are among these. -/
def IsLabelled (L : Set String) (e : Environment) : Prop := ∀ l ∈ e.labels, l.1 ∈ L

/-- A label that is defined again is so under both of its names. -/
theorem enter_renamed (injective : Set.InjOn ρ.ofLabel L) {e : Environment}
    (labelled : e.IsLabelled L) {i i' : Instruction} (h : i.Renamed ρ i')
    (named : ∀ a ∈ i.args, a.IsAmong L V) (here : Nat) :
    Corresponds ρ (fun entered entered' => entered.IsLabelled L ∧ entered' = entered.renameLabels ρ)
      (e.enter here i) ((e.renameLabels ρ).enter here i') := by
  unfold enter
  rw [h.misfit?, h.definedLabel?]
  cases i.misfit? with
  | some misfit => exact .error (.malformed misfit)
  | none =>
    cases defined : i.definedLabel? with
    | none => exact .ok ⟨labelled, rfl⟩
    | some name =>
      have known : name ∈ L := by
        obtain ⟨-, args⟩ := Instruction.definedLabel?_eq_some_iff.mp defined
        exact named (.label name) (args ▸ List.mem_singleton_self _)
      simp only [Option.map_some]
      unfold registerLabel
      rw [show (e.renameLabels ρ).labels.lookup (ρ.ofLabel name) = e.labels.lookup name from
        lookup_renameLabels injective known labelled]
      cases e.labels.lookup name with
      | some position => exact .error (.duplicateLabel name)
      | none => exact .ok ⟨List.forall_mem_cons.mpr ⟨known, labelled⟩, rfl⟩

/-- Instructions under other names define the same labels under their other names, or the first one
that is refused is at the same place. -/
theorem enterAll_renamed (injective : Set.InjOn ρ.ofLabel L) : ∀ {is is' : List Instruction}
    {e : Environment} (here : Nat), List.Forall₂ (Instruction.Renamed ρ) is is' →
    (∀ i ∈ is, ∀ a ∈ i.args, a.IsAmong L V) → e.IsLabelled L →
    (∃ entered, e.enterAll here is = .ok entered ∧ entered.IsLabelled L ∧
      (e.renameLabels ρ).enterAll here is' = .ok (entered.renameLabels ρ)) ∨
    ∃ k i i' error entered, is[k]? = some i ∧ is'[k]? = some i' ∧
      e.enterAll here (is.take k) = .ok entered ∧ e.enterAll here is = .error (.of i error) ∧
      (e.renameLabels ρ).enterAll here (is'.take k) = .ok (entered.renameLabels ρ) ∧
      (e.renameLabels ρ).enterAll here is' = .error (.of i' (error.rename ρ)) := by
  intro is is' e here all
  induction all generalizing e here with
  | nil => exact fun _ labelled => .inl ⟨e, rfl, labelled, rfl⟩
  | @cons i i' is is' h rest ih =>
    intro named labelled
    have first := enter_renamed injective labelled h (named i List.mem_cons_self) here
    generalize entering : e.enter here i = r at first
    generalize entering' : (e.renameLabels ρ).enter here i' = r' at first
    cases first with
    | error error =>
      refine .inr ⟨0, i, i', error, e, rfl, rfl, rfl, ?_, rfl, ?_⟩
      · rw [enterAll, entering]
      · rw [enterAll, entering']
    | @ok next _ related =>
      obtain ⟨labelled, rfl⟩ := related
      have cons (js : List Instruction) :
          e.enterAll here (i :: js) = next.enterAll (here + 1) js := by
        rw [enterAll, entering]
      have cons' (js : List Instruction) : (e.renameLabels ρ).enterAll here (i' :: js) =
          (next.renameLabels ρ).enterAll (here + 1) js := by
        rw [enterAll, entering']
      have behind := ih (here + 1) (fun j hj => named j (List.mem_cons_of_mem i hj)) labelled
      rw [cons, cons']
      rcases behind with accepted | ⟨k, j, j', error, entered, hj, hj', before, refused, before',
        refused'⟩
      · exact .inl accepted
      · exact .inr ⟨k + 1, j, j', error, entered, hj, hj', (cons _).trans before, refused,
          (cons' _).trans before', refused'⟩

end Environment

/-! ## Streams -/

/-- What two unlimited streams have taken ends alike behind `start` and `start'`. -/
def Output.ExtendAlike (start start' : List UInt8) (o o' : Output) : Prop :=
  o.BothUnlimited o' ∧ ∃ bytes, o.accepted = start ++ bytes ∧ o'.accepted = start' ++ bytes

theorem Output.writesAlike_extendAlike {start start' : List UInt8} :
    WritesAlike (ExtendAlike start start') := by
  rintro o o' bytes ⟨unlimited, shown, same, same'⟩
  obtain ⟨answer, left⟩ := writesAlike_bothUnlimited bytes unlimited
  refine ⟨answer, left, shown ++ bytes, ?_, ?_⟩
  · rw [accepted_write, fitting, unlimited.1, same, List.append_assoc]
  · rw [accepted_write, fitting, unlimited.2, same', List.append_assoc]

/-! ## Machines -/

/-- The second context has other names. The names of the first one are among `L` and `V`. -/
def Correspondence.ofNames (ρ : Renaming) (L V : Set String) (R : Output → Output → Prop) :
    Correspondence where
  names := ρ
  position := id
  labels ls ls' := (∀ l ∈ ls, l.1 ∈ L) ∧ ls' = renameLabels ρ ls
  memory := Memory.Twin ρ V
  console := Console.AgreesUpTo R

variable {R : Output → Output → Prop}

theorem Correspondence.isFaithful_ofNames (onLabels : Set.InjOn ρ.ofLabel L)
    (onVariables : Set.InjOn ρ.ofVariable V) :
    (ofNames ρ L V R).IsFaithful (Argument.IsAmong L V) where
  lookup h known := by
    obtain ⟨labelled, rfl⟩ := h
    exact (lookup_renameLabels onLabels known labelled).trans Option.map_id_apply.symm
  get h known := h.get onVariables known
  assign x h known := h.assign onVariables known x
  declare h known := h.declare onVariables known
  createTemporary h := h.createTemporary .of_empty
  pushTemporary h := h.pushTemporary fun twin => twin.mark .lf

namespace Machine

variable {p p' : Program} {console console' : Console} {m m' n n' : Machine}

/-- Two machines are the same but for names, orders, and what has been shown. -/
structure SameUnderNames (ρ : Renaming) (n n' : Machine) : Prop where
  position : n'.position = n.position
  ending : n'.ending = n.ending
  calls : n'.context.environment.calls = n.context.environment.calls
  data : n'.context.environment.data = n.context.environment.data
  memory : n.memory.Renamed ρ n'.memory
  input : n'.context.console.input = n.context.console.input
  output : n'.context.console.output = n.context.console.output

/-- Two machines are the same but for names before and behind their steps, and the steps have the
same result. Unless it is a `BREAK`, they show the same. -/
structure StepsAlike (ρ : Renaming) (n n' : Machine) : Prop where
  before : n.SameUnderNames ρ n'
  behind : n.step.machine.SameUnderNames ρ n'.step.machine
  result : SameResult ρ n n' n.step.result n'.step.result
  shown : n.fetched?.map Instruction.opcode ≠ some .breakpoint → ∃ bytes,
    n.step.machine.context.console.diagnostic.accepted =
      n.context.console.diagnostic.accepted ++ bytes ∧
    n'.step.machine.context.console.diagnostic.accepted =
      n'.context.console.diagnostic.accepted ++ bytes

/-- Machines that match are the same under other names. -/
theorem Matches.sameUnderNames (h : n.Matches (.ofNames ρ L V R) n') : n.SameUnderNames ρ n' where
  position := h.position
  ending := h.ending
  calls := h.context.calls.trans (List.map_id _)
  data := h.context.data
  memory := Memory.Twin.renamed h.context.memory
  input := h.context.console.input
  output := h.context.console.output

section

variable (onLabels : Set.InjOn ρ.ofLabel L) (onVariables : Set.InjOn ρ.ofVariable V)
  (named : ∀ i ∈ n.instructions, ∀ a ∈ i.args, a.IsAmong L V)

include onLabels onVariables named

/-- A step of both, as long as nothing is shown that names are a part of. -/
theorem Matches.step_ofNames (h : n.Matches (.ofNames ρ L V R) n')
    (same : Output.WritesAlike R)
    (shows : n.fetched?.map Instruction.opcode = some .breakpoint →
      (Correspondence.ofNames ρ L V R).ShowsAnything) :
    SameResult ρ n n' n.step.result n'.step.result ∧
      n.step.machine.Matches (.ofNames ρ L V R) n'.step.machine := by
  have behind : n.position + 1 = n'.position + 1 := congrArg (· + 1) h.position.symm
  refine h.step behind fun i i' renamed fetched => ?_
  exact Instruction.perform_matches renamed (Correspondence.isFaithful_ofNames onLabels onVariables)
    (named i (mem_of_fetched fetched)) behind h.context
    (fun _ => Memory.Framewise.popLocal h.context.memory fun twin => twin.mark .tf)
    (fun _ _ => Correspondence.sharesStreams_of_agreesUpTo rfl same)
    (fun op => shows (by rw [fetched, Option.map_some, op]))

/-- The diagnostic streams are compared twice : with a `BREAK` there is nothing to say about them
but that they have no limit, without one the same has been added to both. -/
theorem Matches.stepsAlike (h : n.Matches (.ofNames ρ L V Output.BothUnlimited) n') :
    n.StepsAlike ρ n' ∧
      n.step.machine.Matches (.ofNames ρ L V Output.BothUnlimited) n'.step.machine := by
  obtain ⟨result, left⟩ := h.step_ofNames onLabels onVariables named
    Output.writesAlike_bothUnlimited fun _ => Correspondence.showsAnything_of_agreesUpTo rfl
  refine ⟨⟨h.sameUnderNames, left.sameUnderNames, result, fun quiet => ?_⟩, left⟩
  obtain ⟨instructions, position, ending, ls, memory, calls, data, input, output, unlimited⟩ := h
  have start : n.Matches (.ofNames ρ L V (Output.ExtendAlike
      n.context.console.diagnostic.accepted n'.context.console.diagnostic.accepted)) n' :=
    ⟨instructions, position, ending, ls, memory, calls, data, input, output, unlimited, [],
      (List.append_nil _).symm, (List.append_nil _).symm⟩
  exact (start.step_ofNames onLabels onVariables named Output.writesAlike_extendAlike
    fun op => absurd op quiet).2.context.console.diagnostic.2

end

/-! ## Runs -/

/-- A machine that fails stays at the same instruction. -/
theorem fetched?_step_of_error (fits : ∀ i ∈ n.instructions, i.Fits) {fault : Fault}
    (h : n.step.result = .error fault) : n.step.machine.fetched? = n.fetched? := by
  obtain ⟨i, c, -, -, -, step⟩ := step_fails fits h
  rw [step]
  rfl

/-- Steps with the same result end a run in the same way, or do not end it. -/
theorem SameResult.outcome? (fits : ∀ i ∈ n.instructions, i.Fits)
    (fits' : ∀ i ∈ n'.instructions, i.Fits)
    (h : SameResult ρ n n' n.step.result n'.step.result) :
    Option.Rel (SameResult ρ n.step.machine n'.step.machine) n.step.outcome? n'.step.outcome? := by
  unfold Turn.outcome?
  generalize result : n.step.result = r at h
  generalize result' : n'.step.result = r' at h
  cases h with
  | ok progress =>
    cases progress with
    | running => exact .none
    | finished ending => exact .some (.ok ending)
  | error next next' e =>
    exact .some (.error ((fetched?_step_of_error fits result).trans next)
      ((fetched?_step_of_error fits' result').trans next') e)

/-- Whatever happens to two machines, they are and do the same but for names. -/
structure RunsAlike (ρ : Renaming) (m m' : Machine) : Prop where
  after : ∀ moves, (m.after moves).SameUnderNames ρ (m'.after moves)
  steps : ∀ moves, List.Forall₂ (StepsAlike ρ) (m.stepsIn moves) (m'.stepsIn moves)
  /-- Runs go on equally long and end in the same way, whoever observes them. -/
  runs : ∀ {σ σ' : Type} (update : σ → Event → σ) (update' : σ' → Event → σ') (limit : Nat)
    (s : σ) (s' : σ'),
    (m.run update limit s).machine.SameUnderNames ρ (m'.run update' limit s').machine ∧
      Option.Rel
        (SameResult ρ (m.run update limit s).machine (m'.run update' limit s').machine)
        (m.run update limit s).outcome (m'.run update' limit s').outcome

section

variable (onLabels : Set.InjOn ρ.ofLabel L) (onVariables : Set.InjOn ρ.ofVariable V)

include onLabels onVariables

theorem Matches.after_ofNames (h : m.Matches (.ofNames ρ L V Output.BothUnlimited) m')
    (named : ∀ i ∈ m.instructions, ∀ a ∈ i.args, a.IsAmong L V) (moves : List Move) :
    (m.after moves).Matches (.ofNames ρ L V Output.BothUnlimited) (m'.after moves) ∧
      List.Forall₂ (StepsAlike ρ) (m.stepsIn moves) (m'.stepsIn moves) :=
  Matches.after rfl id moves h fun _ hj _ _ alike =>
    alike.stepsAlike onLabels onVariables
      ((Reaches.of_mem_stepsIn moves .start hj).instructions ▸ named)

/-- Runs of both take as many steps and come to the same end. -/
theorem Matches.run_ofNames {σ σ' : Type} (update : σ → Event → σ) (update' : σ' → Event → σ') :
    ∀ (limit : Nat) (s : σ) (s' : σ') {n n' : Machine},
      n.Matches (.ofNames ρ L V Output.BothUnlimited) n' →
      (∀ i ∈ n.instructions, ∀ a ∈ i.args, a.IsAmong L V) →
      (∀ i ∈ n.instructions, i.Fits) → (∀ i ∈ n'.instructions, i.Fits) →
      (n.run update limit s).machine.SameUnderNames ρ (n'.run update' limit s').machine ∧
        Option.Rel
          (SameResult ρ (n.run update limit s).machine (n'.run update' limit s').machine)
          (n.run update limit s).outcome (n'.run update' limit s').outcome
  | 0, _, _, _, _, h, _, _, _ => ⟨h.sameUnderNames, .none⟩
  | limit + 1, s, s', n, n', h, named, fits, fits' => by
    obtain ⟨alike, left⟩ := h.stepsAlike onLabels onVariables named
    have outcomes := alike.result.outcome? fits fits'
    generalize now : n.step.outcome? = o at outcomes
    generalize now' : n'.step.outcome? = o' at outcomes
    cases outcomes with
    | none =>
      rw [run_of_running now, run_of_running now']
      exact Matches.run_ofNames update update' limit _ _ left (by rwa [instructions_step])
        (by rwa [instructions_step]) (by rwa [instructions_step])
    | some same =>
      rw [run_of_outcome now, run_of_outcome now']
      exact ⟨left.sameUnderNames, .some same⟩

end

/-! ## The start -/

theorem rel_getElem? {S : α → β → Prop} : ∀ {xs : List α} {ys : List β} (k : Nat),
    List.Forall₂ S xs ys → Option.Rel S xs[k]? ys[k]?
  | _, _, _, .nil => .none
  | _, _, 0, .cons h _ => .some h
  | _, _, k + 1, .cons _ rest => rel_getElem? k rest

end Machine

/-- A program is refused because of the instruction at this position. -/
structure Program.IsRefusedAt (p : Program) (console : Console) (k : Nat) (error : RuntimeError) :
    Prop where
  before : ∃ m, Machine.create ⟨p.instructions.take k⟩ console = .ok m
  refused : ∃ i, p.instructions[k]? = some i ∧ Machine.create p console = .error (.of i error)

namespace Machine

variable {p p' : Program} {console console' : Console}

/-- The machines of two accepted programs start in the same way. -/
theorem matches_start (renamed : p.Renamed ρ p') {e : Environment} (labelled : e.IsLabelled L)
    (entered : Environment.empty.enterAll 0 p.instructions = .ok e)
    (streams : console.AgreesUpTo R console') :
    Matches (.ofNames ρ L V R) ⟨p.instructions.toArray, 0, none, ⟨e, console⟩⟩
      ⟨p'.instructions.toArray, 0, none, ⟨e.renameLabels ρ, console'⟩⟩ where
  instructions k := by
    rw [List.getElem?_toArray, List.getElem?_toArray]
    exact rel_getElem? k renamed
  position := rfl
  ending := rfl
  context := by
    refine ⟨⟨labelled, rfl⟩, ?_, (List.map_id _).symm, rfl, streams⟩
    have memory : e.memory = Memory.empty :=
      congrArg Environment.memory (Environment.enterAll_labels entered).1
    change Memory.Twin ρ V e.memory e.memory
    exact memory ▸ Memory.Twin.of_empty

/-- A program under other names, with any orders, is accepted or refused at the same instruction,
and does the same. The names have to tell apart what the program tells apart, the input and the
output stream have to be the same, and the diagnostic streams must not refuse anything. -/
theorem create_renamed (renamed : p.Renamed ρ p') (onLabels : Set.InjOn ρ.ofLabel p.labelNames)
    (onVariables : Set.InjOn ρ.ofVariable p.variableNames)
    (streams : console.AgreesUpTo Output.BothUnlimited console') :
    (∃ m m', create p console = .ok m ∧ create p' console' = .ok m' ∧ m.RunsAlike ρ m') ∨
      ∃ k error, p.IsRefusedAt console k error ∧ p'.IsRefusedAt console' k (error.rename ρ) := by
  have named : ∀ i ∈ p.instructions, ∀ a ∈ i.args, a.IsAmong p.labelNames p.variableNames :=
    fun i hi a ha => Program.isAmong_names hi ha
  have entering := Environment.enterAll_renamed onLabels 0 renamed named (e := .empty)
    fun _ h => nomatch h
  rcases entering with ⟨entered, accepted, labelled, accepted'⟩ |
    ⟨k, i, i', error, entered, hi, hi', before, refused, before', refused'⟩
  · have created := create_of_entered console accepted
    have created' := create_of_entered console' accepted'
    have start := matches_start (V := p.variableNames) renamed labelled accepted streams
    have known : ∀ i ∈ p.instructions.toArray, ∀ a ∈ i.args,
        a.IsAmong p.labelNames p.variableNames :=
      fun i hi => named i (List.mem_toArray.mp hi)
    exact .inl ⟨_, _, created, created',
      fun moves => (start.after_ofNames onLabels onVariables known moves).1.sameUnderNames,
      fun moves => (start.after_ofNames onLabels onVariables known moves).2,
      fun update update' limit s s' => start.run_ofNames onLabels onVariables update update' limit s
        s' known (Reaches.start.fits created) (Reaches.start.fits created')⟩
  · exact .inr ⟨k, error,
      ⟨⟨_, create_of_entered console before⟩, i, hi, create_of_refused console refused⟩,
      ⟨_, create_of_entered console' before'⟩, i', hi', create_of_refused console' refused'⟩

/-- A program in which `a` and `int` are labels, `a` is a variable too, and the last variable that
is printed has no value. -/
def sharing : Program :=
  .numbered [(.jump, [.label "a"]), (.label, [.label "int"]), (.exit, [.constant (.int 0)]),
    (.label, [.label "a"]), (.defVar, [.var ⟨.gf, "a"⟩]), (.defVar, [.var ⟨.gf, "b"⟩]),
    (.move, [.var ⟨.gf, "b"⟩, .constant (.int 1)]), (.write, [.var ⟨.gf, "b"⟩]),
    (.write, [.var ⟨.gf, "a"⟩])]

/-- The same program with `a` and `int` exchanged, and with other orders. Now the variable `a` is
called `int` and stands behind `b` in its frame. -/
def sharingRenamed : Program :=
  ⟨[⟨8, .jump, [.label "int"]⟩, ⟨8, .label, [.label "a"]⟩, ⟨0, .exit, [.constant (.int 0)]⟩,
    ⟨5, .label, [.label "int"]⟩, ⟨4, .defVar, [.var ⟨.gf, "int"⟩]⟩, ⟨3, .defVar, [.var ⟨.gf, "b"⟩]⟩,
    ⟨2, .move, [.var ⟨.gf, "b"⟩, .constant (.int 1)]⟩, ⟨7, .write, [.var ⟨.gf, "b"⟩]⟩,
    ⟨6, .write, [.var ⟨.gf, "int"⟩]⟩]⟩

/-- Both programs print the same and fail at the same position. -/
theorem create_renamed_sharing :
    ∃ m m' : Machine, create sharing ⟨.stream [], .unlimited, .unlimited⟩ = .ok m ∧
      create sharingRenamed ⟨.stream [], .unlimited, .unlimited⟩ = .ok m' ∧
      m.RunsAlike ⟨Equiv.swap "a" "int", Equiv.swap "a" "int"⟩ m' ∧
      (m.after (List.replicate 7 .step)).step.result =
        .error ⟨9, .write, .uninitialized ⟨.gf, "a"⟩⟩ ∧
      (m'.after (List.replicate 7 .step)).step.result =
        .error ⟨6, .write, .uninitialized ⟨.gf, "int"⟩⟩ := by
  have created : create sharing ⟨.stream [], .unlimited, .unlimited⟩ = .ok _ := rfl
  have created' : create sharingRenamed ⟨.stream [], .unlimited, .unlimited⟩ = .ok _ := rfl
  have renamed : sharing.Renamed ⟨Equiv.swap "a" "int", Equiv.swap "a" "int"⟩ sharingRenamed := by
    repeat' first | exact .nil | refine .cons ⟨rfl, by decide⟩ ?_
  have streams : Console.AgreesUpTo Output.BothUnlimited ⟨.stream [], .unlimited, .unlimited⟩
      ⟨.stream [], .unlimited, .unlimited⟩ := ⟨rfl, rfl, rfl, rfl⟩
  obtain ⟨m, m', accepted, accepted', alike⟩ | ⟨k, error, refused, -⟩ :=
    create_renamed renamed (Equiv.injective _).injOn (Equiv.injective _).injOn streams
  · cases created.symm.trans accepted
    cases created'.symm.trans accepted'
    exact ⟨_, _, created, created', alike, rfl, rfl⟩
  · obtain ⟨i, -, refused⟩ := refused.refused
    cases created.symm.trans refused

end Machine

end Ippcode
