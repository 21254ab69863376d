import Ippcode.Proofs.Machine.Correspondence

/-!
# One instruction in two contexts

An instruction has to do with a context in a few ways only : it looks up labels and variables,
stores and declares, moves frames, pushes and pops, and exchanges texts with the streams. So if two
contexts correspond in all that can be found out in these ways, an instruction does to both the
same, and they correspond again (`Instruction.perform_matches`), even if it has other names in the
second one. `Action.Matches` is about actions in general and is closed under bind.

Machines that correspond take corresponding steps (`Machine.Matches.step`), and so do all machines
that come of them by the same moves (`Machine.Matches.after`).
-/

namespace Ippcode

open Ippcode.Action

/-! ## Matching actions -/

/-- The flow with other names and positions. -/
def Flow.translate (K : Correspondence) : Flow → Flow
  | transfer label target => transfer (K.names.ofLabel label) (K.position target)
  | resume target => resume (K.position target)
  | flow => flow

/-- If all names and positions are kept, so is the flow. -/
theorem Flow.translate_eq_id {K : Correspondence} (names : K.names = .keep)
    (position : K.position = id) : Flow.translate K = id := by
  funext flow
  cases flow <;> simp [translate, names, position, Renaming.keep]

namespace Action

variable {K : Correspondence} {known : Argument → Prop}

/-- Two actions do the same to these two contexts, and these correspond afterwards. -/
def MatchesOn (K : Correspondence) (R : α → β → Prop) (act : Action α) (act' : Action β)
    (c c' : Context) : Prop :=
  Corresponds K.names R (act.on c).1 (act'.on c').1 ∧ K.Relates (act.on c).2 (act'.on c').2

/-- Two actions do the same to contexts that correspond. -/
def Matches (K : Correspondence) (R : α → β → Prop) (act : Action α) (act' : Action β) : Prop :=
  ∀ ⦃c c' : Context⦄, K.Relates c c' → MatchesOn K R act act' c c'

/-- Two actions that give the same value, or the same error under other names. -/
abbrev MatchesSame (K : Correspondence) (act act' : Action α) : Prop := Matches K Eq act act'

/-- The flow to corresponding positions. -/
abbrev FlowsAlike (K : Correspondence) : Flow → Flow → Prop :=
  fun flow flow' => flow' = flow.translate K

/-- Two actions behind which control goes to corresponding positions. -/
abbrev MatchesFlow (K : Correspondence) (act act' : Action Flow) : Prop :=
  Matches K (FlowsAlike K) act act'

namespace MatchesOn

variable {c c' : Context}

/-- One action after another : only values that are related have to go on alike. -/
theorem bind {R : α → β → Prop} {S : γ → δ → Prop} {act : Action α} {act' : Action β}
    {k : α → Action γ} {k' : β → Action δ} (first : MatchesOn K R act act' c c')
    (rest : ∀ x y, R x y → Matches K S (k x) (k' y)) :
    MatchesOn K S (act >>= k) (act' >>= k') c c' := by
  obtain ⟨result, left⟩ := first
  unfold MatchesOn
  rw [on_bind, on_bind]
  generalize act.on c = r at result left ⊢
  generalize act'.on c' = r' at result left ⊢
  obtain ⟨r, d⟩ := r
  obtain ⟨r', d'⟩ := r'
  cases result with
  | ok h => exact rest _ _ h left
  | error e => exact ⟨.error e, left⟩

/-- A change of memory, as long as it does the same to these two memories. -/
theorem changeMemory {f f' : Memory → Except RuntimeError Memory} (related : K.Relates c c')
    (h : Corresponds K.names K.memory (f c.environment.memory) (f' c'.environment.memory)) :
    MatchesOn K Eq (changeMemory f) (changeMemory f') c c' := by
  unfold MatchesOn
  rw [on_changeMemory, on_changeMemory]
  generalize f c.environment.memory = r at h ⊢
  generalize f' c'.environment.memory = r' at h ⊢
  cases h with
  | ok memory =>
    exact ⟨.ok rfl, related.labels, memory, related.calls, related.data, related.console⟩
  | error e => exact ⟨.error e, related⟩

end MatchesOn

namespace Matches

/-- One action after another, in all contexts that correspond. -/
theorem bindRelated {R : α → β → Prop} {S : γ → δ → Prop} {act : Action α} {act' : Action β}
    {k : α → Action γ} {k' : β → Action δ} (first : Matches K R act act')
    (rest : ∀ x y, R x y → Matches K S (k x) (k' y)) : Matches K S (act >>= k) (act' >>= k') :=
  fun _ _ related => (first related).bind rest

/-- One action after another, if the first one gives equal values. -/
theorem bind {S : γ → δ → Prop} {act act' : Action α} {k : α → Action γ} {k' : α → Action δ}
    (first : MatchesSame K act act') (rest : ∀ x, Matches K S (k x) (k' x)) :
    Matches K S (act >>= k) (act' >>= k') :=
  first.bindRelated fun x _ same => same ▸ rest x

protected theorem pure {R : α → β → Prop} {x : α} {y : β} (h : R x y) :
    Matches K R (pure x) (pure y) :=
  fun _ _ related => ⟨.ok h, related⟩

/-- Errors match if one is the other under other names. -/
theorem throw {R : α → β → Prop} (e : RuntimeError) :
    Matches K R (throw e) (throw (e.rename K.names)) :=
  fun _ _ related => ⟨.error e, related⟩

/-- Two contexts that correspond may still be different. -/
theorem get : Matches K (fun _ _ => True) (get : Action Context) (get : Action Context) :=
  fun _ _ related => ⟨.ok trivial, related⟩

/-- Operations fail by their operands, and these have no names. -/
theorem compute {r : Except RuntimeError α} (h : FailsByOperands r) :
    MatchesSame K (lift r) (lift r) :=
  fun _ _ related => ⟨.of_operands h, related⟩

theorem changeMemory {f f' : Memory → Except RuntimeError Memory}
    (h : ∀ m m', K.memory m m' → Corresponds K.names K.memory (f m) (f' m')) :
    MatchesSame K (changeMemory f) (changeMemory f') :=
  fun _ _ related => .changeMemory related (h _ _ related.memory)

end Matches

/-! ### Variables -/

section

variable (faithful : K.IsFaithful known) {v : VariableName} (named : known (.var v))

include faithful named

/-- A variable is looked up under the name that it has in each context. -/
theorem matches_get :
    Matches K (fun w w' => w'.value = w.value) (inspect fun e => e.memory.get v)
      (inspect fun e => e.memory.get (v.rename K.names)) :=
  fun _ _ related => ⟨faithful.get related.memory named, related⟩

theorem matches_target : MatchesSame K (target v) (target (v.rename K.names)) :=
  (matches_get faithful named).bindRelated fun _ _ _ => .pure rfl

theorem matches_store (x : Value) : MatchesSame K (store v x) (store (v.rename K.names) x) :=
  .changeMemory fun _ _ related => faithful.assign x related named

theorem matches_valueOf? : MatchesSame K (valueOf? v) (valueOf? (v.rename K.names)) :=
  (matches_get faithful named).bindRelated fun _ _ same => .pure same.symm

/-- A variable without a value is reported under both names. -/
theorem matches_valueOf : MatchesSame K (valueOf v) (valueOf (v.rename K.names)) := by
  refine (matches_valueOf? faithful named).bind fun found => ?_
  cases found with
  | some x => exact .pure rfl
  | none => exact .throw (.uninitialized v)

end

/-! ### Labels, calls and the data stack -/

/-- A label leads to positions that correspond. -/
theorem matches_position (faithful : K.IsFaithful known) {label : String}
    (named : known (.label label)) :
    Matches K (fun target target' => target' = K.position target) (position label)
      (position (K.names.ofLabel label)) := by
  intro c c' related
  have found := faithful.lookup related.labels named
  unfold MatchesOn
  rw [on_position, on_position]
  unfold Environment.label
  rw [found]
  cases c.environment.labels.lookup label with
  | some target => exact ⟨.ok rfl, related⟩
  | none => exact ⟨.error (.undefinedLabel label), related⟩

/-- A call is remembered by the position behind it, in either program. -/
theorem matches_pushCall {r r' : Nat} (h : K.position r = r') :
    MatchesSame K (change fun e => e.pushCall r) (change fun e => e.pushCall r') := by
  intro c c' related
  refine ⟨.ok rfl, related.labels, related.memory, ?_, related.data, related.console⟩
  rw [on_change, on_change, Environment.pushCall, Environment.pushCall, related.calls, ← h]
  rfl

theorem matches_push (x : Value) : MatchesSame K (push x) (push x) := by
  intro c c' related
  unfold MatchesOn
  rw [on_push, on_push, related.data]
  exact ⟨.ok rfl, related.labels, related.memory, related.calls, rfl, related.console⟩

/-- The data stacks are equal, so the same value is taken from both. -/
theorem matches_pop : MatchesSame K pop pop := by
  intro c c' related
  unfold MatchesOn
  rw [on_pop, on_pop, related.data]
  cases c.environment.data with
  | nil => exact ⟨.error .emptyDataStack, related⟩
  | cons x data =>
    exact ⟨.ok rfl, related.labels, related.memory, related.calls, rfl, related.console⟩

theorem matches_clearData :
    MatchesSame K (change Environment.clearData) (change Environment.clearData) :=
  fun _ _ related => ⟨.ok rfl, related.labels, related.memory, related.calls, rfl, related.console⟩

/-! ### Streams -/

/-- The same bytes are printed, and accepted alike. -/
theorem matches_print (shared : K.SharesStreams) (text : String) :
    MatchesSame K (print text) (print text) := by
  intro c c' related
  unfold MatchesOn
  rw [on_print, on_print, shared.output related.console]
  refine ⟨?_, related.labels, related.memory, related.calls, related.data,
    shared.withOutput _ related.console⟩
  cases (c.console.output.write (Text.encode text)).1 with
  | ok u => exact .ok rfl
  | error cause => exact .error (.output cause)

/-- The same line is read, behind a flush that succeeds or fails for both. -/
theorem matches_readLine (shared : K.SharesStreams) : MatchesSame K readLine readLine := by
  intro c c' related
  unfold MatchesOn
  rw [on_readLine, on_readLine, shared.output related.console, shared.input related.console]
  cases c.console.output.flush with
  | ok u =>
    exact ⟨.ok rfl, related.labels, related.memory, related.calls, related.data,
      shared.withInput _ related.console⟩
  | error cause => exact ⟨.error (.output cause), related⟩

theorem matches_report (shared : K.SharesStreams) (text : String) :
    MatchesSame K (report text) (report text) := by
  intro c c' related
  obtain ⟨same, left⟩ := shared.report (Text.encode text) related.console
  unfold MatchesOn
  rw [on_report, on_report, same]
  refine ⟨?_, related.labels, related.memory, related.calls, related.data, left⟩
  cases (c.console.diagnostic.write (Text.encode text)).1 with
  | ok u => exact .ok rfl
  | error cause => exact .error (.output cause)

/-- It makes no difference what is shown. -/
theorem matches_report_of_showsAnything (shows : K.ShowsAnything) (text text' : String) :
    MatchesSame K (report text) (report text') := by
  intro c c' related
  obtain ⟨accepted, accepted', left⟩ :=
    shows _ _ (Text.encode text) (Text.encode text') related.console
  unfold MatchesOn
  rw [on_report, on_report, accepted, accepted']
  exact ⟨.ok rfl, related.labels, related.memory, related.calls, related.data, left⟩

end Action

/-! ## Matching instructions -/

namespace Instruction

variable {K : Correspondence} {known : Argument → Prop} {i i' : Instruction} {a : Argument}

/-- A misfit says nothing about names, so it is the same for both. -/
theorem matches_malformed (h : i.Renamed K.names i') {R : α → β → Prop} :
    Matches K R i.malformed i'.malformed := by
  unfold malformed
  rw [h.misfit?, h.opcode, h.args, List.length_map]
  exact .throw (.malformed _)

section

variable (h : i.Renamed K.names i') (faithful : K.IsFaithful known)

include h faithful

/-- A constant is the same under other names, and a variable has the same value. -/
theorem matches_operand (named : known a) :
    MatchesSame K (i.operand a) (i'.operand (a.rename K.names)) := by
  cases a with
  | constant x => exact .pure rfl
  | var v => exact matches_valueOf faithful named
  | _ => exact matches_malformed h

theorem matches_operand? (named : known a) :
    MatchesSame K (i.operand? a) (i'.operand? (a.rename K.names)) := by
  cases a with
  | constant x => exact .pure rfl
  | var v => exact matches_valueOf? faithful named
  | _ => exact matches_malformed h

variable (named : ∀ a ∈ i.args, known a)

include named

/-- An operation gets the same operand, and its result goes to a destination of either name. -/
theorem matches_computeUnary {f : Value → Except RuntimeError Value}
    (hf : ∀ x, FailsByOperands (f x)) :
    MatchesSame K (i.computeUnary f) (i'.computeUnary f) := by
  unfold computeUnary
  rw [h.args]
  generalize i.args = args at named ⊢
  rcases args with _ | ⟨v | _ | _ | _, _ | ⟨a, _ | _⟩⟩
  case cons.var.cons.nil =>
    rw [List.forall_mem_cons, List.forall_mem_singleton] at named
    refine (matches_target faithful named.1).bind fun _ => ?_
    refine (matches_operand h faithful named.2).bind fun x => ?_
    exact (Matches.compute (hf x)).bind fun z => matches_store faithful named.1 z
  all_goals exact matches_malformed h

theorem matches_computeBinary {f : Value → Value → Except RuntimeError Value}
    (hf : ∀ x y, FailsByOperands (f x y)) :
    MatchesSame K (i.computeBinary f) (i'.computeBinary f) := by
  unfold computeBinary
  rw [h.args]
  generalize i.args = args at named ⊢
  rcases args with _ | ⟨v | _ | _ | _, _ | ⟨a, _ | ⟨b, _ | _⟩⟩⟩
  case cons.var.cons.cons.nil =>
    rw [List.forall_mem_cons, List.forall_mem_cons, List.forall_mem_singleton] at named
    refine (matches_target faithful named.1).bind fun _ => ?_
    refine (matches_operand h faithful named.2.1).bind fun x => ?_
    refine (matches_operand h faithful named.2.2).bind fun y => ?_
    exact (Matches.compute (hf x y)).bind fun z => matches_store faithful named.1 z
  all_goals exact matches_malformed h

/-- The destination is read as well as written, under one name in each context. -/
theorem matches_replaceChar : MatchesSame K i.replaceChar i'.replaceChar := by
  unfold replaceChar
  rw [h.args]
  generalize i.args = args at named ⊢
  rcases args with _ | ⟨v | _ | _ | _, _ | ⟨a, _ | ⟨b, _ | _⟩⟩⟩
  case cons.var.cons.cons.nil =>
    rw [List.forall_mem_cons, List.forall_mem_cons, List.forall_mem_singleton] at named
    refine (matches_target faithful named.1).bind fun _ => ?_
    refine (matches_valueOf faithful named.1).bind fun s => ?_
    refine (matches_operand h faithful named.2.1).bind fun x => ?_
    refine (matches_operand h faithful named.2.2).bind fun y => ?_
    exact (Matches.compute (s.setChar_failsByOperands x y)).bind fun z =>
      matches_store faithful named.1 z
  all_goals exact matches_malformed h

/-- The type of a variable without a value is the empty text for both. -/
theorem matches_storeType : MatchesSame K i.storeType i'.storeType := by
  unfold storeType
  rw [h.args]
  generalize i.args = args at named ⊢
  rcases args with _ | ⟨v | _ | _ | _, _ | ⟨a, _ | _⟩⟩
  case cons.var.cons.nil =>
    rw [List.forall_mem_cons, List.forall_mem_singleton] at named
    refine (matches_target faithful named.1).bind fun _ => ?_
    exact (matches_operand? h faithful named.2).bind fun x => matches_store faithful named.1 _
  all_goals exact matches_malformed h

theorem matches_readInput (shared : K.SharesStreams) :
    MatchesSame K i.readInput i'.readInput := by
  unfold readInput
  rw [h.args]
  generalize i.args = args at named ⊢
  rcases args with _ | ⟨v | _ | _ | _, _ | ⟨_ | _ | _ | ty, _ | _⟩⟩
  case cons.var.cons.type.nil =>
    have named := named _ List.mem_cons_self
    refine (matches_target faithful named).bind fun _ => ?_
    exact (matches_readLine shared).bind fun line => matches_store faithful named _
  all_goals exact matches_malformed h

theorem matches_popInto : MatchesSame K i.popInto i'.popInto := by
  unfold popInto
  rw [h.args]
  generalize i.args = args at named ⊢
  rcases args with _ | ⟨v | _ | _ | _, _ | _⟩
  case cons.var.nil =>
    have named := named _ List.mem_cons_self
    refine (matches_target faithful named).bind fun _ => ?_
    exact matches_pop.bind fun x => matches_store faithful named x
  all_goals exact matches_malformed h

/-- Names are declared side by side. -/
theorem matches_declare : MatchesSame K i.declare i'.declare := by
  unfold declare
  rw [h.args]
  generalize i.args = args at named ⊢
  rcases args with _ | ⟨v | _ | _ | _, _ | _⟩
  case cons.var.nil =>
    exact .changeMemory fun _ _ related => faithful.declare related (named _ List.mem_cons_self)
  all_goals exact matches_malformed h

/-- What is done with an operand has to match for each of its values. -/
theorem matches_withOperand {R : α → β → Prop} {k : Value → Action α} {k' : Value → Action β}
    (hk : ∀ x, Matches K R (k x) (k' x)) : Matches K R (i.withOperand k) (i'.withOperand k') := by
  unfold withOperand
  rw [h.args]
  generalize i.args = args at named ⊢
  rcases args with _ | ⟨a, _ | _⟩
  case cons.nil => exact (matches_operand h faithful (named _ List.mem_cons_self)).bind hk
  all_goals exact matches_malformed h

/-! ### Control -/

/-- A jump goes to corresponding positions, if what is done before it matches. -/
theorem matches_jumpAfter {before before' : Action Unit} (hb : MatchesSame K before before') :
    MatchesFlow K (i.jumpAfter before) (i'.jumpAfter before') := by
  unfold jumpAfter
  rw [h.args]
  generalize i.args = args at named ⊢
  rcases args with _ | ⟨_ | _ | label | _, _ | _⟩
  case cons.label.nil =>
    refine (matches_position faithful (named _ List.mem_cons_self)).bindRelated ?_
    rintro target _ rfl
    exact hb.bind fun _ => .pure rfl
  all_goals exact matches_malformed h

/-- A conditional jump compares the same values, so both jump or neither does. -/
theorem matches_jumpIf (form : Form) (equal : Bool) :
    MatchesFlow K (i.jumpIf form equal) (i'.jumpIf form equal) := by
  have branch (label : String) (target : Nat) (jump : Bool) :
      MatchesFlow K (pure (if jump then .transfer label target else .next))
        (pure (if jump then .transfer (K.names.ofLabel label) (K.position target) else .next)) := by
    cases jump <;> exact .pure rfl
  unfold jumpIf
  rw [h.args]
  generalize i.args = args at named ⊢
  cases form with
  | direct =>
    rcases args with _ | ⟨_ | _ | label | _, _ | ⟨a, _ | ⟨b, _ | _⟩⟩⟩
    case cons.label.cons.cons.nil =>
      rw [List.forall_mem_cons, List.forall_mem_cons, List.forall_mem_singleton] at named
      refine (matches_position faithful named.1).bindRelated ?_
      rintro target _ rfl
      refine (matches_operand h faithful named.2.1).bind fun x => ?_
      refine (matches_operand h faithful named.2.2).bind fun y => ?_
      exact (Matches.compute (x.jumpEqual_failsByOperands y)).bind fun holds => branch _ _ _
    all_goals exact matches_malformed h
  | stack =>
    rcases args with _ | ⟨_ | _ | label | _, _ | _⟩
    case cons.label.nil =>
      refine (matches_position faithful (named _ List.mem_cons_self)).bindRelated ?_
      rintro target _ rfl
      refine matches_pop.bind fun y => matches_pop.bind fun x => ?_
      exact (Matches.compute (x.jumpEqual_failsByOperands y)).bind fun holds => branch _ _ _
    all_goals exact matches_malformed h

theorem matches_exit : MatchesFlow K i.exit i'.exit :=
  matches_withOperand h faithful named fun x =>
    (Matches.compute x.exitCode_failsByOperands).bind fun _ => .pure rfl

end

theorem matches_computeTop {f : Value → Except RuntimeError Value}
    (hf : ∀ x, FailsByOperands (f x)) : MatchesSame K (computeTop f) (computeTop f) :=
  matches_pop.bind fun x => (Matches.compute (hf x)).bind fun z => matches_push z

theorem matches_computeTopTwo {f : Value → Value → Except RuntimeError Value}
    (hf : ∀ x y, FailsByOperands (f x y)) :
    MatchesSame K (computeTopTwo f) (computeTopTwo f) :=
  matches_pop.bind fun y => matches_pop.bind fun x =>
    (Matches.compute (hf x y)).bind fun z => matches_push z

/-- A return goes to the position that stands for the other one. -/
theorem matches_returnFromCall : MatchesFlow K returnFromCall returnFromCall := by
  intro c c' related
  unfold MatchesOn
  rw [on_returnFromCall, on_returnFromCall, related.calls]
  cases calls : c.environment.calls with
  | nil => exact ⟨.error .returnWithoutCall, related⟩
  | cons target rest =>
    exact ⟨.ok rfl, related.labels, related.memory, rfl, related.data, related.console⟩

/-- Behind an action that is no jump comes the next instruction. -/
theorem matches_goOn {act act' : Action Unit} (h : MatchesSame K act act') :
    MatchesFlow K (goOn act) (goOn act') :=
  h.bind fun _ => .pure rfl

/-! ### All instructions -/

/-- An instruction does the same to contexts that correspond, and under other names. What it needs
for that depends on its opcode. -/
theorem perform_matches {here here' : Nat} {c c' : Context} (h : i.Renamed K.names i')
    (faithful : K.IsFaithful known) (named : ∀ a ∈ i.args, known a)
    (behind : K.position (here + 1) = here' + 1) (related : K.Relates c c')
    (pops : i.opcode = .popFrame →
      Corresponds K.names K.memory c.environment.memory.popLocal c'.environment.memory.popLocal)
    (shared : i.opcode.usesStreams = true → i.opcode ≠ .breakpoint → K.SharesStreams)
    (shows : i.opcode = .breakpoint → K.ShowsAnything) :
    MatchesOn K (FlowsAlike K) (i.perform here) (i'.perform here') c c' := by
  unfold perform
  rw [h.opcode]
  -- all actions but one do the same to any two contexts that correspond
  by_cases pop : i.opcode = .popFrame
  · rw [pop]
    exact (MatchesOn.changeMemory related (pops pop)).bind fun _ _ _ => .pure rfl
  refine (?_ : MatchesFlow K _ _) related
  cases hop : i.opcode with rw [hop] at shared shows
  | move => exact matches_goOn (matches_computeUnary h faithful named .ok)
  | createFrame =>
    exact matches_goOn (.changeMemory fun _ _ related => .ok (faithful.createTemporary related))
  | pushFrame => exact matches_goOn (.changeMemory fun _ _ => faithful.pushTemporary)
  | popFrame => exact absurd hop pop
  | defVar => exact matches_goOn (matches_declare h faithful named)
  | call => exact matches_jumpAfter h faithful named (matches_pushCall behind)
  | ret => exact matches_returnFromCall
  | pushS => exact matches_goOn (matches_withOperand h faithful named matches_push)
  | popS => exact matches_goOn (matches_popInto h faithful named)
  | clearS => exact matches_goOn matches_clearData
  | binary form op =>
    cases form with
    | direct =>
      exact matches_goOn (matches_computeBinary h faithful named op.apply_failsByOperands)
    | stack => exact matches_goOn (matches_computeTopTwo op.apply_failsByOperands)
  | unary form op =>
    cases form with
    | direct =>
      exact matches_goOn (matches_computeUnary h faithful named op.apply_failsByOperands)
    | stack => exact matches_goOn (matches_computeTop op.apply_failsByOperands)
  | read => exact matches_goOn (matches_readInput h faithful named (shared rfl nofun))
  | write =>
    exact matches_goOn (matches_withOperand h faithful named fun x =>
      matches_print (shared rfl nofun) x.text)
  | concat =>
    exact matches_goOn (matches_computeBinary h faithful named Value.concat_failsByOperands)
  | strLen =>
    exact matches_goOn (matches_computeUnary h faithful named Value.strLen_failsByOperands)
  | getChar =>
    exact matches_goOn (matches_computeBinary h faithful named Value.getChar_failsByOperands)
  | setChar => exact matches_goOn (matches_replaceChar h faithful named)
  | type => exact matches_goOn (matches_storeType h faithful named)
  | label => exact matches_goOn (.pure rfl)
  | jump => exact matches_jumpAfter h faithful named (.pure rfl)
  | jumpIf form equal => exact matches_jumpIf h faithful named form equal
  | exit => exact matches_exit h faithful named
  | dPrint =>
    exact matches_goOn (matches_withOperand h faithful named fun x =>
      matches_report (shared rfl nofun) x.text)
  | breakpoint =>
    exact matches_goOn (Matches.get.bindRelated fun _ _ _ =>
      matches_report_of_showsAnything (shows rfl) _ _)

end Instruction

/-! ## Steps -/

namespace Machine

/-- Two machines are at corresponding positions in the same program, under other names, and in
contexts that correspond. -/
structure Matches (K : Correspondence) (n n' : Machine) : Prop where
  instructions : ∀ j : Nat,
    Option.Rel (Instruction.Renamed K.names) n.instructions[j]? n'.instructions[K.position j]?
  position : n'.position = K.position n.position
  ending : n'.ending = n.ending
  context : K.Relates n.context n'.context

/-- The same result of two machines, or faults of the instructions that are next in both, with the
same error under other names. -/
inductive SameResult (ρ : Renaming) (n n' : Machine) : Except Fault α → Except Fault α → Prop
  | ok (x : α) : SameResult ρ n n' (.ok x) (.ok x)
  | error {i i' : Instruction} (next : n.fetched? = some i) (next' : n'.fetched? = some i')
      (e : RuntimeError) :
      SameResult ρ n n' (.error (.of i e)) (.error (.of i' (e.rename ρ)))

variable {K : Correspondence} {n n' : Machine}

/-- Control goes on in the same way behind two actions that have done the same. -/
theorem Matches.follow (h : n.Matches K n') (i i' : Instruction) {c c' : Context}
    (context : K.Relates c c')
    (behind : K.position (n.position + 1) = n'.position + 1) (events events' : List Event)
    (flow : Flow) :
    (∃ progress, ({ n with context := c }.follow i events flow).result = .ok progress ∧
      ({ n' with context := c' }.follow i' events' (flow.translate K)).result = .ok progress) ∧
    ({ n with context := c }.follow i events flow).machine.Matches K
      ({ n' with context := c' }.follow i' events' (flow.translate K)).machine := by
  cases flow with
  | next => exact ⟨⟨_, rfl, rfl⟩, h.instructions, behind.symm, h.ending, context⟩
  | transfer | resume => exact ⟨⟨_, rfl, rfl⟩, h.instructions, rfl, h.ending, context⟩
  | halt code => exact ⟨⟨_, rfl, rfl⟩, h.instructions, h.position, rfl, context⟩

/-- If the next instructions do the same, so do the steps. -/
theorem Matches.step (h : n.Matches K n')
    (behind : K.position (n.position + 1) = n'.position + 1)
    (performs : ∀ i i', i.Renamed K.names i' → n.fetched? = some i →
      MatchesOn K (FlowsAlike K) (i.perform n.position) (i'.perform n'.position)
        n.context n'.context) :
    SameResult K.names n n' n.step.result n'.step.result ∧
      n.step.machine.Matches K n'.step.machine := by
  have there := h.instructions n.position
  rw [← h.position] at there
  cases running : n.ending with
  | some ending =>
    rw [step_of_ending running, step_of_ending (h.ending.trans running)]
    exact ⟨.ok _, h⟩
  | none =>
    have running' : n'.ending = none := h.ending.trans running
    cases next : n.instructions[n.position]? with
    | none =>
      rw [next] at there
      generalize next' : n'.instructions[n'.position]? = following at there
      cases there
      rw [step_of_end running next, step_of_end running' next']
      exact ⟨.ok _, h.instructions, h.position, rfl, h.context⟩
    | some i =>
      rw [next] at there
      generalize next' : n'.instructions[n'.position]? = following at there
      cases there with
      | @some _ i' renamed =>
        have fetched : n.fetched? = some i := by rw [fetched?, running]; exact next
        have fetched' : n'.fetched? = some i' := by rw [fetched?, running']; exact next'
        obtain ⟨result, left⟩ := performs i i' renamed fetched
        rw [step_of_instruction running next, step_of_instruction running' next']
        generalize (i.perform n.position).on n.context = r at result left ⊢
        generalize (i'.perform n'.position).on n'.context = r' at result left ⊢
        obtain ⟨r, c⟩ := r
        obtain ⟨r', c'⟩ := r'
        cases result with
        | error e => exact ⟨.error fetched fetched' e, h.instructions, h.position, h.ending, left⟩
        | @ok flow _ same =>
          subst same
          obtain ⟨⟨progress, result, result'⟩, machines⟩ :=
            h.follow i i' left behind [.fetched i n.context.environment]
              [.fetched i' n'.context.environment] flow
          simp only [result, result']
          exact ⟨.ok progress, machines⟩

/-! ## Runs -/

section

variable {R : Output → Output → Prop} (console : K.console = Console.AgreesUpTo R)

include console

/-- Machines that correspond are given the same bytes. -/
theorem Matches.supply (h : n.Matches K n') (bytes : List UInt8) :
    (n.supply bytes).Matches K (n'.supply bytes) := by
  obtain ⟨labels, memory, calls, data, streams⟩ := h.context
  rw [console] at streams
  have same := streams.input
  unfold Machine.supply
  cases input : n.context.console.input with
  | lines rest =>
    simp only [same, input]
    exact h
  | stream rest =>
    simp only [same, input]
    refine ⟨h.instructions, h.position, h.ending, labels, memory, calls, data, ?_⟩
    rw [console]
    exact ⟨rfl, streams.output, streams.diagnostic⟩

variable (cleared : ∀ {o o' : Output}, R o o' → R { o with latest := [] } { o' with latest := [] })

include cleared

/-- Machines that correspond forget together what has been passed on. -/
theorem Matches.drain (h : n.Matches K n') : n.drain.Matches K n'.drain := by
  obtain ⟨labels, memory, calls, data, streams⟩ := h.context
  rw [console] at streams
  refine ⟨h.instructions, h.position, h.ending, labels, memory, calls, data, ?_⟩
  rw [console]
  exact ⟨streams.input, congrArg (fun o : Output => { o with latest := [] }) streams.output,
    cleared streams.diagnostic⟩

/-- If the same is done to two machines that correspond, so do the machines that come of it, as long
as the steps lead to such machines. What these steps have in common is given by `S`. -/
theorem Matches.after {S : Machine → Machine → Prop} : ∀ (moves : List Move) {n n' : Machine},
    n.Matches K n' →
    (∀ j ∈ n.stepsIn moves, ∀ j' ∈ n'.stepsIn moves, j.Matches K j' →
      S j j' ∧ j.step.machine.Matches K j'.step.machine) →
    (n.after moves).Matches K (n'.after moves) ∧
      List.Forall₂ S (n.stepsIn moves) (n'.stepsIn moves)
  | [], _, _, h, _ => ⟨h, .nil⟩
  | .step :: moves, n, n', h, steps => by
    obtain ⟨alike, machines⟩ := steps n List.mem_cons_self n' List.mem_cons_self h
    obtain ⟨left, rest⟩ := Matches.after moves machines fun j hj j' hj' =>
      steps j (List.mem_cons_of_mem n hj) j' (List.mem_cons_of_mem n' hj')
    exact ⟨left, .cons alike rest⟩
  | .supply bytes :: moves, _, _, h, steps => Matches.after moves (h.supply console bytes) steps
  | .drain :: moves, _, _, h, steps => Matches.after moves (h.drain console cleared) steps

end

end Machine

end Ippcode
