import Ippcode.Proofs.Machine.Outcome

/-!
# Where control can go

`Machine.Controlled` is what holds of the position, the unfinished calls, the labels and the ending
of a machine all the time : positions stay within the program or just behind it, control comes back
behind calls only, and labels are where they are written. A step keeps it (`step_controlled`), so it
holds of everything that comes of an accepted program (`create_controlled`).

`Instruction.Controls` is the part of `Instruction.Does` that this takes.
-/

namespace Ippcode

/-! ## Labels -/

/-- The instruction at this position defines this label. -/
def Program.Defines (p : Program) (name : String) (position : Nat) : Prop :=
  ∃ i, p.instructions[position]? = some i ∧ i.opcode = .label ∧ i.args = [.label name]

theorem Instruction.definedLabel?_eq_some_iff {i : Instruction} {name : String} :
    i.definedLabel? = some name ↔ i.opcode = .label ∧ i.args = [.label name] := by
  unfold definedLabel?
  constructor
  · intro h
    split at h
    · rename_i hop hargs
      rw [hop, hargs, Option.some.inj h]
      exact ⟨rfl, rfl⟩
    · cases h
  · rintro ⟨hop, hargs⟩
    rw [hop, hargs]

namespace Environment

variable {e e' : Environment} {here : Nat}

/-- Entering an instruction changes only the labels, by the one that the instruction defines. -/
theorem enter_labels {i : Instruction} (h : e.enter here i = .ok e') :
    e' = { e with labels := e'.labels } ∧ ∀ name position,
      (e'.labels.lookup name = some position ↔
        e.labels.lookup name = some position ∨ i.definedLabel? = some name ∧ position = here) := by
  obtain ⟨-, ⟨plain, rfl⟩ | ⟨other, defined, free, rfl⟩⟩ := enter_cases h
  · simp [plain]
  · refine ⟨rfl, fun name position => ?_⟩
    rw [defined]
    by_cases same : name = other
    · subst same
      simp [free, eq_comm]
    · have differ : (name == other) = false := beq_false_of_ne same
      simp [List.lookup_cons, differ, Ne.symm same]

/-- Entering instructions changes only the labels, by those that the instructions define. -/
theorem enterAll_labels : ∀ {e : Environment} {here : Nat} {is : List Instruction},
    e.enterAll here is = .ok e' →
      e' = { e with labels := e'.labels } ∧ ∀ name position,
        (e'.labels.lookup name = some position ↔
          e.labels.lookup name = some position ∨
            ∃ j i, is[j]? = some i ∧ i.definedLabel? = some name ∧ position = here + j)
  | e, here, [], h => by
    cases h
    simp
  | e, here, i :: is, h => by
    obtain ⟨next, first, rest⟩ := enterAll_cons_eq_ok_iff.mp h
    obtain ⟨rest, found⟩ := enterAll_labels rest
    obtain ⟨kept, entry⟩ := enter_labels first
    refine ⟨rest.trans (by rw [kept]), fun name position => ?_⟩
    rw [found, entry, or_assoc]
    refine or_congr_right ⟨?_, ?_⟩
    · rintro (⟨defined, rfl⟩ | ⟨j, i', hj, defined, rfl⟩)
      · exact ⟨0, i, rfl, defined, rfl⟩
      · exact ⟨j + 1, i', hj, defined, by omega⟩
    · rintro ⟨_ | j, i', hj, defined, rfl⟩
      · obtain rfl : i = i' := Option.some.inj hj
        exact .inl ⟨defined, rfl⟩
      · exact .inr ⟨j, i', hj, defined, by omega⟩

end Environment

/-! ## Control in one instruction -/

theorem Value.le_of_exitCode {x : Value} {code : Nat} (h : x.exitCode = .ok code) : code ≤ 49 := by
  unfold exitCode at h
  obtain ⟨n, -, h⟩ := bind_eq_ok_iff.mp h
  split at h
  · rename_i range
    obtain rfl := Except.ok.inj h
    have upper : n.toInt ≤ 49 := range.2
    omega
  · cases h

namespace Instruction

variable {i : Instruction} {here : Nat} {c c' : Context} {flow : Flow}

/-- What a successful instruction does to control : where it goes, and what becomes of the
unfinished calls. -/
inductive Controls (i : Instruction) (here : Nat) (e e' : Environment) : Flow → Prop
  | next (op : i.opcode ≠ .call ∧ i.opcode ≠ .ret) (calls : e'.calls = e.calls) :
      Controls i here e e' .next
  | jump (op : i.opcode ≠ .call ∧ i.opcode ≠ .ret) (calls : e'.calls = e.calls) {label : String}
      {target : Nat} (named : i.args.head? = some (.label label))
      (found : e.label label = .ok target) : Controls i here e e' (.transfer label target)
  | call (op : i.opcode = .call) (calls : e'.calls = (here + 1) :: e.calls) {label : String}
      {target : Nat} (named : i.args.head? = some (.label label))
      (found : e.label label = .ok target) : Controls i here e e' (.transfer label target)
  | ret (op : i.opcode = .ret) {target : Nat} (calls : e.calls = target :: e'.calls) :
      Controls i here e e' (.resume target)
  | exit (op : i.opcode = .exit) (calls : e'.calls = e.calls) {code : Nat} (small : code ≤ 49) :
      Controls i here e e' (.halt code)

theorem Compares.head?_args {form : Form} {label : String} {x y : Value}
    (h : i.Compares c form label x y c') : i.args.head? = some (.label label) := by
  cases h with
  | direct args left right => rw [args, List.head?_cons]
  | stack args operands => rw [args, List.head?_cons]

theorem Compares.eq_withData {form : Form} {label : String} {x y : Value}
    (h : i.Compares c form label x y c') : ∃ data, c' = c.withData data := by
  cases h with
  | direct args left right => exact ⟨c.environment.data, rfl⟩
  | stack args operands => exact ⟨_, rfl⟩

theorem Compares.unique {form : Form} {label label' : String} {x x' y y' : Value} {c'' : Context}
    (h : i.Compares c form label x y c') (h' : i.Compares c form label' x' y' c'') :
    x = x' ∧ y = y' := by
  cases h with
  | direct args left right =>
    cases h' with
    | direct args' left' right' =>
      rw [args] at args'
      cases args'
      exact ⟨Except.ok.inj (left.symm.trans left'), Except.ok.inj (right.symm.trans right')⟩
  | stack args operands =>
    cases h' with
    | stack args' operands' =>
      rw [operands] at operands'
      cases operands'
      exact ⟨rfl, rfl⟩

theorem storesResult_ne (h : i.opcode.storesResult = true) :
    i.opcode ≠ .call ∧ i.opcode ≠ .ret := by
  constructor <;> intro op <;> rw [op] at h <;> cases h

/-- An instruction never changes the labels, and it does one of these things to control. -/
theorem Does.controls (h : i.Does here c flow c') :
    c'.environment.labels = c.environment.labels ∧
      i.Controls here c.environment c'.environment flow := by
  cases h with
  | store op stores =>
    obtain ⟨v, rest, m, -, -, rfl⟩ := stores
    exact ⟨rfl, .next (storesResult_ne op) rfl⟩
  | read op args flushed stores =>
    obtain ⟨v, rest, m, -, -, rfl⟩ := stores
    exact ⟨rfl, .next (by simp [op]) rfl⟩
  | pop op top stores =>
    obtain ⟨v, rest, m, -, -, rfl⟩ := stores
    exact ⟨rfl, .next (by simp [op]) rfl⟩
  | report op accepted => exact ⟨rfl, .next (by rcases op with op | op <;> simp [op]) rfl⟩
  | jump op args found =>
    exact ⟨rfl, .jump (by simp [op]) rfl (by rw [args, List.head?_cons]) found⟩
  | call op args found => exact ⟨rfl, .call op rfl (by rw [args, List.head?_cons]) found⟩
  | ret op top => exact ⟨rfl, .ret op top⟩
  | taken op operands found holds =>
    have named := operands.head?_args
    obtain ⟨data, rfl⟩ := operands.eq_withData
    exact ⟨rfl, .jump (by simp [op]) (c.calls_withData data) named found⟩
  | skipped op operands holds =>
    obtain ⟨data, rfl⟩ := operands.eq_withData
    exact ⟨rfl, .next (by simp [op]) rfl⟩
  | exit op args value accepted => exact ⟨rfl, .exit op rfl (Value.le_of_exitCode accepted)⟩
  | createFrame op | pushFrame op | popFrame op | declare op | push op | clear op | computeTop op
  | computeTopTwo op | write op | label op => exact ⟨rfl, .next (by simp [op]) rfl⟩

/-- An instruction that goes to its label if it succeeds : a jump, a call, or a conditional jump
whose operands compare as it asks. -/
inductive Jumps (i : Instruction) (c : Context) : Prop
  | always (op : i.opcode = .jump ∨ i.opcode = .call)
  | compared {form : Form} {equal : Bool} (op : i.opcode = .jumpIf form equal) {label : String}
      {x y : Value} {c' : Context} (operands : i.Compares c form label x y c')
      (holds : x.jumpEqual y = .ok equal)

/-- An instruction that goes to its label does so. -/
theorem Does.transfer_of_jumps (h : i.Does here c flow c') (jumps : i.Jumps c) :
    ∃ label target, flow = .transfer label target := by
  cases jumps with
  | always op =>
    cases h with
    | jump | call | taken => exact ⟨_, _, rfl⟩
    | store other | report other =>
      rcases op with op | op <;> simp [op, Opcode.storesResult] at other
    | _ => simp_all
  | compared op operands holds =>
    cases h with
    | jump | call | taken => exact ⟨_, _, rfl⟩
    | skipped op' operands' differ =>
      obtain ⟨rfl, rfl⟩ := Opcode.jumpIf.inj (op.symm.trans op')
      obtain ⟨rfl, rfl⟩ := operands.unique operands'
      rw [holds] at differ
      simp at differ
    | store other | report other => simp [op, Opcode.storesResult] at other
    | _ => simp_all

end Instruction

/-! ## Control in a machine -/

namespace Machine

variable {p : Program} {m n : Machine}

/-- What holds of control in a machine that executes a program. -/
structure Controlled (p : Program) (n : Machine) : Prop where
  instructions : n.instructions = p.instructions.toArray
  position : n.position ≤ p.instructions.length
  /-- Each unfinished call goes on behind a call. -/
  calls : ∀ r ∈ n.context.environment.calls,
    ∃ here i, p.instructions[here]? = some i ∧ i.opcode = .call ∧ r = here + 1
  labels : ∀ name position,
    n.context.environment.labels.lookup name = some position ↔ p.Defines name position
  completed : n.ending = some .completed → n.position = p.instructions.length
  exited : ∀ code, n.ending = some (.exit code) →
    code ≤ 49 ∧ ∃ i, p.instructions[n.position]? = some i ∧ i.opcode = .exit

namespace Controlled

/-- An instruction is at a position of the program. -/
theorem lt_length (h : n.Controlled p) {k : Nat} {i : Instruction}
    (next : n.instructions[k]? = some i) :
    p.instructions[k]? = some i ∧ k < p.instructions.length := by
  rw [h.instructions, List.getElem?_toArray] at next
  exact ⟨next, (List.getElem?_eq_some_iff.mp next).1⟩

/-- Control looks neither at the memory nor at the data stack nor at the streams. -/
theorem of_context (h : n.Controlled p) {c : Context}
    (labels : c.environment.labels = n.context.environment.labels)
    (calls : c.environment.calls = n.context.environment.calls) :
    ({ n with context := c } : Machine).Controlled p :=
  ⟨h.instructions, h.position, calls ▸ h.calls, labels ▸ h.labels, h.completed, h.exited⟩

/-- Control may go to a position of the program, or just behind it, while a machine is running. -/
theorem moveTo (h : n.Controlled p) (running : n.ending = none) {target : Nat} {c : Context}
    (inside : target ≤ p.instructions.length)
    (labels : c.environment.labels = n.context.environment.labels)
    (calls : ∀ r ∈ c.environment.calls,
      ∃ here i, p.instructions[here]? = some i ∧ i.opcode = .call ∧ r = here + 1) :
    (n.moveTo target c).Controlled p := by
  refine ⟨h.instructions, inside, calls, labels ▸ h.labels, fun ended => ?_, fun _ ended => ?_⟩
  · cases running.symm.trans ended
  · cases running.symm.trans ended

/-- A label is at a position of the program. -/
theorem defines_of_label (h : n.Controlled p) {label : String} {target : Nat}
    (found : n.context.environment.label label = .ok target) :
    p.Defines label target ∧ target < p.instructions.length := by
  have defines := (h.labels label target).mp (Environment.label_eq_ok_iff.mp found)
  have ⟨i, there, _⟩ := defines
  exact ⟨defines, (List.getElem?_eq_some_iff.mp there).1⟩

/-- A call remembers a position behind a call. -/
theorem mem_calls (h : n.Controlled p) {r : Nat} (hr : r ∈ n.context.environment.calls) :
    1 ≤ r ∧ r ≤ p.instructions.length := by
  obtain ⟨here, i, there, -, rfl⟩ := h.calls r hr
  have inside := (List.getElem?_eq_some_iff.mp there).1
  omega

/-- What follows a successful instruction is as it should be. -/
theorem follow (h : n.Controlled p) (running : n.ending = none) {i : Instruction}
    (next : n.instructions[n.position]? = some i) {flow : Flow} {c : Context}
    (does : i.Does n.position n.context flow c) (events : List Event) :
    ({ n with context := c }.follow i events flow).machine.Controlled p := by
  obtain ⟨labels, controls⟩ := does.controls
  obtain ⟨there, inside⟩ := h.lt_length next
  cases controls with
  | next op calls => exact h.moveTo running inside labels (calls ▸ h.calls)
  | jump op calls named found =>
    exact h.moveTo running (h.defines_of_label found).2.le labels (calls ▸ h.calls)
  | call op calls named found =>
    refine h.moveTo running (h.defines_of_label found).2.le labels ?_
    rw [calls]
    intro r hr
    rcases List.mem_cons.mp hr with rfl | hr
    · exact ⟨n.position, i, there, op, rfl⟩
    · exact h.calls r hr
  | ret op calls =>
    have top := h.mem_calls (calls ▸ List.mem_cons_self)
    exact h.moveTo running top.2 labels fun r hr => h.calls r (calls ▸ List.mem_cons_of_mem _ hr)
  | exit op calls small =>
    refine ⟨h.instructions, h.position, calls ▸ h.calls, labels ▸ h.labels, nofun, ?_⟩
    intro code ended
    obtain rfl := Termination.exit.inj (Option.some.inj ended)
    exact ⟨small, i, there, op⟩

end Controlled

theorem create_calls {console : Console} (created : create p console = .ok m) :
    m.context.environment.calls = [] := by
  obtain ⟨e, he, rfl⟩ := create_eq_ok created
  exact congrArg Environment.calls (Environment.enterAll_labels he).1

theorem create_start {console : Console} (created : create p console = .ok m) :
    m.Controlled p := by
  have noCalls := create_calls created
  obtain ⟨e, he, rfl⟩ := create_eq_ok created
  refine ⟨rfl, Nat.zero_le _, ?_, fun name position => ?_, nofun, nofun⟩
  · rw [noCalls]
    exact nofun
  · rw [(Environment.enterAll_labels he).2]
    simp [Environment.empty, Program.Defines, Instruction.definedLabel?_eq_some_iff]

theorem step_controlled (h : n.Controlled p) (fits : ∀ i ∈ n.instructions, i.Fits) :
    n.step.machine.Controlled p := by
  have outcome := step_outcome fits
  generalize n.step = t at outcome ⊢
  cases outcome with
  | ended ends => exact h
  | completed running next =>
    have behind : n.position = p.instructions.length := by
      rw [h.instructions, List.getElem?_toArray, List.getElem?_eq_none_iff] at next
      exact Nat.le_antisymm h.position next
    exact ⟨h.instructions, h.position, h.calls, h.labels, fun _ => behind, nofun⟩
  | done running next does => exact h.follow running next does _
  | failed running next fails => exact h.of_context fails.labels fails.calls

theorem Reaches.controlled {console : Console} (created : create p console = .ok m)
    (reached : m.Reaches n) : n.Controlled p := by
  induction reached with
  | start => exact create_start created
  | step reached ih => exact step_controlled ih (reached.fits created)
  | @supply n bytes _ ih =>
    obtain ⟨console, same⟩ := supply_eq n bytes
    rw [same]
    exact ih.of_context rfl rfl
  | drain _ ih => exact ih.of_context rfl rfl

/-- A step that reports an ending has reached it where the machine stands. -/
theorem step_finished (fits : ∀ i ∈ n.instructions, i.Fits) {ending : Termination}
    (h : n.step.result = .ok (.finished ending)) :
    n.step.machine.ending = some ending ∧ n.step.machine.position = n.position := by
  have outcome := step_outcome fits
  generalize n.step = t at h outcome ⊢
  cases outcome with
  | ended ends =>
    cases h
    exact ⟨ends, rfl⟩
  | completed running next =>
    cases h
    exact ⟨rfl, rfl⟩
  | @done running i next flow c does =>
    cases flow with
    | halt code =>
      cases h
      exact ⟨rfl, rfl⟩
    | next | transfer | resume => cases h
  | failed running next fails => cases h

theorem step_labels (fits : ∀ i ∈ n.instructions, i.Fits) :
    n.step.machine.context.environment.labels = n.context.environment.labels := by
  have outcome := step_outcome fits
  generalize n.step = t at outcome ⊢
  cases outcome with
  | ended ends => rfl
  | completed running next => rfl
  | @done running i next flow c does => cases flow <;> exact does.controls.1
  | failed running next fails => exact fails.labels

theorem Reaches.labels {console : Console} (created : create p console = .ok m)
    (reached : m.Reaches n) : n.context.environment.labels = m.context.environment.labels := by
  induction reached with
  | start => rfl
  | step reached ih => exact (step_labels (reached.fits created)).trans ih
  | supply bytes _ ih => rw [environment_supply, ih]
  | drain _ ih => exact ih

/-- A successful step of an instruction that goes to its label ends at that label. -/
theorem step_jumps (h : n.Controlled p) (fits : ∀ i ∈ n.instructions, i.Fits)
    (running : n.ending = none) {i : Instruction} (next : n.instructions[n.position]? = some i)
    (jumps : i.Jumps n.context) {progress : Progress} (ok : n.step.result = .ok progress) :
    ∃ label, i.args.head? = some (.label label) ∧ p.Defines label n.step.machine.position ∧
      n.step.machine.position < p.instructions.length := by
  have outcome := step_outcome fits
  generalize n.step = t at ok outcome ⊢
  cases outcome with
  | ended ends => cases running.symm.trans ends
  | completed _ next' => cases next.symm.trans next'
  | done _ next' does =>
    cases next.symm.trans next'
    obtain ⟨label, target, rfl⟩ := does.transfer_of_jumps jumps
    cases does.controls.2 with
    | jump op calls named found | call op calls named found =>
      exact ⟨label, named, h.defines_of_label found⟩
  | failed _ next' fails => cases ok

/-- Whatever happens to an accepted program, its control stays within bounds. Its labels are those
that it was created with, and each is where it is defined; a jump, a call or a conditional jump that
is taken leads to the label that it names; the program completes only behind its last instruction,
and it ends with an exit code only at an instruction for that. -/
theorem create_controlled {console : Console} (created : create p console = .ok m)
    (reached : m.Reaches n) :
    n.Controlled p ∧ n.context.environment.labels = m.context.environment.labels ∧
      (∀ r ∈ n.context.environment.calls, 1 ≤ r ∧ r ≤ p.instructions.length) ∧
      (∀ i progress, n.ending = none → p.instructions[n.position]? = some i → i.Jumps n.context →
        n.step.result = .ok progress →
        ∃ label, i.args.head? = some (.label label) ∧ p.Defines label n.step.machine.position ∧
          n.step.machine.position < p.instructions.length) ∧
      (n.step.result = .ok (.finished .completed) → n.position = p.instructions.length) ∧
      ∀ code, n.step.result = .ok (.finished (.exit code)) →
        code ≤ 49 ∧ ∃ i, p.instructions[n.position]? = some i ∧ i.opcode = .exit := by
  have controlled := reached.controlled created
  have fits := reached.fits created
  have stepped := step_controlled controlled fits
  refine ⟨controlled, reached.labels created, fun r hr => controlled.mem_calls hr,
    fun i progress running next jumps ok => ?_, fun ok => ?_, fun code ok => ?_⟩
  · rw [← List.getElem?_toArray, ← controlled.instructions] at next
    exact step_jumps controlled fits running next jumps ok
  · obtain ⟨ending, same⟩ := step_finished fits ok
    exact same ▸ stepped.completed ending
  · obtain ⟨ending, same⟩ := step_finished fits ok
    exact same ▸ stepped.exited code ending

/-- A program whose last instruction is a call. -/
def calling : Program :=
  .numbered [(.jump, [.label "main"]), (.label, [.label "nothing"]), (.ret, []),
    (.label, [.label "main"]), (.call, [.label "nothing"])]

/-- While the call is not finished it is to go on behind the program. -/
theorem create_controlled_calling :
    ∃ m : Machine, create calling ⟨.stream [], .unlimited, .unlimited⟩ = .ok m ∧
      calling.Defines "main" m.step.machine.position ∧
      (m.after [.step, .step, .step]).Controlled calling ∧
      (m.after [.step, .step, .step]).context.environment.calls = [5] ∧
      (m.after [.step, .step, .step, .step, .step]).position = calling.instructions.length := by
  have created : create calling ⟨.stream [], .unlimited, .unlimited⟩ = .ok _ := rfl
  obtain ⟨-, -, -, jumps, -⟩ := create_controlled created .start
  obtain ⟨label, named, defines, -⟩ := jumps _ .running rfl rfl (.always (.inl rfl)) rfl
  cases named
  have inside := create_controlled created (Reaches.start.after [.step, .step, .step])
  have behind :=
    create_controlled created (Reaches.start.after [.step, .step, .step, .step, .step])
  exact ⟨_, created, defines, inside.1, rfl, behind.2.2.2.2.1 rfl⟩

end Machine

end Ippcode
