import Ippcode.Proofs.Code.Signature
import Ippcode.Proofs.Machine.Effect

/-!
# Runs of accepted programs

`Machine.create` accepts a program if every instruction fits its opcode (`fits_of_enterAll`) and
no label is defined twice : `Environment.enter_cases` says what it takes to enter an instruction, and
what this changes. `Machine.Reaches` is about everything that can come of a machine :
steps, and what the outside does to the streams between them. The instructions stay as
they are all the time (`Reaches.instructions`).

Where the way matters by which a machine has come about, it is a list of moves
(`Machine.after`), with the steps among them (`Machine.turnsIn`).
-/

namespace Ippcode

/-! ## Entering instructions -/

namespace Environment

variable {e e' : Environment} {here : Nat} {i : Instruction} {is : List Instruction}

/-- What it takes to enter an instruction, and what it changes : the instruction fits its opcode,
and if it defines a label, this label is new and is put into the table. -/
theorem enter_cases (h : e.enter here i = .ok e') :
    i.Fits ∧ (i.definedLabel? = none ∧ e' = e ∨
      ∃ name, i.definedLabel? = some name ∧ e.labels.lookup name = none ∧
        e' = { e with labels := (name, here) :: e.labels }) := by
  unfold enter at h
  cases checked : i.misfit? with
  | some misfit =>
    rw [checked] at h
    cases h
  | none =>
    refine ⟨Instruction.misfit?_eq_none_iff.mp checked, ?_⟩
    rw [checked] at h
    cases defined : i.definedLabel? with
    | none =>
      rw [defined] at h
      cases h
      exact .inl ⟨rfl, rfl⟩
    | some name =>
      simp only [defined, registerLabel] at h
      cases found : e.labels.lookup name with
      | some _ =>
        rw [found] at h
        cases h
      | none =>
        rw [found] at h
        cases h
        exact .inr ⟨name, rfl, found, rfl⟩

theorem enterAll_cons_eq_ok_iff : e.enterAll here (i :: is) = .ok e' ↔
    ∃ next, e.enter here i = .ok next ∧ next.enterAll (here + 1) is = .ok e' := by
  rw [enterAll]
  cases e.enter here i with
  | error error => simp
  | ok next => simp

end Environment

namespace Machine

variable {m n : Machine}

/-! ## The start -/

theorem fits_of_enterAll : ∀ {e e' : Environment} {here : Nat} {is : List Instruction},
    e.enterAll here is = .ok e' → ∀ i ∈ is, i.Fits
  | _, _, _, [], _, _, hi => nomatch hi
  | e, e', here, i :: is, h, j, hj => by
    obtain ⟨next, first, rest⟩ := Environment.enterAll_cons_eq_ok_iff.mp h
    rcases List.mem_cons.mp hj with rfl | hj
    · exact (Environment.enter_cases first).1
    · exact fits_of_enterAll rest j hj

/-- What a machine starts with once it is accepted. -/
theorem create_eq_ok {p : Program} {console : Console} (h : create p console = .ok m) :
    ∃ e, Environment.empty.enterAll 0 p.instructions = .ok e ∧
      m = ⟨p.instructions.toArray, 0, none, ⟨e, console⟩⟩ := by
  unfold create at h
  cases he : Environment.empty.enterAll 0 p.instructions with
  | error error =>
    rw [he] at h
    cases h
  | ok e =>
    rw [he] at h
    exact ⟨e, rfl, (Except.ok.inj h).symm⟩

theorem create_of_entered {p : Program} (console : Console) {e : Environment}
    (h : Environment.empty.enterAll 0 p.instructions = .ok e) :
    create p console = .ok ⟨p.instructions.toArray, 0, none, ⟨e, console⟩⟩ := by
  rw [create, h]
  rfl

theorem create_of_refused {p : Program} (console : Console) {fault : Fault}
    (h : Environment.empty.enterAll 0 p.instructions = .error fault) :
    create p console = .error fault := by
  rw [create, h]
  rfl

/-! ## What comes of a machine -/

/-- The machines that can come about from another one : by steps, also behind a fault, and by
exchange with the outside between them. -/
inductive Reaches (m : Machine) : Machine → Prop
  | start : Reaches m m
  | step {n : Machine} : Reaches m n → Reaches m n.step.machine
  | supply {n : Machine} (bytes : List UInt8) : Reaches m n → Reaches m (n.supply bytes)
  | drain {n : Machine} : Reaches m n → Reaches m n.drain

/-- No step changes the instructions. -/
@[simp] theorem instructions_step : m.step.machine.instructions = m.instructions := by
  cases running : m.ending with
  | some ending => rw [step_of_ending running]
  | none =>
    cases h : m.instructions[m.position]? with
    | none => rw [step_of_end running h, finish]
    | some i =>
      rw [step_of_instruction running h]
      rcases (i.perform m.position).on m.context with ⟨_ | flow, c⟩
      · rfl
      · cases flow <;> rfl

@[simp] theorem instructions_supply (bytes : List UInt8) :
    (m.supply bytes).instructions = m.instructions := by
  unfold supply
  cases h : m.context.console.input <;> simp only [h]

theorem Reaches.instructions (h : m.Reaches n) : n.instructions = m.instructions := by
  induction h with
  | start => rfl
  | step _ ih => rw [instructions_step, ih]
  | supply bytes _ ih => rw [instructions_supply, ih]
  | drain _ ih => exact ih

/-- What comes of an accepted program has instructions that fit their opcodes. -/
theorem Reaches.fits {p : Program} {console : Console} (created : create p console = .ok m)
    (reached : m.Reaches n) : ∀ i ∈ n.instructions, i.Fits := by
  obtain ⟨e, he, rfl⟩ := create_eq_ok created
  rw [reached.instructions]
  exact fun i hi => fits_of_enterAll he i (List.mem_toArray.mp hi)

/-! ### Exchange with the outside -/

/-- What comes in on a stream changes only the streams. -/
theorem supply_eq (m : Machine) (bytes : List UInt8) :
    ∃ console, m.supply bytes = { m with context := m.context.withConsole console } := by
  unfold supply
  cases h : m.context.console.input with
  | lines rest => exact ⟨m.context.console, by simp only [h]; rfl⟩
  | stream rest => exact ⟨_, by simp only [h]; rfl⟩

@[simp] theorem environment_supply (bytes : List UInt8) :
    (m.supply bytes).context.environment = m.context.environment := by
  obtain ⟨console, same⟩ := m.supply_eq bytes
  rw [same, Context.environment_withConsole]

/-! ### Moves -/

/-- What can happen to a machine. -/
inductive Move where
  | step
  /-- Bytes arrive on the input stream. -/
  | supply (bytes : List UInt8)
  /-- The output streams pass on what they have taken. -/
  | drain

/-- The machine after a move. -/
def move (m : Machine) : Move → Machine
  | .step => m.step.machine
  | .supply bytes => m.supply bytes
  | .drain => m.drain

/-- The machine after moves, one after the other. -/
def after (m : Machine) (moves : List Move) : Machine := moves.foldl move m

/-- The steps among moves, in their order. -/
def turnsIn : Machine → List Move → List Turn
  | _, [] => []
  | m, .step :: moves => m.step :: turnsIn m.step.machine moves
  | m, .supply bytes :: moves => turnsIn (m.supply bytes) moves
  | m, .drain :: moves => turnsIn m.drain moves

theorem Reaches.after : ∀ {n : Machine} (moves : List Move), m.Reaches n → m.Reaches (n.after moves)
  | _, [], h => h
  | _, .step :: moves, h => Reaches.after moves h.step
  | _, .supply bytes :: moves, h => Reaches.after moves (h.supply bytes)
  | _, .drain :: moves, h => Reaches.after moves h.drain

end Machine

end Ippcode
