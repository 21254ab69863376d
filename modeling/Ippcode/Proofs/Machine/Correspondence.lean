import Ippcode.Proofs.Machine.Footprint
import Ippcode.Proofs.Operation

/-!
# Contexts that correspond

What a program can find out about its surroundings is what the operations of its memory and its
streams answer. A `Correspondence` says what may take the place of what in a second context : it
gives names and positions for those of the first one, and says which memories and which streams may
stand for each other. What has to be shown of it are statements about the operations of a memory
(`Correspondence.IsFaithful`), and about single texts (`Correspondence.SharesStreams`).

Results correspond if they are both values, or the same error under other names (`Corresponds`).
-/

namespace Ippcode

/-! ## Other names -/

/-- The names that stand for the labels and the variables of a program. -/
structure Renaming where
  ofLabel : String → String
  ofVariable : String → String

/-- Every name stands for itself. -/
def Renaming.keep : Renaming := ⟨id, id⟩

variable {ρ : Renaming}

/-- The variable under its other name, in the same frame. -/
def VariableName.rename (ρ : Renaming) (v : VariableName) : VariableName :=
  { v with name := ρ.ofVariable v.name }

/-- The argument with its other name, if it has one. -/
def Argument.rename (ρ : Renaming) : Argument → Argument
  | var v => var (v.rename ρ)
  | label name => label (ρ.ofLabel name)
  | arg => arg

/-- The error with other names. -/
def RuntimeError.rename (ρ : Renaming) : RuntimeError → RuntimeError
  | duplicateLabel name => duplicateLabel (ρ.ofLabel name)
  | undefinedLabel name => undefinedLabel (ρ.ofLabel name)
  | undefinedVariable v => undefinedVariable (v.rename ρ)
  | redefinition v => redefinition (v.rename ρ)
  | uninitialized v => uninitialized (v.rename ρ)
  | error => error

/-- Under the same names everything is as it was. -/
@[simp] theorem Argument.rename_keep (a : Argument) : a.rename .keep = a := by
  cases a <;> rfl

@[simp] theorem RuntimeError.rename_keep (e : RuntimeError) : e.rename .keep = e := by
  cases e <;> rfl

/-- An error about operands names nothing. -/
theorem RuntimeError.rename_of_isOperand {e : RuntimeError} (h : e.IsOperand) : e.rename ρ = e := by
  cases e <;> first | exact h.elim | rfl

namespace Argument

variable {a : Argument} {name : String}

/-- A label is still a label under another name. -/
theorem rename_eq_label : a.rename ρ = .label name ↔ ∃ n, a = .label n ∧ name = ρ.ofLabel n := by
  cases a <;> simp [rename, eq_comm]

@[simp] theorem kind_rename : (a.rename ρ).kind = a.kind := by
  cases a <;> rfl

/-- Whether an argument fits does not depend on names. -/
@[simp] theorem fits_rename (kind : OperandKind) : (a.rename ρ).fits kind = a.fits kind := by
  cases a <;> cases kind <;> rfl

end Argument

namespace Instruction

/-- The second instruction does what the first one says, under other names. Its order does not
matter. -/
structure Renamed (ρ : Renaming) (i i' : Instruction) : Prop where
  opcode : i'.opcode = i.opcode
  args : i'.args = i.args.map (Argument.rename ρ)

theorem Renamed.keep (i : Instruction) : i.Renamed .keep i :=
  ⟨rfl, (List.map_id'' Argument.rename_keep _).symm⟩

/-- Under other names the same argument is the first one that does not fit. -/
theorem misplaced?_rename (opcode : Opcode) : ∀ (position : Nat) (kinds : List OperandKind)
    (args : List Argument),
    misplaced? opcode position kinds (args.map (Argument.rename ρ)) =
      misplaced? opcode position kinds args
  | _, [], args => by cases args <;> rfl
  | _, _ :: _, [] => rfl
  | position, kind :: kinds, a :: args => by
    rw [List.map_cons, misplaced?, misplaced?, misplaced?_rename opcode (position + 1) kinds args,
      Argument.fits_rename, Argument.kind_rename]

/-- Whether an instruction fits its opcode is no matter of names. -/
theorem Renamed.misfit? {i i' : Instruction} (h : i.Renamed ρ i') : i'.misfit? = i.misfit? := by
  simp only [Instruction.misfit?, h.opcode, h.args, List.length_map, misplaced?_rename]

end Instruction

/-! ## Corresponding results -/

/-- Two results are both values, which are related, or the same error under other names. -/
inductive Corresponds (ρ : Renaming) (R : α → β → Prop) :
    Except RuntimeError α → Except RuntimeError β → Prop
  | ok {x : α} {y : β} (related : R x y) : Corresponds ρ R (.ok x) (.ok y)
  | error (e : RuntimeError) : Corresponds ρ R (.error e) (.error (e.rename ρ))

namespace Corresponds

variable {r : Except RuntimeError α}

/-- A result corresponds to what becomes of its value. -/
theorem map_keep {R : α → β → Prop} {g : α → β} (related : ∀ x, r = .ok x → R x (g x)) :
    Corresponds .keep R r (r.map g) := by
  cases r with
  | ok x => exact .ok (related x rfl)
  | error e =>
    have := Corresponds.error (ρ := .keep) (R := R) e
    rwa [RuntimeError.rename_keep] at this

/-- A result corresponds to itself. -/
theorem rfl_keep {R : α → α → Prop} (same : ∀ x, R x x) : Corresponds .keep R r r := by
  have := map_keep (r := r) (R := R) (g := id) fun x _ => same x
  rwa [Except.map_id] at this

/-- If values are related by a function, this function gives the second result. -/
theorem eq_map {r' : Except RuntimeError β} {g : α → β}
    (h : Corresponds .keep (fun x y => y = g x) r r') : r' = r.map g := by
  cases h with
  | ok related => rw [related, map_ok]
  | error e => rw [RuntimeError.rename_keep, map_error]

/-- Steps one after another correspond if each of them does. -/
theorem bind {R : α → β → Prop} {S : γ → δ → Prop} {r' : Except RuntimeError β}
    {k : α → Except RuntimeError γ} {k' : β → Except RuntimeError δ} (first : Corresponds ρ R r r')
    (rest : ∀ x y, R x y → Corresponds ρ S (k x) (k' y)) :
    Corresponds ρ S (r >>= k) (r' >>= k') := by
  cases first with
  | ok related => exact rest _ _ related
  | error e => exact .error e

/-- An operation does not know names. -/
theorem of_operands (h : FailsByOperands r) : Corresponds ρ Eq r r := by
  cases r with
  | ok x => exact .ok rfl
  | error e =>
    have := Corresponds.error (ρ := ρ) (R := @Eq α) e
    rwa [RuntimeError.rename_of_isOperand (h e rfl)] at this

end Corresponds

/-! ## Corresponding contexts -/

/-- What may stand for what in a second context. -/
structure Correspondence where
  names : Renaming
  /-- The position that stands for one of the first context. -/
  position : Nat → Nat
  labels : List (String × Nat) → List (String × Nat) → Prop
  memory : Memory → Memory → Prop
  console : Console → Console → Prop

namespace Correspondence

variable (K : Correspondence)

/-- Two contexts correspond in all their parts. -/
structure Relates (c c' : Context) : Prop where
  labels : K.labels c.environment.labels c'.environment.labels
  memory : K.memory c.environment.memory c'.environment.memory
  calls : c'.environment.calls = c.environment.calls.map K.position
  data : c'.environment.data = c.environment.data
  console : K.console c.console c'.console

/-- Corresponding memories and labels answer alike, and correspond again when the same has been done
to them. This is about the arguments that are `known`. -/
structure IsFaithful (known : Argument → Prop) : Prop where
  lookup : ∀ {labels labels' name}, K.labels labels labels' → known (.label name) →
    labels'.lookup (K.names.ofLabel name) = (labels.lookup name).map K.position
  get : ∀ {m m' v}, K.memory m m' → known (.var v) →
    Corresponds K.names (fun w w' => w'.value = w.value) (m.get v) (m'.get (v.rename K.names))
  assign : ∀ {m m' v} (x : Value), K.memory m m' → known (.var v) →
    Corresponds K.names K.memory (m.assign v x) (m'.assign (v.rename K.names) x)
  declare : ∀ {m m' v}, K.memory m m' → known (.var v) →
    Corresponds K.names K.memory (m.declare v) (m'.declare (v.rename K.names))
  createTemporary : ∀ {m m'}, K.memory m m' → K.memory m.createTemporary m'.createTemporary
  pushTemporary : ∀ {m m'}, K.memory m m' →
    Corresponds K.names K.memory m.pushTemporary m'.pushTemporary

/-- Corresponding streams give and take the same, and correspond afterwards. -/
structure SharesStreams : Prop where
  input : ∀ {k k'}, K.console k k' → k'.input = k.input
  output : ∀ {k k'}, K.console k k' → k'.output = k.output
  withInput : ∀ {k k'} (input : Input), K.console k k' →
    K.console { k with input := input } { k' with input := input }
  withOutput : ∀ {k k'} (output : Output), K.console k k' →
    K.console { k with output := output } { k' with output := output }
  report : ∀ {k k'} (bytes : List UInt8), K.console k k' →
    (k'.diagnostic.write bytes).1 = (k.diagnostic.write bytes).1 ∧
      K.console { k with diagnostic := (k.diagnostic.write bytes).2 }
        { k' with diagnostic := (k'.diagnostic.write bytes).2 }

/-- Corresponding diagnostic streams refuse nothing, and correspond whatever is shown. -/
def ShowsAnything : Prop :=
  ∀ k k' bytes bytes', K.console k k' →
    (k.diagnostic.write bytes).1 = .ok () ∧ (k'.diagnostic.write bytes').1 = .ok () ∧
      K.console { k with diagnostic := (k.diagnostic.write bytes).2 }
        { k' with diagnostic := (k'.diagnostic.write bytes').2 }

/-! ### The same memory -/

/-- The second context has the same memory under the same names. -/
def withSameMemory (position : Nat → Nat)
    (labels : List (String × Nat) → List (String × Nat) → Prop)
    (console : Console → Console → Prop) : Correspondence :=
  ⟨.keep, position, labels, fun m m' => m' = m, console⟩

variable {position : Nat → Nat} {labels : List (String × Nat) → List (String × Nat) → Prop}
  {console : Console → Console → Prop}

/-- One memory under one name answers itself alike. -/
theorem isFaithful_withSameMemory
    (lookup : ∀ {ls ls'}, labels ls ls' → ∀ name, ls'.lookup name = (ls.lookup name).map position) :
    (withSameMemory position labels console).IsFaithful fun _ => True where
  lookup h _ := lookup h _
  get h _ := h ▸ .rfl_keep fun _ => rfl
  assign _ h _ := h ▸ .rfl_keep fun _ => rfl
  declare h _ := h ▸ .rfl_keep fun _ => rfl
  createTemporary h := h ▸ rfl
  pushTemporary h := h ▸ .rfl_keep fun _ => rfl

theorem popLocal_withSameMemory {m m' : Memory}
    (h : (withSameMemory position labels console).memory m m') :
    Corresponds .keep (withSameMemory position labels console).memory m.popLocal m'.popLocal :=
  h ▸ .rfl_keep fun _ => rfl

end Correspondence

/-! ### Streams that differ in what is shown -/

/-- Streams that are the same except for the diagnostic ones, which are related. -/
structure Console.AgreesUpTo (R : Output → Output → Prop) (k k' : Console) : Prop where
  input : k'.input = k.input
  output : k'.output = k.output
  diagnostic : R k.diagnostic k'.diagnostic

/-- Two streams without a limit. -/
def Output.BothUnlimited (o o' : Output) : Prop := o.room = none ∧ o'.room = none

/-- A stream without a limit takes everything, and still has none. -/
theorem Output.write_of_room {o : Output} (h : o.room = none) (bytes : List UInt8) :
    (o.write bytes).1 = .ok () ∧ (o.write bytes).2.room = none := by
  simp [write, fitting, h]

/-- Streams that are related give the same answer to a text, and are related afterwards. -/
def Output.WritesAlike (R : Output → Output → Prop) : Prop :=
  ∀ {o o' : Output} (bytes : List UInt8), R o o' →
    (o'.write bytes).1 = (o.write bytes).1 ∧ R (o.write bytes).2 (o'.write bytes).2

theorem Output.writesAlike_eq : WritesAlike Eq := fun _ h => h ▸ ⟨rfl, rfl⟩

/-- Streams that take everything write alike, whatever they have taken before. -/
theorem Output.writesAlike_bothUnlimited : WritesAlike BothUnlimited := by
  intro o o' bytes h
  obtain ⟨accepted, room⟩ := write_of_room h.1 bytes
  obtain ⟨accepted', room'⟩ := write_of_room h.2 bytes
  exact ⟨accepted'.trans accepted.symm, room, room'⟩

namespace Correspondence

variable {K : Correspondence} {R : Output → Output → Prop}

/-- If streams that correspond write alike, the same texts can be sent to both. -/
theorem sharesStreams_of_agreesUpTo (console : K.console = Console.AgreesUpTo R)
    (same : Output.WritesAlike R) : K.SharesStreams := by
  constructor <;> rw [console]
  case input => exact Console.AgreesUpTo.input
  case output => exact Console.AgreesUpTo.output
  case withInput => exact fun input h => ⟨rfl, h.output, h.diagnostic⟩
  case withOutput => exact fun output h => ⟨h.input, rfl, h.diagnostic⟩
  case report =>
    intro k k' bytes h
    obtain ⟨answer, left⟩ := same bytes h.diagnostic
    exact ⟨answer, h.input, h.output, left⟩

/-- Streams that take everything can even be sent different texts. -/
theorem showsAnything_of_agreesUpTo
    (console : K.console = Console.AgreesUpTo Output.BothUnlimited) : K.ShowsAnything := by
  unfold ShowsAnything
  rw [console]
  intro k k' bytes bytes' h
  obtain ⟨accepted, room⟩ := Output.write_of_room h.diagnostic.1 bytes
  obtain ⟨accepted', room'⟩ := Output.write_of_room h.diagnostic.2 bytes'
  exact ⟨accepted, accepted', h.input, h.output, room, room'⟩

end Correspondence

end Ippcode
