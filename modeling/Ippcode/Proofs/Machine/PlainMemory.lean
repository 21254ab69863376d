import Ippcode.Proofs.Machine.Marked

/-!
# Memory as plain maps

The variables in the frames of a `Memory` carry their names and are marked with the place of their
frame. What they say is also known without them : a `PlainMemory` is a map from names to values for
each frame, and nothing is marked. Both give the same answers to the same operations
(`operations_refine`), because a memory is always `Marked` as it should be : each variable is the
only one of its name in its frame, and marked with the place where the frame is now.

`PlainMemory.Refuses` says when an operation fails, and how. An operation that fails changes
nothing.
-/

namespace Ippcode

open Ippcode.Action

/-! ## Operations -/

/-- What can be asked of a memory. -/
inductive MemoryOperation where
  | createTemporary
  | pushTemporary
  | popLocal
  | insert (v : Variable)
  | declare (v : VariableName)
  | assign (v : VariableName) (x : Value)
  | get (v : VariableName)
  | contains (v : VariableName)
  | initializedCount

/-- What a memory answers. -/
inductive MemoryAnswer where
  | done
  | variable (v : Variable)
  | truth (b : Bool)
  | count (n : Nat)
  deriving DecidableEq

namespace MemoryOperation

/-- An operation that changes the memory. -/
def changing (f : Memory → Except RuntimeError Memory) : Action MemoryAnswer := do
  changeMemory f
  return .done

/-- An operation that asks for something in the memory. -/
def asking (f : Memory → Except RuntimeError α) (answer : α → MemoryAnswer) :
    Action MemoryAnswer := do
  let x ← inspect fun e => f e.memory
  return answer x

/-- The operation as an action. -/
def act : MemoryOperation → Action MemoryAnswer
  | createTemporary => changing fun m => .ok m.createTemporary
  | pushTemporary => changing Memory.pushTemporary
  | popLocal => changing Memory.popLocal
  | insert v => changing fun m => m.insert v
  | declare v => changing fun m => m.declare v
  | assign v x => changing fun m => m.assign v x
  | get v => asking (fun m => m.get v) .variable
  | contains v => asking (fun m => m.contains v) .truth
  | initializedCount => asking (fun m => .ok m.initializedCount) .count

/-- Operations one after the other, whether they fail or not : their answers and the context that
they leave behind. -/
def actAll : List MemoryOperation → Context → List (Except RuntimeError MemoryAnswer) × Context
  | [], c => ([], c)
  | op :: ops, c =>
    let (answer, c) := op.act.on c
    let (answers, c) := actAll ops c
    (answer :: answers, c)

/-- The frame that an operation needs. -/
@[simp] def frame? : MemoryOperation → Option FrameKind
  | pushTemporary => some .tf
  | popLocal => some .lf
  | insert v => some v.frame
  | declare v | assign v _ | get v | contains v => some v.frame
  | createTemporary | initializedCount => none

/-- The variable that an operation adds. -/
@[simp] def added? : MemoryOperation → Option VariableName
  | insert v => some v.toVariableName
  | declare v => some v
  | _ => none

/-- The variable that an operation needs. -/
@[simp] def needed? : MemoryOperation → Option VariableName
  | assign v _ | get v => some v
  | _ => none

end MemoryOperation

/-! ## Plain memory -/

/-- The variables of a frame : each name with its value, if it has one yet. -/
abbrev PlainFrame := Finmap fun _ : String => Option Value

/-- How many variables have a value. -/
def PlainFrame.initializedCount (f : PlainFrame) : Nat := f.entries.countP fun e => e.2.isSome

/-- The frames of a program without marks, local frames from the top of their stack down. -/
structure PlainMemory where
  globals : PlainFrame
  temporary : Option PlainFrame
  locals : List PlainFrame

namespace PlainMemory

/-- The memory of a program that has not started. -/
def empty : PlainMemory := ⟨∅, none, []⟩

/-- The memory with the temporary frame on top of the local ones. -/
def pushTemporary (p : PlainMemory) : Except RuntimeError PlainMemory :=
  match p.temporary with
  | some f => .ok ⟨p.globals, none, f :: p.locals⟩
  | none => .error .noTemporaryFrame

/-- The memory with the top local frame in place of the temporary one. -/
def popLocal (p : PlainMemory) : Except RuntimeError PlainMemory :=
  match p.locals with
  | f :: fs => .ok ⟨p.globals, some f, fs⟩
  | [] => .error .noLocalFrame

/-- The frame in this place. -/
def frame (p : PlainMemory) : FrameKind → Except RuntimeError PlainFrame
  | .gf => .ok p.globals
  | .tf => p.temporary.elim (.error .noTemporaryFrame) .ok
  | .lf => p.locals.head?.elim (.error .noLocalFrame) .ok

/-- The memory with another frame in this place. -/
def setFrame (p : PlainMemory) (kind : FrameKind) (f : PlainFrame) : PlainMemory :=
  match kind with
  | .gf => ⟨f, p.temporary, p.locals⟩
  | .tf => ⟨p.globals, some f, p.locals⟩
  | .lf => ⟨p.globals, p.temporary, f :: p.locals.tail⟩

/-- The memory with one more variable. -/
def insert (p : PlainMemory) (v : VariableName) (value : Option Value) :
    Except RuntimeError PlainMemory := do
  let f ← p.frame v.frame
  if v.name ∈ f then .error (.redefinition v)
  else .ok (p.setFrame v.frame (f.insert v.name value))

/-- The memory in which a variable that is there has this value. -/
def assign (p : PlainMemory) (v : VariableName) (x : Value) : Except RuntimeError PlainMemory := do
  let f ← p.frame v.frame
  if v.name ∈ f then .ok (p.setFrame v.frame (f.insert v.name (some x)))
  else .error (.undefinedVariable v)

/-- The variable of this name, marked as it was asked for. -/
def get (p : PlainMemory) (v : VariableName) : Except RuntimeError Variable := do
  let f ← p.frame v.frame
  match f.lookup v.name with
  | some value => .ok ⟨v, value⟩
  | none => .error (.undefinedVariable v)

/-- Whether a variable is there. -/
def contains (p : PlainMemory) (v : VariableName) : Except RuntimeError Bool := do
  let f ← p.frame v.frame
  .ok (decide (v.name ∈ f))

/-- How many variables of all frames have a value. -/
def initializedCount (p : PlainMemory) : Nat :=
  p.globals.initializedCount + (p.temporary.map PlainFrame.initializedCount).getD 0
    + (p.locals.map PlainFrame.initializedCount).sum

/-- What an operation answers, and the memory that it leaves behind. -/
def operate (p : PlainMemory) : MemoryOperation → Except RuntimeError (MemoryAnswer × PlainMemory)
  | .createTemporary => .ok (.done, ⟨p.globals, some ∅, p.locals⟩)
  | .pushTemporary => p.pushTemporary.map (.done, ·)
  | .popLocal => p.popLocal.map (.done, ·)
  | .insert v => (p.insert v.toVariableName v.value).map (.done, ·)
  | .declare v => (p.insert v none).map (.done, ·)
  | .assign v x => (p.assign v x).map (.done, ·)
  | .get v => (p.get v).map fun found => (.variable found, p)
  | .contains v => (p.contains v).map fun known => (.truth known, p)
  | .initializedCount => .ok (.count p.initializedCount, p)

/-- Operations one after the other, whether they fail or not : their answers and the memory that
they leave behind. -/
def operateAll :
    List MemoryOperation → PlainMemory → List (Except RuntimeError MemoryAnswer) × PlainMemory
  | [], p => ([], p)
  | op :: ops, p =>
    match p.operate op with
    | .ok (answer, p) =>
      let (answers, p) := operateAll ops p
      (.ok answer :: answers, p)
    | .error e =>
      let (answers, p) := operateAll ops p
      (.error e :: answers, p)

/-! ### When an operation fails -/

/-- An operation fails because its frame is missing, because the name that it adds is there, or
because the name that it needs is not. -/
inductive Refuses (p : PlainMemory) (op : MemoryOperation) : RuntimeError → Prop
  | noTemporary (needs : op.frame? = some .tf) (missing : p.temporary = none) :
      Refuses p op .noTemporaryFrame
  | noLocal (needs : op.frame? = some .lf) (missing : p.locals = []) : Refuses p op .noLocalFrame
  | redefinition {v : VariableName} {f : PlainFrame} (adds : op.added? = some v)
      (frame : p.frame v.frame = .ok f) (there : v.name ∈ f) : Refuses p op (.redefinition v)
  | undefinedVariable {v : VariableName} {f : PlainFrame} (needs : op.needed? = some v)
      (frame : p.frame v.frame = .ok f) (missing : v.name ∉ f) :
      Refuses p op (.undefinedVariable v)

variable {p : PlainMemory} {v : VariableName} {e : RuntimeError}

/-- The global frame is always there. The other two may be missing. -/
theorem frame_eq_error_iff {kind : FrameKind} :
    p.frame kind = .error e ↔ kind = .tf ∧ p.temporary = none ∧ e = .noTemporaryFrame ∨
      kind = .lf ∧ p.locals = [] ∧ e = .noLocalFrame := by
  cases kind with
  | gf => simp [frame]
  | tf => cases h : p.temporary <;> simp [frame, h, eq_comm]
  | lf => cases h : p.locals <;> simp [frame, h, eq_comm]

/-- Moving the temporary frame needs this frame. -/
theorem pushTemporary_eq_error_iff : p.pushTemporary = .error e ↔ p.frame .tf = .error e := by
  cases h : p.temporary <;> simp [pushTemporary, frame, h]

theorem popLocal_eq_error_iff : p.popLocal = .error e ↔ p.frame .lf = .error e := by
  cases h : p.locals <;> simp [popLocal, frame, h]

/-- Declaring needs a frame without the name. -/
theorem insert_eq_error_iff {value : Option Value} :
    p.insert v value = .error e ↔ p.frame v.frame = .error e ∨
      ∃ f, p.frame v.frame = .ok f ∧ v.name ∈ f ∧ e = .redefinition v := by
  unfold insert
  cases p.frame v.frame with
  | error e' => simp
  | ok f => by_cases h : v.name ∈ f <;> simp [h, eq_comm]

/-- Assigning needs a frame with the name. -/
theorem assign_eq_error_iff {x : Value} :
    p.assign v x = .error e ↔ p.frame v.frame = .error e ∨
      ∃ f, p.frame v.frame = .ok f ∧ v.name ∉ f ∧ e = .undefinedVariable v := by
  unfold assign
  cases p.frame v.frame with
  | error e' => simp
  | ok f => by_cases h : v.name ∈ f <;> simp [h, eq_comm]

/-- Looking up needs a frame with the name. -/
theorem get_eq_error_iff :
    p.get v = .error e ↔ p.frame v.frame = .error e ∨
      ∃ f, p.frame v.frame = .ok f ∧ v.name ∉ f ∧ e = .undefinedVariable v := by
  unfold get
  cases p.frame v.frame with
  | error e' => simp
  | ok f => cases h : f.lookup v.name <;> simp [h, ← Finmap.lookup_eq_none, eq_comm]

/-- Asking for a variable needs nothing but a frame. -/
theorem contains_eq_error_iff : p.contains v = .error e ↔ p.frame v.frame = .error e := by
  unfold contains
  cases p.frame v.frame <;> simp

/-- A missing frame, a name that is there or a name that is not are the only ways to fail. -/
theorem refuses_iff {op : MemoryOperation} :
    p.Refuses op e ↔
      (∃ kind, op.frame? = some kind ∧ p.frame kind = .error e) ∨
      (∃ v f, op.added? = some v ∧ p.frame v.frame = .ok f ∧ v.name ∈ f ∧ e = .redefinition v) ∨
      ∃ v f, op.needed? = some v ∧ p.frame v.frame = .ok f ∧ v.name ∉ f ∧
        e = .undefinedVariable v := by
  constructor
  · rintro (⟨needs, missing⟩ | ⟨needs, missing⟩ | ⟨adds, frame, there⟩ | ⟨needs, frame, missing⟩)
    · exact .inl ⟨.tf, needs, by simp [PlainMemory.frame, missing]⟩
    · exact .inl ⟨.lf, needs, by simp [PlainMemory.frame, missing]⟩
    · exact .inr (.inl ⟨_, _, adds, frame, there, rfl⟩)
    · exact .inr (.inr ⟨_, _, needs, frame, missing, rfl⟩)
  · rintro (⟨kind, needs, refused⟩ | ⟨v, f, adds, frame, there, rfl⟩ |
      ⟨v, f, needs, frame, missing, rfl⟩)
    · rcases frame_eq_error_iff.mp refused with ⟨rfl, missing, rfl⟩ | ⟨rfl, missing, rfl⟩
      · exact .noTemporary needs missing
      · exact .noLocal needs missing
    · exact .redefinition adds frame there
    · exact .undefinedVariable needs frame missing

/-- An operation is refused for the reasons that can be told beforehand, and for no others. -/
theorem operate_eq_error_iff {op : MemoryOperation} :
    p.operate op = .error e ↔ p.Refuses op e := by
  rw [refuses_iff]
  cases op <;>
    simp [operate, map_eq_error_iff, pushTemporary_eq_error_iff, popLocal_eq_error_iff,
      insert_eq_error_iff, assign_eq_error_iff, get_eq_error_iff, contains_eq_error_iff]

end PlainMemory

/-! ## Frames without their marks -/

namespace Frame

/-- The variables of a frame without their marks. -/
def plain (f : Frame) : PlainFrame := (f.entries.map fun v => ⟨v.name, v.value⟩).toFinmap

variable {f : Frame} {kind : FrameKind} {v : Variable} {name : String}

/-- A plain frame has the same variables with the same values. -/
theorem lookup_plain (f : Frame) (name : String) :
    f.plain.lookup name = (f.find? name).map Variable.value := by
  obtain ⟨ws⟩ := f
  rw [plain, Finmap.dlookup_list_toFinmap]
  simp only [find?]
  induction ws with
  | nil => rfl
  | cons w ws ih =>
    by_cases e : w.name = name
    · subst e
      simp
    · rw [List.map_cons, List.dlookup_cons_ne _ _ (Ne.symm e), ih]
      simp [e]

theorem mem_plain : name ∈ f.plain ↔ (f.find? name).isSome := by
  rw [← Finmap.lookup_isSome, lookup_plain, Option.isSome_map]

/-- Declaring a variable is adding a key. -/
theorem plain_insert (absent : f.find? v.name = none) :
    (f.insert v).plain = f.plain.insert v.name v.value := by
  refine Finmap.ext_lookup fun name => ?_
  rw [lookup_plain, find?_insert absent]
  by_cases e : v.name = name
  · subst e
    simp [Finmap.lookup_insert]
  · simp [e, Finmap.lookup_insert_of_ne _ (Ne.symm e), lookup_plain]

/-- Giving a value to a variable is replacing what its key stands for. -/
theorem plain_assign (there : (f.find? name).isSome) (x : Value) :
    (f.assign name x).plain = f.plain.insert name (some x) := by
  refine Finmap.ext_lookup fun other => ?_
  rw [lookup_plain, find?_assign]
  by_cases e : name = other
  · subst e
    obtain ⟨v, hv⟩ := Option.isSome_iff_exists.mp there
    simp [hv, Finmap.lookup_insert]
  · simp [e, Finmap.lookup_insert_of_ne _ (Ne.symm e), lookup_plain]

/-- The marks are what a plain frame leaves out. -/
@[simp] theorem plain_mark (f : Frame) (kind : FrameKind) : (f.mark kind).plain = f.plain := by
  simp [plain, mark, Function.comp_def]

/-- Keys that are all different stay as they are. -/
theorem dedupKeys_of_nodupKeys {l : List (Sigma fun _ : String => Option Value)}
    (h : l.NodupKeys) : l.dedupKeys = l := by
  induction l with
  | nil => rfl
  | cons e l ih =>
    obtain ⟨absent, rest⟩ := List.nodupKeys_cons.mp h
    rw [List.dedupKeys_cons, ih rest, List.kinsert_def, List.kerase_of_notMem_keys absent]

/-- Variables with values are counted alike, since no name occurs twice. -/
theorem Housed.initializedCount_plain (h : f.Housed kind) :
    f.plain.initializedCount = f.initializedCount := by
  have nodup : (f.entries.map fun v =>
      (⟨v.name, v.value⟩ : Sigma fun _ => Option Value)).NodupKeys := by
    simpa [List.NodupKeys, List.keys, Function.comp_def] using h.nodup
  change List.countP _ (List.dedupKeys _) = _
  rw [dedupKeys_of_nodupKeys nodup, List.countP_map]
  exact List.countP_congr fun v _ => by simp [Variable.isInitialized]

end Frame

/-! ## Memory without its marks -/

namespace Memory

/-- The frames of a program without their marks. -/
def plain (m : Memory) : PlainMemory :=
  ⟨m.globals.plain, m.temporary.map Frame.plain, m.locals.map Frame.plain⟩

variable {m : Memory}

@[simp] theorem plain_empty : empty.plain = .empty := rfl

theorem pushTemporary_plain (m : Memory) :
    m.plain.pushTemporary = m.pushTemporary.map plain := by
  cases h : m.temporary <;> simp [PlainMemory.pushTemporary, pushTemporary, plain, h]

theorem popLocal_plain (m : Memory) : m.plain.popLocal = m.popLocal.map plain := by
  cases h : m.locals <;> simp [PlainMemory.popLocal, popLocal, plain, h]

/-- A frame is found in a plain memory if it is found in the memory. -/
theorem frame_plain (m : Memory) (kind : FrameKind) :
    m.plain.frame kind = (m.frame kind).map Frame.plain := by
  cases kind with
  | gf => rfl
  | tf => cases h : m.temporary <;> simp [PlainMemory.frame, frame, plain, h]
  | lf => cases h : m.locals <;> simp [PlainMemory.frame, frame, plain, h]

theorem plain_setFrame (m : Memory) (kind : FrameKind) (f : Frame) :
    (m.setFrame kind f).plain = m.plain.setFrame kind f.plain := by
  cases kind <;> simp [setFrame, PlainMemory.setFrame, plain]

/-- Declaring a variable in a memory and in the plain one, with the same errors. -/
theorem insert_plain (m : Memory) (v : Variable) :
    m.plain.insert v.toVariableName v.value = (m.insert v).map plain := by
  unfold PlainMemory.insert insert
  rw [frame_plain]
  cases m.frame v.frame with
  | error e => rfl
  | ok f =>
    cases h : f.find? v.name with
    | none => simp [Frame.mem_plain, h, pure_eq_ok, plain_setFrame, Frame.plain_insert h]
    | some w => simp [Frame.mem_plain, h, throw_eq_error]

/-- Giving a value to a variable in a memory and in the plain one, with the same errors. -/
theorem assign_plain (m : Memory) (v : VariableName) (x : Value) :
    m.plain.assign v x = (m.assign v x).map plain := by
  unfold PlainMemory.assign assign
  rw [frame_plain]
  cases m.frame v.frame with
  | error e => rfl
  | ok f =>
    cases h : f.find? v.name with
    | none => simp [Frame.mem_plain, h, throw_eq_error]
    | some w =>
      have there : (f.find? v.name).isSome := by simp [h]
      simp [Frame.mem_plain, h, pure_eq_ok, plain_setFrame, Frame.plain_assign there]

theorem contains_plain (m : Memory) (v : VariableName) : m.plain.contains v = m.contains v := by
  unfold PlainMemory.contains contains
  rw [frame_plain]
  cases m.frame v.frame with
  | error e => rfl
  | ok f => simp [Frame.mem_plain, pure_eq_ok]

namespace Marked

/-- What is found in a plain memory has the mark of its frame. In a marked memory this is the
variable itself. -/
theorem get_plain (h : m.Marked) (v : VariableName) : m.plain.get v = m.get v := by
  unfold PlainMemory.get get
  rw [frame_plain]
  cases hf : m.frame v.frame with
  | error e => rfl
  | ok f =>
    cases hv : f.find? v.name with
    | none => simp [Frame.lookup_plain, hv, throw_eq_error]
    | some w =>
      have named : w.toVariableName = v := (h.frame hf).toVariableName_of_find? hv
      subst named
      simp [Frame.lookup_plain, hv, pure_eq_ok]

/-- A marked memory and its plain one count the same. -/
theorem initializedCount_plain (h : m.Marked) : m.plain.initializedCount = m.initializedCount := by
  have temporary : (m.temporary.map Frame.plain).map PlainFrame.initializedCount =
      m.temporary.map Frame.initializedCount := by
    rw [Option.map_map]
    exact Option.map_congr fun f hf => (h.temporary f hf).initializedCount_plain
  have locals : (m.locals.map Frame.plain).map PlainFrame.initializedCount =
      m.locals.map Frame.initializedCount := by
    rw [List.map_map]
    exact List.map_congr_left fun f hf => (h.locals f hf).initializedCount_plain
  unfold PlainMemory.initializedCount Memory.initializedCount plain
  rw [h.globals.initializedCount_plain, temporary, locals, ← List.sum_eq_foldl]

end Marked

end Memory

/-! ## Agreement -/

/-- An action does on a context what a plain memory does : either both answer the same, and the
memory left behind, still marked as it should be, is the plain one, or both fail in one way, and
nothing has changed. -/
inductive Agrees (c : Context) :
    Except RuntimeError (MemoryAnswer × PlainMemory) → Except RuntimeError MemoryAnswer × Context →
      Prop
  | done (answer : MemoryAnswer) {m : Memory} (marked : m.Marked) :
      Agrees c (.ok (answer, m.plain)) (.ok answer, c.withMemory m)
  | failed (e : RuntimeError) : Agrees c (.error e) (.error e, c)

namespace Agrees

variable {c : Context} {result : Except RuntimeError (MemoryAnswer × PlainMemory)}
  {actual : Except RuntimeError MemoryAnswer × Context} {e : RuntimeError}

/-- An action fails exactly if the plain operation is refused, and with the same error. -/
theorem error_iff (h : Agrees c result actual) : actual.1 = .error e ↔ result = .error e := by
  cases h <;> simp

/-- An action that fails leaves its context as it was. -/
theorem unchanged (h : Agrees c result actual) (failed : actual.1 = .error e) : actual.2 = c := by
  cases h with
  | done => cases failed
  | failed => rfl

end Agrees

variable {c : Context}

/-- A change of memory agrees with its plain form, if the marks are kept. -/
theorem agrees_changing (f : Memory → Except RuntimeError Memory)
    (keeps : ∀ m, f c.environment.memory = .ok m → m.Marked) :
    Agrees c (((f c.environment.memory).map Memory.plain).map (.done, ·))
      ((MemoryOperation.changing f).on c) := by
  unfold MemoryOperation.changing
  rw [on_bind, on_changeMemory]
  cases h : f c.environment.memory with
  | ok m => exact .done .done (keeps m h)
  | error e => exact .failed e

/-- A question about memory agrees with its plain form and changes nothing. -/
theorem agrees_asking (f : Memory → Except RuntimeError α) (answer : α → MemoryAnswer)
    (marked : c.environment.memory.Marked) :
    Agrees c ((f c.environment.memory).map fun x => (answer x, c.environment.memory.plain))
      ((MemoryOperation.asking f answer).on c) := by
  unfold MemoryOperation.asking
  rw [on_bind, on_inspect]
  cases f c.environment.memory with
  | ok x => exact .done (answer x) marked
  | error e => exact .failed e

/-- Each operation agrees with its plain form on a marked memory, and leaves one behind. -/
theorem agrees_operate (marked : c.environment.memory.Marked) (op : MemoryOperation) :
    Agrees c (c.environment.memory.plain.operate op) (op.act.on c) := by
  cases op with
  | createTemporary =>
    exact agrees_changing (fun m => .ok m.createTemporary) fun m h =>
      Except.ok.inj h ▸ marked.createTemporary
  | pushTemporary =>
    rw [PlainMemory.operate, Memory.pushTemporary_plain]
    exact agrees_changing Memory.pushTemporary fun m => marked.pushTemporary
  | popLocal =>
    rw [PlainMemory.operate, Memory.popLocal_plain]
    exact agrees_changing Memory.popLocal fun m => marked.popLocal
  | insert v =>
    rw [PlainMemory.operate, Memory.insert_plain]
    exact agrees_changing (fun m => m.insert v) fun m => marked.insert
  | declare v =>
    rw [PlainMemory.operate, Memory.insert_plain _ ⟨v, none⟩]
    exact agrees_changing (fun m => m.declare v) fun m => marked.insert
  | assign v x =>
    rw [PlainMemory.operate, Memory.assign_plain]
    exact agrees_changing (fun m => m.assign v x) fun m => marked.assign
  | get v =>
    rw [PlainMemory.operate, marked.get_plain]
    exact agrees_asking (fun m => m.get v) .variable marked
  | contains v =>
    rw [PlainMemory.operate, Memory.contains_plain]
    exact agrees_asking (fun m => m.contains v) .truth marked
  | initializedCount =>
    rw [PlainMemory.operate, marked.initializedCount_plain]
    exact agrees_asking (fun m => .ok m.initializedCount) .count marked

/-- Operations one after the other answer what they answer on the plain memory, and leave behind a
marked memory that is the plain one. -/
theorem actAll_operateAll (ops : List MemoryOperation) (marked : c.environment.memory.Marked) :
    let plain := PlainMemory.operateAll ops c.environment.memory.plain
    ∃ m : Memory, MemoryOperation.actAll ops c = (plain.1, c.withMemory m) ∧
      m.plain = plain.2 ∧ m.Marked := by
  induction ops generalizing c with
  | nil => exact ⟨c.environment.memory, rfl, rfl, marked⟩
  | cons op ops ih =>
    have first := agrees_operate marked op
    simp only [MemoryOperation.actAll, PlainMemory.operateAll]
    generalize op.act.on c = actual at first
    generalize c.environment.memory.plain.operate op = result at first
    cases first with
    | @done answer m' marked' =>
      obtain ⟨m, acted, plain, marked⟩ := ih (c := c.withMemory m') marked'
      exact ⟨m, by simp [acted], plain, marked⟩
    | failed e =>
      obtain ⟨m, acted, plain, marked⟩ := ih marked
      exact ⟨m, by simp [acted], plain, marked⟩

/-- Operations in any order on the frames of a program, whether they fail or not, answer what they
answer on plain maps, and their memory stays that of the plain maps. An operation fails exactly if
the plain memory refuses it, and changes nothing then. Each variable is found in its frame under its
own name and is marked with the place where the frame is now, so a frame that moves there and back
is the same again. -/
theorem operations_refine (c : Context) (ops : List MemoryOperation) :
    let actual := MemoryOperation.actAll ops (c.withMemory .empty)
    let plain := PlainMemory.operateAll ops .empty
    let m := actual.2.environment.memory
    actual.1 = plain.1 ∧ actual.2 = c.withMemory m ∧ m.plain = plain.2 ∧ m.Marked ∧
      (∀ (op : MemoryOperation) (e : RuntimeError),
        ((op.act.on actual.2).1 = .error e ↔ plain.2.Refuses op e) ∧
        ((op.act.on actual.2).1 = .error e → (op.act.on actual.2).2 = actual.2)) ∧
      (∀ kind f, (kind, f) ∈ m.frames →
        ∀ v ∈ f.entries, f.find? v.name = some v ∧ v.frame = kind) ∧
      (∀ m', m.pushTemporary = .ok m' → m'.popLocal = .ok m) ∧
      (∀ m', m.popLocal = .ok m' → m'.pushTemporary = .ok { m with temporary := none }) ∧
      ∀ v w, m.get v = .ok w → w.toVariableName = v := by
  obtain ⟨m, acted, plain, marked⟩ :=
    actAll_operateAll (c := c.withMemory .empty) ops Memory.marked_empty
  rw [Context.withMemory_withMemory] at acted
  rw [Context.memory_withMemory, Memory.plain_empty] at acted plain
  simp only [acted, Context.memory_withMemory, true_and]
  refine ⟨plain, marked, fun op e => ?_, fun kind f hf v hv => ?_,
    fun m' => marked.popLocal_pushTemporary, fun m' => marked.pushTemporary_popLocal,
    fun v w => marked.toVariableName_of_get⟩
  · have next := agrees_operate (c := c.withMemory m) marked op
    rw [Context.memory_withMemory, plain] at next
    exact ⟨next.error_iff.trans PlainMemory.operate_eq_error_iff, next.unchanged⟩
  · exact ⟨(marked.housed hf).find?_name hv, (marked.housed hf).marked v hv⟩

/-- Operations that move a frame with a variable to the local frames and back, and two that fail. -/
def moving : List MemoryOperation :=
  [.createTemporary, .declare ⟨.tf, "x"⟩, .assign ⟨.tf, "x"⟩ (.int 1), .pushTemporary,
    .get ⟨.tf, "x"⟩, .get ⟨.lf, "x"⟩, .popLocal, .declare ⟨.tf, "x"⟩, .initializedCount]

/-- The variable goes with its frame and is marked anew. -/
theorem operations_refine_moving :
    let c : Context := ⟨.empty, .stream [], .unlimited, .unlimited⟩
    (MemoryOperation.actAll moving c).1 = (PlainMemory.operateAll moving .empty).1 ∧
      (MemoryOperation.actAll moving c).1 =
        [.ok .done, .ok .done, .ok .done, .ok .done, .error .noTemporaryFrame,
          .ok (.variable ⟨⟨.lf, "x"⟩, some (.int 1)⟩), .ok .done,
          .error (.redefinition ⟨.tf, "x"⟩), .ok (.count 1)] :=
  ⟨(operations_refine ⟨.empty, .stream [], .unlimited, .unlimited⟩ moving).1, rfl⟩

end Ippcode
