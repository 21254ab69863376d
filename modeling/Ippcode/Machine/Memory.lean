import Ippcode.Machine.Fault

/-!
# Frames of variables

A frame holds variables in the order of their names, and no two of one name. The memory of
a running program has a global frame, at most one temporary frame, and a stack of local frames of
which only the top one can be addressed. Frames move between the temporary place and the stack;
every variable is marked with the place where its frame is, so a moved frame is marked anew.

What a frame operation does is what it does to `Frame.find?` : `find?_insert`, `find?_assign`,
`find?_mark`.
-/

namespace Ippcode

/-! ## Variables -/

/-- A variable : its name, marked with the frame that it is in, and its value once it has one. -/
structure Variable extends VariableName where
  value : Option Value
  deriving DecidableEq

namespace Variable

/-- Whether a variable has a value. -/
def isInitialized (v : Variable) : Bool := v.value.isSome

/-- A variable and its value as text. -/
def text (v : Variable) : String :=
  v.toVariableName.text ++ " = " ++
    match v.value with
    | some x => x.constant
    | none => "(undefined)"

end Variable

/-! ## Frames -/

/-- The variables of a frame, in the order of their names. -/
structure Frame where
  entries : List Variable
  deriving DecidableEq

namespace Frame

/-- The frame without variables. -/
def empty : Frame := ⟨[]⟩

/-- The variable of this name. -/
def find? (f : Frame) (name : String) : Option Variable :=
  f.entries.find? fun v => v.name == name

/-- A variable put in front of the first one with a greater name. -/
def place (v : Variable) : List Variable → List Variable
  | [] => [v]
  | w :: ws => if v.name < w.name then v :: w :: ws else w :: place v ws

/-- The frame with one more variable. -/
def insert (f : Frame) (v : Variable) : Frame := ⟨place v f.entries⟩

/-- The frame in which the variable of this name has this value. -/
def assign (f : Frame) (name : String) (x : Value) : Frame :=
  ⟨f.entries.map fun v => if v.name = name then { v with value := some x } else v⟩

/-- The frame with its variables marked for another place. -/
def mark (f : Frame) (kind : FrameKind) : Frame :=
  ⟨f.entries.map fun v => { v with frame := kind }⟩

/-- How many variables have a value. -/
def initializedCount (f : Frame) : Nat := f.entries.countP Variable.isInitialized

theorem find?_insert {f : Frame} {v : Variable} (h : f.find? v.name = none) (name : String) :
    (f.insert v).find? name = if v.name = name then some v else f.find? name := by
  obtain ⟨ws⟩ := f
  simp only [insert, find?, List.find?_eq_none, beq_iff_eq] at h ⊢
  induction ws with
  | nil => by_cases e : v.name = name <;> simp [place, e]
  | cons w ws ih =>
    have ih := ih fun x hx => h x (List.mem_cons_of_mem _ hx)
    have hne : w.name ≠ v.name := h w List.mem_cons_self
    unfold place
    split
    · by_cases e : v.name = name <;> simp [e]
    · by_cases e : w.name = name
      · simp [e, show v.name ≠ name from fun e' => hne (e.trans e'.symm)]
      · simpa [e] using ih

theorem find?_assign (f : Frame) (name other : String) (x : Value) :
    (f.assign name x).find? other =
      if name = other then (f.find? other).map fun v => { v with value := some x }
      else f.find? other := by
  obtain ⟨ws⟩ := f
  simp only [assign, find?]
  induction ws with
  | nil => simp
  | cons w ws ih =>
    by_cases e : w.name = name
    · by_cases e' : name = other <;> simp_all
    · by_cases e' : w.name = other
      · have hne : name ≠ other := fun e'' => e (e'.trans e''.symm)
        simp_all
      · simp_all

theorem find?_mark (f : Frame) (kind : FrameKind) (name : String) :
    (f.mark kind).find? name = (f.find? name).map fun v => { v with frame := kind } := by
  obtain ⟨ws⟩ := f
  simp only [mark, find?]
  induction ws with
  | nil => rfl
  | cons w ws ih => by_cases e : w.name = name <;> simp_all

end Frame

/-! ## Memory -/

/-- The frames of a running program, local frames from the top of their stack down. -/
structure Memory where
  globals : Frame
  temporary : Option Frame
  locals : List Frame
  deriving DecidableEq

namespace Memory

/-- The memory of a program that has not started. -/
def empty : Memory := ⟨.empty, none, []⟩

/-! ### Moving frames -/

/-- The memory with a new, empty temporary frame. -/
def createTemporary (m : Memory) : Memory := { m with temporary := some .empty }

/-- The memory with the temporary frame on top of the local ones. -/
def pushTemporary (m : Memory) : Except RuntimeError Memory :=
  match m.temporary with
  | some f => .ok { m with temporary := none, locals := f.mark .lf :: m.locals }
  | none => .error .noTemporaryFrame

/-- The memory with the top local frame in place of the temporary one. -/
def popLocal (m : Memory) : Except RuntimeError Memory :=
  match m.locals with
  | f :: fs => .ok { m with temporary := some (f.mark .tf), locals := fs }
  | [] => .error .noLocalFrame

/-! ### Variables -/

/-- The frame in this place. -/
def frame (m : Memory) : FrameKind → Except RuntimeError Frame
  | .gf => .ok m.globals
  | .tf =>
    match m.temporary with
    | some f => .ok f
    | none => .error .noTemporaryFrame
  | .lf =>
    match m.locals with
    | f :: _ => .ok f
    | [] => .error .noLocalFrame

/-- The memory with another frame in this place. -/
def setFrame (m : Memory) (kind : FrameKind) (f : Frame) : Memory :=
  match kind with
  | .gf => { m with globals := f }
  | .tf => { m with temporary := some f }
  | .lf => { m with locals := f :: m.locals.tail }

/-- Whether a variable is declared. -/
def contains (m : Memory) (v : VariableName) : Except RuntimeError Bool := do
  let f ← m.frame v.frame
  return (f.find? v.name).isSome

/-- The declared variable of this name. -/
def get (m : Memory) (v : VariableName) : Except RuntimeError Variable := do
  let f ← m.frame v.frame
  match f.find? v.name with
  | some found => return found
  | none => throw (.undefinedVariable v)

/-- The memory with one more variable, in the frame that it is marked with. -/
def insert (m : Memory) (v : Variable) : Except RuntimeError Memory := do
  let f ← m.frame v.frame
  match f.find? v.name with
  | some _ => throw (.redefinition v.toVariableName)
  | none => return m.setFrame v.frame (f.insert v)

/-- The memory with one more variable, which has no value yet. -/
def declare (m : Memory) (v : VariableName) : Except RuntimeError Memory := m.insert ⟨v, none⟩

/-- The memory in which a declared variable has this value. -/
def assign (m : Memory) (v : VariableName) (x : Value) : Except RuntimeError Memory := do
  let f ← m.frame v.frame
  match f.find? v.name with
  | some _ => return m.setFrame v.frame (f.assign v.name x)
  | none => throw (.undefinedVariable v)

/-- How many variables of all frames have a value. -/
def initializedCount (m : Memory) : Nat :=
  m.globals.initializedCount + (m.temporary.map Frame.initializedCount).getD 0
    + (m.locals.map Frame.initializedCount).foldl (· + ·) 0

end Memory

end Ippcode
