import Ippcode.Proofs.Machine.Marked
import Ippcode.Proofs.Machine.Correspondence

/-!
# Variables under other names

A frame keeps its variables in the order of their names, so other names may also mean another order.
Two frames are the same under other names if one is a permutation of the other with its variables
renamed (`Frame.Renamed`). Looking up, declaring and assigning agree in such frames as long as the
names that matter are told apart by the other names too (`Frame.Twin`).

A memory is compared frame by frame (`Memory.Framewise`). It does not matter for moving frames what
the comparison is.
-/

namespace Ippcode

variable {ρ : Renaming} {V : Set String}

/-! ## Frames -/

/-- The variable under its other name, with the same mark and the same value. -/
def Variable.rename (ρ : Renaming) (w : Variable) : Variable :=
  { w with name := ρ.ofVariable w.name }

namespace Frame

variable {f f' : Frame} {kind : FrameKind} {w : Variable} {name : String}

/-- The second frame has the variables of the first one under other names. -/
def Renamed (ρ : Renaming) (f f' : Frame) : Prop :=
  f'.entries.Perm (f.entries.map (Variable.rename ρ))

/-- The second frame has the variables of the first one under other names. These tell the variables
apart. -/
structure Twin (ρ : Renaming) (V : Set String) (kind : FrameKind) (f f' : Frame) : Prop where
  housed : f.Housed kind
  named : ∀ w ∈ f.entries, w.name ∈ V
  renamed : f.Renamed ρ f'

/-- Where a variable is put depends on its name, but it is put somewhere. -/
theorem perm_place (v : Variable) : ∀ ws : List Variable, (place v ws).Perm (v :: ws)
  | [] => .refl _
  | w :: ws => by
    unfold place
    split
    · exact .refl _
    · exact ((perm_place v ws).cons w).trans (.swap v w ws)

namespace Twin

/-- Frames without variables are twins. -/
theorem of_empty : Twin ρ V kind Frame.empty Frame.empty :=
  ⟨housed_empty, fun _ h => (nomatch h), List.Perm.refl _⟩

/-- Frames that move to another place stay twins. -/
theorem mark (h : Twin ρ V kind f f') (place : FrameKind) :
    Twin ρ V place (f.mark place) (f'.mark place) where
  housed := h.housed.mark place
  named w hw := by
    obtain ⟨v, hv, rfl⟩ := List.mem_map.mp hw
    exact h.named v hv
  renamed := by
    have marked := h.renamed.map fun v : Variable => ({ v with frame := place } : Variable)
    unfold Renamed Frame.mark
    rwa [List.map_map] at marked ⊢

/-- Declaring a variable under both of its names keeps frames twins. -/
theorem insert {v : VariableName} (h : Twin ρ V v.frame f f') (known : v.name ∈ V)
    (absent : f.find? v.name = none) :
    Twin ρ V v.frame (f.insert ⟨v, none⟩) (f'.insert ⟨v.rename ρ, none⟩) where
  housed := h.housed.insert (v := ⟨v, none⟩) absent
  named w hw := by
    rcases mem_place.mp hw with rfl | hw
    · exact known
    · exact h.named w hw
  renamed := by
    refine (perm_place _ _).trans (((h.renamed.cons _).trans ?_))
    exact ((perm_place ⟨v, none⟩ f.entries).map (Variable.rename ρ)).symm

variable (injective : Set.InjOn ρ.ofVariable V) (h : Twin ρ V kind f f')

include injective h

/-- The other name finds the same variable. -/
theorem find?_eq (known : name ∈ V) :
    f'.find? (ρ.ofVariable name) = (f.find? name).map (Variable.rename ρ) := by
  cases found : f.find? name with
  | none =>
    refine List.find?_eq_none.mpr fun w' hw' => ?_
    obtain ⟨w, hw, rfl⟩ := List.mem_map.mp (h.renamed.mem_iff.mp hw')
    have other : w.name ≠ name := by simpa using List.find?_eq_none.mp found w hw
    simpa [Variable.rename] using fun same => other (injective (h.named w hw) known same)
  | some w =>
    have hw := mem_of_find? found
    have there : w.rename ρ ∈ f'.entries := h.renamed.mem_iff.mpr (List.mem_map_of_mem hw)
    have isSome : (f'.find? (ρ.ofVariable name)).isSome :=
      List.find?_isSome.mpr ⟨_, there, by simp [Variable.rename, name_of_find? found]⟩
    obtain ⟨w', found'⟩ := Option.isSome_iff_exists.mp isSome
    obtain ⟨v, hv, rfl⟩ := List.mem_map.mp (h.renamed.mem_iff.mp (mem_of_find? found'))
    have same : v.name = name := injective (h.named v hv) known (name_of_find? found')
    have itself := h.housed.find?_name hv
    rw [same, found] at itself
    rw [found', Option.some.inj itself, Option.map_some]

/-- Giving a value to a variable under both of its names keeps frames twins. -/
theorem assign (known : name ∈ V) (x : Value) :
    Twin ρ V kind (f.assign name x) (f'.assign (ρ.ofVariable name) x) where
  housed := h.housed.assign name x
  named w hw := by
    obtain ⟨v, hv, rfl⟩ := List.mem_map.mp hw
    split <;> exact h.named v hv
  renamed := by
    refine (h.renamed.map _).trans ?_
    unfold Frame.assign
    rw [List.map_map, List.map_map]
    refine .of_eq (List.map_congr_left fun w hw => ?_)
    have same : ρ.ofVariable w.name = ρ.ofVariable name ↔ w.name = name :=
      injective.eq_iff (h.named w hw) known
    by_cases hw : w.name = name <;> simp [Variable.rename, same, hw]

end Twin

end Frame

/-! ## Memory -/

namespace Memory

/-- Two memories have frames in the same places, and these are related. -/
structure Framewise (S : FrameKind → Frame → Frame → Prop) (m m' : Memory) : Prop where
  globals : S .gf m.globals m'.globals
  temporary : Option.Rel (S .tf) m.temporary m'.temporary
  locals : List.Forall₂ (S .lf) m.locals m'.locals

/-- The second memory has the frames of the first one, with their variables under other names. -/
abbrev Renamed (ρ : Renaming) (m m' : Memory) : Prop :=
  m.Framewise (fun _ f f' => f.Renamed ρ f') m'

namespace Framewise

variable {S T : FrameKind → Frame → Frame → Prop} {m m' : Memory} {kind : FrameKind} {f f' : Frame}

/-- A stronger relation between frames gives a weaker one. -/
theorem mono (weaker : ∀ kind f f', S kind f f' → T kind f f') (h : m.Framewise S m') :
    m.Framewise T m' where
  globals := weaker _ _ _ h.globals
  temporary := by
    have related := h.temporary
    generalize m.temporary = o at related ⊢
    generalize m'.temporary = o' at related ⊢
    cases related with
    | none => exact .none
    | some related => exact .some (weaker _ _ _ related)
  locals := h.locals.imp (weaker .lf)

/-- The frame of a name is found in both memories or in neither. -/
theorem frame (h : m.Framewise S m') : ∀ kind : FrameKind,
    Corresponds ρ (S kind) (m.frame kind) (m'.frame kind)
  | .gf => .ok h.globals
  | .tf => by
    have related := h.temporary
    unfold Memory.frame
    generalize m.temporary = o at related ⊢
    generalize m'.temporary = o' at related ⊢
    cases related with
    | none => exact .error .noTemporaryFrame
    | some related => exact .ok related
  | .lf => by
    have related := h.locals
    unfold Memory.frame
    generalize m.locals = fs at related ⊢
    generalize m'.locals = fs' at related ⊢
    cases related with
    | nil => exact .error .noLocalFrame
    | cons top rest => exact .ok top

/-- Replacing a frame in both memories relates them again. -/
theorem setFrame (h : m.Framewise S m') : ∀ {kind : FrameKind}, S kind f f' →
    (m.setFrame kind f).Framewise S (m'.setFrame kind f')
  | .gf, related => ⟨related, h.temporary, h.locals⟩
  | .tf, related => ⟨h.globals, .some related, h.locals⟩
  | .lf, related => by
    refine ⟨h.globals, h.temporary, .cons related ?_⟩
    have rest := h.locals
    generalize m.locals = fs at rest ⊢
    generalize m'.locals = fs' at rest ⊢
    cases rest with
    | nil => exact .nil
    | cons top rest => exact rest

/-- A new temporary frame is empty in both memories. -/
theorem createTemporary (h : m.Framewise S m') (fresh : S .tf .empty .empty) :
    m.createTemporary.Framewise S m'.createTemporary :=
  ⟨h.globals, .some fresh, h.locals⟩

/-- A temporary frame that becomes local takes its relation along. -/
theorem pushTemporary (h : m.Framewise S m')
    (mark : ∀ {f f'}, S .tf f f' → S .lf (f.mark .lf) (f'.mark .lf)) :
    Corresponds ρ (Framewise S) m.pushTemporary m'.pushTemporary := by
  have related := h.temporary
  unfold Memory.pushTemporary
  generalize m.temporary = o at related ⊢
  generalize m'.temporary = o' at related ⊢
  cases related with
  | none => exact .error .noTemporaryFrame
  | some related => exact .ok ⟨h.globals, .none, .cons (mark related) h.locals⟩

/-- A local frame that becomes temporary again takes its relation along. -/
theorem popLocal (h : m.Framewise S m')
    (mark : ∀ {f f'}, S .lf f f' → S .tf (f.mark .tf) (f'.mark .tf)) :
    Corresponds ρ (Framewise S) m.popLocal m'.popLocal := by
  have related := h.locals
  unfold Memory.popLocal
  generalize m.locals = fs at related ⊢
  generalize m'.locals = fs' at related ⊢
  cases related with
  | nil => exact .error .noLocalFrame
  | cons top rest => exact .ok ⟨h.globals, .some (mark top), rest⟩

end Framewise

/-! ### Twins -/

/-- The second memory has the frames of the first one, with their variables under other names. These
tell the variables of each frame apart. -/
abbrev Twin (ρ : Renaming) (V : Set String) (m m' : Memory) : Prop :=
  m.Framewise (Frame.Twin ρ V) m'

namespace Twin

variable {m m' : Memory} {v : VariableName}

theorem of_empty : Twin ρ V Memory.empty Memory.empty :=
  ⟨.of_empty, .none, .nil⟩

/-- Twins are the same under other names. -/
theorem renamed (h : Twin ρ V m m') : m.Renamed ρ m' :=
  h.mono fun _ _ _ twin => twin.renamed

variable (injective : Set.InjOn ρ.ofVariable V) (h : Twin ρ V m m') (known : v.name ∈ V)

include injective h known

/-- A variable is found under both names, with one value, or under neither. -/
theorem get :
    Corresponds ρ (fun w w' => w'.value = w.value) (m.get v) (m'.get (v.rename ρ)) := by
  refine (h.frame v.frame).bind fun f f' twin => ?_
  rw [show (v.rename ρ).name = ρ.ofVariable v.name from rfl, twin.find?_eq injective known]
  cases f.find? v.name with
  | none => exact .error (.undefinedVariable v)
  | some w => exact .ok rfl

theorem assign (x : Value) :
    Corresponds ρ (Twin ρ V) (m.assign v x) (m'.assign (v.rename ρ) x) := by
  refine (h.frame v.frame).bind fun f f' twin => ?_
  rw [show (v.rename ρ).name = ρ.ofVariable v.name from rfl, twin.find?_eq injective known]
  cases f.find? v.name with
  | none => exact .error (.undefinedVariable v)
  | some w => exact .ok (h.setFrame (twin.assign injective known x))

/-- A variable can be declared under both names or under neither. -/
theorem declare : Corresponds ρ (Twin ρ V) (m.declare v) (m'.declare (v.rename ρ)) := by
  refine (h.frame v.frame).bind fun f f' twin => ?_
  rw [show (v.rename ρ).name = ρ.ofVariable v.name from rfl, twin.find?_eq injective known]
  cases found : f.find? v.name with
  | none => exact .ok (h.setFrame (twin.insert known found))
  | some w => exact .error (.redefinition v)

end Twin

end Memory

end Ippcode
