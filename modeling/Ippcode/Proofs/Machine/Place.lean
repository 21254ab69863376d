import Ippcode.Proofs.Machine.Marked

/-!
# Places of frames

A frame is in the global place, in the temporary place, or on the stack of local frames. There its
place is its depth, counted from the bottom, so that it keeps it while other frames come and go
above. A place and a name are the address of a variable (`Memory.Address`), and `Memory.look` is
what a memory has there; variables of one name in several frames have several addresses. A program
reaches only the variables whose frame is global, temporary or on top (`Memory.address`).

Assigning and declaring affect one address (`assign_look`, `insert_look`). Moving a frame affects no
variable, only the place of its frame; `Opcode.carries?` says where it goes, and `Memory.Carries`
that nothing else happens.
-/

namespace Ippcode

namespace Memory

/-! ## Places and addresses -/

/-- Where a frame can be. -/
inductive FramePlace where
  | globals
  | temporary
  /-- So far above the bottom of the local frames. -/
  | locals (depth : Nat)
  deriving DecidableEq

/-- The mark of the variables in a place. -/
def FramePlace.kind : FramePlace → FrameKind
  | globals => .gf
  | temporary => .tf
  | locals _ => .lf

/-- Where a variable can be. -/
structure Address where
  place : FramePlace
  name : String
  deriving DecidableEq

variable {m m' : Memory} {kind : FrameKind} {f g : Frame} {place : FramePlace} {v : VariableName}
  {w : Variable}

/-- The frame in a place, if there is one. -/
def frameAt (m : Memory) : FramePlace → Option Frame
  | .globals => some m.globals
  | .temporary => m.temporary
  | .locals depth => m.locals.reverse[depth]?

/-- The variable at an address, if one is declared. -/
def look (m : Memory) (a : Address) : Option Variable :=
  (m.frameAt a.place).bind fun f => f.find? a.name

/-- Whether the variable at an address has a value. -/
def IsInitialized (m : Memory) (a : Address) : Prop :=
  ∃ w, m.look a = some w ∧ w.isInitialized = true

/-- The place of the frame that is meant by a mark. -/
def placeOf (m : Memory) : FrameKind → FramePlace
  | .gf => .globals
  | .tf => .temporary
  | .lf => .locals (m.locals.length - 1)

/-- The address that is meant by the name of a variable. -/
def address (m : Memory) (v : VariableName) : Address := ⟨m.placeOf v.frame, v.name⟩

/-- What is found in a stack of frames with one more on top. -/
theorem getElem?_reverse_cons (f : Frame) (fs : List Frame) (depth : Nat) :
    (f :: fs).reverse[depth]? = if depth = fs.length then some f else fs.reverse[depth]? := by
  rw [List.reverse_cons, List.getElem?_append, List.length_reverse]
  split_ifs with below top top
  · omega
  · rfl
  · simp [top]
  · rw [List.getElem?_eq_none (by simp; omega), List.getElem?_eq_none (by simp; omega)]

theorem look_of_frameAt (h : m.frameAt place = some f) (name : String) :
    m.look ⟨place, name⟩ = f.find? name := by
  rw [look, h, Option.bind_some]

theorem frameAt_placeOf (h : m.frame kind = .ok f) : m.frameAt (m.placeOf kind) = some f := by
  cases kind with
  | gf =>
    cases h
    rfl
  | tf =>
    cases there : m.temporary with
    | none => simp [frame, there] at h
    | some g => simpa [frame, frameAt, placeOf, there] using h
  | lf =>
    cases there : m.locals with
    | nil => simp [frame, there] at h
    | cons g gs => simpa [frame, frameAt, placeOf, there] using h

theorem frameAt_setFrame (h : m.frame kind = .ok g) (f : Frame) (place : FramePlace) :
    (m.setFrame kind f).frameAt place =
      if place = m.placeOf kind then some f else m.frameAt place := by
  cases kind with
  | gf | tf => cases place <;> simp [setFrame, frameAt, placeOf]
  | lf =>
    cases there : m.locals with
    | nil => simp [frame, there] at h
    | cons top rest =>
      cases place with
      | globals | temporary => simp [setFrame, frameAt, placeOf]
      | locals depth =>
        simp only [setFrame, frameAt, placeOf, there, List.tail_cons, List.length_cons,
          Nat.add_sub_cancel, FramePlace.locals.injEq, getElem?_reverse_cons]
        split_ifs <;> rfl

theorem Marked.frameAt (h : m.Marked) (hf : m.frameAt place = some f) : f.Housed place.kind := by
  cases place with
  | globals =>
    cases hf
    exact h.globals
  | temporary => exact h.temporary f hf
  | locals depth => exact h.locals f (List.mem_reverse.mp (List.mem_of_getElem? hf))

/-! ## One variable -/

/-- Two memories have the same frames and the same variables, except at one address. -/
structure AgreeExcept (m : Memory) (a : Address) (m' : Memory) : Prop where
  frames : ∀ place, (m'.frameAt place).isSome = (m.frameAt place).isSome
  others : ∀ b, b ≠ a → m'.look b = m.look b

theorem agreeExcept_setFrame (h : m.frame kind = .ok f) {name : String}
    (others : ∀ other, other ≠ name → g.find? other = f.find? other) :
    m.AgreeExcept ⟨m.placeOf kind, name⟩ (m.setFrame kind g) where
  frames place := by
    rw [frameAt_setFrame h]
    split
    · next here => rw [here, frameAt_placeOf h]; rfl
    · rfl
  others b different := by
    obtain ⟨place, other⟩ := b
    simp only [look, frameAt_setFrame h]
    split
    · next here =>
      subst here
      rw [frameAt_placeOf h]
      exact others other fun same => different (by rw [same])
    · rfl

/-- Assigning gives the variable that is meant a value. -/
theorem assign_look {x : Value} (h : m.assign v x = .ok m') :
    m.AgreeExcept (m.address v) m' ∧ ∃ w, m.look (m.address v) = some w ∧
      m'.look (m.address v) = some { w with value := some x } := by
  obtain ⟨f, hf, declared, rfl⟩ := assign_eq_ok_iff.mp h
  obtain ⟨w, hw⟩ := Option.isSome_iff_exists.mp declared
  refine ⟨agreeExcept_setFrame hf fun other different => ?_, w, ?_, ?_⟩
  · rw [Frame.find?_assign, if_neg different.symm]
  · exact (look_of_frameAt (frameAt_placeOf hf) _).trans hw
  · have there : (m.setFrame v.frame (f.assign v.name x)).frameAt (m.placeOf v.frame) = _ :=
      (frameAt_setFrame hf _ _).trans (if_pos rfl)
    rw [address, look_of_frameAt there, Frame.find?_assign, if_pos rfl, hw, Option.map_some]

/-- Inserting adds a variable where there was none. -/
theorem insert_look (h : m.insert w = .ok m') :
    m.AgreeExcept (m.address w.toVariableName) m' ∧ m.look (m.address w.toVariableName) = none ∧
      m'.look (m.address w.toVariableName) = some w := by
  obtain ⟨f, hf, absent, rfl⟩ := insert_eq_ok_iff.mp h
  refine ⟨agreeExcept_setFrame hf fun other different => ?_, ?_, ?_⟩
  · rw [Frame.find?_insert absent, if_neg different.symm]
  · exact (look_of_frameAt (frameAt_placeOf hf) _).trans absent
  · have there : (m.setFrame w.frame (f.insert w)).frameAt (m.placeOf w.frame) = _ :=
      (frameAt_setFrame hf _ _).trans (if_pos rfl)
    rw [address, look_of_frameAt there, Frame.find?_insert absent, if_pos rfl]

end Memory

/-! ## Moving frames -/

namespace Opcode

open Memory

/-- Where the frame of a place is when an instruction of this opcode has succeeded, if it is still
there. Making a temporary frame and popping a local one are the end of the temporary frame that was
there before. -/
def carries? (op : Opcode) (m : Memory) (place : FramePlace) : Option FramePlace :=
  match op, place with
  | createFrame, .temporary | popFrame, .temporary => none
  | pushFrame, .temporary => some (.locals m.locals.length)
  | popFrame, .locals depth => some (if depth + 1 = m.locals.length then .temporary else place)
  | _, _ => some place

/-- The place where an opcode makes a frame. -/
def fresh? : Opcode → Option FramePlace
  | createFrame => some .temporary
  | _ => none

end Opcode

namespace Memory

/-- What an opcode does to the frames as a whole. -/
structure Carries (op : Opcode) (m m' : Memory) : Prop where
  /-- A frame has the same variables where it is then, marked for that place. -/
  carried : ∀ {place place' f}, m.frameAt place = some f → op.carries? m place = some place' →
    m'.frameAt place' = some (f.mark place'.kind)
  /-- Any other frame is a new one. -/
  only : ∀ {place' f'}, m'.frameAt place' = some f' →
    (∃ place, (m.frameAt place).isSome ∧ op.carries? m place = some place') ∨
      op.fresh? = some place' ∧ f' = .empty

variable {m m' : Memory} {place place' : FramePlace} {f : Frame}

/-- A frame that stays where it is needs no other marks. -/
theorem Marked.frameAt_mark (h : m.Marked) (hf : m.frameAt place = some f) :
    m.frameAt place = some (f.mark place.kind) := by
  rw [(h.frameAt hf).mark_self, hf]

theorem Marked.createTemporary_carries (h : m.Marked) :
    Carries .createFrame m m.createTemporary where
  carried {place place' f} hf moves := by
    cases place with
    | temporary => cases moves
    | globals | locals =>
      cases moves
      exact h.frameAt_mark hf
  only {place' f'} hf' := by
    cases place' with
    | globals => exact .inl ⟨.globals, rfl, rfl⟩
    | temporary => exact .inr ⟨rfl, (Option.some.inj hf').symm⟩
    | locals depth => exact .inl ⟨.locals depth, Option.isSome_of_mem hf', rfl⟩

theorem Marked.pushTemporary_carries (h : m.Marked) (hm : m.pushTemporary = .ok m') :
    Carries .pushFrame m m' := by
  unfold Memory.pushTemporary at hm
  split at hm
  · next top there =>
    cases hm
    refine ⟨fun {place place' f} hf moves => ?_, fun {place' f'} hf' => ?_⟩
    · cases place with
      | globals =>
        cases moves
        exact h.frameAt_mark hf
      | temporary =>
        obtain rfl : top = f := Option.some.inj (there.symm.trans hf)
        cases moves
        exact (getElem?_reverse_cons _ _ _).trans (if_pos rfl)
      | locals depth =>
        cases moves
        have below := (List.getElem?_eq_some_iff.mp hf).1
        rw [List.length_reverse] at below
        rw [← h.frameAt_mark hf]
        exact (getElem?_reverse_cons _ _ _).trans (if_neg below.ne)
    · cases place' with
      | globals => exact .inl ⟨.globals, rfl, rfl⟩
      | temporary => cases hf'
      | locals depth =>
        simp only [Memory.frameAt, getElem?_reverse_cons] at hf'
        split at hf'
        · next last => exact .inl ⟨.temporary, Option.isSome_of_mem there, by rw [last]; rfl⟩
        · exact .inl ⟨.locals depth, Option.isSome_of_mem hf', rfl⟩
  · cases hm

theorem Marked.popLocal_carries (h : m.Marked) (hm : m.popLocal = .ok m') :
    Carries .popFrame m m' := by
  unfold Memory.popLocal at hm
  split at hm
  · next top rest there =>
    cases hm
    -- a local frame is the top one or has the same depth among the others
    have depths (depth : Nat) : m.frameAt (.locals depth) =
        if depth = rest.length then some top else rest.reverse[depth]? := by
      rw [Memory.frameAt, there, getElem?_reverse_cons]
    have goes (depth : Nat) : Opcode.carries? .popFrame m (.locals depth) =
        some (if depth = rest.length then .temporary else .locals depth) := by
      simp [Opcode.carries?, there]
    refine ⟨fun {place place' f} hf moves => ?_, fun {place' f'} hf' => ?_⟩
    · cases place with
      | globals =>
        cases moves
        exact h.frameAt_mark hf
      | temporary => cases moves
      | locals depth =>
        have housed := h.frameAt hf
        rw [depths] at hf
        rw [goes] at moves
        split at hf
        · next last =>
          rw [if_pos last] at moves
          cases moves
          cases hf
          rfl
        · next below =>
          rw [if_neg below] at moves
          cases moves
          rw [housed.mark_self]
          exact hf
    · cases place' with
      | globals => exact .inl ⟨.globals, rfl, rfl⟩
      | temporary =>
        exact .inl ⟨.locals rest.length, by rw [depths, if_pos rfl]; rfl, by rw [goes, if_pos rfl]⟩
      | locals depth =>
        have below := (List.getElem?_eq_some_iff.mp hf').1
        rw [List.length_reverse] at below
        refine .inl ⟨.locals depth, ?_, by rw [goes, if_neg below.ne]⟩
        rw [depths, if_neg below.ne]
        exact Option.isSome_of_mem hf'
  · cases hm

end Memory

end Ippcode
