import Ippcode.Proofs.Machine.Effect

/-!
# Marks of variables

The variables of a frame stand in the order of their names, no two of one name, and are marked
with the place where the frame is (`Frame.Housed`). A memory is `Memory.Marked` if all of its
frames are housed where they are : the memory of a program that has not started is, and whatever
is done to a marked memory gives a marked memory, because a frame that moves is marked anew and a
variable is inserted into the frame that it is marked with. What this takes is the same for any
property that frames have in their places (`Memory.Each`).

So what is found under a name bears the name and the mark that it was asked for
(`Memory.Marked.toVariableName_of_get`), and a frame that moves there and back is the same again
(`Memory.Marked.popLocal_pushTemporary`, `Memory.Marked.pushTemporary_popLocal`).
-/

namespace Ippcode

/-! ## Frames -/

namespace Frame

/-- The variables of a frame stand in the order of their names and are marked with this place. -/
structure Housed (f : Frame) (kind : FrameKind) : Prop where
  sorted : f.entries.Pairwise fun v w => v.name < w.name
  marked : ∀ v ∈ f.entries, v.frame = kind

variable {f : Frame} {kind : FrameKind} {v w : Variable} {name : String}

/-- What is found in a frame is one of its variables. -/
theorem mem_of_find? (h : f.find? name = some v) : v ∈ f.entries := List.mem_of_find?_eq_some h

theorem name_of_find? (h : f.find? name = some v) : v.name = name := by
  simpa using List.find?_some h

theorem housed_empty : empty.Housed kind := ⟨.nil, fun _ h => nomatch h⟩

/-! ### One more variable -/

/-- Putting a variable into a frame loses no other. -/
theorem mem_place : ∀ {ws : List Variable}, w ∈ place v ws ↔ w = v ∨ w ∈ ws
  | [] => by simp [place]
  | x :: ws => by
    unfold place
    split
    · simp
    · rw [List.mem_cons, List.mem_cons, mem_place]
      tauto

/-- A variable whose name is not there is put where it belongs. -/
theorem sorted_place : ∀ {ws : List Variable}, (∀ w ∈ ws, w.name ≠ v.name) →
    (ws.Pairwise fun v w => v.name < w.name) →
      (place v ws).Pairwise fun v w => v.name < w.name
  | [], _, _ => by simp [place]
  | x :: ws, absent, sorted => by
    obtain ⟨first, rest⟩ := List.pairwise_cons.mp sorted
    unfold place
    split
    · next before =>
      refine .cons (fun w hw => ?_) sorted
      rcases List.mem_cons.mp hw with rfl | hw
      · exact before
      · exact String.lt_trans before (first w hw)
    · next after =>
      have before : x.name < v.name :=
        Std.lt_of_le_of_ne (String.not_lt.mp after) (absent x List.mem_cons_self)
      refine .cons (fun w hw => ?_)
        (sorted_place (fun w hw => absent w (List.mem_cons_of_mem _ hw)) rest)
      rcases mem_place.mp hw with rfl | hw
      · exact before
      · exact first w hw

namespace Housed

/-- A new variable goes to its place in the order of names. -/
theorem insert (h : f.Housed v.frame) (absent : f.find? v.name = none) :
    (f.insert v).Housed v.frame where
  sorted := sorted_place (fun w hw => by simpa using List.find?_eq_none.mp absent w hw) h.sorted
  marked w hw := by
    rcases mem_place.mp hw with rfl | hw
    · rfl
    · exact h.marked w hw

/-- Giving a value moves no variable. -/
theorem assign (h : f.Housed kind) (name : String) (x : Value) :
    (f.assign name x).Housed kind where
  sorted := by
    refine List.pairwise_map.mpr (h.sorted.imp fun {v w} hvw => ?_)
    split <;> split <;> exact hvw
  marked w hw := by
    obtain ⟨v, hv, rfl⟩ := List.mem_map.mp hw
    split <;> exact h.marked v hv

/-! ### Marking anew -/

/-- Marking a frame for another place marks all of its variables. -/
theorem mark (h : f.Housed kind) (place : FrameKind) : (f.mark place).Housed place where
  sorted := List.pairwise_map.mpr h.sorted
  marked w hw := by
    obtain ⟨v, -, rfl⟩ := List.mem_map.mp hw
    rfl

/-- Marking does nothing where the frame is already. -/
theorem mark_self (h : f.Housed kind) : f.mark kind = f := by
  have each : ∀ v ∈ f.entries, ({ v with frame := kind } : Variable) = v := fun v hv => by
    rw [← h.marked v hv]
  simp [Frame.mark, List.map_congr_left each]

/-! ### Finding a variable -/

/-- No name occurs twice in a frame. -/
theorem nodup (h : f.Housed kind) : (f.entries.map fun v => v.name).Nodup :=
  List.pairwise_map.mpr (h.sorted.imp fun lt => Std.ne_of_lt lt)

/-- Each variable is found under its own name. -/
theorem find?_name (h : f.Housed kind) (hv : v ∈ f.entries) : f.find? v.name = some v := by
  have named : (f.find? v.name).isSome := List.find?_isSome.mpr ⟨v, hv, by simp⟩
  obtain ⟨w, hw⟩ := Option.isSome_iff_exists.mp named
  rw [hw, List.inj_on_of_nodup_map h.nodup (mem_of_find? hw) hv (name_of_find? hw)]

/-- A variable that is found knows the full name it was looked up under. -/
theorem toVariableName_of_find? (h : f.Housed kind) (hv : f.find? name = some v) :
    v.toVariableName = ⟨kind, name⟩ := by
  rw [← h.marked v (mem_of_find? hv), ← name_of_find? hv]

end Housed

/-- Only the last mark counts. -/
@[simp] theorem mark_mark (f : Frame) (place place' : FrameKind) :
    (f.mark place).mark place' = f.mark place' := by
  simp [mark]

end Frame

/-! ## Memory -/

namespace Memory

/-! ### Every frame -/

/-- Every frame has a property of the frames in its place. -/
structure Each (P : FrameKind → Frame → Prop) (m : Memory) : Prop where
  globals : P .gf m.globals
  temporary : ∀ f ∈ m.temporary, P .tf f
  locals : ∀ f ∈ m.locals, P .lf f

namespace Each

variable {P : FrameKind → Frame → Prop} {m m' : Memory} {kind : FrameKind} {f : Frame}

/-- The frame of a name is one of the frames of the memory. -/
theorem frame (h : m.Each P) (hf : m.frame kind = .ok f) : P kind f := by
  unfold Memory.frame at hf
  split at hf
  · cases hf
    exact h.globals
  · split at hf
    · next eq => cases hf; exact h.temporary _ eq
    · cases hf
  · split at hf
    · next eq => cases hf; exact h.locals _ (eq ▸ List.mem_cons_self)
    · cases hf

/-- Replacing a frame needs to be justified for this frame only. -/
theorem setFrame (h : m.Each P) (hf : P kind f) : (m.setFrame kind f).Each P := by
  cases kind with
  | gf => exact ⟨hf, h.temporary, h.locals⟩
  | tf => exact ⟨h.globals, fun _ hg => Option.some.inj hg ▸ hf, h.locals⟩
  | lf =>
    refine ⟨h.globals, h.temporary, List.forall_mem_cons.mpr ⟨hf, fun g hg => ?_⟩⟩
    exact h.locals g (List.mem_of_mem_tail hg)

theorem createTemporary (h : m.Each P) (new : P .tf .empty) : m.createTemporary.Each P :=
  ⟨h.globals, fun _ hg => Option.some.inj hg ▸ new, h.locals⟩

/-- A frame that moves takes its property along, if this can be marked anew. -/
theorem pushTemporary (h : m.Each P) (moved : ∀ f, P .tf f → P .lf (f.mark .lf))
    (hm : m.pushTemporary = .ok m') : m'.Each P := by
  unfold Memory.pushTemporary at hm
  split at hm
  · next g hg =>
    cases hm
    exact ⟨h.globals, nofun, List.forall_mem_cons.mpr ⟨moved g (h.temporary g hg), h.locals⟩⟩
  · cases hm

theorem popLocal (h : m.Each P) (moved : ∀ f, P .lf f → P .tf (f.mark .tf))
    (hm : m.popLocal = .ok m') : m'.Each P := by
  unfold Memory.popLocal at hm
  split at hm
  · next g gs hg =>
    cases hm
    obtain ⟨top, others⟩ := List.forall_mem_cons.mp (hg ▸ h.locals)
    exact ⟨h.globals, fun _ hf => Option.some.inj hf ▸ moved g top, others⟩
  · cases hm

end Each

/-! ### Marks -/

/-- Every frame is housed where it is. -/
structure Marked (m : Memory) : Prop where
  globals : m.globals.Housed .gf
  temporary : ∀ f ∈ m.temporary, f.Housed .tf
  locals : ∀ f ∈ m.locals, f.Housed .lf

/-- All frames, each with the place where it is. -/
def frames (m : Memory) : List (FrameKind × Frame) :=
  (.gf, m.globals) :: (m.temporary.toList.map (.tf, ·) ++ m.locals.map (.lf, ·))

/-- A memory is marked frame by frame. -/
theorem marked_iff_each {m : Memory} : m.Marked ↔ m.Each fun kind f => f.Housed kind :=
  ⟨fun ⟨globals, temporary, locals⟩ => ⟨globals, temporary, locals⟩,
    fun ⟨globals, temporary, locals⟩ => ⟨globals, temporary, locals⟩⟩

theorem marked_empty : empty.Marked :=
  ⟨Frame.housed_empty, fun _ h => (Option.not_mem_none _ h).elim, fun _ h => nomatch h⟩

variable {m m' : Memory} {kind : FrameKind} {f : Frame} {v : VariableName} {w : Variable}

namespace Marked

theorem housed (h : m.Marked) (hf : (kind, f) ∈ m.frames) : f.Housed kind := by
  simp only [frames, List.mem_cons, List.mem_append, List.mem_map, Option.mem_toList,
    Prod.mk.injEq] at hf
  obtain ⟨rfl, rfl⟩ | ⟨f, hf, rfl, rfl⟩ | ⟨f, hf, rfl, rfl⟩ := hf
  · exact h.globals
  · exact h.temporary f hf
  · exact h.locals f hf

theorem frame (h : m.Marked) (hf : m.frame kind = .ok f) : f.Housed kind :=
  (marked_iff_each.mp h).frame hf

theorem setFrame (h : m.Marked) (hf : f.Housed kind) : (m.setFrame kind f).Marked :=
  marked_iff_each.mpr ((marked_iff_each.mp h).setFrame hf)

/-! ### Moving frames -/

theorem createTemporary (h : m.Marked) : m.createTemporary.Marked :=
  marked_iff_each.mpr ((marked_iff_each.mp h).createTemporary Frame.housed_empty)

theorem pushTemporary (h : m.Marked) (hm : m.pushTemporary = .ok m') : m'.Marked :=
  marked_iff_each.mpr ((marked_iff_each.mp h).pushTemporary (fun _ hf => hf.mark .lf) hm)

theorem popLocal (h : m.Marked) (hm : m.popLocal = .ok m') : m'.Marked :=
  marked_iff_each.mpr ((marked_iff_each.mp h).popLocal (fun _ hf => hf.mark .tf) hm)

/-- A temporary frame that is pushed and popped is the same again. -/
theorem popLocal_pushTemporary (h : m.Marked) (hm : m.pushTemporary = .ok m') :
    m'.popLocal = .ok m := by
  unfold Memory.pushTemporary at hm
  split at hm
  · next g hg =>
    cases hm
    simp only [Memory.popLocal, Frame.mark_mark, (h.temporary g hg).mark_self, ← hg]
  · cases hm

/-- A local frame that is popped and pushed is the same again. The temporary frame that it replaced
is gone. -/
theorem pushTemporary_popLocal (h : m.Marked) (hm : m.popLocal = .ok m') :
    m'.pushTemporary = .ok { m with temporary := none } := by
  unfold Memory.popLocal at hm
  split at hm
  · next g gs hg =>
    cases hm
    have top := h.locals g (hg ▸ List.mem_cons_self)
    simp only [Memory.pushTemporary, Frame.mark_mark, top.mark_self, ← hg]
  · cases hm

/-! ### Variables -/

/-- Declaring keeps a memory marked. -/
theorem insert (h : m.Marked) (hm : m.insert w = .ok m') : m'.Marked := by
  obtain ⟨f, hf, absent, rfl⟩ := insert_eq_ok_iff.mp hm
  exact h.setFrame ((h.frame hf).insert absent)

/-- Assigning keeps a memory marked. -/
theorem assign {x : Value} (h : m.Marked) (hm : m.assign v x = .ok m') : m'.Marked := by
  obtain ⟨f, hf, -, rfl⟩ := assign_eq_ok_iff.mp hm
  exact h.setFrame ((h.frame hf).assign v.name x)

/-- What is found bears the name and the mark that it was asked for. -/
theorem toVariableName_of_get (h : m.Marked) (hw : m.get v = .ok w) : w.toVariableName = v := by
  obtain ⟨f, hf, found⟩ := get_eq_ok_iff.mp hw
  exact (h.frame hf).toVariableName_of_find? found

end Marked

end Memory

end Ippcode
