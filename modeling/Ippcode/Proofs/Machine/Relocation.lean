import Ippcode.Proofs.Machine.Simulation

/-!
# Programs at other positions

An instruction does not look at positions : it takes them from the labels and from the unfinished
calls, puts the position behind a call there, and shows them to the person who debugs. So it does
the same in two contexts that differ only in their positions and in what has been shown
(`Context.Alike`), if `f` gives the position in one of them for each position in the other, also for
the one behind the instruction (`perform_alike`). Its flow then differs in the same way.

Such contexts correspond (`Correspondence.relocation`), and all names stay as they are.
-/

namespace Ippcode

/-! ## Other positions -/

/-- The environment with other positions. -/
def Environment.relocate (f : Nat → Nat) (e : Environment) : Environment :=
  { e with labels := e.labels.map fun (name, position) => (name, f position)
           calls := e.calls.map f }

/-- The flow with another position. -/
def Flow.relocate (f : Nat → Nat) : Flow → Flow
  | transfer label target => transfer label (f target)
  | resume target => resume (f target)
  | flow => flow

/-- The event with other positions. -/
def Event.relocate (f : Nat → Nat) : Event → Event
  | fetched i before => fetched i (before.relocate f)
  | transferred i label target => transferred i label (f target)
  | finished after => finished (after.relocate f)

/-- Two contexts are alike except for positions, which `f` gives for the first one, and for what has
been shown on the diagnostic streams. These refuse nothing. -/
structure Context.Alike (f : Nat → Nat) (c c' : Context) : Prop where
  environment : c.environment = c'.environment.relocate f
  input : c.console.input = c'.console.input
  output : c.console.output = c'.console.output
  diagnostic : c.console.diagnostic.room = none ∧ c'.console.diagnostic.room = none

variable {f : Nat → Nat}

theorem Environment.lookup_relocate (labels : List (String × Nat)) (name : String) :
    (labels.map fun (name, position) => (name, f position)).lookup name =
      (labels.lookup name).map f := by
  induction labels with
  | nil => rfl
  | cons entry labels ih =>
    rw [List.map_cons, List.lookup_cons, List.lookup_cons]
    split
    · rfl
    · exact ih

/-! ## Positions that correspond -/

/-- The second context has other positions, which are given by `f`, and both diagnostic streams
refuse nothing. -/
def Correspondence.relocation (f : Nat → Nat) : Correspondence :=
  withSameMemory f (fun ls ls' => ls' = ls.map fun (name, position) => (name, f position))
    (Console.AgreesUpTo Output.BothUnlimited)

/-- Being alike up to positions is one of the correspondences. -/
theorem Context.alike_iff {c c' : Context} :
    c.Alike f c' ↔ (Correspondence.relocation f).Relates c' c := by
  constructor
  · intro h
    have environment := h.environment
    refine ⟨?_, ?_, ?_, ?_, h.input, h.output, h.diagnostic.symm⟩ <;> rw [environment] <;> rfl
  · intro h
    refine ⟨?_, h.console.input, h.console.output, h.console.diagnostic.symm⟩
    change Environment.mk _ _ _ _ = Environment.mk _ _ _ _
    rw [show c.environment.labels = _ from h.labels, h.calls, h.data,
      show c.environment.memory = c'.environment.memory from h.memory]
    rfl

/-- Two actions do the same to contexts that are alike : what they give differs by `g`. -/
def Action.Alike (f : Nat → Nat) (g : α → α) (act act' : Action α) : Prop :=
  ∀ c c' : Context, c.Alike f c' →
    (act.on c).1 = (act'.on c').1.map g ∧ (act.on c).2.Alike f (act'.on c').2

/-- Going to alike positions is translating the flow. -/
theorem Flow.translate_relocation : Flow.translate (.relocation f) = Flow.relocate f := by
  funext flow
  cases flow <;> rfl

/-- An instruction does the same at two positions, if the positions behind it correspond. -/
theorem Instruction.perform_alike (i : Instruction) {here here' : Nat}
    (behind : f (here' + 1) = here + 1) :
    Action.Alike f (Flow.relocate f) (i.perform here) (i.perform here') := by
  intro c c' alike
  have related := Context.alike_iff.mp alike
  obtain ⟨result, left⟩ := perform_matches (K := .relocation f) (.keep i)
    (Correspondence.isFaithful_withSameMemory fun h name =>
      h ▸ Environment.lookup_relocate _ name)
    (fun _ _ => trivial) behind related
    (fun _ => Correspondence.popLocal_withSameMemory related.memory)
    (fun _ _ => Correspondence.sharesStreams_of_agreesUpTo rfl Output.writesAlike_bothUnlimited)
    (fun _ => Correspondence.showsAnything_of_agreesUpTo rfl)
  exact ⟨Flow.translate_relocation ▸ result.eq_map, Context.alike_iff.mpr left⟩

end Ippcode
