import Ippcode.Machine.Step

/-!
# Runs

A run takes steps until the program ends or a fault stops it. A program may run forever, so
each run has a limit to the number of its steps; more steps never change a run that has come to
its end (`run_add`).

An observer sees the events of a run in their order. It is a state and a function that
brings it up to date.
-/

namespace Ippcode

/-- What a run leaves behind : the machine, the state of its observer, and how it ended, unless
it was cut off. -/
structure Run (σ : Type) where
  machine : Machine
  observed : σ
  outcome : Option (Except Fault Termination)

/-- How a step ends a run, if it does. -/
def Turn.outcome? (t : Turn) : Option (Except Fault Termination) :=
  match t.result with
  | .ok .running => none
  | .ok (.finished ending) => some (.ok ending)
  | .error fault => some (.error fault)

/-- The state of an observer after a step. -/
def Turn.observe (t : Turn) (update : σ → Event → σ) (s : σ) : σ := t.events.foldl update s

namespace Machine

/-- Takes steps until the end of the program, but at most `limit`. -/
def run (update : σ → Event → σ) : Nat → σ → Machine → Run σ
  | 0, s, m => ⟨m, s, none⟩
  | limit + 1, s, m =>
    let turn := m.step
    let s := turn.observe update s
    match turn.outcome? with
    | none => run update limit s turn.machine
    | some outcome => ⟨turn.machine, s, some outcome⟩

/-- The steps of a run. -/
def turns : Nat → Machine → List Turn
  | 0, _ => []
  | limit + 1, m =>
    let turn := m.step
    turn :: if turn.outcome?.isSome then [] else turns limit turn.machine

/-- So many steps, whether the program ends or not. -/
def furtherTurns : Nat → Machine → List Turn
  | 0, _ => []
  | count + 1, m =>
    let turn := m.step
    turn :: furtherTurns count turn.machine

theorem run_add (update : σ → Event → σ) : ∀ (limit more : Nat) (s : σ) (m : Machine),
    (run update limit s m).outcome.isSome → run update (limit + more) s m = run update limit s m
  | 0, _, _, _, h => by simp [run] at h
  | limit + 1, more, s, m, h => by
    rw [Nat.add_right_comm]
    unfold run at h ⊢
    cases e : m.step.outcome? with
    | none =>
      simp only [e] at h ⊢
      exact run_add update limit more _ _ h
    | some outcome => simp only [e]

end Machine

end Ippcode
