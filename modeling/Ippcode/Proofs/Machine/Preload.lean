import Ippcode.Proofs.Machine.Dialogue
import Ippcode.Proofs.Text.Stream

/-!
# Input that is known in advance

It makes no difference to a program whether a text is cut into lines before the program starts, or
taken off a stream line by line. A program learns about its input only from the answers to its
requests for a line, and both kinds of input give the same answers, however many there are
(`Text.Stream`). So its exchanges are the same (`Dialogue.exchanges_of_alike`), each step is the
same except for the input that is left, and so is the whole run (`run_withConsole_of_alike`).
-/

namespace Ippcode

/-! ## Streams that are alike -/

/-- Two inputs give the same answers, however often they are asked. -/
def Input.Alike (i i' : Input) : Prop := ∀ count, i.answers count = i'.answers count

theorem Input.Alike.next {i i' : Input} (h : i.Alike i') :
    i.next.1 = i'.next.1 ∧ i.next.2.Alike i'.next.2 :=
  ⟨(List.cons.inj (h 1)).1, fun count => (List.cons.inj (h (count + 1))).2⟩

/-- Two consoles differ only in where their lines come from. -/
structure Console.Alike (k k' : Console) : Prop where
  input : k.input.Alike k'.input
  output : k'.output = k.output
  diagnostic : k'.diagnostic = k.diagnostic

namespace Console.Alike

variable {k k' : Console}

theorem eq_withInput (h : k.Alike k') : k' = { k with input := k'.input } := by
  obtain ⟨input', output', diagnostic'⟩ := k'
  obtain ⟨input, rfl, rfl⟩ := h
  rfl

theorem answer (h : k.Alike k') (q : Query) :
    (k'.answer q).1 = (k.answer q).1 ∧ (k.answer q).2.Alike (k'.answer q).2 := by
  obtain ⟨input', output', diagnostic'⟩ := k'
  obtain ⟨input, rfl, rfl⟩ := h
  cases q with
  | flush => exact ⟨rfl, input, rfl, rfl⟩
  | line => exact ⟨input.next.1.symm, input.next.2, rfl, rfl⟩
  | print bytes => exact ⟨rfl, input, rfl, rfl⟩
  | report bytes => exact ⟨rfl, input, rfl, rfl⟩

theorem after : ∀ {k k' : Console} (log : List Exchange), k.Alike k' →
    (k.after log).Alike (k'.after log)
  | _, _, [], h => h
  | _, _, x :: log, h => after log (h.answer x.query).2

end Console.Alike

theorem Dialogue.exchanges_of_alike : ∀ (d : Dialogue) {k k' : Console}, k.Alike k' →
    d.exchanges k' = d.exchanges k
  | done _ _, _, _, _ => rfl
  | ask q rest, k, k', h => by
    obtain ⟨same, left⟩ := h.answer q
    have others := exchanges_of_alike (rest (k.answer q).1) left
    unfold exchanges
    rw [same, others]

/-! ## Runs -/

namespace Machine

variable {σ : Type}

/-- A run is the same on streams that are alike, and leaves streams behind that are alike. -/
theorem run_withConsole_of_alike (update : σ → Event → σ) : ∀ (limit : Nat) (s : σ)
    {m : Machine} {k : Console}, (∀ i ∈ m.instructions, i.Fits) → m.context.console.Alike k →
      ∃ k', (run update limit s m).machine.context.console.Alike k' ∧
        run update limit s (m.withConsole k) = (run update limit s m).withConsole k'
  | 0, _, _, k, _, alike => ⟨k, alike, rfl⟩
  | limit + 1, s, m, k, fits, alike => by
    have step := step_withConsole fits (m.dialogue.exchanges_of_alike alike)
    have left : m.step.machine.context.console.Alike (k.after m.exchanges) := by
      rw [step_console fits]
      exact alike.after _
    have outcome : (m.withConsole k).step.outcome? = m.step.outcome? := by rw [step]; rfl
    cases now : m.step.outcome? with
    | none =>
      rw [run_of_running now, run_of_running (outcome.trans now), step]
      exact run_withConsole_of_alike update limit _ (by rwa [instructions_step]) left
    | some ending =>
      rw [run_of_outcome now, run_of_outcome (outcome.trans now), step]
      exact ⟨_, left, rfl⟩

/-- A text and its bytes are the same input for every program. However often they are asked, both
give the lines of the text, in their order, and nothing from then on. So a program is accepted with
one of them if it is with the other, and refused with the same fault. And however many steps
it takes and whoever observes it, it ends in the same way, with the same to observe, and leaves the
same machine behind, except that its input gives the remaining lines in the other form. -/
theorem run_encode_eq_run_ofText (text : String) :
    (∀ count,
      (Input.ofText text).answers count =
        (List.range count).map (((Text.lines text.toList).map String.ofList)[·]?) ∧
      (Input.stream (Text.encode text)).answers count =
        (List.range count).map (((Text.lines text.toList).map String.ofList)[·]?)) ∧
    ∀ (p : Program) (output diagnostic : Output),
      match create p ⟨.ofText text, output, diagnostic⟩,
        create p ⟨.stream (Text.encode text), output, diagnostic⟩ with
      | .ok m, .ok m' => ∀ (σ : Type) (update : σ → Event → σ) (s : σ) (limit : Nat),
        ∃ input, (run update limit s m).machine.context.console.input.Alike input ∧
          run update limit s m' = (run update limit s m).withConsole
            { (run update limit s m).machine.context.console with input := input }
      | .error fault, .error fault' => fault = fault'
      | _, _ => False := by
  have bytes (count : Nat) := Input.answers_stream count text.toList
  rw [String.ofList_toList] at bytes
  have known (count : Nat) := Input.answers_lines count ((Text.lines text.toList).map String.ofList)
  refine ⟨fun count => ⟨known count, bytes count⟩, fun p output diagnostic => ?_⟩
  have alike : Console.Alike ⟨.ofText text, output, diagnostic⟩
      ⟨.stream (Text.encode text), output, diagnostic⟩ :=
    ⟨fun count => (known count).trans (bytes count).symm, rfl, rfl⟩
  rw [create_withConsole p ⟨.ofText text, output, diagnostic⟩
    ⟨.stream (Text.encode text), output, diagnostic⟩]
  cases created : create p ⟨.ofText text, output, diagnostic⟩ with
  | error fault => rfl
  | ok m =>
    intro σ update s limit
    have fits := Reaches.start.fits created
    obtain ⟨e, -, rfl⟩ := create_eq_ok created
    obtain ⟨k, left, same⟩ := run_withConsole_of_alike update limit s fits alike
    exact ⟨k.input, left.input, same.trans (congrArg _ left.eq_withInput)⟩

/-- Only a carriage return directly before a line feed belongs to the end of a line. -/
example : (Input.stream (Text.encode "a\r\r\n\n\r")).answers 4 =
    [some "a\r", some "", some "\r", none] := by
  decide

end Machine

end Ippcode
