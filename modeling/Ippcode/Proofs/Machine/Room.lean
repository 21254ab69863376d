import Ippcode.Proofs.Machine.Dialogue
import Ippcode.Proofs.Numeral.DecimalText

/-!
# Output streams that close

An output stream that closes after so many bytes cuts the output of a program off, and does nothing
else to it. As long as what is printed has room, the exchanges of a program are those on a stream
that never closes (`Dialogue.exchanges_limited`), so its steps and runs are the same except for the
room (`step_limited`, `run_limited`). Only printing uses up room (`step_past`). So the first step
for which there is not enough of it is an instruction that prints : it is a fault, it leaves the
environment and the position as they were, and the stream has taken the beginning of its text
(`step_limited_past`).

A text that is empty needs no room, and `nil` and the empty string are the only values with such a
text (`Value.text_eq_empty_iff`).
-/

namespace Ippcode

/-! ## Texts of values -/

namespace Numeral

theorem ofInt_ne_nil (n : Int) : ofInt n ≠ [] := by
  unfold ofInt
  split
  · exact List.cons_ne_nil _ _
  · exact Nat.toDigits_ne_nil

theorem magnitudeText_ne_nil (b : Nat) : magnitudeText .source b ≠ [] := by
  obtain ⟨c, rest, text, -⟩ := (isFloatText_magnitudeText b).first
  rw [text]
  exact List.cons_ne_nil c rest

theorem floatText_ne_empty (x : Float) : floatText .source x ≠ "" := by
  unfold floatText
  simp only
  split
  · decide
  · rw [Ne, String.ofList_eq_empty_iff]
    split_ifs
    · exact not_false
    · exact magnitudeText_ne_nil _
    · decide

end Numeral

theorem Value.text_eq_empty_iff {x : Value} : x.text = "" ↔ x = .nil ∨ x = .string "" := by
  cases x with
  | int n => simp [text, Numeral.ofInt_ne_nil]
  | float x => simp [text, Numeral.floatText_ne_empty]
  | bool b => cases b <;> simp [text]
  | string s => simp [text]
  | nil => simp [text]

/-! ## Streams with room -/

namespace Output

variable {o : Output} {bytes : List UInt8} {total : Nat}

/-- The stream as one that takes so many bytes in total. -/
def limited (o : Output) (total : Nat) : Output :=
  { o with room := some (total - o.accepted.length) }

/-- Bytes for which there is room are taken as they are by a stream without a limit. -/
theorem write_limited (room : o.room = none) (small : (o.write bytes).2.accepted.length ≤ total) :
    (o.limited total).write bytes = ((o.write bytes).1, (o.write bytes).2.limited total) := by
  rw [accepted_of_write (write_of_room room bytes).1, List.length_append] at small
  obtain ⟨latest, _, canFlush⟩ := o
  obtain rfl : _ = none := room
  have enough : latest.length + bytes.length ≤ total := by simpa [accepted] using small
  have all : bytes.take (total - latest.length) = bytes := List.take_of_length_le (by omega)
  have left : total - latest.length - bytes.length = total - (latest.length + bytes.length) := by
    omega
  simp [write, limited, fitting, accepted, all, left]

/-- Of bytes for which there is not enough room the first ones are taken. -/
theorem write_limited_of_lt (before : o.accepted.length ≤ total)
    (past : total < (o.accepted ++ bytes).length) :
    ((o.limited total).write bytes).1 = .error .closed ∧
      ((o.limited total).write bytes).2.accepted = (o.accepted ++ bytes).take total := by
  have taken : (o.limited total).fitting bytes = bytes.take (total - o.accepted.length) := rfl
  rw [List.length_append] at past
  constructor
  · have short : (bytes.take (total - o.accepted.length)).length ≠ bytes.length := by
      rw [List.length_take]
      omega
    rw [write, taken, if_neg short]
  · rw [accepted_write, taken, List.take_append, List.take_of_length_le before]
    rfl

end Output

/-! ## Exchanges with room -/

namespace Console

variable {k : Console} {total : Nat}

/-- The streams, with an output stream that takes so many bytes in total. -/
def limited (k : Console) (total : Nat) : Console := { k with output := k.output.limited total }

theorem answer_room (room : k.output.room = none) (q : Query) :
    (k.answer q).2.output.room = none := by
  cases q with
  | print bytes => exact (Output.write_of_room room bytes).2
  | flush | line | report bytes => exact room

theorem accepted_answer (q : Query) : k.output.accepted <+: (k.answer q).2.output.accepted := by
  cases q with
  | print bytes => exact ⟨_, (Output.accepted_write _ bytes).symm⟩
  | flush | line | report bytes => exact List.prefix_rfl

theorem after_room : ∀ (log : List Exchange) {k : Console}, k.output.room = none →
    (k.after log).output.room = none
  | [], _, room => room
  | x :: log, _, room => after_room log (answer_room room x.query)

theorem accepted_after : ∀ (log : List Exchange) (k : Console),
    k.output.accepted <+: (k.after log).output.accepted
  | [], _ => List.prefix_rfl
  | x :: log, k => (accepted_answer x.query).trans (accepted_after log (k.answer x.query).2)

/-- A query whose answer has room gets the same answer. -/
theorem answer_limited (room : k.output.room = none) (q : Query)
    (small : (k.answer q).2.output.accepted.length ≤ total) :
    (k.limited total).answer q = ((k.answer q).1, (k.answer q).2.limited total) := by
  cases q with
  | print bytes =>
    have taken := Output.write_limited room small
    unfold answer
    simp only [limited, taken]
  | flush | line | report bytes => rfl

end Console

/-- A dialogue whose output has room is the same. -/
theorem Dialogue.exchanges_limited {total : Nat} : ∀ (d : Dialogue) {k : Console},
    k.output.room = none → (k.after (d.exchanges k)).output.accepted.length ≤ total →
      d.exchanges (k.limited total) = d.exchanges k ∧
        (k.limited total).after (d.exchanges k) = (k.after (d.exchanges k)).limited total
  | done _ _, _, _, _ => ⟨rfl, rfl⟩
  | ask q rest, k, room, small => by
    have first : (k.answer q).2.output.accepted.length ≤ total :=
      (Console.accepted_after _ _).length_le.trans small
    obtain ⟨same, left⟩ :=
      exchanges_limited (rest (k.answer q).1) (Console.answer_room room q) small
    have answered := Console.answer_limited room q first
    refine ⟨?_, ?_⟩
    · unfold exchanges
      rw [answered, same]
    · change ((k.limited total).answer q).2.after _ = ((k.answer q).2.after _).limited total
      rw [answered]
      exact left

/-! ## Steps -/

namespace Machine

variable {σ : Type} {update : σ → Event → σ} {m n : Machine} {i : Instruction} {a : Argument}
  {x : Value} {total : Nat}

/-- All that has been printed. -/
def printed (n : Machine) : List UInt8 := n.context.console.output.accepted

/-- The machine with an output stream that takes so many bytes in total. -/
def limited (n : Machine) (total : Nat) : Machine :=
  n.withConsole (n.context.console.limited total)

/-- The instructions of a machine fit their opcodes, and its output stream has no limit. -/
structure Unlimited (n : Machine) : Prop where
  fits : ∀ i ∈ n.instructions, i.Fits
  room : n.context.console.output.room = none

theorem Unlimited.step (h : n.Unlimited) : n.step.machine.Unlimited where
  fits := by
    rw [instructions_step]
    exact h.fits
  room := by
    rw [step_console h.fits]
    exact Console.after_room _ h.room

/-- What has been printed stays printed. -/
theorem printed_step (fits : ∀ i ∈ n.instructions, i.Fits) :
    n.printed <+: n.step.machine.printed := by
  unfold printed
  rw [step_console fits]
  exact Console.accepted_after _ _

/-- A step whose output has room is the same. -/
theorem step_limited (h : n.Unlimited) (small : n.step.machine.printed.length ≤ total) :
    (n.limited total).step = n.step.withConsole (n.step.machine.context.console.limited total) := by
  unfold printed at small
  rw [step_console h.fits] at small ⊢
  obtain ⟨same, left⟩ := n.dialogue.exchanges_limited h.room small
  exact left ▸ step_withConsole h.fits same

/-- The machine when it has printed a text, as far as there was room. -/
def print (n : Machine) (text : String) : Machine :=
  n.withConsole
    { n.context.console with output := (n.context.console.output.write (Text.encode text)).2 }

/-- What an instruction does that prints its operand. -/
theorem step_write (fits : ∀ i ∈ n.instructions, i.Fits) (fetched : n.fetched? = some i)
    (op : i.opcode = .write) (args : i.args = [a]) (value : a.evaluate n.memory = .ok x) :
    n.step =
      match (n.context.console.output.write (Text.encode x.text)).1 with
      | .ok _ =>
        ⟨{ n.print x.text with position := n.position + 1 }, .ok .running,
          [.fetched i n.context.environment]⟩
      | .error cause =>
        ⟨n.print x.text, .error (.of i (.output cause)), [.fetched i n.context.environment]⟩ := by
  have dialogue : i.dialogue n.position n.context.environment =
      .ask (.print (Text.encode x.text)) (.ended n.context.environment) := by
    unfold Instruction.dialogue
    unfold memory at value
    simp only [op, args, value, Dialogue.given]
  rw [step_of_dialogue fits fetched, dialogue, print]
  unfold Dialogue.on Dialogue.ended Dialogue.on
  simp only [Console.answer]
  rcases n.context.console.output.write (Text.encode x.text) with ⟨_ | _, output⟩ <;> rfl

/-- Printing nothing succeeds, whatever the stream can still do. -/
theorem step_write_empty (fits : ∀ i ∈ n.instructions, i.Fits) (fetched : n.fetched? = some i)
    (op : i.opcode = .write) (args : i.args = [a]) (value : a.evaluate n.memory = .ok x)
    (empty : x.text = "") :
    n.step = ⟨{ n with position := n.position + 1 }, .ok .running,
      [.fetched i n.context.environment]⟩ := by
  have bytes : Text.encode x.text = [] := by rw [empty]; rfl
  rw [step_write fits fetched op args value, print, bytes, Output.write_nil]
  rfl

/-- A step that prints something is an instruction for that, and has printed its operand. -/
theorem step_past (h : n.Unlimited) (more : n.step.machine.printed ≠ n.printed) :
    ∃ i a x, n.fetched? = some i ∧ i.opcode = .write ∧ i.args = [a] ∧
      a.evaluate n.memory = .ok x ∧
      n.step.machine.printed = n.printed ++ Text.encode x.text := by
  unfold printed at more ⊢
  rw [step_console h.fits] at more ⊢
  cases fetched : n.fetched? with
  | none =>
    rw [exchanges_of_unfetched fetched] at more
    exact absurd rfl more
  | some i =>
    have asks := i.asks n.position n.context.environment n.context.console
    rw [exchanges_of_fetched fetched] at more ⊢
    generalize (i.dialogue _ _).exchanges _ = log at asks more ⊢
    cases asks with
    | print op args value =>
      exact ⟨i, _, _, rfl, op, args, value,
        Output.accepted_of_write (Output.write_of_room h.room _).1⟩
    | nothing | line | unflushed | report => exact absurd rfl more

/-- A step for which there is not enough room is a fault. The stream has taken the beginning of the
text; nothing else has changed. -/
theorem step_limited_past (fits : ∀ i ∈ n.instructions, i.Fits) (fetched : n.fetched? = some i)
    (op : i.opcode = .write) (args : i.args = [a]) (value : a.evaluate n.memory = .ok x)
    (before : n.printed.length ≤ total) (past : total < (n.printed ++ Text.encode x.text).length) :
    (n.limited total).step =
        ⟨(n.limited total).print x.text, .error (.of i (.output .closed)),
          [.fetched i n.context.environment]⟩ ∧
      ((n.limited total).print x.text).printed = (n.printed ++ Text.encode x.text).take total := by
  obtain ⟨refused, taken⟩ := Output.write_limited_of_lt before past
  have step := step_write (n := n.limited total) fits fetched op args value
  have refused' : ((n.limited total).context.console.output.write (Text.encode x.text)).1 = _ :=
    refused
  rw [refused'] at step
  exact ⟨step, taken⟩

/-! ## Runs -/

namespace Unlimited

theorem run (h : m.Unlimited) (limit : Nat) (s : σ) :
    (run update limit s m).machine.Unlimited :=
  run_keeps (fun _ => Unlimited.step) limit s h

/-- What has been printed before a run is the beginning of what has been printed behind it. -/
theorem printed_run (h : m.Unlimited) (limit : Nat) (s : σ) :
    m.printed <+: (Machine.run update limit s m).machine.printed :=
  (run_keeps (P := fun n => n.Unlimited ∧ m.printed <+: n.printed)
    (fun _ ⟨here, start⟩ => ⟨here.step, start.trans (printed_step here.fits)⟩) limit s
    ⟨h, List.prefix_rfl⟩).2

/-- What has been printed by the first step of a run is the beginning of it. -/
theorem printed_step_run (h : m.Unlimited) (limit : Nat) (s : σ) :
    m.step.machine.printed <+: (Machine.run update (limit + 1) s m).machine.printed := by
  cases now : m.step.outcome? with
  | none =>
    rw [run_of_running now]
    exact h.step.printed_run limit _
  | some outcome => rw [run_of_outcome now]

end Unlimited

/-- A run whose output has room is the same. -/
theorem run_limited : ∀ (limit : Nat) (s : σ) {m : Machine}, m.Unlimited →
    (run update limit s m).machine.printed.length ≤ total →
      run update limit s (m.limited total) = (run update limit s m).withConsole
        ((run update limit s m).machine.context.console.limited total)
  | 0, _, _, _, _ => rfl
  | limit + 1, s, m, h, small => by
    have step := step_limited h ((h.printed_step_run limit s).length_le.trans small)
    have outcome : (m.limited total).step.outcome? = m.step.outcome? := by rw [step]; rfl
    cases now : m.step.outcome? with
    | none =>
      rw [run_of_running now] at small ⊢
      rw [run_of_running (outcome.trans now), step]
      exact run_limited limit _ h.step small
    | some ending =>
      rw [run_of_outcome now, run_of_outcome (outcome.trans now), step]
      rfl

/-- A run that prints too much comes to a first step for which there is not enough room. -/
theorem run_past : ∀ (limit : Nat) (s : σ) {m : Machine}, m.printed.length ≤ total →
    total < (run update limit s m).machine.printed.length →
      ∃ count more, limit = count + (more + 1) ∧ (run update count s m).outcome = none ∧
        (run update count s m).machine.printed.length ≤ total ∧
        total < (run update count s m).machine.step.machine.printed.length
  | 0, _, _, before, past => absurd past (Nat.not_lt.mpr before)
  | limit + 1, s, m, before, past => by
    by_cases first : m.step.machine.printed.length ≤ total
    · cases now : m.step.outcome? with
      | none =>
        rw [run_of_running now] at past
        obtain ⟨count, more, rfl, running, small, large⟩ := run_past limit _ first past
        refine ⟨count + 1, more, Nat.add_right_comm .., ?_⟩
        rw [run_of_running now]
        exact ⟨running, small, large⟩
      | some outcome =>
        rw [run_of_outcome now] at past
        exact absurd past (Nat.not_lt.mpr first)
    · exact ⟨0, limit, (Nat.zero_add _).symm, rfl, before, Nat.not_le.mp first⟩

/-- What becomes of a run when its output stream closes after so many bytes. `whole` is the run on a
stream that never closes, and `start` its part up to an instruction that prints its operand `x`. -/
structure CutOff (update : σ → Event → σ) (total : Nat) (whole start cut : Run σ)
    (i : Instruction) (x : Value) : Prop where
  fetched : start.machine.fetched? = some i
  opcode : i.opcode = .write
  operand : ∃ a, i.args = [a] ∧ a.evaluate start.machine.memory = .ok x
  /-- There is room for what has been printed up to then, but not for the operand, too. -/
  before : start.machine.printed.length ≤ total
  past : total < (start.machine.printed ++ Text.encode x.text).length
  outcome : cut.outcome = some (.error (.of i (.output .closed)))
  environment : cut.machine.context.environment = start.machine.context.environment
  position : cut.machine.position = start.machine.position
  ending : cut.machine.ending = none
  input : cut.machine.context.console.input = start.machine.context.console.input
  diagnostic : cut.machine.context.console.diagnostic = start.machine.context.console.diagnostic
  printed : cut.machine.printed = whole.machine.printed.take total
  observed : cut.observed =
    update start.observed (.fetched i start.machine.context.environment)

/-- A run that prints too much is cut off where there is not enough room. -/
theorem exists_cutOff (limit : Nat) (s : σ) (h : m.Unlimited) (before : m.printed.length ≤ total)
    (past : total < (run update limit s m).machine.printed.length) :
    ∃ count < limit, ∃ i x, (run update count s m).outcome = none ∧
      run update count s (m.limited total) = (run update count s m).withConsole
        ((run update count s m).machine.context.console.limited total) ∧
      CutOff update total (run update limit s m) (run update count s m)
        (run update limit s (m.limited total)) i x := by
  obtain ⟨count, more, rfl, running, small, large⟩ := run_past limit s before past
  have there : (run update count s m).machine.Unlimited := h.run count s
  have same := run_limited count s h small
  have running' : (run update count s (m.limited total)).outcome = none := by
    rw [same]
    exact running
  obtain ⟨i, a, x, fetched, op, args, value, printed⟩ :=
    step_past there fun none_printed => Nat.not_lt.mpr small (none_printed ▸ large)
  rw [printed] at large
  obtain ⟨step, taken⟩ := step_limited_past there.fits fetched op args value small large
  have ends : ((run update count s m).machine.limited total).step.outcome? =
      some (.error (.of i (.output .closed))) := by
    rw [step]
    rfl
  have cut : run update (count + (more + 1)) s (m.limited total) =
      ⟨((run update count s m).machine.limited total).print x.text,
        update (run update count s m).observed
          (.fetched i (run update count s m).machine.context.environment),
        some (.error (.of i (.output .closed)))⟩ := by
    rw [run_add_of_running count (more + 1) s running', same]
    refine (run_of_outcome ends more _).trans ?_
    rw [step]
    rfl
  have whole : (run update count s m).machine.step.machine.printed <+:
      (run update (count + (more + 1)) s m).machine.printed := by
    rw [run_add_of_running count (more + 1) s running]
    exact there.printed_step_run more _
  rw [printed] at whole
  obtain ⟨rest, whole⟩ := whole
  have first : ((run update count s m).machine.printed ++ Text.encode x.text).take total =
      (run update (count + (more + 1)) s m).machine.printed.take total := by
    rw [← whole, List.take_append_of_le_length large.le]
  refine ⟨count, by omega, i, x, running, same, ?_⟩
  rw [cut]
  exact ⟨fetched, op, ⟨a, args, value⟩, small, large, rfl, rfl, rfl,
    (fetched?_eq_some_iff.mp fetched).1, rfl, rfl, taken.trans first, rfl⟩

/-- An output stream that closes cuts the output of a program off, and does nothing else to it.
Compared is a stream that takes everything with one that takes so many bytes in total. As long as
the first run has not printed more, the runs are the same, except for the room that is left. If it
has, they are the same up to the first instruction for whose text there is not enough room; with
that the second run ends, and its output is the beginning of the output of the first one.
Printing a text that is empty never fails, whatever the streams are like, and this is the text of
`nil` and of the empty string only. -/
theorem closing_cuts_off (p : Program) (input : Input) (diagnostic : Output) (total : Nat) :
    (match create p ⟨input, .unlimited, diagnostic⟩,
        create p ⟨input, ⟨[], some total, true⟩, diagnostic⟩ with
      | .ok m, .ok m' => ∀ (σ : Type) (update : σ → Event → σ) (limit : Nat) (s : σ),
        let whole := run update limit s m
        let cut := run update limit s m'
        (whole.machine.printed.length ≤ total →
          cut = whole.withConsole (whole.machine.context.console.limited total)) ∧
        (total < whole.machine.printed.length → ∃ count < limit, ∃ i x,
          let start := run update count s m
          start.outcome = none ∧
            run update count s m' =
              start.withConsole (start.machine.context.console.limited total) ∧
            CutOff update total whole start cut i x)
      | .error fault, .error fault' => fault = fault'
      | _, _ => False) ∧
    (∀ i, (Fault.of i (.output .closed)).code = 99) ∧
    (∀ console m n i a x, create p console = .ok m → m.Reaches n → n.fetched? = some i →
      i.opcode = .write → i.args = [a] → a.evaluate n.memory = .ok x → x.text = "" →
        n.step = ⟨{ n with position := n.position + 1 }, .ok .running,
          [.fetched i n.context.environment]⟩) ∧
    ∀ x : Value, x.text = "" ↔ x = .nil ∨ x = .string "" := by
  refine ⟨?_, fun _ => rfl, fun console m n i a x created reached fetched op args value empty =>
    step_write_empty (reached.fits created) fetched op args value empty,
    fun _ => Value.text_eq_empty_iff⟩
  rw [create_withConsole p ⟨input, .unlimited, diagnostic⟩
    ⟨input, ⟨[], some total, true⟩, diagnostic⟩]
  cases created : create p ⟨input, .unlimited, diagnostic⟩ with
  | error fault => rfl
  | ok m =>
    intro σ update limit s
    have fits := Reaches.start.fits created
    obtain ⟨e, -, rfl⟩ := create_eq_ok created
    have start : Unlimited _ := ⟨fits, rfl⟩
    exact ⟨run_limited limit s start, exists_cutOff limit s start (Nat.zero_le total)⟩

/-- A program that prints three texts, of which the second one is empty. -/
def printing : Program :=
  .numbered [(.write, [.constant (.string "aé")]), (.write, [.constant .nil]),
    (.write, [.constant (.string "é")])]

/-- A stream for four bytes is full in the middle of the last character. -/
theorem closing_cuts_off_printing :
    ∃ m m' : Machine, create printing ⟨.lines [], .unlimited, .unlimited⟩ = .ok m ∧
      create printing ⟨.lines [], ⟨[], some 4, true⟩, .unlimited⟩ = .ok m' ∧
      (run (fun (count : Nat) _ => count + 1) 5 0 m').machine.printed = [0x61, 0xC3, 0xA9, 0xC3] ∧
      ∃ start i x, CutOff (fun (count : Nat) _ => count + 1) 4
        (run (fun (count : Nat) _ => count + 1) 5 0 m) start
        (run (fun (count : Nat) _ => count + 1) 5 0 m') i x := by
  have created : create printing ⟨.lines [], .unlimited, .unlimited⟩ = .ok _ := rfl
  have created' : create printing ⟨.lines [], ⟨[], some 4, true⟩, .unlimited⟩ = .ok _ := rfl
  have cuts := (closing_cuts_off printing (.lines []) .unlimited 4).1
  rw [created, created'] at cuts
  obtain ⟨count, -, i, x, -, -, cut⟩ :=
    (cuts Nat (fun count _ => count + 1) 5 0).2 (by decide)
  exact ⟨_, _, created, created', by decide, _, i, x, cut⟩

end Machine

end Ippcode
