import Ippcode.Proofs.Machine.Dialogue

/-!
# Reading line by line

An instruction that reads has three ends (`Machine.Reading`) : its variable is not declared, and
nothing is asked of the streams; what has been printed cannot be passed on, and no line is asked
for; or it gets the next line. So each request for a line comes directly behind a flush
(`IsFlushed`), and lines are used up by successful steps only : the reads of a run get the lines of
the input one after the other (`input_after`, `getElem?_readsIn`).

A program cannot know of lines that it has not read. Inputs that share the lines that are asked for
lead to the same exchanges (`Dialogue.exchanges_withLines`), so a step and a run are the same with
both, except for the lines that are left (`step_withLines`, `after_withLines`).
-/

namespace Ippcode

/-! ## Logs -/

/-- How many lines have been asked for. -/
def asked (log : List Exchange) : Nat := log.countP fun x => x.query = .line

theorem asked_line (answer : Option String) (log : List Exchange) :
    asked (⟨.line, answer⟩ :: log) = asked log + 1 := List.countP_cons_of_pos (decide_eq_true rfl)

theorem asked_other {x : Exchange} (h : x.query ≠ .line) (log : List Exchange) :
    asked (x :: log) = asked log := List.countP_cons_of_neg (by simpa using h)

/-- Each request for a line is directly behind a successful flush. -/
def IsFlushed (log : List Exchange) : Prop :=
  ∀ before answer after, log = before ++ ⟨.line, answer⟩ :: after →
    ∃ earlier, before = earlier ++ [⟨.flush, .ok ()⟩]

/-- What has been printed and not been passed on, when `pending` is what there was before. -/
def unflushed : List UInt8 → List Exchange → List UInt8
  | pending, [] => pending
  | _, ⟨.flush, .ok _⟩ :: log => unflushed [] log
  | pending, ⟨.print bytes, _⟩ :: log => unflushed (pending ++ bytes) log
  | pending, _ :: log => unflushed pending log

theorem unflushed_append_flush : ∀ (pending : List UInt8) (log : List Exchange),
    unflushed pending (log ++ [⟨.flush, .ok ()⟩]) = []
  | pending, [] => rfl
  | pending, x :: log => by
    rw [List.cons_append]
    unfold unflushed
    split
    · next h => cases h
    all_goals
      next h => cases h; exact unflushed_append_flush _ log

namespace IsFlushed

theorem nil : IsFlushed [] := by
  intro before answer after h
  simp at h

theorem append {log log' : List Exchange} (h : IsFlushed log) (h' : IsFlushed log') :
    IsFlushed (log ++ log') := by
  intro before answer after same
  rcases List.append_eq_append_iff.mp same with ⟨mid, rfl, rest⟩ | ⟨mid, rest, first⟩
  · obtain ⟨earlier, rfl⟩ := h' mid answer after rest
    exact ⟨log ++ earlier, (List.append_assoc ..).symm⟩
  · cases mid with
    | nil =>
      obtain ⟨earlier, none_before⟩ := h' [] answer after first.symm
      simp at none_before
    | cons x mid =>
      obtain ⟨rfl, -⟩ := List.cons.inj first
      exact h before answer mid rest

theorem flatMap {f : α → List Exchange} : ∀ {xs : List α}, (∀ x ∈ xs, IsFlushed (f x)) →
    IsFlushed (xs.flatMap f)
  | [], _ => nil
  | x :: xs, h => by
    rw [List.flatMap_cons]
    exact (h x List.mem_cons_self).append (flatMap fun y hy => h y (List.mem_cons_of_mem x hy))

end IsFlushed

/-- An instruction asks for a line only behind a successful flush. -/
theorem Instruction.Asks.isFlushed {i : Instruction} {e : Environment} {k : Console}
    {log : List Exchange} (h : i.Asks e k log) : IsFlushed log := by
  intro before answer after same
  cases h with
  | line op flushed =>
    rcases before with _ | ⟨x, _ | ⟨y, before⟩⟩
    · cases same
    · cases same
      exact ⟨[], rfl⟩
    · simp at same
  | nothing => simp at same
  | unflushed | print | report =>
    rcases before with _ | ⟨x, before⟩
    · cases same
    · simp at same

/-! ## Instructions that read -/

theorem Instruction.args_of_read {i : Instruction} (fits : i.Fits) (op : i.opcode = .read) :
    ∃ v ty, i.args = [.var v, .type ty] := by
  unfold Fits at fits
  rw [op] at fits
  obtain ⟨v, _, args, rest⟩ := fits.var
  obtain ⟨ty, _, rfl, last⟩ := rest.type
  obtain rfl := last.nil
  exact ⟨v, ty, args⟩

namespace Memory

theorem frame_setFrame (m : Memory) (kind : FrameKind) (f : Frame) :
    (m.setFrame kind f).frame kind = .ok f := by
  cases kind <;> rfl

/-- A declared variable can be given a value. -/
theorem exists_assign {m : Memory} {v : VariableName} {w : Variable} (found : m.get v = .ok w)
    (x : Value) : ∃ m', m.assign v x = .ok m' := by
  obtain ⟨f, hf, hw⟩ := get_eq_ok_iff.mp found
  exact ⟨_, assign_eq_ok_iff.mpr ⟨f, hf, Option.isSome_of_eq_some hw, rfl⟩⟩

/-- A variable has the value that it was given. -/
theorem valueOf_assign {m m' : Memory} {v : VariableName} {x : Value} (h : m.assign v x = .ok m') :
    m'.valueOf v = .ok x := by
  obtain ⟨f, -, there, rfl⟩ := assign_eq_ok_iff.mp h
  obtain ⟨w, found⟩ := Option.isSome_iff_exists.mp there
  have now : (m.setFrame v.frame (f.assign v.name x)).get v = .ok { w with value := some x } := by
    refine get_eq_ok_iff.mpr ⟨_, frame_setFrame m v.frame _, ?_⟩
    rw [Frame.find?_assign, if_pos rfl, found, Option.map_some]
  unfold valueOf
  rw [now]
  rfl

end Memory

namespace Machine

variable {m n : Machine} {i : Instruction} {v : VariableName} {ty : Ty}

/-- The ends of an instruction that reads a line into the variable `v`, and what it has asked. -/
inductive Reading (n : Machine) (i : Instruction) (v : VariableName) (ty : Ty) :
    Turn → List Exchange → Prop
  | undeclared {e : RuntimeError} (missing : n.memory.get v = .error e) :
      Reading n i v ty ⟨n, .error (.of i e), [.fetched i n.context.environment]⟩ []
  | unflushed {w : Variable} (found : n.memory.get v = .ok w) {cause : StreamError}
      (refused : n.context.console.output.flush = .error cause) :
      Reading n i v ty
        ⟨n, .error (.of i (.output cause)), [.fetched i n.context.environment]⟩
        [⟨.flush, .error cause⟩]
  | done {w : Variable} (found : n.memory.get v = .ok w)
      (flushed : n.context.console.output.flush = .ok ()) {memory : Memory}
      (stored : n.memory.assign v
        ((n.context.console.input.next.1.map (Value.ofLine ty)).getD .nil) = .ok memory) :
      Reading n i v ty
        ⟨{ n with
            position := n.position + 1
            context := (n.context.withConsole { n.context.console with
              input := n.context.console.input.next.2 }).withMemory memory },
          .ok .running, [.fetched i n.context.environment]⟩
        [⟨.flush, .ok ()⟩, ⟨.line, n.context.console.input.next.1⟩]

theorem step_reading (fits : ∀ i ∈ n.instructions, i.Fits) (fetched : n.fetched? = some i)
    (op : i.opcode = .read) (args : i.args = [.var v, .type ty]) :
    n.Reading i v ty n.step n.exchanges := by
  rw [exchanges_of_fetched fetched, step_of_dialogue fits fetched]
  unfold Instruction.dialogue
  simp only [op, args, Instruction.exchanges_given]
  cases found : n.context.environment.memory.get v with
  | error e => exact .undeclared found
  | ok w =>
    simp only [Dialogue.given, Dialogue.exchanges, Dialogue.on, Console.answer]
    cases flushed : n.context.console.output.flush with
    | error cause => exact .unflushed found flushed
    | ok u =>
      obtain ⟨memory, stored⟩ := Memory.exists_assign found
        ((n.context.console.input.next.1.map (Value.ofLine ty)).getD .nil)
      simp only [stored, Dialogue.exchanges, Dialogue.on, Console.answer]
      exact .done found flushed stored

/-! ## Lines of a run -/

/-- Whether a step is a successful request for a line. -/
def readsLine (n : Machine) : Bool :=
  match n.fetched?, n.step.result with
  | some i, .ok _ => i.opcode == .read
  | _, _ => false

/-- The machines at which the steps among moves begin that read a line, in their order. -/
def readsIn (n : Machine) (moves : List Move) : List Machine := (n.stepsIn moves).filter readsLine

/-- All that is asked of the streams among moves, with the answers. -/
def exchangesIn (n : Machine) (moves : List Move) : List Exchange :=
  (n.stepsIn moves).flatMap exchanges

theorem readsLine_iff : n.readsLine = true ↔
    ∃ i progress, n.fetched? = some i ∧ i.opcode = .read ∧ n.step.result = .ok progress := by
  unfold readsLine
  cases n.fetched? <;> cases n.step.result <;> simp

/-- A step asks for a line if it reads one, and not otherwise. -/
theorem asked_exchanges (fits : ∀ i ∈ n.instructions, i.Fits) :
    asked n.exchanges = if n.readsLine then 1 else 0 := by
  unfold readsLine
  cases fetched : n.fetched? with
  | none =>
    rw [exchanges_of_unfetched fetched]
    rfl
  | some i =>
    by_cases op : i.opcode = .read
    · obtain ⟨v, ty, args⟩ := i.args_of_read (fits i (mem_of_fetched fetched)) op
      have reading := step_reading fits fetched op args
      generalize n.step = t, n.exchanges = log at reading ⊢
      cases reading <;> simp [asked, op]
    · have asks := i.asks n.position n.context.environment n.context.console
      rw [exchanges_of_fetched fetched]
      generalize (i.dialogue _ _).exchanges _ = log at asks ⊢
      have other : (i.opcode == .read) = false := beq_eq_false_iff_ne.mpr op
      cases asks with
      | line read | unflushed read => exact absurd read op
      | nothing | print | report => cases n.step.result <;> simp [asked, other]

end Machine

/-! ## Other lines -/

theorem Input.next_lines (ls : List String) : (lines ls).next = (ls.head?, lines ls.tail) := by
  cases ls <;> rfl

namespace Console

variable {k : Console} {ls ls' : List String}

/-- The streams with these lines of input. -/
def withLines (k : Console) (ls : List String) : Console := { k with input := .lines ls }

theorem answer_line (h : k.input = .lines ls) :
    k.answer .line = (ls.head?, k.withLines ls.tail) := by
  unfold answer
  simp only [h, Input.next_lines]
  rfl

/-- Other queries have nothing to do with the input. -/
theorem answer_other {q : Query} (other : q ≠ .line) (k : Console) (ls : List String) :
    (k.answer q).2.input = k.input ∧
      (k.withLines ls).answer q = ((k.answer q).1, (k.answer q).2.withLines ls) := by
  cases q with
  | line => exact absurd rfl other
  | flush | print bytes | report bytes => exact ⟨rfl, rfl⟩

theorem input_after : ∀ (log : List Exchange) {k : Console} {ls : List String},
    k.input = .lines ls → (k.after log).input = .lines (ls.drop (asked log))
  | [], _, _, h => h
  | ⟨q, answer⟩ :: log, k, ls, h => by
    by_cases line : q = .line
    · subst line
      have rest : ((k.answer .line).2.after log).input = .lines (ls.tail.drop (asked log)) :=
        input_after log (by rw [answer_line h]; rfl)
      rwa [List.drop_tail, ← asked_line] at rest
    · rw [asked_other line]
      exact input_after log ((answer_other line k ls).1.trans h)

theorem after_withLines : ∀ (log : List Exchange) (k : Console) (ls : List String),
    (k.withLines ls).after log = (k.after log).withLines (ls.drop (asked log))
  | [], _, _ => rfl
  | ⟨q, answer⟩ :: log, k, ls => by
    by_cases line : q = .line
    · subst line
      change ((k.withLines ls).answer .line).2.after log = _
      rw [answer_line rfl, asked_line, ← List.drop_tail]
      exact after_withLines log (k.answer .line).2 ls.tail
    · change ((k.withLines ls).answer q).2.after log = _
      rw [(answer_other line k ls).2, asked_other line]
      exact after_withLines log (k.answer q).2 ls

end Console

/-- Two inputs that share a line share the first one, and their tails share the others. -/
theorem head?_of_take_succ_eq {r : Nat} {ls ls' : List String}
    (h : ls.take (r + 1) = ls'.take (r + 1)) :
    ls'.head? = ls.head? ∧ ls.tail.take r = ls'.tail.take r := by
  cases ls <;> cases ls' <;> simp_all

/-- A dialogue that asks for no more lines than two inputs share is the same with both. -/
theorem Dialogue.exchanges_withLines (d : Dialogue) {k : Console} {ls ls' : List String} {r : Nat}
    (h : k.input = .lines ls) (same : ls.take r = ls'.take r) (few : asked (d.exchanges k) ≤ r) :
    d.exchanges (k.withLines ls') = d.exchanges k := by
  induction d generalizing k ls ls' r with
  | done result e => rfl
  | ask q rest ih =>
    unfold exchanges at few ⊢
    by_cases line : q = .line
    · subst line
      rw [asked_line] at few
      obtain ⟨r, rfl⟩ := Nat.exists_eq_add_of_le' (Nat.one_le_of_lt few)
      obtain ⟨first, others⟩ := head?_of_take_succ_eq same
      have answered := Console.answer_line (k := k.withLines ls') rfl
      rw [Console.answer_line h] at few ⊢
      rw [answered, first]
      exact congrArg _ (ih _ (k := k.withLines ls.tail) rfl others (Nat.le_of_succ_le_succ few))
    · obtain ⟨input, answered⟩ := Console.answer_other line k ls'
      rw [asked_other line] at few
      rw [answered]
      exact congrArg _ (ih _ (input.trans h) same few)

/-- What a step tells about itself : its result and its events. -/
def Turn.told (t : Turn) : Except Fault Progress × List Event := (t.result, t.events)

namespace Machine

variable {p : Program} {output diagnostic : Output} {m n : Machine} {ls ls' : List String}

/-- The machine with these lines of input. -/
def withLines (n : Machine) (ls : List String) : Machine :=
  n.withConsole (n.context.console.withLines ls)

theorem input_step (fits : ∀ i ∈ n.instructions, i.Fits) (h : n.context.console.input = .lines ls) :
    n.step.machine.context.console.input = .lines (ls.drop (if n.readsLine then 1 else 0)) := by
  rw [step_console fits, ← asked_exchanges fits]
  exact Console.input_after n.exchanges h

/-- A step that reads no more lines than two inputs share is the same with both. -/
theorem step_withLines (fits : ∀ i ∈ n.instructions, i.Fits) {r : Nat}
    (h : n.context.console.input = .lines ls) (same : ls.take r = ls'.take r)
    (few : (if n.readsLine then 1 else 0) ≤ r) :
    (n.withLines ls').step = n.step.withConsole
      (n.step.machine.context.console.withLines (ls'.drop (if n.readsLine then 1 else 0))) := by
  rw [← asked_exchanges fits] at few ⊢
  rw [step_console fits, ← Console.after_withLines]
  exact step_withConsole fits (n.dialogue.exchanges_withLines h same few)

theorem supply_of_lines (h : n.context.console.input = .lines ls) (bytes : List UInt8) :
    n.supply bytes = n := by
  unfold supply
  simp only [h]

/-! ### Moves -/

theorem readsIn_step (n : Machine) (moves : List Move) :
    n.readsIn (.step :: moves) =
      (if n.readsLine then [n] else []) ++ n.step.machine.readsIn moves := by
  change (n :: n.step.machine.stepsIn moves).filter readsLine = _
  rw [List.filter_cons]
  split_ifs <;> rfl

theorem length_readsIn_step (n : Machine) (moves : List Move) :
    (n.readsIn (.step :: moves)).length =
      (if n.readsLine then 1 else 0) + (n.step.machine.readsIn moves).length := by
  rw [readsIn_step, List.length_append]
  split_ifs <;> rfl

/-- The lines that are left are those that no successful step has read. -/
theorem input_after : ∀ (moves : List Move) {n : Machine} {ls : List String},
    (∀ i ∈ n.instructions, i.Fits) → n.context.console.input = .lines ls →
      (n.after moves).context.console.input = .lines (ls.drop (n.readsIn moves).length)
  | [], _, _, _, h => h
  | .step :: moves, n, ls, fits, h => by
    have rest := input_after moves (by rwa [instructions_step]) (input_step fits h)
    rwa [List.drop_drop, ← length_readsIn_step] at rest
  | .supply bytes :: moves, n, ls, fits, h => by
    have rest := input_after moves fits h
    have same := supply_of_lines h bytes
    change ((n.supply bytes).after moves).context.console.input =
      .lines (ls.drop ((n.supply bytes).readsIn moves).length)
    rwa [same]
  | .drain :: moves, n, ls, fits, h => input_after moves (n := n.drain) fits h

/-- Reads find the lines of the input one after the other. -/
theorem getElem?_readsIn : ∀ (moves : List Move) {n r : Machine} {ls : List String} {k : Nat},
    (∀ i ∈ n.instructions, i.Fits) → n.context.console.input = .lines ls →
      (n.readsIn moves)[k]? = some r → r.context.console.input = .lines (ls.drop k)
  | [], _, _, _, _, _, _, found => nomatch found
  | .step :: moves, n, r, ls, k, fits, h, found => by
    have fits' : ∀ i ∈ n.step.machine.instructions, i.Fits := by rwa [instructions_step]
    have left := input_step fits h
    rw [readsIn_step] at found
    cases reads : n.readsLine with
    | false =>
      rw [reads] at found left
      exact getElem?_readsIn moves fits' left found
    | true =>
      rw [reads] at found left
      cases k with
      | zero =>
        obtain rfl := Option.some.inj found
        exact h
      | succ k =>
        have rest := getElem?_readsIn moves fits' left found
        rwa [if_pos rfl, List.drop_drop, Nat.add_comm 1 k] at rest
  | .supply bytes :: moves, n, r, ls, k, fits, h, found => by
    have same := supply_of_lines h bytes
    change ((n.supply bytes).readsIn moves)[k]? = some r at found
    rw [same] at found
    exact getElem?_readsIn moves fits h found
  | .drain :: moves, n, _, _, _, fits, h, found =>
    getElem?_readsIn moves (n := n.drain) fits h found

/-- Inputs that share the lines that are read make no difference to anything that happens. -/
theorem after_withLines : ∀ (moves : List Move) {n : Machine} {ls ls' : List String} {r : Nat},
    (∀ i ∈ n.instructions, i.Fits) → n.context.console.input = .lines ls → ls.take r = ls'.take r →
      (n.readsIn moves).length ≤ r →
        (n.withLines ls').after moves =
            (n.after moves).withLines (ls'.drop (n.readsIn moves).length) ∧
          ((n.withLines ls').turnsIn moves).map Turn.told = (n.turnsIn moves).map Turn.told
  | [], _, _, _, _, _, _, _, _ => ⟨rfl, rfl⟩
  | .step :: moves, n, ls, ls', r, fits, h, same, few => by
    rw [length_readsIn_step] at few ⊢
    have step := step_withLines fits h same (by omega)
    have shared := congrArg (List.drop (if n.readsLine then 1 else 0)) same
    rw [List.drop_take, List.drop_take] at shared
    obtain ⟨left, told⟩ := after_withLines moves (by rwa [instructions_step]) (input_step fits h)
      shared (by omega)
    rw [List.drop_drop] at left
    change (n.withLines ls').step.machine.after moves = _ ∧
      ((n.withLines ls').step :: (n.withLines ls').step.machine.turnsIn moves).map Turn.told = _
    rw [step]
    exact ⟨left, congrArg (n.step.told :: ·) told⟩
  | .supply bytes :: moves, n, ls, ls', r, fits, h, same, few => by
    have here := supply_of_lines h bytes
    have there := supply_of_lines (n := n.withLines ls') rfl bytes
    change ((n.supply bytes).readsIn moves).length ≤ r at few
    change ((n.withLines ls').supply bytes).after moves =
        ((n.supply bytes).after moves).withLines
          (ls'.drop ((n.supply bytes).readsIn moves).length) ∧
      (((n.withLines ls').supply bytes).turnsIn moves).map Turn.told =
        ((n.supply bytes).turnsIn moves).map Turn.told
    rw [here] at few ⊢
    rw [there]
    exact after_withLines moves fits h same few
  | .drain :: moves, n, ls, ls', r, fits, h, same, few =>
    after_withLines moves (n := n.drain) fits h same few

/-! ## Reading line by line -/

/-- A successful request for a line gives it to the variable, and `nil` if there is none. -/
theorem stores_of_readsLine (fits : ∀ i ∈ n.instructions, i.Fits)
    (h : n.context.console.input = .lines ls) (reads : n.readsLine = true) :
    ∃ i v ty, n.fetched? = some i ∧ i.opcode = .read ∧ i.args = [.var v, .type ty] ∧
      n.memory.assign v ((ls.head?.map (Value.ofLine ty)).getD .nil) =
        .ok n.step.machine.memory := by
  obtain ⟨i, progress, fetched, op, ok⟩ := readsLine_iff.mp reads
  obtain ⟨v, ty, args⟩ := i.args_of_read (fits i (mem_of_fetched fetched)) op
  refine ⟨i, v, ty, fetched, op, args, ?_⟩
  have reading := step_reading fits fetched op args
  generalize n.step = t, n.exchanges = log at reading ok ⊢
  cases reading with
  | undeclared | unflushed => nomatch ok
  | done found flushed stored =>
    rw [h, Input.next_lines] at stored
    exact stored

theorem isFlushed_exchanges (n : Machine) : IsFlushed n.exchanges := by
  cases fetched : n.fetched? with
  | none =>
    rw [exchanges_of_unfetched fetched]
    exact .nil
  | some i =>
    rw [exchanges_of_fetched fetched]
    exact (i.asks n.position n.context.environment n.context.console).isFlushed

/-- A program reads its input line by line. Its successful reads get the lines one after the other,
and `nil` behind the last of them; a read that fails leaves everything as it was. Each line is asked
for directly behind a successful flush, so nothing that has been printed is held back then. And
inputs that share their first lines make no difference as long as no more lines have been read. -/
theorem reads_line_by_line {ls : List String}
    (created : create p ⟨.lines ls, output, diagnostic⟩ = .ok m) :
    (∀ moves : List Move,
      (m.after moves).context.console.input = .lines (ls.drop (m.readsIn moves).length) ∧
      (∀ (k : Nat) (n : Machine), (m.readsIn moves)[k]? = some n →
        ∃ i v ty, n.fetched? = some i ∧ i.opcode = .read ∧ i.args = [.var v, .type ty] ∧
          n.memory.assign v ((ls[k]?.map (Value.ofLine ty)).getD .nil) =
            .ok n.step.machine.memory ∧
          n.step.machine.memory.valueOf v = .ok ((ls[k]?.map (Value.ofLine ty)).getD .nil)) ∧
      ∀ (before after : List Exchange) (answer : Option String),
        m.exchangesIn moves = before ++ ⟨.line, answer⟩ :: after →
          (∃ earlier, before = earlier ++ [⟨.flush, .ok ()⟩]) ∧ unflushed [] before = []) ∧
    (∀ (n : Machine) (i : Instruction), m.Reaches n → n.fetched? = some i →
      (∀ console : Console, (i.perform n.position).on ⟨n.context.environment, console⟩ =
        n.dialogue.on console) ∧
      n.step.machine.context.console = n.context.console.after n.exchanges ∧
      ∀ (v : VariableName) (ty : Ty), i.opcode = .read → i.args = [.var v, .type ty] →
        n.Reading i v ty n.step n.exchanges) ∧
    ∀ (r : Nat) (ls' : List String), ls.take r = ls'.take r →
      ∃ m', create p ⟨.lines ls', output, diagnostic⟩ = .ok m' ∧
        ∀ moves : List Move, (m.readsIn moves).length ≤ r →
          m'.after moves = (m.after moves).withLines (ls'.drop (m.readsIn moves).length) ∧
            (m'.turnsIn moves).map Turn.told = (m.turnsIn moves).map Turn.told := by
  have fits := Reaches.fits created .start
  have given : m.context.console.input = .lines ls := by
    obtain ⟨e, -, rfl⟩ := create_eq_ok created
    rfl
  refine ⟨fun moves => ⟨input_after moves fits given, fun k n found => ?_,
    fun before after answer asked => ?_⟩, fun n i reached fetched => ?_, fun r ls' same => ?_⟩
  · have left := getElem?_readsIn moves fits given found
    obtain ⟨here, reads⟩ := List.mem_filter.mp (List.mem_of_getElem? found)
    have fits' := (Reaches.of_mem_stepsIn moves .start here).fits created
    obtain ⟨i, v, ty, fetched, op, args, stored⟩ := stores_of_readsLine fits' left reads
    rw [List.head?_drop] at stored
    exact ⟨i, v, ty, fetched, op, args, stored, Memory.valueOf_assign stored⟩
  · have flushed : IsFlushed (m.exchangesIn moves) := .flatMap fun n _ => isFlushed_exchanges n
    obtain ⟨earlier, rfl⟩ := flushed before answer after asked
    exact ⟨⟨earlier, rfl⟩, unflushed_append_flush [] earlier⟩
  · have fits' := reached.fits created
    refine ⟨fun console => ?_, step_console fits',
      fun v ty op args => step_reading fits' fetched op args⟩
    rw [dialogue_of_fetched fetched]
    exact Instruction.perform_eq_dialogue (fits' i (mem_of_fetched fetched))
  · refine ⟨m.withLines ls', ?_, fun moves few => after_withLines moves fits given same few⟩
    rw [create_withConsole p ⟨.lines ls, output, diagnostic⟩, created]
    obtain ⟨e, -, rfl⟩ := create_eq_ok created
    rfl

/-- A program that asks for a number and, after that, for a text. -/
def prompting : Program :=
  .numbered [(.defVar, [.var ⟨.gf, "x"⟩]), (.write, [.constant (.string "n")]),
    (.read, [.var ⟨.gf, "x"⟩, .type .int]), (.read, [.var ⟨.gf, "x"⟩, .type .string])]

/-- Of one line the second read gets `nil`. The first one does not know whether there are more. -/
theorem reads_line_by_line_prompting :
    ∃ m m' : Machine, create prompting ⟨.lines ["12"], .unlimited, .unlimited⟩ = .ok m ∧
      create prompting ⟨.lines ["12", "a"], .unlimited, .unlimited⟩ = .ok m' ∧
      (m.after (List.replicate 4 .step)).memory.valueOf ⟨.gf, "x"⟩ = .ok .nil ∧
      (m.exchangesIn (List.replicate 3 .step)).map Exchange.query =
        [.print [0x6E], .flush, .line] ∧
      m'.after (List.replicate 3 .step) =
        (m.after (List.replicate 3 .step)).withLines ["a"] := by
  have created : create prompting ⟨.lines ["12"], .unlimited, .unlimited⟩ = .ok _ := rfl
  obtain ⟨reads, -, shared⟩ := reads_line_by_line created
  obtain ⟨i, v, ty, fetched, -, args, -, nothing⟩ :=
    (reads (List.replicate 4 .step)).2.1 1 _ rfl
  cases fetched
  cases args
  obtain ⟨m', created', same⟩ := shared 1 ["12", "a"] rfl
  exact ⟨_, m', created, created', nothing, rfl,
    (same (List.replicate 3 .step) (by decide)).1⟩

end Machine

end Ippcode
