import Ippcode.Proofs.Machine.Simulation

/-!
# What instructions ask of the streams

An instruction has to do with the streams only through what it asks of them and what they answer.
`Instruction.dialogue` says what it asks, one query after the other, and how it goes on with each
answer. An instruction that fits its opcode does exactly what this dialogue does with the streams
(`perform_eq_dialogue`). Most opcodes ask nothing : they do not look at the streams and leave them
alone (`perform_silent`).

The exchanges of a step (`Machine.exchanges`) are the queries that were asked, with their answers.
They decide on everything : on streams that give the same answers a step does the same, except for
the streams themselves (`step_withConsole`).
-/

namespace Ippcode

open Ippcode.Action

/-! ## Actions without streams -/

namespace Action

/-- An action that does not look at the streams, and leaves them alone : on others it does the
same. -/
def Silent (act : Action α) : Prop :=
  ∀ (c : Context) (k : Console),
    act.on (c.withConsole k) = ((act.on c).1, (act.on c).2.withConsole k)

end Action

/-- The second context has other streams. -/
def Correspondence.otherStreams (k k' : Console) : Correspondence :=
  withSameMemory id (fun ls ls' => ls' = ls) fun l l' => l = k ∧ l' = k'

theorem Correspondence.Relates.eq_withConsole {k k' : Console} {c c' : Context}
    (h : (otherStreams k k').Relates c c') : c' = c.withConsole k' := by
  have calls : c'.environment.calls = c.environment.calls := h.calls.trans (List.map_id _)
  change Context.mk (Environment.mk _ _ _ _) _ = _
  rw [h.labels, h.memory, calls, h.data, h.console.2]
  rfl

/-- An opcode that has nothing to do with the streams does not look at them. -/
theorem Instruction.perform_silent (i : Instruction) (quiet : i.opcode.usesStreams = false)
    (here : Nat) : (i.perform here).Silent := by
  intro c k
  have silent : ¬ i.opcode.usesStreams = true := by rw [quiet, Bool.not_eq_true]
  have related : (Correspondence.otherStreams c.console k).Relates c (c.withConsole k) :=
    ⟨rfl, rfl, (List.map_id _).symm, rfl, rfl, rfl⟩
  obtain ⟨result, left⟩ := perform_matches (K := .otherStreams c.console k) (.keep i)
    (Correspondence.isFaithful_withSameMemory fun h name => by rw [h, Option.map_id_apply])
    (fun _ _ => trivial) (rfl : here + 1 = here + 1) related
    (fun _ => Correspondence.popLocal_withSameMemory related.memory)
    (fun uses => absurd uses silent) (fun op => absurd (op ▸ rfl) silent)
  refine Prod.ext (result.eq_map.trans ?_) left.eq_withConsole
  rw [Flow.translate_eq_id rfl rfl, Except.map_id]
  rfl

/-! ## Queries -/

/-- What can be asked of the streams. -/
inductive Query where
  /-- To pass on what has been printed. -/
  | flush
  /-- For the next line. -/
  | line
  /-- To print these bytes. -/
  | print (bytes : List UInt8)
  /-- To show these bytes on the diagnostic stream. -/
  | report (bytes : List UInt8)
  deriving DecidableEq

/-- What there is to answer : a line, if there is one, or whether the stream has done it. -/
@[reducible] def Query.Answer : Query → Type
  | line => Option String
  | flush | print _ | report _ => Except StreamError Unit

/-- A query with its answer. -/
structure Exchange where
  query : Query
  answer : query.Answer

namespace Console

/-- What the streams answer, and what becomes of them. -/
def answer (k : Console) : (q : Query) → q.Answer × Console
  | .flush => (k.output.flush, k)
  | .line => (k.input.next.1, { k with input := k.input.next.2 })
  | .print bytes =>
    ((k.output.write bytes).1, { k with output := (k.output.write bytes).2 })
  | .report bytes =>
    ((k.diagnostic.write bytes).1, { k with diagnostic := (k.diagnostic.write bytes).2 })

/-- The streams after they have answered these queries, one after the other. -/
def after (k : Console) (log : List Exchange) : Console :=
  log.foldl (fun k x => (k.answer x.query).2) k

end Console

/-! ## Dialogues -/

/-- What an instruction asks of the streams until it is over, and how it goes on with the
answers. -/
inductive Dialogue where
  /-- It is over : the result, and the environment that is left behind. -/
  | done (result : Except RuntimeError Flow) (e : Environment)
  | ask (q : Query) (rest : q.Answer → Dialogue)

namespace Dialogue

/-- The result of a dialogue with these streams, and the context that it leaves behind. -/
def on : Dialogue → Console → Except RuntimeError Flow × Context
  | done result e, k => (result, ⟨e, k⟩)
  | ask q rest, k => (rest (k.answer q).1).on (k.answer q).2

/-- The exchanges of a dialogue with these streams. -/
def exchanges : Dialogue → Console → List Exchange
  | done _ _, _ => []
  | ask q rest, k => ⟨q, (k.answer q).1⟩ :: (rest (k.answer q).1).exchanges (k.answer q).2

theorem console_on : ∀ (d : Dialogue) (k : Console),
    (d.on k).2.console = k.after (d.exchanges k)
  | done _ _, _ => rfl
  | ask q rest, k => console_on (rest (k.answer q).1) (k.answer q).2

/-- Streams that give the same answers lead to the same end. -/
theorem on_of_exchanges_eq : ∀ {d : Dialogue} {k k' : Console},
    d.exchanges k' = d.exchanges k →
      d.on k' = ((d.on k).1, (d.on k).2.withConsole (k'.after (d.exchanges k)))
  | done _ _, _, _, _ => rfl
  | ask q rest, k, k', h => by
    unfold exchanges at h
    obtain ⟨first, others⟩ := List.cons.inj h
    have same : (k'.answer q).1 = (k.answer q).1 := by simpa using first
    rw [same] at others
    have ends := on_of_exchanges_eq others
    rw [on, same, ends]
    rfl

/-- The end of an instruction that has only asked a stream to take something. -/
def ended (e : Environment) (answer : Except StreamError Unit) : Dialogue :=
  done ((answer.mapError RuntimeError.output).map fun _ => .next) e

/-- A dialogue that needs a result, and is over with its error if there is none. -/
def given (e : Environment) (r : Except RuntimeError α) (rest : α → Dialogue) : Dialogue :=
  match r with
  | .ok x => rest x
  | .error error => done (.error error) e

end Dialogue

/-- Streams that have no lines and take everything. -/
def Console.idle : Console := ⟨.lines [], .unlimited, .unlimited⟩

namespace Instruction

open Dialogue

/-- What an instruction at the position `here` asks of the streams. Where it asks nothing, its
end does not depend on them. -/
def dialogue (i : Instruction) (here : Nat) (e : Environment) : Dialogue :=
  match i.opcode, i.args with
  | .read, [.var v, .type ty] =>
    given e (e.memory.get v) fun _ => .ask .flush fun
      | .error cause => done (.error (.output cause)) e
      | .ok _ => .ask .line fun line =>
        given e (e.memory.assign v ((line.map (Value.ofLine ty)).getD .nil)) fun m =>
          done (.ok .next) { e with memory := m }
  | .write, [a] =>
    given e (a.evaluate e.memory) fun x => .ask (.print (Text.encode x.text)) (ended e)
  | .dPrint, [a] =>
    given e (a.evaluate e.memory) fun x => .ask (.report (Text.encode x.text)) (ended e)
  | .breakpoint, _ => .ask (.report (Text.encode (e.dump i.order here))) (ended e)
  | _, _ =>
    let silent := (i.perform here).on ⟨e, .idle⟩
    done silent.1 silent.2.environment

variable {i : Instruction} {here : Nat} {e : Environment} {k : Console} {a : Argument}

theorem dialogue_of_silent (quiet : i.opcode.usesStreams = false) :
    i.dialogue here e = done ((i.perform here).on ⟨e, .idle⟩).1
      ((i.perform here).on ⟨e, .idle⟩).2.environment := by
  unfold dialogue
  cases hop : i.opcode with
  | read | write | dPrint | breakpoint =>
    rw [hop] at quiet
    cases quiet
  | _ => rfl

/-- Something that is done with an operand, once it is fetched. -/
theorem on_withOperand (fits : Argument.AllFit [a] [.symb]) (args : i.args = [a])
    (f : Value → Action α) {c : Context} :
    (i.withOperand f).on c =
      match a.evaluate c.environment.memory with
      | .ok x => (f x).on c
      | .error error => (.error error, c) := by
  obtain ⟨_, _, same, ha, -⟩ := fits.symb
  cases same
  unfold withOperand
  simp only [args]
  rw [on_bind, i.on_operand ha]
  cases a.evaluate c.environment.memory <;> rfl

theorem on_goOn_withOperand {f : Value → Action Unit} {q : Value → Query}
    {rest : ∀ x, (q x).Answer → Dialogue} (fits : Argument.AllFit [a] [.symb])
    (args : i.args = [a])
    (asks : ∀ x, (goOn (f x)).on ⟨e, k⟩ = (ask (q x) (rest x)).on k) :
    (goOn (i.withOperand f)).on ⟨e, k⟩ =
      (given e (a.evaluate e.memory) fun x => ask (q x) (rest x)).on k := by
  rw [on_goOn, on_withOperand fits args]
  unfold given
  cases a.evaluate e.memory with
  | error error => rfl
  | ok x => exact (on_goOn (f x)).symm.trans (asks x)

theorem on_readInput {v : VariableName} {ty : Ty} (args : i.args = [.var v, .type ty]) 
    (op : i.opcode = .read) :
    (goOn i.readInput).on ⟨e, k⟩ = (i.dialogue here e).on k := by
  unfold readInput dialogue
  simp only [args, op]
  rw [on_goOn, on_bind, on_target]
  unfold given
  cases e.memory.get v with
  | error error => rfl
  | ok found =>
    simp only [map_ok]
    rw [on_bind, on_readLine, Dialogue.on]
    simp only [Console.answer]
    cases k.output.flush with
    | error cause => rfl
    | ok u =>
      simp only [Except.mapError, settle_ok, on_store, Context.environment_withConsole,
        Dialogue.on, Console.answer]
      cases e.memory.assign v ((k.input.next.1.map (Value.ofLine ty)).getD .nil) <;> rfl

/-- An instruction does what its dialogue does. -/
theorem perform_eq_dialogue (fits : i.Fits) :
    (i.perform here).on ⟨e, k⟩ = (i.dialogue here e).on k := by
  unfold Fits at fits
  cases hop : i.opcode with rw [hop] at fits
  | read =>
    obtain ⟨v, _, args, rest⟩ := fits.var
    obtain ⟨ty, _, rfl, rest'⟩ := rest.type
    obtain rfl := rest'.nil
    unfold perform
    simp only [hop]
    exact on_readInput args hop
  | write =>
    obtain ⟨a, _, args, ha, rest⟩ := fits.symb
    obtain rfl := rest.nil
    unfold perform dialogue
    simp only [hop, args]
    exact on_goOn_withOperand (args ▸ fits) args fun x => by rw [on_goOn, on_print]; rfl
  | dPrint =>
    obtain ⟨a, _, args, ha, rest⟩ := fits.symb
    obtain rfl := rest.nil
    unfold perform dialogue
    simp only [hop, args]
    exact on_goOn_withOperand (args ▸ fits) args fun x => by rw [on_goOn, on_report]; rfl
  | breakpoint =>
    unfold perform dialogue
    simp only [hop]
    rw [on_goOn, on_bind, on_get]
    simp only [on_report]
    rfl
  | _ =>
    rw [dialogue_of_silent (by rw [hop]; rfl)]
    exact i.perform_silent (by rw [hop]; rfl) here ⟨e, .idle⟩ k

/-- What an instruction asks of the streams, with the answers. -/
inductive Asks (i : Instruction) (e : Environment) (k : Console) : List Exchange → Prop
  | nothing : Asks i e k []
  /-- A line of input is asked for, once what has been printed is passed on. -/
  | line (op : i.opcode = .read) (flushed : k.output.flush = .ok ()) :
      Asks i e k [⟨.flush, .ok ()⟩, ⟨.line, k.input.next.1⟩]
  | unflushed (op : i.opcode = .read) {cause : StreamError}
      (refused : k.output.flush = .error cause) : Asks i e k [⟨.flush, .error cause⟩]
  | print (op : i.opcode = .write) {a : Argument} {x : Value} (args : i.args = [a])
      (value : a.evaluate e.memory = .ok x) :
      Asks i e k [⟨.print (Text.encode x.text), (k.output.write (Text.encode x.text)).1⟩]
  | report (op : i.opcode = .dPrint ∨ i.opcode = .breakpoint) (bytes : List UInt8) :
      Asks i e k [⟨.report bytes, (k.diagnostic.write bytes).1⟩]

theorem exchanges_given (r : Except RuntimeError α) (rest : α → Dialogue) :
    (given e r rest).exchanges k = match r with
      | .ok x => (rest x).exchanges k
      | .error _ => [] := by
  cases r <;> rfl

/-- An instruction asks nothing else. -/
theorem asks (i : Instruction) (here : Nat) (e : Environment) (k : Console) :
    i.Asks e k ((i.dialogue here e).exchanges k) := by
  unfold dialogue
  split
  · next v ty op args =>
    rw [exchanges_given]
    cases e.memory.get v with
    | error error => exact .nothing
    | ok w =>
      simp only [exchanges, Console.answer]
      cases flushed : k.output.flush with
      | error cause => exact .unflushed op flushed
      | ok u =>
        simp only [exchanges, Console.answer, exchanges_given]
        cases e.memory.assign v ((k.input.next.1.map (Value.ofLine ty)).getD .nil) <;>
          exact .line op flushed
  · next a op args =>
    rw [exchanges_given]
    cases value : a.evaluate e.memory with
    | error error => exact .nothing
    | ok x => exact .print op args value
  · next a op args =>
    rw [exchanges_given]
    cases value : a.evaluate e.memory with
    | error error => exact .nothing
    | ok x => exact .report (.inl op) _
  · next op => exact .report (.inr op) _
  · exact .nothing

end Instruction

/-! ## Steps -/

/-- The machine with other streams. -/
def Machine.withConsole (m : Machine) (k : Console) : Machine :=
  { m with context := m.context.withConsole k }

/-- The step with other streams behind it. -/
def Turn.withConsole (t : Turn) (k : Console) : Turn :=
  { t with machine := t.machine.withConsole k }

/-- The run with other streams behind it. -/
def Run.withConsole (r : Run σ) (k : Console) : Run σ :=
  { r with machine := r.machine.withConsole k }

namespace Machine

variable {m n : Machine} {i : Instruction} {k : Console}

/-- Whether a program is accepted does not depend on the streams. -/
theorem create_withConsole (p : Program) (k k' : Console) :
    create p k' = (create p k).map fun m => m.withConsole k' := by
  unfold create
  cases Environment.empty.enterAll 0 p.instructions <;> rfl

/-- The dialogue of a step. A step that fetches no instruction asks nothing. -/
def dialogue (n : Machine) : Dialogue :=
  match n.fetched? with
  | some i => i.dialogue n.position n.context.environment
  | none => .done (.ok .next) n.context.environment

/-- What a step asks of the streams, and what they answer. -/
def exchanges (n : Machine) : List Exchange := n.dialogue.exchanges n.context.console

theorem fetched?_eq_some_iff :
    n.fetched? = some i ↔ n.ending = none ∧ n.instructions[n.position]? = some i := by
  unfold fetched?
  cases n.ending <;> simp

theorem mem_of_fetched (h : n.fetched? = some i) : i ∈ n.instructions :=
  Array.mem_of_getElem? (fetched?_eq_some_iff.mp h).2

theorem dialogue_of_fetched (h : n.fetched? = some i) :
    n.dialogue = i.dialogue n.position n.context.environment := by
  unfold dialogue
  rw [h]

theorem exchanges_of_unfetched (h : n.fetched? = none) : n.exchanges = [] := by
  unfold exchanges dialogue
  rw [h]
  rfl

theorem exchanges_of_fetched (h : n.fetched? = some i) :
    n.exchanges = (i.dialogue n.position n.context.environment).exchanges n.context.console := by
  rw [exchanges, dialogue_of_fetched h]

/-- A step that fetches an instruction does what the dialogue of the instruction does. -/
theorem step_of_dialogue (fits : ∀ i ∈ n.instructions, i.Fits) (h : n.fetched? = some i) :
    n.step =
      match (i.dialogue n.position n.context.environment).on n.context.console with
      | (.ok flow, c) =>
        { n with context := c }.follow i [.fetched i n.context.environment] flow
      | (.error e, c) =>
        ⟨{ n with context := c }, .error (.of i e), [.fetched i n.context.environment]⟩ := by
  obtain ⟨running, next⟩ := fetched?_eq_some_iff.mp h
  have does : (i.perform n.position).on n.context =
      (i.dialogue n.position n.context.environment).on n.context.console :=
    i.perform_eq_dialogue (fits i (mem_of_fetched h))
  have step := step_of_instruction running next
  rw [does] at step
  refine step.trans ?_
  rcases (i.dialogue n.position n.context.environment).on n.context.console with ⟨_ | _, _⟩ <;> rfl

/-- A step leaves the streams behind as its exchanges leave them. -/
theorem step_console (fits : ∀ i ∈ n.instructions, i.Fits) :
    n.step.machine.context.console = n.context.console.after n.exchanges := by
  cases fetched : n.fetched? with
  | none =>
    rw [step_context_of_unfetched fetched, exchanges_of_unfetched fetched]
    rfl
  | some i =>
    rw [exchanges_of_fetched fetched, ← Dialogue.console_on, step_of_dialogue fits fetched]
    rcases (i.dialogue n.position n.context.environment).on n.context.console with ⟨e | flow, c⟩
    · rfl
    · simp only [context_follow]

/-! ### Other streams -/

/-- Where control goes does not depend on the streams. -/
theorem follow_withConsole (m : Machine) (c : Context) (k : Console) (i : Instruction)
    (events : List Event) (flow : Flow) :
    { m with context := c.withConsole k }.follow i events flow =
      ({ m with context := c }.follow i events flow).withConsole k := by
  cases flow <;> rfl

/-- A step that fetches no instruction has nothing to do with the streams. -/
theorem step_withConsole_of_unfetched (h : n.fetched? = none) (k : Console) :
    (n.withConsole k).step = n.step.withConsole k := by
  cases running : n.ending with
  | some ending =>
    rw [step_of_ending running, step_of_ending (m := n.withConsole k) running]
    rfl
  | none =>
    have next : n.instructions[n.position]? = none := by
      unfold fetched? at h
      rwa [running, Option.isSome_none, if_neg Bool.false_ne_true] at h
    rw [step_of_end running next, step_of_end (m := n.withConsole k) running next]
    rfl

/-- On other streams that give the same answers, a step does the same, except for the streams. -/
theorem step_withConsole (fits : ∀ i ∈ n.instructions, i.Fits)
    (same : n.dialogue.exchanges k = n.exchanges) :
    (n.withConsole k).step = n.step.withConsole (k.after n.exchanges) := by
  cases fetched : n.fetched? with
  | none =>
    rw [exchanges_of_unfetched fetched]
    exact step_withConsole_of_unfetched fetched k
  | some i =>
    have fetched' : (n.withConsole k).fetched? = some i := fetched
    rw [exchanges, dialogue_of_fetched fetched] at same ⊢
    rw [step_of_dialogue fits fetched, step_of_dialogue (n := n.withConsole k) fits fetched']
    have ends := Dialogue.on_of_exchanges_eq same
    change (match (i.dialogue n.position n.context.environment).on k with
      | (.ok flow, c) => _
      | (.error e, c) => _) = _
    rw [ends]
    rcases (i.dialogue n.position n.context.environment).on n.context.console with ⟨e | flow, c⟩
    · rfl
    · exact follow_withConsole n c _ i _ flow

/-! ### Runs -/

variable {σ : Type} {update : σ → Event → σ}

theorem run_of_running (h : m.step.outcome? = none) (limit : Nat) (s : σ) :
    run update (limit + 1) s m = run update limit (m.step.observe update s) m.step.machine := by
  rw [run]
  simp only [h]

theorem run_of_outcome {outcome : Except Fault Termination} (h : m.step.outcome? = some outcome)
    (limit : Nat) (s : σ) :
    run update (limit + 1) s m = ⟨m.step.machine, m.step.observe update s, some outcome⟩ := by
  rw [run]
  simp only [h]

/-- A run keeps what its steps keep. -/
theorem run_keeps {P : Machine → Prop} (step : ∀ n, P n → P n.step.machine) :
    ∀ (limit : Nat) (s : σ) {m : Machine}, P m → P (run update limit s m).machine
  | 0, _, _, h => h
  | limit + 1, s, m, h => by
    cases now : m.step.outcome? with
    | none =>
      rw [run_of_running now]
      exact run_keeps step limit _ (step m h)
    | some outcome =>
      rw [run_of_outcome now]
      exact step m h

/-- A run that is not over goes on where it was cut off. -/
theorem run_add_of_running : ∀ (count more : Nat) (s : σ) {m : Machine},
    (run update count s m).outcome = none →
      run update (count + more) s m =
        run update more (run update count s m).observed (run update count s m).machine
  | 0, more, s, m, _ => by rw [Nat.zero_add]; rfl
  | count + 1, more, s, m, h => by
    cases now : m.step.outcome? with
    | none =>
      rw [run_of_running now] at h ⊢
      rw [Nat.add_right_comm, run_of_running now]
      exact run_add_of_running count more _ h
    | some outcome =>
      rw [run_of_outcome now] at h
      cases h

end Machine

end Ippcode
