import Ippcode.Proofs.Machine.Footprint
import Ippcode.Proofs.Tally
import Ippcode.Statistics

/-!
# What statistics say

Statistics are told what there is to observe, and nothing else. They count the instructions that
steps fetch, and look at the variables before each of them and at the end of the program. What
becomes of the variables between two looks is always seen by one of them (`le_of_samples_le`) :
exchange with the outside touches no variable, there is a look on both sides of a step, and the one
that is missing behind a fault has nothing new to see. So statistics describe every run that is
over, however it has ended (`run_described`).

Instructions are counted by their orders. If no two instructions have one order, this is the same as
to count them by their positions (`count_orders`).
-/

namespace Ippcode

/-! ## All variables -/

/-- The variables of all frames. -/
def Memory.allVariables (m : Memory) : List Variable :=
  (m.globals :: m.temporary.toList ++ m.locals).flatMap Frame.entries

theorem Memory.initializedCount_eq (m : Memory) :
    m.initializedCount = m.allVariables.countP Variable.isInitialized := by
  have locals (fs : List Frame) :
      (fs.map Frame.initializedCount).foldl (· + ·) 0 =
        (fs.flatMap Frame.entries).countP Variable.isInitialized := by
    rw [← List.sum_eq_foldl, List.countP_flatMap]
    rfl
  rw [Memory.initializedCount, locals, allVariables, List.cons_append, List.flatMap_cons,
    List.flatMap_append, List.countP_append, List.countP_append, Nat.add_assoc]
  cases m.temporary with
  | none => rfl
  | some f => simp [Frame.initializedCount]

/-! ## What is described -/

/-- The opcodes that do not count as performed. -/
def Opcode.uncounted : List Opcode := [label, dPrint, breakpoint]

theorem Opcode.isCounted_iff {op : Opcode} : op.isCounted = true ↔ op ∉ uncounted := by
  cases op <;> simp [isCounted, uncounted]

namespace Machine

/-- The machines before, between and after moves. -/
def machinesIn : Machine → List Move → List Machine
  | n, [] => [n]
  | n, move :: moves => n :: machinesIn (n.move move) moves

/-- How many variables have a value. -/
def initialized (n : Machine) : Nat := n.memory.allVariables.countP Variable.isInitialized

/-- The position of the instruction that a step fetches, if it counts. -/
def performs? (n : Machine) : Option Nat :=
  n.fetched?.bind fun i => if i.opcode ∈ Opcode.uncounted then none else some n.position

/-- The positions of all instructions that steps among moves fetch, as far as they count. -/
def performedIn (n : Machine) (moves : List Move) : List Nat :=
  (n.stepsIn moves).filterMap performs?

/-- The order of the instruction at a position. -/
def orderAt? (n : Machine) (position : Nat) : Option Nat :=
  (n.instructions[position]?).map Instruction.order

/-- The orders of the instructions that are fetched most often. -/
def hottestIn (n : Machine) (moves : List Move) : Set Nat :=
  {order | ∃ position ∈ n.performedIn moves, n.orderAt? position = some order ∧
    ∀ other, (n.performedIn moves).count other ≤ (n.performedIn moves).count position}

/-- Whether the last step among moves ends the program or is a fault. -/
def IsOver (n : Machine) (moves : List Move) : Prop :=
  ∃ t, (n.turnsIn moves).getLast? = some t ∧ t.outcome?.isSome = true

end Machine

/-- What statistics say of what has happened to a machine. -/
structure Statistics.Describes (s : Statistics) (m : Machine) (moves : List Machine.Move) :
    Prop where
  performedCount : s.performedCount = (m.performedIn moves).length
  hottest?_eq_none_iff : s.hottest? = none ↔ s.performedCount = 0
  hottest?_eq_some_iff : ∀ order, s.hottest? = some order ↔ IsLeast (m.hottestIn moves) order
  mostInitialized :
    IsGreatest {count | ∃ n ∈ m.machinesIn moves, n.initialized = count} s.mostInitialized

/-! ## What is looked at -/

/-- The order that is counted because of an event. -/
def Event.counted? : Event → Option Nat
  | fetched i _ => if i.opcode.isCounted then some i.order else none
  | _ => none

/-- The number of variables with a value that is seen because of an event. -/
def Event.sampled? : Event → Option Nat
  | fetched _ e | finished e => some e.memory.initializedCount
  | transferred .. => none

namespace Statistics

theorem performed_foldl : ∀ (events : List Event) (s : Statistics),
    (events.foldl observe s).performed =
      (events.filterMap Event.counted?).foldl Tally.addAscending s.performed
  | [], _ => rfl
  | event :: events, s => by
    have rest := performed_foldl events (s.observe event)
    rw [List.foldl_cons, rest]
    cases event with
    | fetched i e => by_cases h : i.opcode.isCounted <;> simp [observe, Event.counted?, h, sample]
    | transferred | finished => rfl

theorem performedCount_foldl : ∀ (events : List Event) (s : Statistics),
    (events.foldl observe s).performedCount =
      s.performedCount + (events.filterMap Event.counted?).length
  | [], _ => rfl
  | event :: events, s => by
    have rest := performedCount_foldl events (s.observe event)
    rw [List.foldl_cons, rest]
    cases event with
    | fetched i e =>
      by_cases h : i.opcode.isCounted <;>
        simp [observe, Event.counted?, h, sample, Nat.add_assoc, Nat.add_comm 1]
    | transferred | finished => rfl

/-- The counter and the scan say what a tally of all that counts says : the sum of its numbers, and
the least order of those that occur most often. -/
theorem counted_foldl (p : Program) (events : List Event) :
    let s := events.foldl observe (ofProgram p)
    let tally := Tally.ofList (events.filterMap Event.counted?)
    s.performedCount = (tally.entries.map Prod.snd).sum ∧
      s.hottest? = tally.mostFrequent.min? := by
  constructor
  · rw [performedCount_foldl, Tally.sum_ofList]
    exact Nat.zero_add _
  · rw [hottest?, performed_foldl]
    exact Tally.topmost?_ascending _

theorem mostInitialized_foldl : ∀ (events : List Event) (s : Statistics),
    (events.foldl observe s).mostInitialized =
      (events.filterMap Event.sampled?).foldl max s.mostInitialized
  | [], _ => rfl
  | event :: events, s => by
    have rest := mostInitialized_foldl events (s.observe event)
    rw [List.foldl_cons, rest]
    cases event with
    | fetched i e => by_cases h : i.opcode.isCounted <;> simp [observe, Event.sampled?, h, sample]
    | transferred | finished => rfl

end Statistics

namespace Machine

variable {p : Program} {console : Console} {m n : Machine} {moves : List Move} {b : Nat}

/-- The order of the instruction that a step fetches, if it counts. -/
def counted? (n : Machine) : Option Nat :=
  n.fetched?.bind fun i => if i.opcode.isCounted then some i.order else none

theorem filterMap_counted?_callOuts (n : Machine) :
    n.callOuts.filterMap Event.counted? = n.counted?.toList := by
  unfold callOuts counted?
  cases n.fetched? with
  | none => cases n.transfer? <;> split <;> simp [Event.counted?]
  | some i =>
    by_cases h : i.opcode.isCounted <;> cases n.transfer? <;> split <;> simp [Event.counted?, h]

/-! ## Counting by orders -/

theorem getElem?_of_fetched? {i : Instruction} (h : n.fetched? = some i) :
    n.instructions[n.position]? = some i := by
  unfold fetched? at h
  split at h
  · cases h
  · exact h

theorem counted?_eq (n : Machine) : n.counted? = n.performs?.bind n.orderAt? := by
  unfold counted? performs? orderAt?
  cases fetched : n.fetched? with
  | none => rfl
  | some i =>
    by_cases h : i.opcode ∈ Opcode.uncounted
    · have := mt Opcode.isCounted_iff.mp (not_not.mpr h)
      simp [h, this]
    · simp [h, Opcode.isCounted_iff.mpr h, getElem?_of_fetched? fetched]

theorem isSome_orderAt?_of_performs? {position : Nat} (h : n.performs? = some position) :
    (n.orderAt? position).isSome = true := by
  obtain ⟨i, fetched, counts⟩ := Option.bind_eq_some_iff.mp h
  split at counts
  · cases counts
  · cases counts
    rw [orderAt?, getElem?_of_fetched? fetched]
    rfl

/-- What is counted are the orders of the instructions at the positions that are fetched. -/
theorem filterMap_counted?_trace (created : create p console = .ok m) (moves : List Move) :
    (m.trace moves).filterMap Event.counted? = (m.performedIn moves).filterMap m.orderAt? := by
  rw [trace_eq created .start, List.filterMap_flatMap]
  simp only [filterMap_counted?_callOuts]
  rw [← List.filterMap_eq_flatMap_toList, performedIn, List.filterMap_filterMap]
  refine List.filterMap_congr fun k hk => ?_
  have same := (Reaches.of_mem_stepsIn moves .start hk).instructions
  rw [counted?_eq]
  refine Option.bind_congr fun position _ => ?_
  rw [orderAt?, orderAt?, same]

theorem isSome_orderAt?_of_mem_performedIn {position : Nat} (h : position ∈ m.performedIn moves) :
    (m.orderAt? position).isSome = true := by
  obtain ⟨k, hk, performs⟩ := List.mem_filterMap.mp h
  have same := (Reaches.of_mem_stepsIn moves .start hk).instructions
  rw [orderAt?, ← same]
  exact isSome_orderAt?_of_performs? performs

/-- Counting by orders is counting by positions. -/
theorem count_orders (distinct : (m.instructions.toList.map Instruction.order).Nodup)
    {position order : Nat} (h : m.orderAt? position = some order) (ps : List Nat) :
    (ps.filterMap m.orderAt?).count order = ps.count position := by
  have eq (q : Nat) : m.orderAt? q = (m.instructions.toList.map Instruction.order)[q]? := by
    simp [orderAt?]
  rw [List.count_filterMap, List.count]
  refine List.countP_congr fun q _ => ?_
  rw [beq_iff_eq, beq_iff_eq, ← h]
  constructor
  · intro same
    rw [h, eq] at same
    rw [eq] at h
    obtain ⟨hq, hqo⟩ := List.getElem?_eq_some_iff.mp same
    obtain ⟨hp, hpo⟩ := List.getElem?_eq_some_iff.mp h
    exact distinct.getElem_inj_iff.mp (hqo.trans hpo.symm)
  · rintro rfl
    rfl

/-- The orders that are counted most often are those of the instructions that are fetched most
often. -/
theorem mem_mostFrequent_iff (distinct : (m.instructions.toList.map Instruction.order).Nodup)
    {order : Nat} :
    order ∈ (Tally.ofList ((m.performedIn moves).filterMap m.orderAt?)).mostFrequent ↔
      order ∈ m.hottestIn moves := by
  have valid {position : Nat} (h : position ∈ m.performedIn moves) :=
    Option.isSome_iff_exists.mp (isSome_orderAt?_of_mem_performedIn h)
  rw [Tally.mem_mostFrequent_ofList, List.mem_filterMap]
  constructor
  · rintro ⟨⟨position, hposition, horder⟩, most⟩
    refine ⟨position, hposition, horder, fun other => ?_⟩
    by_cases hother : other ∈ m.performedIn moves
    · obtain ⟨order', horder'⟩ := valid hother
      rw [← count_orders distinct horder, ← count_orders distinct horder']
      exact most order'
    · rw [List.count_eq_zero_of_not_mem hother]
      exact Nat.zero_le _
  · rintro ⟨position, hposition, horder, most⟩
    refine ⟨⟨position, hposition, horder⟩, fun order' => ?_⟩
    by_cases horder' : order' ∈ (m.performedIn moves).filterMap m.orderAt?
    · obtain ⟨other, -, hother⟩ := List.mem_filterMap.mp horder'
      rw [count_orders distinct horder, count_orders distinct hother]
      exact most other
    · rw [List.count_eq_zero_of_not_mem horder']
      exact Nat.zero_le _

/-! ## Looking at the variables -/

/-- All that is seen of the variables among moves. -/
def samples (n : Machine) (moves : List Move) : List Nat :=
  (n.trace moves).filterMap Event.sampled?

theorem initialized_eq (n : Machine) :
    n.initialized = n.context.environment.memory.initializedCount :=
  n.memory.initializedCount_eq.symm

theorem samples_step (n : Machine) (moves : List Move) :
    n.samples (.step :: moves) =
      n.step.events.filterMap Event.sampled? ++ n.step.machine.samples moves :=
  List.filterMap_append ..

theorem initialized_supply (bytes : List UInt8) : (n.supply bytes).initialized = n.initialized := by
  rw [initialized_eq, environment_supply, initialized_eq]

/-- What is seen in a step is there before it or behind it. -/
theorem of_mem_samples_step (fits : ∀ i ∈ n.instructions, i.Fits) {count : Nat}
    (h : count ∈ n.step.events.filterMap Event.sampled?) :
    n.initialized = count ∨ n.step.machine.initialized = count := by
  have outcome := step_outcome fits
  simp only [initialized_eq]
  generalize n.step = t at h outcome ⊢
  cases outcome with
  | ended ends => cases h
  | completed running next => simp_all [finish, Event.sampled?]
  | @done running i next flow c does =>
    cases flow <;> simp [follow, finish, Event.sampled?] at h ⊢ <;> omega
  | failed running next fails => simp_all [Event.sampled?]

/-- A step is looked at from before, unless the program has ended, and from behind if it ends the
run. -/
theorem initialized_le_of_step (fits : ∀ i ∈ n.instructions, i.Fits)
    (seen : ∀ count ∈ n.step.events.filterMap Event.sampled?, count ≤ b)
    (settled : n.ending.isSome = true → n.initialized ≤ b) :
    n.initialized ≤ b ∧ (n.step.outcome?.isSome = true → n.step.machine.initialized ≤ b) := by
  have outcome := step_outcome fits
  simp only [initialized_eq] at settled ⊢
  generalize n.step = t at seen outcome ⊢
  cases outcome with
  | ended ends =>
    have settled := settled (by rw [ends]; rfl)
    exact ⟨settled, fun _ => settled⟩
  | completed running next =>
    have last := seen _ (List.mem_filterMap.mpr ⟨_, List.mem_singleton_self _, rfl⟩)
    exact ⟨last, fun _ => last⟩
  | @done running i next flow c does =>
    cases flow <;> simp_all [follow, finish, Event.sampled?, Turn.outcome?]
  | failed running next fails =>
    have first := seen _ (List.mem_filterMap.mpr ⟨_, List.mem_singleton_self _, rfl⟩)
    refine ⟨first, fun _ => ?_⟩
    rw [fails.memory]
    exact first

theorem mem_machinesIn_self : ∀ (moves : List Move) (n : Machine), n ∈ n.machinesIn moves
  | [], _ => List.mem_cons_self
  | _ :: _, _ => List.mem_cons_self

/-- What is seen of the variables is there in one of the machines. -/
theorem of_mem_samples (created : create p console = .ok m) : ∀ (moves : List Move) {n : Machine},
    m.Reaches n → ∀ count ∈ n.samples moves, ∃ k ∈ n.machinesIn moves, k.initialized = count
  | [], _, _, _, h => absurd h List.not_mem_nil
  | .step :: moves, n, reached, count, h => by
    rw [samples_step] at h
    rcases List.mem_append.mp h with h | h
    · rcases of_mem_samples_step (reached.fits created) h with before | behind
      · exact ⟨n, List.mem_cons_self, before⟩
      · exact ⟨_, List.mem_cons_of_mem _ (mem_machinesIn_self moves _), behind⟩
    · obtain ⟨k, hk, same⟩ := of_mem_samples created moves reached.step count h
      exact ⟨k, List.mem_cons_of_mem _ hk, same⟩
  | .supply bytes :: moves, n, reached, count, h => by
    obtain ⟨k, hk, same⟩ := of_mem_samples created moves (reached.supply bytes) count h
    exact ⟨k, List.mem_cons_of_mem _ hk, same⟩
  | .drain :: moves, n, reached, count, h => by
    obtain ⟨k, hk, same⟩ := of_mem_samples created moves reached.drain count h
    exact ⟨k, List.mem_cons_of_mem _ hk, same⟩

/-- If nothing greater is seen, nothing greater is there, up to the end of a run. What is not seen
any more, because no step follows or the program has ended, must be known before. -/
theorem le_of_samples_le (created : create p console = .ok m) : ∀ (moves : List Move) {n : Machine},
    m.Reaches n → (∀ t, (n.turnsIn moves).getLast? = some t → t.outcome?.isSome = true) →
      (n.turnsIn moves = [] ∨ n.ending.isSome = true → n.initialized ≤ b) →
      (∀ count ∈ n.samples moves, count ≤ b) → ∀ k ∈ n.machinesIn moves, k.initialized ≤ b
  | [], n, _, _, settled, _, k, hk => by
    obtain rfl := List.mem_singleton.mp hk
    exact settled (.inl rfl)
  | .step :: moves, n, reached, last, settled, seen, k, hk => by
    have fits := reached.fits created
    rw [samples_step, List.forall_mem_append] at seen
    obtain ⟨before, behind⟩ := initialized_le_of_step fits seen.1 fun ended => settled (.inr ended)
    rcases List.mem_cons.mp hk with rfl | hk
    · exact before
    have all : (n.turnsIn (.step :: moves)).getLast? =
        some ((n.step.machine.turnsIn moves).getLast?.getD n.step) := List.getLast?_cons
    refine le_of_samples_le created moves reached.step (fun t ht => ?_) ?_ seen.2 k hk
    · rw [ht] at all
      exact last t all
    · rintro (none | ended)
      · rw [none] at all
        exact behind (last _ all)
      · obtain ⟨ending, ended⟩ := Option.isSome_iff_exists.mp ended
        refine behind ?_
        rw [Turn.outcome?, (ending_step_iff fits).mp ended]
        rfl
  | .supply bytes :: moves, n, reached, last, settled, seen, k, hk => by
    have rest : ∀ k ∈ (n.supply bytes).machinesIn moves, k.initialized ≤ b := by
      refine le_of_samples_le created moves (reached.supply bytes) last ?_ seen
      rwa [initialized_supply, ending_supply]
    rcases List.mem_cons.mp hk with rfl | hk
    · exact initialized_supply bytes ▸ rest _ (mem_machinesIn_self moves _)
    · exact rest k hk
  | .drain :: moves, n, reached, last, settled, seen, k, hk => by
    have rest : ∀ k ∈ n.drain.machinesIn moves, k.initialized ≤ b :=
      le_of_samples_le created moves reached.drain last settled seen
    rcases List.mem_cons.mp hk with rfl | hk
    · have first := rest _ (mem_machinesIn_self moves k.drain)
      exact first
    · exact rest k hk

/-- The greatest number that is seen is the greatest number that is there. -/
theorem isGreatest_samples (created : create p console = .ok m) (ends : m.IsOver moves) :
    IsGreatest {count | ∃ n ∈ m.machinesIn moves, n.initialized = count}
      ((m.samples moves).foldl max 0) := by
  obtain ⟨t, ht, outcome⟩ := ends
  have start : m.ending = none := by
    obtain ⟨e, -, rfl⟩ := create_eq_ok created
    rfl
  have settled : m.turnsIn moves = [] ∨ m.ending.isSome = true →
      m.initialized ≤ (m.samples moves).foldl max 0 := by
    rintro (none | ended)
    · rw [none] at ht
      cases ht
    · rw [start] at ended
      cases ended
  have all : ∀ k ∈ m.machinesIn moves, k.initialized ≤ (m.samples moves).foldl max 0 := by
    refine le_of_samples_le created moves .start (fun t' ht' => ?_) settled
      (Tally.foldl_max_le_iff.mp le_rfl).2
    rw [ht] at ht'
    exact Option.some.inj ht' ▸ outcome
  refine ⟨?_, ?_⟩
  · rcases Tally.foldl_max_mem (m.samples moves) 0 with none | mem
    · have first := all m (mem_machinesIn_self moves m)
      exact ⟨m, mem_machinesIn_self moves m, by omega⟩
    · exact of_mem_samples created moves .start _ mem
  · rintro count ⟨k, hk, rfl⟩
    exact all k hk

/-! ## Runs -/

/-- A run consists of steps. -/
theorem run_eq_after {σ : Type} (update : σ → Event → σ) : ∀ (limit : Nat) (s : σ) (m : Machine),
    ∃ count, m.run update limit s =
      ⟨m.after (.replicate count .step), (m.trace (.replicate count .step)).foldl update s,
        (m.turnsIn (.replicate count .step)).getLast?.bind Turn.outcome?⟩
  | 0, _, _ => ⟨0, rfl⟩
  | limit + 1, s, m => by
    unfold run
    cases now : m.step.outcome? with
    | some outcome =>
      refine ⟨1, ?_⟩
      simp [after, move, trace, turnsIn, Turn.observe, now]
    | none =>
      obtain ⟨count, same⟩ := run_eq_after update limit (m.step.observe update s) m.step.machine
      refine ⟨count + 1, ?_⟩
      have last : (m.turnsIn (.replicate (count + 1) .step)).getLast?.bind Turn.outcome? =
          (m.step.machine.turnsIn (.replicate count .step)).getLast?.bind Turn.outcome? := by
        change (m.step :: m.step.machine.turnsIn (.replicate count .step)).getLast?.bind _ = _
        rw [List.getLast?_cons]
        cases (m.step.machine.turnsIn (.replicate count .step)).getLast? with
        | none => exact now
        | some t => rfl
      have observed : (m.trace (.replicate (count + 1) .step)).foldl update s =
          (m.step.machine.trace (.replicate count .step)).foldl update (m.step.observe update s) :=
        List.foldl_append
      simp only [now, same, last, observed]
      rfl

/-- The statistics of a run that is over describe it. -/
theorem describes_of_isOver (created : create p console = .ok m)
    (distinct : (p.instructions.map Instruction.order).Nodup) (ends : m.IsOver moves) :
    ((m.trace moves).foldl Statistics.observe (.ofProgram p)).Describes m moves := by
  have program : m.instructions.toList = p.instructions := by
    obtain ⟨e, -, rfl⟩ := create_eq_ok created
    rfl
  rw [← program] at distinct
  generalize observed : (m.trace moves).foldl Statistics.observe (.ofProgram p) = s
  have counted : (m.trace moves).filterMap Event.counted? =
      (m.performedIn moves).filterMap m.orderAt? := filterMap_counted?_trace created moves
  have most : s.mostInitialized = (m.samples moves).foldl max 0 := by
    rw [← observed, Statistics.mostInitialized_foldl]
    rfl
  have length :
      ((m.performedIn moves).filterMap m.orderAt?).length = (m.performedIn moves).length :=
    List.filterMap_length_eq_length.mpr fun _ h => isSome_orderAt?_of_mem_performedIn h
  obtain ⟨count, hottest⟩ := Statistics.counted_foldl p (m.trace moves)
  rw [observed, counted] at count hottest
  rw [Tally.sum_ofList, length] at count
  refine ⟨count, ?_, fun order => ?_, most ▸ isGreatest_samples created ends⟩
  · rw [hottest, List.min?_eq_none_iff, Tally.mostFrequent_ofList_eq_nil_iff, count, ← length,
      List.length_eq_zero_iff]
  · rw [hottest, List.min?_eq_some_iff]
    simp only [mem_mostFrequent_iff distinct]
    rfl

/-- In a program with distinct orders, statistics describe whatever has happened to its machine when
it is over : the number of performed instructions, the least order of those that were performed
most often, and the greatest number of variables with a value. The statistics that a run leaves
behind are among these. -/
theorem run_described (created : create p console = .ok m)
    (distinct : (p.instructions.map Instruction.order).Nodup) :
    (∀ moves, m.IsOver moves →
      ((m.trace moves).foldl Statistics.observe (.ofProgram p)).Describes m moves) ∧
    ∀ limit n s outcome,
      m.run Statistics.observe limit (.ofProgram p) = ⟨n, s, some outcome⟩ →
        ∃ count, n = m.after (.replicate count .step) ∧ m.IsOver (.replicate count .step) ∧
          s.Describes m (.replicate count .step) := by
  refine ⟨fun moves ends => describes_of_isOver created distinct ends,
    fun limit n s outcome h => ?_⟩
  obtain ⟨count, same⟩ := run_eq_after Statistics.observe limit (.ofProgram p) m
  obtain ⟨rfl, rfl, last⟩ := Run.mk.inj (same.symm.trans h)
  obtain ⟨t, ht, outcome⟩ := Option.bind_eq_some_iff.mp last
  have ends : m.IsOver (.replicate count .step) := ⟨t, ht, Option.isSome_of_eq_some outcome⟩
  exact ⟨count, rfl, ends, describes_of_isOver created distinct ends⟩

/-- A program with a loop, in which two variables have a value at once only for a while, and which
does not end well. -/
def counting : Program :=
  .numbered [(.defVar, [.var ⟨.gf, "x"⟩]), (.createFrame, []), (.defVar, [.var ⟨.tf, "y"⟩]),
    (.move, [.var ⟨.tf, "y"⟩, .constant (.int 1)]), (.move, [.var ⟨.gf, "x"⟩, .var ⟨.tf, "y"⟩]),
    (.createFrame, []), (.label, [.label "top"]),
    (.binary .direct (.arithmetic .add),
      [.var ⟨.gf, "x"⟩, .var ⟨.gf, "x"⟩, .constant (.int 1)]),
    (.jumpIf .direct false, [.label "top", .var ⟨.gf, "x"⟩, .constant (.int 3)]), (.popFrame, [])]

/-- The addition and the jump behind it are both performed twice. -/
theorem run_described_counting :
    ∃ (m n : Machine) (s : Statistics) (fault : Fault),
      create counting ⟨.stream [], .unlimited, .unlimited⟩ = .ok m ∧
      m.run Statistics.observe 20 (.ofProgram counting) = ⟨n, s, some (.error fault)⟩ ∧
      (∃ count, s.Describes m (.replicate count .step)) ∧
      s.performedCount = 11 ∧ s.hottest? = some 8 ∧ s.mostInitialized = 2 := by
  have created : create counting ⟨.stream [], .unlimited, .unlimited⟩ = .ok _ := rfl
  refine ⟨_, _, _, _, created, rfl, ?_, rfl, rfl, rfl⟩
  obtain ⟨count, -, -, describes⟩ := (run_described created (by decide)).2 20 _ _ _ rfl
  exact ⟨count, describes⟩

end Machine

end Ippcode
