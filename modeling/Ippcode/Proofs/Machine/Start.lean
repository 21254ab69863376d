import Ippcode.Proofs.Keyed
import Ippcode.Proofs.Machine.Control

/-!
# Starting a program

Before a program starts, its instructions are entered one after the other. Each one is checked, and
its label, if it defines one, is put into a table. `Program.Blames` says what can be wrong with an
instruction, from the text of the program alone. Nothing is wrong with the instructions that have
been entered (`isAcceptable_of_create`), so the one that cannot be entered is the first one with
which something is wrong (`create_refused`), whichever of the two things it is.

`Machine.create_exact` is what follows from this for all programs.
-/

namespace Ippcode

/-! ## Entering instructions -/

namespace Environment

variable {e e' : Environment} {here : Nat} {i : Instruction}

/-- An instruction cannot be entered if it does not fit its opcode, or if its label is there
already. -/
theorem enter_refused {error : RuntimeError} (h : e.enter here i = .error error) :
    (∃ misfit, i.misfit? = some misfit ∧ error = .malformed misfit) ∨
      ∃ name first, i.definedLabel? = some name ∧ e.labels.lookup name = some first ∧
        error = .duplicateLabel name := by
  unfold enter at h
  cases checked : i.misfit? with
  | some misfit =>
    rw [checked] at h
    exact .inl ⟨misfit, rfl, (Except.error.inj h).symm⟩
  | none =>
    rw [checked] at h
    cases defined : i.definedLabel? with
    | none =>
      rw [defined] at h
      cases h
    | some name =>
      simp only [defined, registerLabel] at h
      cases found : e.labels.lookup name with
      | none =>
        rw [found] at h
        cases h
      | some first =>
        rw [found] at h
        exact .inr ⟨name, first, rfl, found, (Except.error.inj h).symm⟩

/-- Instructions are entered up to the first one that cannot be entered. -/
theorem enterAll_refused : ∀ {e : Environment} {here : Nat} {is : List Instruction} {fault : Fault},
    e.enterAll here is = .error fault →
      ∃ before i after entered error, is = before ++ i :: after ∧
        e.enterAll here before = .ok entered ∧
        entered.enter (here + before.length) i = .error error ∧ fault = .of i error
  | _, _, [], _, h => nomatch h
  | e, here, i :: is, fault, h => by
    unfold enterAll at h
    cases first : e.enter here i with
    | error error =>
      rw [first] at h
      exact ⟨[], i, is, e, error, rfl, rfl, first, (Except.error.inj h).symm⟩
    | ok next =>
      rw [first] at h
      obtain ⟨before, j, after, entered, error, rfl, rest, refused, rfl⟩ := enterAll_refused h
      refine ⟨i :: before, j, after, entered, error, rfl, ?_, ?_, rfl⟩
      · exact enterAll_cons_eq_ok_iff.mpr ⟨next, first, rest⟩
      · rwa [List.length_cons, Nat.add_comm before.length, ← Nat.add_assoc]

/-- No label is entered twice. -/
theorem nodup_of_enter (h : (e.labels.map Prod.fst).Nodup) (entered : e.enter here i = .ok e') :
    (e'.labels.map Prod.fst).Nodup := by
  obtain ⟨-, ⟨-, rfl⟩ | ⟨name, -, free, rfl⟩⟩ := enter_cases entered
  · exact h
  · refine List.nodup_cons.mpr ⟨fun mem => ?_, h⟩
    have found := lookup_isSome_iff.mpr mem
    rw [free] at found
    cases found

theorem nodup_of_enterAll : ∀ {e e' : Environment} {here : Nat} {is : List Instruction},
    (e.labels.map Prod.fst).Nodup → e.enterAll here is = .ok e' → (e'.labels.map Prod.fst).Nodup
  | _, _, _, [], h, entered => by
    cases entered
    exact h
  | e, e', here, i :: is, h, entered => by
    obtain ⟨next, first, rest⟩ := enterAll_cons_eq_ok_iff.mp entered
    exact nodup_of_enterAll (nodup_of_enter h first) rest

end Environment

/-! ## Instructions to blame -/

namespace Program

variable {p : Program} {name : String} {j k : Nat} {fault other : Fault}

theorem Defines.lt_length (h : p.Defines name k) : k < p.instructions.length := by
  obtain ⟨i, here, -⟩ := h
  exact (List.getElem?_eq_some_iff.mp here).1

/-- What stands behind a position does not matter for what is defined there. -/
theorem defines_append_iff {before after : List Instruction} (h : k < before.length) :
    Defines ⟨before ++ after⟩ name k ↔ Defines ⟨before⟩ name k := by
  unfold Defines
  rw [List.getElem?_append_left h]

theorem Defines.misfit?_eq_none {i : Instruction} (h : p.Defines name k)
    (here : p.instructions[k]? = some i) : i.misfit? = none := by
  obtain ⟨i', here', op, args⟩ := h
  obtain rfl := Option.some.inj (here.symm.trans here')
  rw [Instruction.misfit?, op, args]
  rfl

theorem Defines.name_unique {name' : String} (h : p.Defines name k) (h' : p.Defines name' k) :
    name = name' := by
  obtain ⟨i, here, -, args⟩ := h
  obtain ⟨i', here', -, args'⟩ := h'
  obtain rfl := Option.some.inj (here.symm.trans here')
  exact Argument.label.inj (List.head_eq_of_cons_eq (args.symm.trans args'))

/-- What a program has to be like in order to start : instructions fit their opcodes, and no label
is defined twice. -/
structure IsAcceptable (p : Program) : Prop where
  fits : ∀ i ∈ p.instructions, i.misfit? = none
  distinct : ∀ (name : String) (j k : Nat), p.Defines name j → p.Defines name k → j = k

/-- What is wrong with the instruction at a position : it does not fit its opcode, or it defines
a label that is defined in front of it. -/
inductive Blames (p : Program) (k : Nat) : Fault → Prop
  | malformed {i : Instruction} {misfit : Misfit} (here : p.instructions[k]? = some i)
      (checked : i.misfit? = some misfit) : Blames p k (.of i (.malformed misfit))
  | repeated {i : Instruction} {name : String} {first : Nat} (here : p.instructions[k]? = some i)
      (again : p.Defines name k) (before : first < k) (defines : p.Defines name first) :
      Blames p k (.of i (.duplicateLabel name))

/-- This is wrong with the instruction at a position, and nothing is wrong in front of it. -/
structure BlamesFirst (p : Program) (k : Nat) (fault : Fault) : Prop where
  blames : p.Blames k fault
  first : ∀ j other, j < k → ¬ p.Blames j other

theorem Blames.unique (h : p.Blames k fault) (h' : p.Blames k other) : fault = other := by
  cases h with
  | malformed here checked =>
    cases h' with
    | malformed here' checked' =>
      obtain rfl := Option.some.inj (here.symm.trans here')
      obtain rfl := Option.some.inj (checked.symm.trans checked')
      rfl
    | repeated here' again => cases (again.misfit?_eq_none here).symm.trans checked
  | repeated here again =>
    cases h' with
    | malformed here' checked => cases (again.misfit?_eq_none here').symm.trans checked
    | repeated here' again' =>
      obtain rfl := Option.some.inj (here.symm.trans here')
      rw [again.name_unique again']

theorem BlamesFirst.unique (h : p.BlamesFirst j fault) (h' : p.BlamesFirst k other) :
    j = k ∧ fault = other := by
  obtain rfl : j = k := Nat.le_antisymm (Nat.not_lt.mp fun lt => h.first k other lt h'.blames)
    (Nat.not_lt.mp fun lt => h'.first j fault lt h.blames)
  exact ⟨rfl, h.blames.unique h'.blames⟩

/-- Instructions with which nothing is wrong define a label only once. -/
theorem Defines.eq (h : p.Defines name j) (blameless : ∀ fault, ¬ p.Blames j fault)
    (blameless' : ∀ fault, ¬ p.Blames k fault) (h' : p.Defines name k) : j = k := by
  have ⟨i, here, _⟩ := h
  have ⟨i', here', _⟩ := h'
  rcases Nat.lt_trichotomy j k with before | same | behind
  · exact absurd (.repeated here' h' before h) (blameless' _)
  · exact same
  · exact absurd (.repeated here h behind h') (blameless _)

/-- What stands behind a position does not matter for what is wrong there. -/
theorem Blames.of_append {before after : List Instruction} (inside : k < before.length)
    (h : Blames ⟨before ++ after⟩ k fault) : Blames ⟨before⟩ k fault := by
  cases h with
  | malformed here checked =>
    rw [List.getElem?_append_left inside] at here
    exact .malformed here checked
  | repeated here again earlier defines =>
    rw [List.getElem?_append_left inside] at here
    exact .repeated here ((defines_append_iff inside).mp again) earlier
      ((defines_append_iff (earlier.trans inside)).mp defines)

/-- A program is acceptable if nothing is wrong with any of its instructions. -/
theorem isAcceptable_iff : p.IsAcceptable ↔ ∀ k fault, ¬ p.Blames k fault := by
  constructor
  · rintro acceptable k fault (⟨here, checked⟩ | ⟨here, again, before, defines⟩)
    · cases (acceptable.fits _ (List.mem_of_getElem? here)).symm.trans checked
    · exact before.ne (acceptable.distinct _ _ _ defines again)
  · refine fun blameless => ⟨fun i hi => ?_, fun name j k first second => ?_⟩
    · obtain ⟨k, here⟩ := List.mem_iff_getElem?.mp hi
      exact Option.eq_none_iff_forall_ne_some.mpr fun misfit checked =>
        blameless k _ (.malformed here checked)
    · exact first.eq (blameless j) (blameless k) second

end Program

/-! ## Starting -/

namespace Machine

variable {p : Program} {console : Console} {m : Machine}

/-- A program that is accepted defines no label twice. -/
theorem defines_unique (created : create p console = .ok m) {name : String} {j k : Nat}
    (first : p.Defines name j) (second : p.Defines name k) : j = k := by
  have labels := (create_start created).labels name
  exact Option.some.inj (((labels j).mpr first).symm.trans ((labels k).mpr second))

theorem isAcceptable_of_create (created : create p console = .ok m) : p.IsAcceptable := by
  refine ⟨fun i hi => ?_, fun name j k => defines_unique created⟩
  obtain ⟨e, entered, -⟩ := create_eq_ok created
  exact Instruction.misfit?_eq_none_iff.mpr (fits_of_enterAll entered i hi)

/-- A program is refused for what is wrong with the first of its instructions with which something
is wrong. -/
theorem create_refused {fault : Fault} (refused : create p console = .error fault) :
    ∃ k, p.BlamesFirst k fault := by
  obtain ⟨is⟩ := p
  cases entering : Environment.empty.enterAll 0 is with
  | ok e => cases (create_of_entered (p := ⟨is⟩) console entering).symm.trans refused
  | error cause =>
    cases (create_of_refused (p := ⟨is⟩) console entering).symm.trans refused
    obtain ⟨before, i, after, entered, error, rfl, accepted, failed, rfl⟩ :=
      Environment.enterAll_refused entering
    -- what stands in front of the instruction to blame is an accepted program
    have start := create_of_entered (p := ⟨before⟩) console accepted
    have here : (before ++ i :: after)[before.length]? = some i := by
      rw [List.getElem?_append_right le_rfl, Nat.sub_self, List.getElem?_cons_zero]
    refine ⟨before.length, ?_, fun j other inside blamed => ?_⟩
    · rcases Environment.enter_refused failed with
        ⟨misfit, checked, rfl⟩ | ⟨name, first, defined, found, rfl⟩
      · exact .malformed here checked
      · have earlier := ((create_start start).labels name first).mp found
        have inside := earlier.lt_length
        exact .repeated here ⟨i, here, Instruction.definedLabel?_eq_some_iff.mp defined⟩ inside
          ((Program.defines_append_iff inside).mpr earlier)
    · exact Program.isAcceptable_iff.mp (isAcceptable_of_create start) j other
        (blamed.of_append inside)

/-- A program starts if and only if its instructions fit their opcodes and define no label twice.
Otherwise the fault is that of the first instruction that does not fit, or defines a label that is
defined in front of it. A machine at the start has the labels with their positions, and nothing
else : no frames but an empty global one, no values, no calls, and the streams as they were. -/
theorem create_exact (p : Program) (console : Console) :
    ((∃ m, create p console = .ok m) ↔ p.IsAcceptable) ∧
    (∀ fault, create p console = .error fault ↔ ∃ k, p.BlamesFirst k fault) ∧
    (∀ (i : Instruction) (misfit : Misfit), i.misfit? = some misfit ↔ i.IsMisfit misfit) ∧
    ∀ m, create p console = .ok m → ∃ labels : List (String × Nat),
      m = ⟨p.instructions.toArray, 0, none, ⟨⟨.empty, labels, [], []⟩, console⟩⟩ ∧
      (labels.map Prod.fst).Nodup ∧
      ∀ name position, (name, position) ∈ labels ↔ p.Defines name position := by
  refine ⟨⟨fun ⟨m, created⟩ => isAcceptable_of_create created, fun acceptable => ?_⟩,
    fun fault => ⟨create_refused, fun ⟨k, blamed⟩ => ?_⟩,
    fun i misfit => Instruction.misfit?_eq_some_iff, fun m created => ?_⟩
  · cases created : create p console with
    | ok m => exact ⟨m, rfl⟩
    | error fault =>
      obtain ⟨k, blamed⟩ := create_refused created
      exact absurd blamed.blames (Program.isAcceptable_iff.mp acceptable k fault)
  · cases created : create p console with
    | ok m =>
      have blameless := Program.isAcceptable_iff.mp (isAcceptable_of_create created)
      exact absurd blamed.blames (blameless k fault)
    | error other =>
      obtain ⟨j, blamed'⟩ := create_refused created
      rw [(blamed'.unique blamed).2]
  · have start := create_start created
    obtain ⟨e, entered, rfl⟩ := create_eq_ok created
    have distinct : (e.labels.map Prod.fst).Nodup :=
      Environment.nodup_of_enterAll (e := .empty) List.nodup_nil entered
    refine ⟨e.labels, ?_, distinct, fun name position => ?_⟩
    · exact congrArg (fun e : Environment =>
        (⟨p.instructions.toArray, 0, none, ⟨e, console⟩⟩ : Machine))
        (Environment.enterAll_labels entered).1
    · exact (lookup_eq_some_iff_mem distinct).symm.trans (start.labels name position)

/-- The label is defined again in front of an instruction that has no arguments. Without that
definition, the arguments are what is wrong. -/
theorem create_exact_repeated :
    let console : Console := ⟨.stream [], .unlimited, .unlimited⟩
    let first : Instruction := ⟨9, .label, [.label "a"]⟩
    let again : Instruction := ⟨4, .label, [.label "a"]⟩
    let bare : Instruction := ⟨7, .move, []⟩
    create ⟨[first, again, bare]⟩ console = .error ⟨4, .label, .duplicateLabel "a"⟩ ∧
      (∃ k, Program.BlamesFirst ⟨[first, again, bare]⟩ k ⟨4, .label, .duplicateLabel "a"⟩) ∧
      create ⟨[first, bare]⟩ console = .error ⟨7, .move, .malformed (.arity .move 2 0)⟩ ∧
      ¬ Program.IsAcceptable ⟨[first, bare]⟩ ∧
      ∃ m, create ⟨[first]⟩ console = .ok m ∧ m.context.environment.labels = [("a", 0)] ∧
        Program.Defines ⟨[first]⟩ "a" 0 := by
  intro console first again bare
  have refused : create ⟨[first, again, bare]⟩ console = .error _ := rfl
  have malformed : create ⟨[first, bare]⟩ console = .error _ := rfl
  have created : create ⟨[first]⟩ console = .ok _ := rfl
  have blamed := ((create_exact _ console).2.1 _).mp refused
  obtain ⟨labels, started, -, defines⟩ := (create_exact _ console).2.2.2 _ created
  refine ⟨refused, blamed, malformed, fun acceptable => ?_, _, created, rfl, ?_⟩
  · obtain ⟨m, started⟩ := (create_exact _ console).1.mpr acceptable
    cases malformed.symm.trans started
  · cases started
    exact (defines "a" 0).mp List.mem_cons_self

end Machine

end Ippcode
