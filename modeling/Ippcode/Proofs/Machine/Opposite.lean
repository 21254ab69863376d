import Ippcode.Proofs.Comparison
import Ippcode.Proofs.Machine.Outcome

/-!
# Conditional jumps

A conditional jump has an equality of its own, `Value.jumpEqual`, which compares values as they
are and not by their order. Where it has an answer, `EQ` gives the same one
(`relation_of_jumpEqual`). `EQ` has an answer and the jump has none for an integer and a double,
and for nothing else (`answered_only_by_relation_iff`).

A jump that asks for equality and one that asks for the opposite do the same until they know
whether their operands are equal (`exists_weighs`). So in one state both fail, with the same error
and with the same effect, or exactly one of them goes to the label (`Machine.Opposed`). All of this
together is `Machine.jumpIf_agrees`.
-/

namespace Ippcode

/-! ## Two equalities -/

namespace Value

variable {v w : Value}

/-- One of the values is an integer and the other one a double. -/
inductive Mixed : Value → Value → Prop
  | left (n : Int64) (x : Float) : Mixed (int n) (float x)
  | right (x : Float) (n : Int64) : Mixed (float x) (int n)

theorem relation_of_order_iff {o : Ordering} (comparable : Comparable v w)
    (ordered : v.order w = .ok (some o)) (same : o = .eq ↔ v.same w = true) :
    relation .eq v w = .ok (v.same w) := by
  refine (relation_of_comparable comparable ordered .eq).trans (congrArg Except.ok ?_)
  rw [Bool.eq_iff_iff, ← same, beq_iff_eq, Option.some.injEq, Relation.ordering]

/-- Values of one type are equal if they are the same. -/
theorem relation_of_ty_eq (h : v.ty = w.ty) : relation .eq v w = .ok (v.same w) := by
  cases v with
  | int a =>
    cases w with
    | int b =>
      refine relation_of_order_iff (.numbers trivial trivial) (order_int a b) ?_
      exact (compare_eq_iff_eq.trans Int64.toInt_inj).trans beq_iff_eq.symm
    | _ => cases h
  | float x =>
    cases w with
    | float y =>
      have numbers : Comparable (float x) (float y) := .numbers trivial trivial
      exact relation_of_comparable numbers rfl .eq
    | _ => cases h
  | bool a =>
    cases w with
    | bool b => cases a <;> cases b <;> rfl
    | _ => cases h
  | string s =>
    cases w with
    | string t =>
      refine relation_of_order_iff (.strings s t) rfl ?_
      exact compare_eq_iff_eq.trans beq_iff_eq.symm
    | _ => cases h
  | nil =>
    cases w with
    | nil => rfl
    | _ => cases h

theorem same_of_nil (h : v = nil ∨ w = nil) : v.same w = decide (v = nil ∧ w = nil) := by
  rcases h with rfl | rfl
  · cases w <;> rfl
  · cases v <;> rfl

/-- What a conditional jump takes for equal or for different, `EQ` does too. -/
theorem relation_of_jumpEqual {b : Bool} (h : v.jumpEqual w = .ok b) :
    relation .eq v w = .ok b := by
  unfold jumpEqual at h
  split at h
  · rename_i comparable
    obtain rfl := Except.ok.inj h
    rcases comparable with one | missing
    · exact relation_of_ty_eq one
    · rw [relation_of_nil missing, same_of_nil missing]
  · cases h

theorem jumpEqual_fails_iff :
    (∃ e, v.jumpEqual w = .error e) ↔ ¬ (v.ty = w.ty ∨ v = nil ∨ w = nil) := by
  unfold jumpEqual
  split
  · rename_i h
    refine iff_of_false ?_ (not_not_intro h)
    rintro ⟨_, ⟨⟩⟩
  · rename_i h
    exact iff_of_true ⟨_, rfl⟩ h

/-- An integer and a double are the only values that `EQ` compares and a conditional jump does
not. -/
theorem answered_only_by_relation_iff :
    (∃ b, relation .eq v w = .ok b) ∧ (∃ e, v.jumpEqual w = .error e) ↔ Mixed v w := by
  rw [exists_relation_iff, jumpEqual_fails_iff]
  constructor
  · rintro ⟨comparable | ⟨-, missing⟩, other⟩
    · cases comparable with
      | @numbers v w left right =>
        cases v with
        | int n =>
          cases w with
          | int _ => exact absurd (.inl rfl) other
          | float x => exact .left n x
          | bool _ | string _ | nil => exact right.elim
        | float x =>
          cases w with
          | int n => exact .right x n
          | float _ => exact absurd (.inl rfl) other
          | bool _ | string _ | nil => exact right.elim
        | bool _ | string _ | nil => exact left.elim
      | bools a b => exact absurd (.inl rfl) other
      | strings s t => exact absurd (.inl rfl) other
    · exact absurd (.inr missing) other
  · intro mixed
    cases mixed with
    | left n x => exact ⟨.inl (.numbers trivial trivial), by simp [ty]⟩
    | right x n => exact ⟨.inl (.numbers trivial trivial), by simp [ty]⟩

end Value

/-! ## Opposite jumps -/

namespace Instruction

open Ippcode.Action

variable {i : Instruction} {form : Form} {label : String} {a b : Argument}

/-- An operand that fits its position is fetched in the same way by every instruction. -/
theorem operand_eq (i j : Instruction) (ha : a.fits .symb = true) : j.operand a = i.operand a := by
  rcases Argument.fits_symb_iff.mp ha with ⟨v, rfl⟩ | ⟨x, rfl⟩
  · rfl
  · rfl

/-- Finds out where a label is and whether two operands are equal. -/
def weigh (label : String) (operands : Action (Value × Value)) : Action (Nat × Bool) := do
  let target ← position label
  let (x, y) ← operands
  let holds ← lift (x.jumpEqual y)
  return (target, holds)

/-- Where a conditional jump goes that has found this out. -/
def judge (label : String) (equal : Bool) (found : Nat × Bool) : Action Flow :=
  return branch label found.1 equal found.2

/-- What a conditional jump finds out is about its operands and its label. -/
def Found (i : Instruction) (form : Form) (label : String) (c : Context) (found : Nat × Bool)
    (left : Context) : Prop :=
  ∃ x y, i.Compares c form label x y left ∧ c.environment.label label = .ok found.1 ∧
    x.jumpEqual y = .ok found.2

/-- The direct jumps with the same arguments find out the same, whatever they ask for. -/
theorem perform_direct_eq (hargs : i.args = [.label label, a, b]) (ha : a.fits .symb = true)
    (hb : b.fits .symb = true) {j : Instruction} {equal : Bool} (here : Nat)
    (op : j.opcode = .jumpIf .direct equal) (same : j.args = i.args) :
    j.perform here =
      weigh label (do let x ← i.operand a; let y ← i.operand b; return (x, y)) >>=
        judge label equal := by
  simp only [perform, op, jumpIf, same.trans hargs, i.operand_eq j ha, i.operand_eq j hb, weigh,
    bind_assoc, pure_bind]
  rfl

/-- So do the jumps that take their operands from the data stack. -/
theorem perform_stack_eq (hargs : i.args = [.label label]) {j : Instruction} {equal : Bool}
    (here : Nat) (op : j.opcode = .jumpIf .stack equal) (same : j.args = i.args) :
    j.perform here =
      weigh label (do let y ← pop; let x ← pop; return (x, y)) >>= judge label equal := by
  simp only [perform, op, jumpIf, same.trans hargs, weigh, bind_assoc, pure_bind]
  rfl

theorem weigh_ends {operands : Action (Value × Value)} {c : Context}
    (ends : ∀ target, c.environment.label label = .ok target →
      (operands >>= fun (x, y) => do
        let holds ← lift (x.jumpEqual y)
        return (target, holds) : Action (Nat × Bool)).Ends c (i.Found form label c)
          fun _ _ => True) :
    (weigh label operands).Ends c (i.Found form label c) fun _ _ => True :=
  (reads_inspect _).ends_bind (fun _ _ => trivial) ends

/-- All conditional jumps of one form with the same arguments find out the same, and something
true. -/
theorem exists_weighs {equal : Bool} (fits : i.Fits) (op : i.opcode = .jumpIf form equal) :
    ∃ label act, (∀ c, Ends act c (i.Found form label c) fun _ _ => True) ∧
      ∀ (j : Instruction) (asked : Bool) (here : Nat), j.opcode = .jumpIf form asked →
        j.args = i.args → j.perform here = act >>= judge label asked := by
  unfold Fits at fits
  cases form with rw [op] at fits
  | direct =>
    obtain ⟨label, _, hargs, h⟩ := fits.label
    obtain ⟨a, _, rfl, ha, h⟩ := h.symb
    obtain ⟨b, _, rfl, hb, h⟩ := h.symb
    obtain rfl := h.nil
    refine ⟨label, _, fun c => weigh_ends fun target found => ?_,
      fun j asked here => perform_direct_eq hargs ha hb here⟩
    simp only [bind_assoc, pure_bind]
    -- Nothing changes before the operands are compared, so each part may fail.
    refine (i.reads_operand ha).ends_bind (fun _ _ => trivial) fun x hx => ?_
    refine (i.reads_operand hb).ends_bind (fun _ _ => trivial) fun y hy => ?_
    refine (reads_lift _).ends_bind (fun _ _ => trivial) fun holds h => ?_
    exact ⟨x, y, .direct hargs (evaluate_of_on_operand ha hx) (evaluate_of_on_operand hb hy),
      found, h⟩
  | stack =>
    obtain ⟨label, _, hargs, h⟩ := fits.label
    obtain rfl := h.nil
    refine ⟨label, _, fun c => weigh_ends fun target found => ?_,
      fun j asked here => perform_stack_eq hargs here⟩
    simp only [bind_assoc, pure_bind]
    refine pop_two_ends trivial fun x y data hd => ?_
    refine (reads_lift _).ends_bind (fun _ _ => trivial) fun holds h => ?_
    exact ⟨x, y, .stack hargs hd, found, h⟩

end Instruction

/-! ## Steps -/

namespace Machine

open Ippcode.Action

variable {m n : Machine} {i j : Instruction} {form : Form}

/-- Two machines with one context are about to perform conditional jumps with the same arguments.
The first machine jumps if the operands are equal, the second one if they are different. -/
structure FaceOpposite (m n : Machine) (form : Form) (i j : Instruction) : Prop where
  context : n.context = m.context
  left_running : m.ending = none
  right_running : n.ending = none
  left : m.instructions[m.position]? = some i
  right : n.instructions[n.position]? = some j
  ifEqual : i.opcode = .jumpIf form true
  ifDifferent : j.opcode = .jumpIf form false
  args : j.args = i.args
  fits : i.Fits

/-- What becomes of machines that face opposite jumps. -/
inductive Opposed (m n : Machine) (form : Form) (i j : Instruction) : Turn → Turn → Prop
  /-- Both fail, with the same error, and leave behind the same. -/
  | failed {e : RuntimeError} {c : Context} (fails : i.Fails m.context e c) :
      Opposed m n form i j
        ⟨{ m with context := c }, .error (.of i e), [.fetched i m.context.environment]⟩
        ⟨{ n with context := c }, .error (.of j e), [.fetched j m.context.environment]⟩
  /-- The first machine goes to the label. -/
  | equal {label : String} {target : Nat} {x y : Value} {c : Context}
      (operands : i.Compares m.context form label x y c)
      (found : m.context.environment.label label = .ok target)
      (holds : x.jumpEqual y = .ok true) :
      Opposed m n form i j
        ⟨m.moveTo target c, .ok .running,
          [.fetched i m.context.environment, .transferred i label target]⟩
        ⟨n.moveTo (n.position + 1) c, .ok .running, [.fetched j m.context.environment]⟩
  /-- The second machine goes to the label. -/
  | different {label : String} {target : Nat} {x y : Value} {c : Context}
      (operands : i.Compares m.context form label x y c)
      (found : m.context.environment.label label = .ok target)
      (holds : x.jumpEqual y = .ok false) :
      Opposed m n form i j
        ⟨m.moveTo (m.position + 1) c, .ok .running, [.fetched i m.context.environment]⟩
        ⟨n.moveTo target c, .ok .running,
          [.fetched j m.context.environment, .transferred j label target]⟩

theorem opposed_of_faceOpposite (h : FaceOpposite m n form i j) :
    Opposed m n form i j m.step n.step := by
  obtain ⟨label, act, ends, eq⟩ := Instruction.exists_weighs h.fits h.ifEqual
  have performed := i.perform_ends h.fits m.position m.context
  have known := ends m.context
  rw [step_of_instruction h.left_running h.left, step_of_instruction h.right_running h.right,
    h.context, eq j false n.position h.ifDifferent h.args, eq i true m.position h.ifEqual rfl,
    on_bind, on_bind]
  rw [eq i true m.position h.ifEqual rfl] at performed
  unfold Ends at performed known
  rw [on_bind] at performed
  -- Both turns are told by what one action has found out.
  generalize act.on m.context = r at performed known ⊢
  rcases r with ⟨e | ⟨target, holds⟩, c⟩
  · exact .failed performed
  · obtain ⟨x, y, operands, found, same⟩ := known
    cases holds with
    | true => exact .equal operands found same
    | false => exact .different operands found same

/-- A conditional jump agrees with `EQ` wherever it has an answer, and with the opposite jump in
every state. -/
theorem jumpIf_agrees :
    (∀ (v w : Value) (b : Bool), v.jumpEqual w = .ok b → Value.relation .eq v w = .ok b) ∧
    (∀ v w : Value,
      (∃ b, Value.relation .eq v w = .ok b) ∧ (∃ e, v.jumpEqual w = .error e) ↔ v.Mixed w) ∧
    ∀ (m n : Machine) (form : Form) (i j : Instruction), FaceOpposite m n form i j →
      Opposed m n form i j m.step n.step :=
  ⟨fun _ _ _ => Value.relation_of_jumpEqual, fun _ _ => Value.answered_only_by_relation_iff,
    fun _ _ _ _ _ => opposed_of_faceOpposite⟩

theorem faceOpposite_facing (c : Context) {args : List Argument}
    (fits : Instruction.misfit? ⟨1, .jumpIf form true, args⟩ = none) :
    FaceOpposite (facing c [(.jumpIf form true, args)]) (facing c [(.jumpIf form false, args)])
      form ⟨1, .jumpIf form true, args⟩ ⟨1, .jumpIf form false, args⟩ :=
  ⟨rfl, rfl, rfl, rfl, rfl, rfl, rfl, rfl, Instruction.misfit?_eq_none_iff.mp fits⟩

/-- A NaN is different from itself. A direct jump compares an integer with `nil`, and a jump that
takes its operands from the data stack finds one of them there. -/
theorem jumpIf_agrees_nan :
    Value.relation .eq (.float (Float.ofBits 0x7FF8000000000000))
      (.float (Float.ofBits 0x7FF8000000000000)) = .ok false ∧
    (let args := [.label "end", .var ⟨.gf, "x"⟩, .constant .nil];
      let m := facing (settled (.int 7)) [(.jumpIf .direct true, args)];
      let n := facing (settled (.int 7)) [(.jumpIf .direct false, args)];
      m.Opposed n .direct ⟨1, .jumpIf .direct true, args⟩ ⟨1, .jumpIf .direct false, args⟩
        m.step n.step) ∧
    (let args := [.label "end"];
      let m := facing (settled (.int 7)) [(.jumpIf .stack true, args)];
      let n := facing (settled (.int 7)) [(.jumpIf .stack false, args)];
      m.Opposed n .stack ⟨1, .jumpIf .stack true, args⟩ ⟨1, .jumpIf .stack false, args⟩
        m.step n.step) :=
  ⟨jumpIf_agrees.1 _ _ _ (by decide +kernel),
    jumpIf_agrees.2.2 _ _ _ _ _ (faceOpposite_facing _ rfl),
    jumpIf_agrees.2.2 _ _ _ _ _ (faceOpposite_facing _ rfl)⟩

end Machine

end Ippcode
