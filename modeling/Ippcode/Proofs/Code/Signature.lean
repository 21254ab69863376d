import Ippcode.Code.Program
import Mathlib

/-!
# Signatures and orders

`Instruction.Fits` : an instruction has one argument for each kind in the signature of its opcode,
and each argument may stand in its position. The check finds nothing exactly in these instructions
(`misfit?_eq_none_iff`), and `Instruction.IsMisfit` says what it finds in the others
(`misfit?_eq_some_iff`).

Numbering operations keeps the operations (`map_operation_numberedFrom`), and every list of
instructions with consecutive orders comes about in this way (`numberedFrom_map_operation`).
-/

namespace Ippcode

/-! ## Signatures -/

namespace Argument

/-- An operand that may be any symbol is a variable or a constant. -/
theorem fits_symb_iff {a : Argument} :
    a.fits .symb = true ↔ (∃ v, a = .var v) ∨ ∃ x, a = .constant x := by
  cases a <;> simp [fits]

/-- Only a variable can be a destination. -/
theorem fits_var_iff {a : Argument} : a.fits .var = true ↔ ∃ v, a = .var v := by
  cases a <;> simp [fits]

theorem fits_label_iff {a : Argument} : a.fits .label = true ↔ ∃ name, a = .label name := by
  cases a <;> simp [fits]

theorem fits_type_iff {a : Argument} : a.fits .type = true ↔ ∃ ty, a = .type ty := by
  cases a <;> simp [fits]

/-- Arguments are what positions of these kinds accept, one for one. -/
def AllFit (args : List Argument) (kinds : List OperandKind) : Prop :=
  List.Forall₂ (fun arg kind => arg.fits kind = true) args kinds

namespace AllFit

variable {args : List Argument} {kinds : List OperandKind}

/-- Nothing is left behind the last argument. -/
theorem nil (h : AllFit args []) : args = [] := List.forall₂_nil_right_iff.mp h

/-- The first of the arguments that fit, and the others. -/
theorem symb (h : AllFit args (.symb :: kinds)) :
    ∃ a rest, args = a :: rest ∧ a.fits .symb = true ∧ AllFit rest kinds := by
  obtain ⟨a, rest, ha, hrest, rfl⟩ := List.forall₂_cons_right_iff.mp h
  exact ⟨a, rest, rfl, ha, hrest⟩

theorem var (h : AllFit args (.var :: kinds)) :
    ∃ v rest, args = .var v :: rest ∧ AllFit rest kinds := by
  obtain ⟨a, rest, ha, hrest, rfl⟩ := List.forall₂_cons_right_iff.mp h
  obtain ⟨v, rfl⟩ := fits_var_iff.mp ha
  exact ⟨v, rest, rfl, hrest⟩

theorem label (h : AllFit args (.label :: kinds)) :
    ∃ name rest, args = .label name :: rest ∧ AllFit rest kinds := by
  obtain ⟨a, rest, ha, hrest, rfl⟩ := List.forall₂_cons_right_iff.mp h
  obtain ⟨name, rfl⟩ := fits_label_iff.mp ha
  exact ⟨name, rest, rfl, hrest⟩

theorem type (h : AllFit args (.type :: kinds)) :
    ∃ ty rest, args = .type ty :: rest ∧ AllFit rest kinds := by
  obtain ⟨a, rest, ha, hrest, rfl⟩ := List.forall₂_cons_right_iff.mp h
  obtain ⟨ty, rfl⟩ := fits_type_iff.mp ha
  exact ⟨ty, rest, rfl, hrest⟩

end AllFit

end Argument

namespace Instruction

/-- The arguments of an instruction are what its opcode takes. -/
def Fits (i : Instruction) : Prop := Argument.AllFit i.args i.opcode.signature

/-- Nothing is misplaced if every argument is of the kind that is asked for. -/
theorem misplaced?_eq_none_iff {opcode : Opcode} : ∀ {position : Nat} {kinds : List OperandKind}
    {args : List Argument}, kinds.length = args.length →
      (misplaced? opcode position kinds args = none ↔
        Argument.AllFit args kinds)
  | _, [], [], _ => by simp [misplaced?, Argument.AllFit]
  | position, kind :: kinds, arg :: args, h => by
    have ih : misplaced? opcode (position + 1) kinds args = none ↔ _ :=
      misplaced?_eq_none_iff (Nat.succ.inj h)
    rw [misplaced?, Argument.AllFit, List.forall₂_cons, ← Argument.AllFit, ← ih]
    cases arg.fits kind <;> simp

/-- No misfit is found exactly in instructions that fit. -/
theorem misfit?_eq_none_iff {i : Instruction} : i.misfit? = none ↔ i.Fits := by
  unfold misfit? Fits
  by_cases h : i.opcode.signature.length = i.args.length
  · rw [if_pos h]
    exact misplaced?_eq_none_iff h
  · rw [if_neg h]
    refine ⟨nofun, fun fits => ?_⟩
    exact absurd fits.length_eq.symm h

/-- What is found is the first argument of a wrong kind, and all in front of it fit. -/
theorem misplaced?_eq_some_iff {opcode : Opcode} {misfit : Misfit} :
    ∀ {position : Nat} {kinds : List OperandKind} {args : List Argument},
      misplaced? opcode position kinds args = some misfit ↔
        ∃ k kind arg, kinds[k]? = some kind ∧ args[k]? = some arg ∧ arg.fits kind = false ∧
          Argument.AllFit (args.take k) (kinds.take k) ∧
          misfit = .operand opcode (position + k) kind arg.kind
  | _, [], _ => by simp [misplaced?]
  | _, _ :: _, [] => by simp [misplaced?]
  | position, kind :: kinds, arg :: args => by
    have ih : misplaced? opcode (position + 1) kinds args = some misfit ↔ _ :=
      misplaced?_eq_some_iff
    unfold misplaced?
    cases fits : arg.fits kind with
    | true =>
      rw [if_pos rfl, ih]
      constructor
      · rintro ⟨k, kind', arg', expected, found, refused, first, rfl⟩
        exact ⟨k + 1, kind', arg', expected, found, refused, .cons fits first, by
          rw [Nat.add_right_comm, Nat.add_assoc]⟩
      · rintro ⟨_ | k, kind', arg', expected, found, refused, first, rfl⟩
        · cases expected
          cases found
          cases fits.symm.trans refused
        · obtain ⟨-, first⟩ := List.forall₂_cons.mp first
          exact ⟨k, kind', arg', expected, found, refused, first, by
            rw [Nat.add_right_comm, Nat.add_assoc]⟩
    | false =>
      rw [if_neg Bool.false_ne_true]
      constructor
      · rintro ⟨⟩
        exact ⟨0, kind, arg, rfl, rfl, fits, List.Forall₂.nil, rfl⟩
      · rintro ⟨_ | k, kind', arg', expected, found, refused, first, rfl⟩
        · cases expected
          cases found
          rfl
        · obtain ⟨fits', -⟩ := List.forall₂_cons.mp first
          cases fits.symm.trans fits'

/-- What is wrong with an instruction that does not fit its opcode. It has too many or too few
arguments; or their number is right, and one is of a kind that its position does not accept, while
all arguments in front of it fit. -/
inductive IsMisfit (i : Instruction) : Misfit → Prop
  | arity (differ : i.opcode.signature.length ≠ i.args.length) :
      IsMisfit i (.arity i.opcode i.opcode.signature.length i.args.length)
  | operand (count : i.opcode.signature.length = i.args.length) {k : Nat} {kind : OperandKind}
      {arg : Argument} (expected : i.opcode.signature[k]? = some kind)
      (found : i.args[k]? = some arg) (refused : arg.fits kind = false)
      (first : Argument.AllFit (i.args.take k) (i.opcode.signature.take k)) :
      IsMisfit i (.operand i.opcode k kind arg.kind)

/-- The number of arguments is looked at before their kinds. -/
theorem misfit?_eq_some_iff {i : Instruction} {misfit : Misfit} :
    i.misfit? = some misfit ↔ i.IsMisfit misfit := by
  unfold misfit?
  by_cases count : i.opcode.signature.length = i.args.length
  · rw [if_pos count, misplaced?_eq_some_iff]
    constructor
    · rintro ⟨k, kind, arg, expected, found, refused, first, rfl⟩
      rw [Nat.zero_add]
      exact .operand count expected found refused first
    · rintro (differ | ⟨-, expected, found, refused, first⟩)
      · exact absurd count differ
      · exact ⟨_, _, _, expected, found, refused, first, by rw [Nat.zero_add]⟩
  · rw [if_neg count]
    constructor
    · rintro ⟨⟩
      exact .arity count
    · rintro (_ | ⟨count', -, -, -, -⟩)
      · rfl
      · exact absurd count' count

/-- What an instruction does, apart from its order. -/
def operation (i : Instruction) : Opcode × List Argument := (i.opcode, i.args)

end Instruction

/-! ## Orders -/

namespace Program

/-- Numbering changes no operation. -/
@[simp] theorem map_operation_numberedFrom : ∀ (first : Nat) (ops : List (Opcode × List Argument)),
    (numberedFrom first ops).map Instruction.operation = ops
  | _, [] => rfl
  | first, (opcode, args) :: ops => by
    rw [numberedFrom, List.map_cons, map_operation_numberedFrom (first + 1) ops]
    rfl

theorem length_numberedFrom : ∀ (first : Nat) (ops : List (Opcode × List Argument)),
    (numberedFrom first ops).length = ops.length
  | _, [] => rfl
  | first, _ :: ops => congrArg (· + 1) (length_numberedFrom (first + 1) ops)

/-- Numbering gives consecutive orders. -/
theorem map_order_numberedFrom : ∀ (first : Nat) (ops : List (Opcode × List Argument)),
    (numberedFrom first ops).map Instruction.order = List.range' first ops.length
  | _, [] => rfl
  | first, (opcode, args) :: ops => by
    rw [numberedFrom, List.map_cons, map_order_numberedFrom (first + 1) ops, List.length_cons,
      List.range'_succ]

/-- Instructions with consecutive orders are numbered operations. -/
theorem numberedFrom_map_operation : ∀ {first : Nat} {is : List Instruction},
    is.map Instruction.order = List.range' first is.length →
      numberedFrom first (is.map Instruction.operation) = is
  | _, [], _ => rfl
  | first, ⟨order, opcode, args⟩ :: is, h => by
    rw [List.map_cons, List.length_cons, List.range'_succ, List.cons.injEq] at h
    obtain ⟨rfl, h⟩ := h
    have rest := numberedFrom_map_operation h
    exact congrArg (⟨order, opcode, args⟩ :: ·) rest

end Program

end Ippcode
