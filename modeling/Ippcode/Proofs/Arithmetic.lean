import Ippcode.Proofs.Comparison
import Ippcode.Proofs.Machine.Outcome

/-!
# Arithmetic

The types of two operands decide what arithmetic gives (`Value.IsTyped`). Two integers give an
integer, which is the exact result up to a multiple of `2 ^ 64`, or the quotient rounded toward zero
(`Arithmetic.IsResult`). As soon as one operand is a double, so is the result. An operand that is
not a number is refused, the left one first, before the divisor is looked at.

There are three zeros, an integer and two doubles (`Value.IsZero`). An integer that divides a double
is rounded before it is tested, and no other integer is rounded to a zero (`ofInt_isZero_iff`).

Both forms of an instruction give what the operation gives (`Machine.Computed`), so division has its
fault in both of them (`Machine.arithmetic_typed`).
-/

namespace Ippcode

/-! ## Integers -/

namespace Arithmetic

/-- What the result for two integers has to do with the exact one. The quotient of the least integer
and -1 is out of range. -/
def IsResult (a b : ℤ) : Arithmetic → ℤ → Prop
  | add, n => n ≡ a + b [ZMOD 2 ^ 64]
  | sub, n => n ≡ a - b [ZMOD 2 ^ 64]
  | mul, n => n ≡ a * b [ZMOD 2 ^ 64]
  | div, q =>
    if a = -2 ^ 63 ∧ b = -1 then q = -2 ^ 63
    else ∃ r, a = q * b + r ∧ |r| < |b| ∧ (r = 0 ∨ r.sign = a.sign)

theorem bmod_modEq (n : ℤ) : n.bmod (2 ^ 64) ≡ n [ZMOD 2 ^ 64] := Int.bmod_emod

/-- The remainder of a division that rounds toward zero has the sign of the dividend. -/
theorem exists_remainder (a : ℤ) {b : ℤ} (hb : b ≠ 0) :
    ∃ r, a = a.tdiv b * b + r ∧ |r| < |b| ∧ (r = 0 ∨ r.sign = a.sign) := by
  refine ⟨a.tmod b, ?_, ?_, ?_⟩
  · rw [mul_comm, Int.mul_tdiv_add_tmod]
  · have small : (a.tmod b).natAbs < b.natAbs := by
      rw [Int.natAbs_tmod]
      exact Nat.mod_lt _ (Int.natAbs_pos.mpr hb)
    rw [Int.abs_eq_natAbs, Int.abs_eq_natAbs]
    exact_mod_cast small
  · have sign := Int.sign_tmod a b
    split at sign
    · exact .inl (Int.sign_eq_zero_iff_zero.mp sign)
    · exact .inr sign

/-- A quotient is truncated. Only the least integer divided by minus one wraps around. -/
theorem div_isResult (a b : Int64) (hb : b ≠ 0) :
    IsResult a.toInt b.toInt div (a / b).toInt := by
  by_cases h : a.toInt = -2 ^ 63 ∧ b.toInt = -1
  · obtain rfl : a = Int64.minValue := Int64.toInt_inj.mp h.1
    obtain rfl : b = -1 := Int64.toInt_inj.mp h.2
    rw [Int64.minValue_div_neg_one, IsResult, if_pos h]
    rfl
  · have quotient : (a / b).toInt = a.toInt.tdiv b.toInt := by
      rcases not_and_or.mp h with other | other
      · exact Int64.toInt_div_of_ne_left a b fun least => other (by rw [least]; rfl)
      · exact Int64.toInt_div_of_ne_right a b fun one => other (by rw [one]; rfl)
    rw [IsResult, if_neg h, quotient]
    exact exists_remainder _ fun zero => hb (Int64.toInt_inj.mp zero)

/-- Integers can be computed with unless the divisor is zero. -/
theorem exists_onInts (op : Arithmetic) (a b : Int64) (h : ¬ (op = div ∧ b = 0)) :
    ∃ n, op.onInts a b = .ok n ∧ op.IsResult a.toInt b.toInt n.toInt := by
  cases op with
  | add => exact ⟨a + b, rfl, Int64.toInt_add a b ▸ bmod_modEq _⟩
  | sub => exact ⟨a - b, rfl, Int64.toInt_sub a b ▸ bmod_modEq _⟩
  | mul => exact ⟨a * b, rfl, Int64.toInt_mul a b ▸ bmod_modEq _⟩
  | div =>
    have nonzero : b ≠ 0 := fun zero => h ⟨rfl, zero⟩
    exact ⟨a / b, if_neg nonzero, div_isResult a b nonzero⟩

end Arithmetic

/-! ## Zeros -/

namespace Value

open Ippcode.Binary64

variable {v w : Value} {x y : Float} {op : Arithmetic}

/-- The numbers by which nothing can be divided. -/
inductive IsZero : Value → Prop
  | int : IsZero (int 0)
  | positive : IsZero (float 0.0)
  | negative : IsZero (float (-0.0))

/-- Both zeros count as zero. -/
theorem isZero_float_iff : (float x).IsZero ↔ Binary64.isZero x = true := by
  constructor
  · rintro (_ | _ | _)
    · decide +kernel
    · decide +kernel
  · intro h
    have zero : magnitude x = 0 := eq_of_beq h
    have whole := ofMagnitude_magnitude x
    rw [zero] at whole
    cases sign : isNegative x with
    | true =>
      rw [sign] at whole
      exact whole ▸ .negative
    | false =>
      rw [sign] at whole
      exact whole ▸ .positive

theorem isZero_int_iff {b : Int64} : (int b).IsZero ↔ b = 0 := by
  constructor
  · rintro ⟨⟩
    rfl
  · rintro rfl
    exact .int

/-- No integer but zero is rounded to a zero. -/
theorem ofInt_isZero_iff {n : ℤ} : Binary64.isZero (ofInt n) = true ↔ n = 0 := by
  constructor
  · intro h
    have zero : position (ofInt n) = 0 := by
      rw [← Int.natAbs_eq_zero, natAbs_position]
      exact eq_of_beq h
    -- Rounding is monotone, so the integers next to zero stand for all others.
    have above : 0 < position (ofInt 1) := by decide +kernel
    have below : position (ofInt (-1)) < 0 := by decide +kernel
    rcases lt_trichotomy n 0 with neg | rfl | pos
    · have le : position (ofInt n) ≤ position (ofInt (-1)) := position_ofInt_mono (by omega)
      omega
    · rfl
    · have le : position (ofInt 1) ≤ position (ofInt n) := position_ofInt_mono (by omega)
      omega
  · rintro rfl
    decide +kernel

/-- A number is zero as an operand exactly if it is zero as a double. -/
theorem isZero_number?_iff (h : v.number? = some x) : Binary64.isZero x = true ↔ v.IsZero := by
  cases v with
  | int n =>
    obtain rfl := Option.some.inj h
    rw [ofInt_isZero_iff, isZero_int_iff]
    exact Int64.toInt_inj (y := 0)
  | float y =>
    obtain rfl := Option.some.inj h
    exact isZero_float_iff.symm
  | bool _ | string _ | nil => cases h

/-! ## All values -/

/-- What the types of two operands say about arithmetic with them. -/
structure IsTyped (apply : Arithmetic → Value → Value → Except RuntimeError Value) : Prop where
  /-- Two integers give an integer. -/
  ints : ∀ (op : Arithmetic) (a b : Int64), ¬ (op = .div ∧ b = 0) →
    ∃ n, apply op (int a) (int b) = .ok (int n) ∧ op.IsResult a.toInt b.toInt n.toInt
  /-- Numbers of which one is a double give the double that the operation on doubles gives. -/
  doubles : ∀ (op : Arithmetic) (v w : Value), v.IsNumber → w.IsNumber →
    v.ty = .float ∨ w.ty = .float → ¬ (op = .div ∧ w.IsZero) →
    ∃ x y z, v.number? = some x ∧ w.number? = some y ∧ op.onFloats x y = .ok z ∧
      apply op v w = .ok (float z)
  /-- The division of numbers fails for the zeros, and in one way. -/
  division : ∀ v w : Value, v.IsNumber → w.IsNumber →
    ((∃ e, apply .div v w = .error e) ↔ w.IsZero) ∧
      ∀ e, apply .div v w = .error e → e = .divisionByZero
  /-- A left operand that is not a number is refused. -/
  left : ∀ (op : Arithmetic) (v w : Value), ¬ v.IsNumber →
    apply op v w = .error (.typeMismatch .number v.ty)
  /-- So is a right one, if the left one is a number. -/
  right : ∀ (op : Arithmetic) (v w : Value), v.IsNumber → ¬ w.IsNumber →
    apply op v w = .error (.typeMismatch .number w.ty)

/-- What is no number cannot be read as one. -/
theorem number?_eq_none (h : ¬ v.IsNumber) : v.number? = none := by
  cases v with
  | int _ | float _ => exact absurd trivial h
  | bool _ | string _ | nil => rfl

/-- Unless both operands are integers, they are taken as doubles. -/
theorem arithmetic_of_not_ints (h : ¬ (v.ty = .int ∧ w.ty = .int)) :
    arithmetic op v w =
      match v.number?, w.number? with
      | some x, some y => (op.onFloats x y).map float
      | none, _ => .error (.typeMismatch .number v.ty)
      | _, none => .error (.typeMismatch .number w.ty) := by
  unfold arithmetic
  split
  · exact absurd ⟨rfl, rfl⟩ h
  · rfl

theorem isNumber_of_ty_int (h : v.ty = .int) : v.IsNumber := by
  cases v with
  | int _ | float _ => trivial
  | bool _ | string _ | nil => cases h

theorem arithmetic_of_mixed (hv : v.number? = some x) (hw : w.number? = some y)
    (mixed : ¬ (v.ty = .int ∧ w.ty = .int)) :
    arithmetic op v w = (op.onFloats x y).map float := by
  rw [arithmetic_of_not_ints mixed, hv, hw]

/-- Doubles can be computed with unless the divisor is zero. -/
theorem exists_onFloats (h : ¬ (op = .div ∧ Binary64.isZero y = true)) :
    ∃ z, op.onFloats x y = .ok z := by
  cases op with
  | add | sub | mul => exact ⟨_, rfl⟩
  | div => exact ⟨x / y, if_neg fun zero => h ⟨rfl, zero⟩⟩

/-- If one of two numbers is a double, so is the result. -/
theorem exists_arithmetic_of_mixed (left : v.IsNumber) (right : w.IsNumber)
    (mixed : ¬ (v.ty = .int ∧ w.ty = .int)) (h : ¬ (op = .div ∧ w.IsZero)) :
    ∃ x y z, v.number? = some x ∧ w.number? = some y ∧ op.onFloats x y = .ok z ∧
      arithmetic op v w = .ok (float z) := by
  obtain ⟨x, hv, -⟩ := exists_number? left
  obtain ⟨y, hw, -⟩ := exists_number? right
  rw [← isZero_number?_iff hw] at h
  obtain ⟨z, hz⟩ := exists_onFloats (x := x) h
  exact ⟨x, y, z, hv, hw, hz, by rw [arithmetic_of_mixed hv hw mixed, hz]; rfl⟩

/-- Two integers give an integer. -/
theorem exists_arithmetic_int (op : Arithmetic) (a b : Int64) (h : ¬ (op = .div ∧ b = 0)) :
    ∃ n, arithmetic op (int a) (int b) = .ok (int n) ∧ op.IsResult a.toInt b.toInt n.toInt := by
  obtain ⟨n, hn, result⟩ := op.exists_onInts a b h
  exact ⟨n, by rw [arithmetic, hn]; rfl, result⟩

theorem IsZero.isNumber (zero : v.IsZero) : v.IsNumber := by
  cases zero <;> trivial

/-- Dividing by any zero is an error, whatever the type of the other number. -/
theorem arithmetic_div_of_isZero (left : v.IsNumber) (zero : w.IsZero) :
    arithmetic .div v w = .error .divisionByZero := by
  by_cases ints : v.ty = .int ∧ w.ty = .int
  · cases v <;> cases ints.1
    cases zero with
    | int => rfl
    | positive | negative => cases ints.2
  · obtain ⟨x, hv, -⟩ := exists_number? left
    obtain ⟨y, hw, -⟩ := exists_number? zero.isNumber
    have fails : Arithmetic.div.onFloats x y = .error .divisionByZero :=
      if_pos ((isZero_number?_iff hw).mpr zero)
    rw [arithmetic_of_mixed hv hw ints, fails]
    rfl

/-- Dividing by anything else is none. -/
theorem exists_arithmetic_div (left : v.IsNumber) (right : w.IsNumber) (nonzero : ¬ w.IsZero) :
    ∃ u, arithmetic .div v w = .ok u := by
  by_cases ints : v.ty = .int ∧ w.ty = .int
  · cases v <;> cases ints.1
    cases w <;> cases ints.2
    obtain ⟨n, hn, -⟩ := exists_arithmetic_int .div _ _
      fun zero => nonzero (isZero_int_iff.mpr zero.2)
    exact ⟨_, hn⟩
  · obtain ⟨x, y, z, -, -, -, hz⟩ := exists_arithmetic_of_mixed left right ints
      fun zero => nonzero zero.2
    exact ⟨_, hz⟩

/-- Where it fails, the division of numbers has a zero to divide by. -/
theorem isZero_of_arithmetic_div {e : RuntimeError} (left : v.IsNumber) (right : w.IsNumber)
    (h : arithmetic .div v w = .error e) : w.IsZero := by
  by_contra nonzero
  obtain ⟨u, hu⟩ := exists_arithmetic_div left right nonzero
  rw [hu] at h
  cases h

/-- Arithmetic in all its cases, by the types of both operands. -/
theorem arithmetic_isTyped : IsTyped arithmetic where
  ints := exists_arithmetic_int
  doubles _ v w left right float := by
    refine exists_arithmetic_of_mixed left right fun ints => ?_
    rcases float with h | h
    · exact nomatch ints.1.symm.trans h
    · exact nomatch ints.2.symm.trans h
  division v w left right := by
    refine ⟨⟨fun ⟨e, he⟩ => isZero_of_arithmetic_div left right he,
      fun zero => ⟨_, arithmetic_div_of_isZero left zero⟩⟩, fun e he => ?_⟩
    have fails := arithmetic_div_of_isZero left (isZero_of_arithmetic_div left right he)
    exact Except.error.inj (he.symm.trans fails)
  left _ v w other := by
    rw [arithmetic_of_not_ints fun ints => other (isNumber_of_ty_int ints.1),
      number?_eq_none other]
  right _ v w number other := by
    obtain ⟨x, hv, -⟩ := exists_number? number
    rw [arithmetic_of_not_ints fun ints => other (isNumber_of_ty_int ints.2), hv,
      number?_eq_none other]

end Value

/-! ## Instructions -/

namespace Instruction

open Ippcode.Action

/-- The operands of an operation with two of them. The direct form has a variable for the result. -/
inductive Operands (i : Instruction) (c : Context) : Form → Value → Value → Prop
  | direct {v : VariableName} {a b : Argument} {x y : Value} (args : i.args = [.var v, a, b])
      (declared : c.environment.memory.contains v = .ok true)
      (left : a.evaluate c.environment.memory = .ok x)
      (right : b.evaluate c.environment.memory = .ok y) : Operands i c .direct x y
  | stack {x y : Value} {data : List Value} (top : c.environment.data = y :: x :: data) :
      Operands i c .stack x y

/-- The instruction puts this result into its variable, or onto the data stack in the place of its
operands. -/
inductive Delivers (i : Instruction) (c : Context) (z : Value) : Form → Context → Prop
  | direct {c' : Context} (stores : i.Stores z c c') : Delivers i c z .direct c'
  | stack {x y : Value} {data : List Value} (top : c.environment.data = y :: x :: data) :
      Delivers i c z .stack (c.withData (z :: data))

variable {i : Instruction} {form : Form} {op : Binary} {c : Context} {x y : Value}

/-- The operation of an instruction that knows its operands decides whether the instruction fails,
and what it delivers. -/
theorem perform_binary (opcode : i.opcode = .binary form op) (fits : i.Fits)
    (operands : i.Operands c form x y) (here : Nat) :
    ∃ left f, (i.perform here).on c = settle (op.apply x y) left f ∧
      ∀ z, (f z).1 = .next ∧ i.Delivers c z form (f z).2 := by
  unfold Fits at fits
  rw [opcode] at fits
  cases operands with
  | @direct v a b x y args declared left right =>
    obtain ⟨v', _, hargs, h⟩ := fits.var
    obtain ⟨a', _, rfl, ha, h⟩ := h.symb
    obtain ⟨b', _, rfl, hb, h⟩ := h.symb
    obtain rfl := h.nil
    cases args.symm.trans hargs
    obtain ⟨found, hv⟩ := Memory.get_of_contains declared
    obtain ⟨frame, hframe, hfound⟩ := Memory.get_eq_ok_iff.mp hv
    -- The variable is declared, so any result can be stored in it.
    have assigned (z : Value) : c.environment.memory.assign v z =
        .ok (c.environment.memory.setFrame v.frame (frame.assign v.name z)) :=
      Memory.assign_eq_ok_iff.mpr ⟨frame, hframe, Option.isSome_of_eq_some hfound, rfl⟩
    refine ⟨c, fun z => (.next, c.withMemory _), ?_,
      fun z => ⟨rfl, .direct ⟨v, [a, b], _, args, assigned z, rfl⟩⟩⟩
    rw [perform_binary_direct opcode args hv ha hb, left, right]
    simp only [ok_bind, assigned]
    cases op.apply x y <;> rfl
  | stack top =>
    exact ⟨_, _, perform_binary_stack opcode top, fun z => ⟨rfl, .stack top⟩⟩

end Instruction

namespace Machine

open Ippcode.Action

variable {m : Machine} {i : Instruction} {form : Form} {op : Binary} {x y : Value}

/-- The machine is about to perform an operation with these operands. -/
structure FacesBinary (m : Machine) (i : Instruction) (form : Form) (op : Binary) (x y : Value) :
    Prop where
  running : m.ending = none
  next : m.instructions[m.position]? = some i
  opcode : i.opcode = .binary form op
  fits : i.Fits
  operands : i.Operands m.context form x y

/-- What becomes of a machine by an operation with this result. -/
inductive Computed (m : Machine) (i : Instruction) (form : Form) :
    Except RuntimeError Value → Turn → Prop
  | done {z : Value} {c : Context} (delivers : i.Delivers m.context z form c) :
      Computed m i form (.ok z)
        ⟨m.moveTo (m.position + 1) c, .ok .running, [.fetched i m.context.environment]⟩
  | failed {e : RuntimeError} {c : Context} (fails : i.Fails m.context e c) :
      Computed m i form (.error e)
        ⟨{ m with context := c }, .error (.of i e), [.fetched i m.context.environment]⟩

/-- A machine that faces such an instruction computes with its operands. -/
theorem step_binary (faces : m.FacesBinary i form op x y) :
    m.Computed i form (op.apply x y) m.step := by
  obtain ⟨left, f, settled, delivers⟩ :=
    Instruction.perform_binary faces.opcode faces.fits faces.operands m.position
  -- What is left behind by a failure is the same for all instructions.
  have ends := i.perform_ends faces.fits m.position m.context
  unfold Ends at ends
  rw [step_of_instruction faces.running faces.next, settled]
  rw [settled] at ends
  cases result : op.apply x y with
  | error e =>
    rw [result] at ends
    exact .failed ends
  | ok z =>
    obtain ⟨next, delivers⟩ := delivers z
    simp only [settle, next, follow]
    exact .done delivers

/-- A computing instruction stops exactly if its operation fails, and with the same error. -/
theorem Computed.result_eq_error_iff {r : Except RuntimeError Value} {turn : Turn} {fault : Fault}
    (h : m.Computed i form r turn) :
    turn.result = .error fault ↔ ∃ e, r = .error e ∧ fault = .of i e := by
  cases h with
  | done => exact iff_of_false nofun (by rintro ⟨e, he, -⟩; cases he)
  | failed => simp [eq_comm]

/-- Arithmetic is as the types of its operands say, in both forms of its instructions. Both forms of
a division of numbers fail for the zeros, with the same error. -/
theorem arithmetic_typed :
    Value.IsTyped Value.arithmetic ∧
    (∀ (m : Machine) (i : Instruction) (form : Form) (op : Arithmetic) (x y : Value),
      m.FacesBinary i form (.arithmetic op) x y →
      m.Computed i form (Value.arithmetic op x y) m.step) ∧
    ∀ (m : Machine) (i : Instruction) (form : Form) (x y : Value),
      m.FacesBinary i form (.arithmetic .div) x y → x.IsNumber → y.IsNumber →
      ((∃ fault, m.step.result = .error fault) ↔ y.IsZero) ∧
        ∀ fault, m.step.result = .error fault → fault = .of i .divisionByZero := by
  refine ⟨Value.arithmetic_isTyped, fun m i form op x y => step_binary, ?_⟩
  intro m i form x y faces left right
  obtain ⟨fails_iff, error⟩ := Value.arithmetic_isTyped.division x y left right
  have computed := step_binary faces
  constructor
  · rw [← fails_iff]
    constructor
    · rintro ⟨fault, h⟩
      obtain ⟨e, he, -⟩ := computed.result_eq_error_iff.mp h
      exact ⟨e, he⟩
    · rintro ⟨e, he⟩
      exact ⟨_, computed.result_eq_error_iff.mpr ⟨e, he, rfl⟩⟩
  · intro fault h
    obtain ⟨e, he, rfl⟩ := computed.result_eq_error_iff.mp h
    rw [error e he]

/-- The least integer divided by -1, a mismatch beside a zero divisor, an instruction that overwrites
one of its operands, and a division by the negative zero. -/
theorem arithmetic_typed_ends :
    (∃ n, Value.arithmetic .div (.int Int64.minValue) (.int (-1)) = .ok (.int n) ∧
      n.toInt = -2 ^ 63) ∧
    Value.arithmetic .div .nil (.int 0) = .error (.typeMismatch .number .nil) ∧
    (let args := [.var ⟨.gf, "x"⟩, .constant (.int 2), .var ⟨.gf, "x"⟩];
      let m := facing (settled (.int 7)) [(.binary .direct (.arithmetic .sub), args)];
      m.Computed ⟨1, .binary .direct (.arithmetic .sub), args⟩ .direct
        (Value.arithmetic .sub (.int 2) (.int 7)) m.step) ∧
    let m := facing ((settled .nil).withData [.float (-0.0), .int 5])
      [(.binary .stack (.arithmetic .div), [])];
    m.step.result = .error (.of ⟨1, .binary .stack (.arithmetic .div), []⟩ .divisionByZero) := by
  obtain ⟨typed, computed, division⟩ := arithmetic_typed
  refine ⟨?_, typed.left .div .nil (.int 0) id, ?_, ?_⟩
  · obtain ⟨n, hn, result⟩ := typed.ints .div Int64.minValue (-1) (by decide)
    rw [Arithmetic.IsResult, if_pos ⟨rfl, rfl⟩] at result
    exact ⟨n, hn, result⟩
  · exact computed _ _ _ _ _ _ ⟨rfl, rfl, rfl, Instruction.misfit?_eq_none_iff.mp rfl,
      .direct rfl rfl rfl rfl⟩
  · intro m
    obtain ⟨fails_iff, error⟩ := division m _ .stack (.int 5) (.float (-0.0))
      ⟨rfl, rfl, rfl, Instruction.misfit?_eq_none_iff.mp rfl, .stack rfl⟩ trivial trivial
    obtain ⟨fault, h⟩ := fails_iff.mpr .negative
    exact error fault h ▸ h

end Machine

end Ippcode
