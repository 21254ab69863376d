import Ippcode.Numeral.Integer
import Mathlib

/-!
# Digits and integers

Digits are read as the number they write (`natOfDigits?_digits`), so an integer is read back from
the text that `Numeral.ofInt` writes, whether it is the least one or not : as a constant
(`ofLiteral?_ofInt`) and on a line of input (`ofLine?_ofInt`).
-/

namespace Ippcode.Numeral

/-! ## Digits -/

/-- A text of decimal digits. -/
def AllDigits (cs : List Char) : Prop := ∀ c ∈ cs, c.isDigit = true

theorem AllDigits.append {as bs : List Char} (ha : AllDigits as) (hb : AllDigits bs) :
    AllDigits (as ++ bs) := by
  intro c hc
  rcases List.mem_append.mp hc with hc | hc
  · exact ha c hc
  · exact hb c hc

/-- A number is written with digits. -/
theorem allDigits_toDigits (n : Nat) : AllDigits (Nat.toDigits 10 n) := fun _ hc =>
  Nat.isDigit_of_mem_toDigits (by omega) (by omega) hc

theorem allDigits_zeros (n : Nat) : AllDigits (List.replicate n '0') := by
  intro c hc
  rw [List.eq_of_mem_replicate hc]
  rfl

theorem isDigit_iff {c : Char} : c.isDigit = true ↔ 48 ≤ c.toNat ∧ c.toNat ≤ 57 := by
  rw [Char.isDigit, Bool.and_eq_true, decide_eq_true_eq, decide_eq_true_eq]
  exact Iff.rfl

/-- The value of a decimal digit. -/
theorem digit?_of_isDigit {c : Char} (h : c.isDigit = true) :
    digit? 10 c = some (c.toNat - '0'.toNat) := by
  have hc := isDigit_iff.mp h
  have hlt : c.toNat - '0'.toNat < 10 := by
    show c.toNat - 48 < 10
    omega
  unfold digit? digitValue
  rw [if_pos h]
  exact Option.filter_some_pos (decide_eq_true hlt)

/-- Digits extend a number from the left to the right. -/
theorem extend?_digits : ∀ {cs : List Char} {n : Nat}, AllDigits cs →
    extend? 10 n cs = some (Nat.ofDigitChars 10 cs n)
  | [], n, _ => by rw [extend?, Nat.ofDigitChars_nil]
  | c :: cs, n, h => by
    have hc : c.isDigit = true := h c List.mem_cons_self
    have hcs : AllDigits cs := fun d hd => h d (List.mem_cons_of_mem c hd)
    rw [extend?, digit?_of_isDigit hc, Option.bind_some, extend?_digits hcs,
      Nat.ofDigitChars_cons, Nat.mul_comm n]

/-- Digits are read as the number they write. -/
theorem natOfDigits?_digits {cs : List Char} (hne : cs ≠ []) (h : AllDigits cs) :
    natOfDigits? 10 cs = some (Nat.ofDigitChars 10 cs 0) := by
  cases cs with
  | nil => exact absurd rfl hne
  | cons c cs => exact extend?_digits h

/-- Only decimal digits are read as such. -/
theorem isDigit_of_digit? {c : Char} {d : Nat} (h : digit? 10 c = some d) : c.isDigit = true := by
  obtain ⟨value, small⟩ := Option.filter_eq_some_iff.mp h
  have small : d < 10 := of_decide_eq_true small
  unfold digitValue at value
  split_ifs at value with digit
  · exact digit
  -- The letters go on above the digits.
  all_goals
    have := Option.some.inj value
    omega

theorem allDigits_of_extend? : ∀ {cs : List Char} {n value : Nat},
    extend? 10 n cs = some value → AllDigits cs
  | [], _, _, _ => List.forall_mem_nil _
  | c :: cs, n, value, h => by
    obtain ⟨d, digit, rest⟩ := Option.bind_eq_some_iff.mp h
    exact List.forall_mem_cons.mpr ⟨isDigit_of_digit? digit, allDigits_of_extend? rest⟩

/-- What is read as a number is digits. -/
theorem natOfDigits?_eq_some_iff {cs : List Char} {n : Nat} :
    natOfDigits? 10 cs = some n ↔ cs ≠ [] ∧ AllDigits cs ∧ Nat.ofDigitChars 10 cs 0 = n := by
  constructor
  · intro h
    have nonempty : cs ≠ [] := by
      rintro rfl
      cases h
    have digits : AllDigits cs := by
      cases cs with
      | nil => exact absurd rfl nonempty
      | cons c cs => exact allDigits_of_extend? h
    refine ⟨nonempty, digits, ?_⟩
    rw [natOfDigits?_digits nonempty digits] at h
    exact Option.some.inj h
  · rintro ⟨nonempty, digits, rfl⟩
    exact natOfDigits?_digits nonempty digits

/-- A number is read back from its digits. -/
theorem natOfDigits?_toDigits (n : Nat) : natOfDigits? 10 (Nat.toDigits 10 n) = some n := by
  rw [natOfDigits?_digits Nat.toDigits_ne_nil (allDigits_toDigits n), Nat.ofDigitChars_ten_toDigits]

/-! ## Signs and marks -/

theorem ne_of_isDigit {c d : Char} (hc : c.isDigit = true) (hd : d.isDigit = false) : c ≠ d := by
  rintro rfl
  rw [hc] at hd
  cases hd

/-- A text that begins with a digit has no sign. -/
theorem splitSign_of_isDigit {c : Char} {cs : List Char} (h : c.isDigit = true) :
    splitSign (c :: cs) = (false, c :: cs) := by
  have minus : c ≠ '-' := ne_of_isDigit h rfl
  have plus : c ≠ '+' := ne_of_isDigit h rfl
  unfold splitSign
  split
  · rename_i e
    exact absurd (List.cons.inj e).1 minus
  · rename_i e
    exact absurd (List.cons.inj e).1 plus
  · rfl

/-- Digits have no mark of a radix. -/
theorem splitRadix_digits {cs : List Char} (h : AllDigits cs) : splitRadix cs = (10, cs) := by
  have second {d : Char} {rest : List Char} (e : cs = '0' :: d :: rest) : d.isDigit = true := by
    refine h d ?_
    rw [e]
    simp
  unfold splitRadix
  split
  · exact absurd (second rfl) (by decide)
  · exact absurd (second rfl) (by decide)
  · exact absurd (second rfl) (by decide)
  · exact absurd (second rfl) (by decide)
  · exact absurd (second rfl) (by decide)
  · exact absurd (second rfl) (by decide)
  · rfl

/-! ## Integers -/

/-- An integer of 64 bits is narrow. -/
theorem narrow?_toInt (n : Int64) : narrow? n.toInt = some n := by
  unfold narrow?
  rw [if_pos ⟨n.minValue_le_toInt, n.toInt_le⟩, Int64.ofInt_toInt]

/-- The sign of an integer and its digits. -/
theorem splitSign_ofInt (n : Int) :
    splitSign (ofInt n) = (decide (n < 0), Nat.toDigits 10 n.natAbs) := by
  unfold ofInt
  split
  · rename_i h
    rw [splitSign, decide_eq_true h]
  · rename_i h
    rw [decide_eq_false h]
    have digits := allDigits_toDigits n.natAbs
    cases hd : Nat.toDigits 10 n.natAbs with
    | nil => exact absurd hd Nat.toDigits_ne_nil
    | cons c cs =>
      rw [hd] at digits
      exact splitSign_of_isDigit (digits c List.mem_cons_self)

theorem signed_natAbs (n : Int) : signed (decide (n < 0)) n.natAbs = n := by
  unfold signed
  by_cases negative : n < 0
  · rw [decide_eq_true negative, if_pos rfl]
    omega
  · rw [decide_eq_false negative, if_neg Bool.false_ne_true]
    omega

/-- Whether digits are read as an unsigned word first makes no difference : what is no such word is
out of the range with either sign. -/
theorem word?_bind_narrow? (radix : Nat) (digits : List Char) (negative : Bool) :
    (word? radix digits).bind (fun n => narrow? (signed negative n)) =
      (natOfDigits? radix digits).bind fun n => narrow? (signed negative n) := by
  unfold word?
  cases natOfDigits? radix digits with
  | none => rfl
  | some n =>
    rw [Option.filter_some]
    split_ifs with small
    · rfl
    · have outside : narrow? (signed negative n) = none := by
        have size : UInt64.size = 2 ^ 64 := rfl
        have least : Int64.minValue.toInt = -2 ^ 63 := rfl
        have greatest : Int64.maxValue.toInt = 2 ^ 63 - 1 := rfl
        rw [decide_eq_true_iff, size] at small
        unfold narrow? signed
        rw [least, greatest, if_neg]
        cases negative <;> simp <;> omega
      exact outside.symm

/-- An integer is read back from its text. -/
theorem ofLiteral?_ofInt (n : Int64) : ofLiteral? (ofInt n.toInt) = some n := by
  unfold ofLiteral?
  simp only [splitSign_ofInt, splitRadix_digits (allDigits_toDigits _), word?_bind_narrow?,
    natOfDigits?_toDigits, Option.bind_some, signed_natAbs, narrow?_toInt]

/-- Digits need no groups. -/
theorem ungrouped?_digits {cs : List Char} (hne : cs ≠ []) (h : AllDigits cs) :
    ungrouped? cs = some cs := by
  have plain : '_' ∉ cs := fun mem => absurd (h _ mem) Bool.false_ne_true
  have kept : cs.filter (· != '_') = cs := by
    refine List.filter_eq_self.mpr fun c hc => bne_iff_ne.mpr ?_
    rintro rfl
    exact plain hc
  have every : (cs.all fun c => c.isDigit || c == '_') = true :=
    List.all_eq_true.mpr fun c hc => Bool.or_eq_true_iff.mpr (.inl (h c hc))
  rw [ungrouped?, if_neg, kept]
  rintro (none | head | last | double | other)
  · exact hne none
  · exact plain (List.mem_of_head? head)
  · exact plain (List.mem_of_getLast? last)
  · exact plain ((Text.occurs_iff.mp double).subset List.mem_cons_self)
  · rw [every] at other
    cases other

/-- An integer is read back from a line with its text. -/
theorem ofLine?_ofInt (n : Int64) : ofLine? (ofInt n.toInt) = some n := by
  unfold ofLine?
  simp only [splitSign_ofInt, ungrouped?_digits Nat.toDigits_ne_nil (allDigits_toDigits _),
    Option.bind_some, word?_bind_narrow?, natOfDigits?_toDigits, signed_natAbs, narrow?_toInt]

end Ippcode.Numeral
