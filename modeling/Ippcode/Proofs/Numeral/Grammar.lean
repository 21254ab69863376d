import Ippcode.Proofs.Numeral.Characters
import Ippcode.Proofs.Result

/-!
# How numbers are written

A number is written with digits, which may have a point among them and an exponent behind them
(`Script.Writes`). A script says with which radix, and what an exponent looks like : there is a
decimal one and a hexadecimal one.

`Numeral.scan?` reads exactly what the decimal script writes, as the number that is written
(`scan?_iff_writes`).
-/

namespace Ippcode.Numeral

open Ippcode.Text

/-! ## Digits -/

/-- The character is a digit of the radix, where the case of letters does not matter. -/
structure IsDigit (radix : Nat) (c : Char) (d : Nat) : Prop where
  lt : d < radix
  char : c.toLower = Nat.digitChar d

/-- The characters are digits of the radix, which write the number. -/
def Digits (radix : Nat) (cs : List Char) (n : Nat) : Prop :=
  ∃ ds, List.Forall₂ (IsDigit radix) cs ds ∧ n = Nat.ofDigits radix ds.reverse

theorem digits_lt {radix : Nat} : ∀ {cs : List Char} {ds : List Nat},
    List.Forall₂ (IsDigit radix) cs ds → ∀ d ∈ ds, d < radix
  | _, _, .nil => nofun
  | _, _, .cons digit digits => List.forall_mem_cons.mpr ⟨digit.lt, digits_lt digits⟩

theorem digit?_eq_some_iff {radix : Nat} (h : radix ≤ 16) {c : Char} {d : Nat} :
    digit? radix c = some d ↔ IsDigit radix c d := by
  have same (ascii : c.toNat < 128) :
      ∀ d < 16, digitValue c = some d ↔ c.toLower = Nat.digitChar d :=
    of_ascii (P := fun c => ∀ d < 16, digitValue c = some d ↔ c.toLower = Nat.digitChar d)
      (by decide +kernel) ascii
  constructor
  · intro read
    have ascii := toNat_lt_of_isAlphanum (isAlphanum_of_digit? read)
    obtain ⟨value, small⟩ := Option.filter_eq_some_iff.mp read
    have small : d < radix := of_decide_eq_true small
    exact ⟨small, (same ascii d (by omega)).mp value⟩
  · rintro ⟨small, char⟩
    have letter : ∀ d < 16, (Nat.digitChar d).isAlphanum = true := by decide
    have ascii := toNat_lt_of_isAlphanum
      (isAlphanum_of_isAlphanum_toLower (char ▸ letter d (by omega)))
    exact Option.filter_eq_some_iff.mpr
      ⟨(same ascii d (by omega)).mpr char, decide_eq_true small⟩

/-- The number that further digits make of a number. -/
theorem foldl_digits (radix : Nat) : ∀ (ds : List Nat) (n : Nat),
    ds.foldl (fun n d => n * radix + d) n
      = n * radix ^ ds.length + Nat.ofDigits radix ds.reverse
  | [], n => by simp
  | d :: ds, n => by
    rw [List.foldl_cons, foldl_digits radix ds, List.length_cons, List.reverse_cons,
      Nat.ofDigits_append, Nat.ofDigits_singleton, List.length_reverse]
    ring

theorem extend?_eq_some_iff {radix : Nat} (h : radix ≤ 16) : ∀ {cs : List Char} {n k : Nat},
    extend? radix n cs = some k ↔ ∃ ds, List.Forall₂ (IsDigit radix) cs ds ∧
      k = ds.foldl (fun n d => n * radix + d) n
  | [], n, k => by
    simp only [extend?, List.forall₂_nil_left_iff, exists_eq_left, List.foldl_nil,
      Option.some.injEq, eq_comm]
  | c :: cs, n, k => by
    simp only [extend?, Option.bind_eq_some_iff, digit?_eq_some_iff h, extend?_eq_some_iff h,
      List.forall₂_cons_left_iff]
    constructor
    · rintro ⟨d, digit, ds, digits, rfl⟩
      exact ⟨d :: ds, ⟨d, ds, digit, digits, rfl⟩, rfl⟩
    · rintro ⟨_, ⟨d, ds, digit, digits, rfl⟩, rfl⟩
      exact ⟨d, digit, ds, digits, rfl⟩

/-- Exactly the digits of a radix are read, as the number that they write. -/
theorem natOfDigits?_iff_digits {radix : Nat} (h : radix ≤ 16) {cs : List Char} {n : Nat} :
    natOfDigits? radix cs = some n ↔ cs ≠ [] ∧ Digits radix cs n := by
  cases cs with
  | nil => simp [natOfDigits?]
  | cons c cs =>
    simp only [natOfDigits?, extend?_eq_some_iff h, foldl_digits, Nat.zero_mul, Nat.zero_add, ne_eq,
      reduceCtorEq, not_false_eq_true, true_and, Digits]

/-! ## Integers -/

/-- A sign or none, and whether it is a minus sign. -/
inductive IsSign : List Char → Bool → Prop
  | absent : IsSign [] false
  | plus : IsSign ['+'] false
  | minus : IsSign ['-'] true

/-- One or more decimal digits behind an optional sign. -/
inductive IsInteger : List Char → Int → Prop
  | mk {sign digits : List Char} {negative : Bool} {n : Nat} (signed : IsSign sign negative)
      (nonempty : digits ≠ []) (written : Digits 10 digits n) :
      IsInteger (sign ++ digits) (if negative then -n else n)

/-- A sign is found again if no other follows. -/
theorem splitSign_append {sign body : List Char} {negative : Bool} (signed : IsSign sign negative)
    (unsigned : splitSign body = (false, body)) : splitSign (sign ++ body) = (negative, body) := by
  cases signed with
  | absent => exact unsigned
  | plus => rfl
  | minus => rfl

/-- A sign in front of a number is read with it. -/
theorem float?_append {sign body : List Char} {negative : Bool} (signed : IsSign sign negative)
    (unsigned : splitSign body = (false, body)) :
    float? (sign ++ body) = (magnitude? body).map (Binary64.ofMagnitude negative) := by
  unfold float?
  rw [splitSign_append signed unsigned]

theorem exists_sign (cs : List Char) :
    ∃ sign, IsSign sign (splitSign cs).1 ∧ cs = sign ++ (splitSign cs).2 := by
  unfold splitSign
  split
  · exact ⟨['-'], .minus, rfl⟩
  · exact ⟨['+'], .plus, rfl⟩
  · exact ⟨[], .absent, rfl⟩

theorem integer?_eq (cs : List Char) : integer? cs
    = (natOfDigits? 10 (splitSign cs).2).map (Numeral.signed (splitSign cs).1) := rfl

theorem integer?_eq_some_iff {cs : List Char} {n : Int} :
    integer? cs = some n ↔ IsInteger cs n := by
  rw [integer?_eq]
  constructor
  · intro h
    obtain ⟨k, digits, rfl⟩ := Option.map_eq_some_iff.mp h
    obtain ⟨sign, signed, whole⟩ := exists_sign cs
    obtain ⟨nonempty, written⟩ := (natOfDigits?_iff_digits (by omega)).mp digits
    have read := IsInteger.mk signed nonempty written
    rwa [← whole] at read
  · rintro ⟨signed, nonempty, written⟩
    rename_i sign digits negative k
    have read := (natOfDigits?_iff_digits (by omega)).mpr ⟨nonempty, written⟩
    have unsigned : splitSign digits = (false, digits) := by
      obtain ⟨-, allDigits, -⟩ := natOfDigits?_eq_some_iff.mp read
      cases digits with
      | nil => exact absurd rfl nonempty
      | cons c cs => exact splitSign_of_isDigit (allDigits c List.mem_cons_self)
    rw [splitSign_append signed unsigned, read]
    rfl

/-! ## Digits with a point -/

/-- How numbers are written with a point and an exponent. -/
structure Script where
  radix : Nat
  /-- What the exponent is an exponent of. -/
  base : Nat
  /-- What an exponent begins with. -/
  marks : List Char
  /-- Which exponents may be written. -/
  admits : Int → Prop

namespace Script

/-- Decimal digits, and an exponent of ten. -/
def decimal : Script where
  radix := 10
  base := 10
  marks := ['e', 'E']
  admits _ := True

/-- Hexadecimal digits, and an exponent of two. -/
def hexadecimal : Script where
  radix := 16
  base := 2
  marks := ['p', 'P']
  admits e := -2 ^ 63 ≤ e ∧ e < 2 ^ 63

/-- A point and the digits after it, or nothing. -/
inductive IsFraction : List Char → List Char → Prop
  | absent : IsFraction [] []
  | point (digits : List Char) : IsFraction ('.' :: digits) digits

/-- The mark of an exponent and an integer, or nothing. -/
inductive IsExponent (s : Script) : List Char → Int → Prop
  | absent : s.IsExponent [] 0
  | mark {c : Char} {cs : List Char} {e : Int} (marked : c ∈ s.marks) (written : IsInteger cs e)
      (admitted : s.admits e) : s.IsExponent (c :: cs) e

/-- A text writes a number : some digits, with or without a point at their ends or between them,
and with or without an exponent. -/
inductive Writes (s : Script) : List Char → ℚ → Prop
  | mk {whole point fraction exponent : List Char} {n : Nat} {e : Int}
      (pointed : IsFraction point fraction) (nonempty : whole ++ fraction ≠ [])
      (written : Digits s.radix (whole ++ fraction) n) (scaled : s.IsExponent exponent e) :
      s.Writes (whole ++ (point ++ exponent)) (n / s.radix ^ fraction.length * s.base ^ e)

end Script

/-! ## Reading decimals -/

namespace Script

theorem IsFraction.eq_fractionPart {point fraction rest : List Char}
    (pointed : IsFraction point fraction) (digits : AllDigits fraction)
    (stop : rest.takeWhile Char.isDigit = []) (plain : fractionPart rest = ([], rest)) :
    fractionPart (point ++ rest) = (fraction, rest) := by
  cases pointed with
  | absent => exact plain
  | point => rw [List.cons_append, fractionPart, takeWhile_digits digits stop,
      dropWhile_digits digits stop]

/-- What follows the digits is recognized by its first character. -/
theorem IsExponent.stop {rest : List Char} {e : Int} (scaled : decimal.IsExponent rest e) :
    exponentPart? rest = some e ∧ rest.takeWhile Char.isDigit = [] ∧
      fractionPart rest = ([], rest) := by
  cases scaled with
  | absent => exact ⟨rfl, rfl, rfl⟩
  | mark marked written =>
    have read := integer?_eq_some_iff.mpr written
    rcases List.mem_pair.mp marked with rfl | rfl
    · exact ⟨read, rfl, rfl⟩
    · exact ⟨read, rfl, rfl⟩

end Script

theorem exponentPart?_eq_some_iff {cs : List Char} {e : Int} :
    exponentPart? cs = some e ↔ Script.decimal.IsExponent cs e := by
  refine ⟨fun h => ?_, fun h => h.stop.1⟩
  unfold exponentPart? at h
  split at h
  · obtain rfl := Option.some.inj h
    exact .absent
  · exact .mark (by decide) (integer?_eq_some_iff.mp h) trivial
  · exact .mark (by decide) (integer?_eq_some_iff.mp h) trivial
  · cases h

theorem exists_fraction (cs : List Char) : ∃ point, Script.IsFraction point (fractionPart cs).1 ∧
    cs = point ++ (fractionPart cs).2 := by
  unfold fractionPart
  split
  · rename_i rest
    exact ⟨_, .point _, by rw [List.cons_append, List.takeWhile_append_dropWhile]⟩
  · exact ⟨[], .absent, rfl⟩

theorem scan?_eq (cs : List Char) : scan? cs =
    let following := fractionPart (cs.dropWhile Char.isDigit)
    (natOfDigits? 10 (cs.takeWhile Char.isDigit ++ following.1)).bind fun coefficient =>
      (exponentPart? following.2).map fun e => ⟨coefficient, e - following.1.length⟩ := rfl

/-- Exactly the texts in decimal are scanned, as the numbers that they write. -/
theorem scan?_iff_writes {cs : List Char} {x : ℚ} :
    (∃ d, scan? cs = some d ∧ d.toRat = x) ↔ Script.decimal.Writes cs x := by
  have value (n k : Nat) (e : Int) : Decimal.toRat ⟨n, e - k⟩ = n / 10 ^ k * 10 ^ e := by
    unfold Decimal.toRat
    simp only
    rw [zpow_sub₀ (by norm_num), zpow_natCast]
    ring
  constructor
  · rintro ⟨d, scanned, rfl⟩
    rw [scan?_eq] at scanned
    obtain ⟨n, digits, scanned⟩ := Option.bind_eq_some_iff.mp scanned
    obtain ⟨e, exponent, rfl⟩ := Option.map_eq_some_iff.mp scanned
    obtain ⟨point, pointed, behind⟩ := exists_fraction (cs.dropWhile Char.isDigit)
    obtain ⟨nonempty, written⟩ := (natOfDigits?_iff_digits (by omega)).mp digits
    have written :=
      Script.Writes.mk pointed nonempty written (exponentPart?_eq_some_iff.mp exponent)
    rw [← behind, List.takeWhile_append_dropWhile] at written
    rw [value]
    exact written
  · rintro ⟨pointed, nonempty, written, scaled⟩
    rename_i whole point fraction exponent n e
    have read : natOfDigits? 10 (whole ++ fraction) = some n :=
      (natOfDigits?_iff_digits (by decide)).mpr ⟨nonempty, written⟩
    obtain ⟨-, digits, -⟩ := natOfDigits?_eq_some_iff.mp read
    obtain ⟨digitsWhole, digitsFraction⟩ := List.forall_mem_append.mp digits
    obtain ⟨exponentRead, stop, plain⟩ := scaled.stop
    have stopWhole : (point ++ exponent).takeWhile Char.isDigit = [] := by
      cases pointed with
      | absent => exact stop
      | point => rfl
    refine ⟨⟨n, e - fraction.length⟩, ?_, value _ _ _⟩
    simp only [scan?_eq, takeWhile_digits digitsWhole stopWhole,
      dropWhile_digits digitsWhole stopWhole, pointed.eq_fractionPart digitsFraction stop plain,
      read, exponentRead, Option.bind_some, Option.map_some]

end Ippcode.Numeral
