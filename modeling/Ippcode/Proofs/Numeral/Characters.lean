import Ippcode.Proofs.Numeral.DecimalText
import Ippcode.Proofs.Text.Token

/-!
# The characters of numerals

Integers and doubles are written with letters, digits, signs and points only (`IsNumeral`), and
nothing else is read as one, in whichever notation. So every numeral is clean : it can be part of a
token.
-/

namespace Ippcode.Numeral

open Ippcode.Text

/-- A character that a numeral may have. -/
def isNumeralChar (c : Char) : Bool := c.isAlphanum || ['+', '-', '.'].contains c

/-- A text of characters that numerals may have. -/
def IsNumeral (cs : List Char) : Prop := ∀ c ∈ cs, isNumeralChar c = true

instance (cs : List Char) : Decidable (IsNumeral cs) := List.decidableBAll _ cs

/-- No character of a numeral separates tokens or begins a comment. -/
theorem clean_of_isNumeralChar {c : Char} (h : isNumeralChar c = true) :
    isBlank c = false ∧ c ≠ '#' := by
  have ascii : c.toNat < 128 := by
    rw [isNumeralChar, Bool.or_eq_true] at h
    rcases h with h | h
    · exact toNat_lt_of_isAlphanum h
    · simp only [List.contains_eq_mem, List.mem_cons, List.not_mem_nil, or_false,
        decide_eq_true_eq] at h
      rcases h with rfl | rfl | rfl <;> decide
  revert h
  exact of_ascii (P := fun c => isNumeralChar c = true → isBlank c = false ∧ c ≠ '#')
    (by decide) ascii

/-- A numeral is part of one token. -/
theorem IsNumeral.isClean {cs : List Char} (h : IsNumeral cs) : IsClean cs := fun c hc =>
  clean_of_isNumeralChar (h c hc)

/-- Letters and digits may be in a numeral : there are exponents, radices and names. -/
theorem isNumeralChar_of_isAlphanum {c : Char} (h : c.isAlphanum = true) :
    isNumeralChar c = true := by
  rw [isNumeralChar, h, Bool.true_or]

theorem isAlphanum_of_isDigit {c : Char} (h : c.isDigit = true) : c.isAlphanum = true := by
  rw [Char.isAlphanum, h, Bool.or_true]

/-- Digits alone are a numeral. -/
theorem AllDigits.isNumeral {ds : List Char} (h : AllDigits ds) : IsNumeral ds := fun c hc =>
  isNumeralChar_of_isAlphanum (isAlphanum_of_isDigit (h c hc))

/-! ## Writing -/

/-- An integer is written with digits and perhaps a sign. -/
theorem isNumeral_ofInt (n : Int) : IsNumeral (ofInt n) := by
  have digits := (allDigits_toDigits n.natAbs).isNumeral
  unfold ofInt
  split
  · exact List.forall_mem_cons.mpr ⟨rfl, digits⟩
  · exact digits

/-- A double is written with digits, signs, a point and an exponent, or has a name. -/
theorem isNumeral_floatText (x : Float) : IsNumeral (floatText .source x).toList := by
  have body (b : Nat) : IsNumeral (magnitudeText .source b) := by
    intro c hc
    have := (isFloatText_magnitudeText b).chars c hc
    rw [isFloatChar, Bool.or_eq_true] at this
    rcases this with h | h
    · exact isNumeralChar_of_isAlphanum (isAlphanum_of_isDigit h)
    · simp only [List.contains_eq_mem, List.mem_cons, List.not_mem_nil, or_false,
        decide_eq_true_eq] at h
      rcases h with rfl | rfl | rfl | rfl <;> rfl
  have name : IsNumeral "inf".toList := by decide
  unfold floatText
  simp only
  split
  · decide
  · rw [String.toList_ofList]
    split
    · refine List.forall_mem_cons.mpr ⟨rfl, ?_⟩
      split
      · exact body _
      · exact name
    · split
      · exact body _
      · exact name

/-! ## Reading -/

/-- Digits of any radix are letters or decimal digits. -/
theorem isAlphanum_of_digit? {radix : Nat} {c : Char} {d : Nat} (h : digit? radix c = some d) :
    c.isAlphanum = true := by
  obtain ⟨h, -⟩ := Option.filter_eq_some_iff.mp h
  unfold digitValue at h
  rw [Char.isAlphanum, Char.isAlpha]
  split at h
  · rename_i hc
    rw [hc, Bool.or_true]
  · split at h
    · rename_i hc
      rw [hc, Bool.or_true, Bool.true_or]
    · split at h
      · rename_i hc
        rw [hc, Bool.true_or, Bool.true_or]
      · cases h

theorem isNumeral_of_extend? {radix : Nat} : ∀ {n k : Nat} {cs : List Char},
    extend? radix n cs = some k → IsNumeral cs
  | _, _, [], _ => nofun
  | n, k, c :: cs, h => by
    obtain ⟨d, hd, h⟩ := Option.bind_eq_some_iff.mp h
    exact List.forall_mem_cons.mpr
      ⟨isNumeralChar_of_isAlphanum (isAlphanum_of_digit? hd), isNumeral_of_extend? h⟩

/-- A number that is read has digits only. -/
theorem isNumeral_of_natOfDigits? {radix n : Nat} {cs : List Char}
    (h : natOfDigits? radix cs = some n) : IsNumeral cs := by
  cases cs with
  | nil => nofun
  | cons c cs => exact isNumeral_of_extend? h

/-- A sign in front does not matter. -/
theorem isNumeral_of_splitSign {cs : List Char} (h : IsNumeral (splitSign cs).2) :
    IsNumeral cs := by
  unfold splitSign at h
  split at h
  · exact List.forall_mem_cons.mpr ⟨rfl, h⟩
  · exact List.forall_mem_cons.mpr ⟨rfl, h⟩
  · exact h

/-- The mark of a radix does not matter. -/
theorem isNumeral_of_splitRadix {cs : List Char} (h : IsNumeral (splitRadix cs).2) :
    IsNumeral cs := by
  unfold splitRadix at h
  split at h
  case h_7 => exact h
  all_goals exact List.forall_mem_cons.mpr ⟨rfl, List.forall_mem_cons.mpr ⟨rfl, h⟩⟩

/-- An integer that is accepted in a program is a numeral. -/
theorem isNumeral_of_ofLiteral? {cs : List Char} {n : Int64} (h : ofLiteral? cs = some n) :
    IsNumeral cs := by
  obtain ⟨k, hk, -⟩ := Option.bind_eq_some_iff.mp h
  have hk := (Option.filter_eq_some_iff.mp hk).1
  exact isNumeral_of_splitSign (isNumeral_of_splitRadix (isNumeral_of_natOfDigits? hk))

/-- The number of an exponent is a numeral. -/
theorem isNumeral_of_integer? {cs : List Char} {n : Int} (h : integer? cs = some n) :
    IsNumeral cs := by
  obtain ⟨k, hk, -⟩ := Option.map_eq_some_iff.mp h
  exact isNumeral_of_splitSign (isNumeral_of_natOfDigits? hk)

/-! ### Decimal notation -/

/-- An exponent is a letter and an integer. -/
theorem isNumeral_of_exponentPart? {cs : List Char} {e : Int} (h : exponentPart? cs = some e) :
    IsNumeral cs := by
  unfold exponentPart? at h
  split at h
  · nofun
  · exact List.forall_mem_cons.mpr ⟨rfl, isNumeral_of_integer? h⟩
  · exact List.forall_mem_cons.mpr ⟨rfl, isNumeral_of_integer? h⟩
  · cases h

theorem isNumeral_takeWhile (cs : List Char) : IsNumeral (cs.takeWhile Char.isDigit) := fun _ hc =>
  isNumeralChar_of_isAlphanum (isAlphanum_of_isDigit (List.mem_takeWhile_imp hc))

/-- Digits in front do not matter. -/
theorem isNumeral_of_dropWhile {cs : List Char} (h : IsNumeral (cs.dropWhile Char.isDigit)) :
    IsNumeral cs := by
  have := List.forall_mem_append.mpr ⟨isNumeral_takeWhile cs, h⟩
  rwa [List.takeWhile_append_dropWhile] at this

/-- A point and digits behind it do not matter. -/
theorem isNumeral_of_fractionPart {cs : List Char} (h : IsNumeral (fractionPart cs).2) :
    IsNumeral cs := by
  unfold fractionPart at h
  split at h
  · exact List.forall_mem_cons.mpr ⟨rfl, isNumeral_of_dropWhile h⟩
  · exact h

/-- A decimal is a numeral from its first digit to its exponent. -/
theorem isNumeral_of_scan? {cs : List Char} {d : Decimal} (h : scan? cs = some d) :
    IsNumeral cs := by
  obtain ⟨coefficient, -, h⟩ := Option.bind_eq_some_iff.mp h
  obtain ⟨e, he, -⟩ := Option.map_eq_some_iff.mp h
  exact isNumeral_of_dropWhile (isNumeral_of_fractionPart (isNumeral_of_exponentPart? he))

/-- A double in decimal notation may have a name instead, in letters of any case. -/
theorem isNumeral_of_ofDecimal? {cs : List Char} {b : Nat} (h : ofDecimal? cs = some b) :
    IsNumeral cs := by
  have name {bs : List Char} (hbs : (bs.all fun b => b.toLower.isAlphanum) = true)
      (same : sameIgnoringCase cs bs = true) : IsNumeral cs := fun c hc =>
    isNumeralChar_of_isAlphanum (isAlphanum_of_sameIgnoringCase same hbs c hc)
  unfold ofDecimal? at h
  split at h
  · rename_i infinity
    obtain ⟨n, hn, same⟩ := List.any_eq_true.mp infinity
    have names : ∀ n ∈ infinityNames, (n.toList.all fun b => b.toLower.isAlphanum) = true := by
      decide
    exact name (names n hn) same
  · split at h
    · rename_i nan
      exact name (by decide) nan
    · obtain ⟨d, hd, -⟩ := Option.map_eq_some_iff.mp h
      exact isNumeral_of_scan? hd

/-! ### Hexadecimal notation -/

theorem isNumeral_of_mapM : ∀ {cs : List Char} {ds : List Nat},
    cs.mapM (digit? 16) = some ds → IsNumeral cs
  | [], _, _ => nofun
  | c :: cs, ds, h => by
    rw [List.mapM_cons] at h
    obtain ⟨d, hd, h⟩ := Option.bind_eq_some_iff.mp h
    obtain ⟨ds, hds, -⟩ := Option.bind_eq_some_iff.mp h
    exact List.forall_mem_cons.mpr
      ⟨isNumeralChar_of_isAlphanum (isAlphanum_of_digit? hd), isNumeral_of_mapM hds⟩

/-- A text is cut at a point only. -/
theorem isNumeral_of_splitPoint {cs : List Char} (whole : IsNumeral (Hex.splitPoint cs).1)
    (fraction : IsNumeral (Hex.splitPoint cs).2) : IsNumeral cs := by
  unfold Hex.splitPoint at whole fraction
  split at whole
  · rename_i h
    obtain ⟨rfl, hpoint, -⟩ := splitFirst?_eq_some_iff.mp h
    simp only [h] at fraction
    obtain rfl := beq_iff_eq.mp hpoint
    exact List.forall_mem_append.mpr ⟨whole, List.forall_mem_cons.mpr ⟨rfl, fraction⟩⟩
  · exact whole

/-- The exponent of the other notation begins with a letter too. -/
theorem isNumeral_of_splitExponent? {cs ds : List Char} {e : Int}
    (h : Hex.splitExponent? cs = some (ds, e)) (hds : IsNumeral ds) : IsNumeral cs := by
  unfold Hex.splitExponent? at h
  split at h
  · rename_i digits mark rest split
    obtain ⟨rfl, hmark, -⟩ := splitFirst?_eq_some_iff.mp split
    obtain ⟨e', he, pair⟩ := Option.map_eq_some_iff.mp h
    obtain ⟨he, -⟩ := Option.filter_eq_some_iff.mp he
    obtain ⟨rfl, rfl⟩ := Prod.mk.inj pair
    have numeralMark : isNumeralChar mark = true := by
      rcases Bool.or_eq_true _ _ ▸ hmark with h | h <;> obtain rfl := beq_iff_eq.mp h <;> rfl
    exact List.forall_mem_append.mpr
      ⟨hds, List.forall_mem_cons.mpr ⟨numeralMark, isNumeral_of_integer? he⟩⟩
  · obtain ⟨rfl, -⟩ := Prod.mk.inj (Option.some.inj h)
    exact hds

/-- What is read in hexadecimal notation is a numeral. -/
theorem isNumeral_of_read? {cs : List Char} {r : Hex.Reading} (h : Hex.read? cs = some r) :
    IsNumeral cs := by
  obtain ⟨⟨digits, e⟩, split, h⟩ := Option.bind_eq_some_iff.mp h
  refine isNumeral_of_splitExponent? split ?_
  simp only at h
  split at h
  · cases h
  · obtain ⟨whole, hwhole, h⟩ := Option.bind_eq_some_iff.mp h
    obtain ⟨fraction, hfraction, -⟩ := Option.map_eq_some_iff.mp h
    exact isNumeral_of_splitPoint (isNumeral_of_mapM hwhole) (isNumeral_of_mapM hfraction)

/-! ### Either notation -/

theorem isNumeral_of_magnitude? {cs : List Char} {b : Nat} (h : magnitude? cs = some b) :
    IsNumeral cs := by
  unfold magnitude? at h
  split at h
  · obtain ⟨r, hr, -⟩ := Option.bind_eq_some_iff.mp h
    exact List.forall_mem_cons.mpr
      ⟨rfl, List.forall_mem_cons.mpr ⟨rfl, isNumeral_of_read? hr⟩⟩
  · obtain ⟨r, hr, -⟩ := Option.bind_eq_some_iff.mp h
    exact List.forall_mem_cons.mpr
      ⟨rfl, List.forall_mem_cons.mpr ⟨rfl, isNumeral_of_read? hr⟩⟩
  · exact isNumeral_of_ofDecimal? h

/-- Whatever is accepted as a double is a numeral. -/
theorem isNumeral_of_float? {cs : List Char} {x : Float} (h : float? cs = some x) :
    IsNumeral cs := by
  obtain ⟨b, hb, -⟩ := Option.map_eq_some_iff.mp h
  exact isNumeral_of_splitSign (isNumeral_of_magnitude? hb)

end Ippcode.Numeral
