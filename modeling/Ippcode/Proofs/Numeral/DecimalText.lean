import Ippcode.Numeral.FloatText
import Ippcode.Numeral.HexFloat
import Ippcode.Proofs.Numeral.Bits
import Ippcode.Proofs.Numeral.Digits
import Ippcode.Proofs.Numeral.Shortest

/-!
# Doubles are read back

`Numeral.floatText` writes the shortest decimal of a double in one of two notations, with the
point among the digits or with an exponent. Both are scanned as the decimal that they write
(`scan?_positional`, `scan?_scientific`), or as the same number with more digits, and rounding
leads from there to the double itself : `float?_floatText`.

The text of a double consists of few characters (`isFloatChar`), none of which ends a word or
begins a comment.
-/

namespace Ippcode

namespace Numeral

/-! ## Scanning -/

theorem dropWhile_eq_self {p : Char → Bool} {cs : List Char} (h : cs.takeWhile p = []) :
    cs.dropWhile p = cs := by
  have := List.takeWhile_append_dropWhile (p := p) (l := cs)
  rwa [h, List.nil_append] at this

theorem takeWhile_digits {ds rest : List Char} (h : AllDigits ds)
    (stop : rest.takeWhile Char.isDigit = []) : (ds ++ rest).takeWhile Char.isDigit = ds := by
  rw [List.takeWhile_append_of_pos h, stop, List.append_nil]

theorem dropWhile_digits {ds rest : List Char} (h : AllDigits ds)
    (stop : rest.takeWhile Char.isDigit = []) : (ds ++ rest).dropWhile Char.isDigit = rest := by
  rw [List.dropWhile_append_of_pos h, dropWhile_eq_self stop]

/-- Digits with a point among them. -/
theorem scan?_point {whole fraction rest : List Char} (hw : AllDigits whole)
    (hf : AllDigits fraction) (hne : whole ++ fraction ≠ [])
    (stop : rest.takeWhile Char.isDigit = []) {e : Int} (he : exponentPart? rest = some e) :
    scan? (whole ++ '.' :: (fraction ++ rest))
      = some ⟨Nat.ofDigitChars 10 (whole ++ fraction) 0, e - fraction.length⟩ := by
  have point : ('.' :: (fraction ++ rest)).takeWhile Char.isDigit = [] := rfl
  unfold scan?
  simp only [takeWhile_digits hw point, dropWhile_digits hw point, fractionPart,
    takeWhile_digits hf stop, dropWhile_digits hf stop,
    natOfDigits?_digits hne (hw.append hf), Option.bind_some, he, Option.map_some]

/-- Digits without a point, in front of an exponent. -/
theorem scan?_whole {whole rest : List Char} (hw : AllDigits whole) (hne : whole ≠ [])
    {e : Int} (he : exponentPart? ('e' :: rest) = some e) :
    scan? (whole ++ 'e' :: rest) = some ⟨Nat.ofDigitChars 10 whole 0, e⟩ := by
  have mark : ('e' :: rest).takeWhile Char.isDigit = [] := rfl
  have nothing : fractionPart ('e' :: rest) = ([], 'e' :: rest) := rfl
  unfold scan?
  simp only [takeWhile_digits hw mark, dropWhile_digits hw mark, nothing, List.append_nil,
    natOfDigits?_digits hne hw, Option.bind_some, he, Option.map_some, List.length_nil,
    Nat.cast_zero, sub_zero]

/-- The integer after a sign. -/
theorem integer?_sign {ds : List Char} (hne : ds ≠ []) (h : AllDigits ds) (negative : Bool) :
    integer? ((if negative then '-' else '+') :: ds)
      = some (signed negative (Nat.ofDigitChars 10 ds 0)) := by
  unfold integer?
  cases negative <;> simp only [splitSign, natOfDigits?_digits hne h, Option.map_some,
    Bool.false_eq_true, if_true, if_false]

end Numeral

/-! ## The two notations -/

namespace Decimal

open Ippcode.Numeral

variable {d : Decimal}

theorem allDigits_digits (d : Decimal) : AllDigits d.digits := allDigits_toDigits _

theorem digits_ne_nil (d : Decimal) : d.digits ≠ [] := Nat.toDigits_ne_nil

@[simp] theorem ofDigitChars_digits (d : Decimal) :
    Nat.ofDigitChars 10 d.digits 0 = d.coefficient := Nat.ofDigitChars_ten_toDigits

/-- The digits of an exponent, with a zero in front if there is only one. -/
theorem padded_digits (n : Nat) {ds : List Char}
    (h : ds = if (Nat.toDigits 10 n).length < 2 then '0' :: Nat.toDigits 10 n
      else Nat.toDigits 10 n) :
    AllDigits ds ∧ 2 ≤ ds.length ∧ Nat.ofDigitChars 10 ds 0 = n := by
  have digits := allDigits_toDigits n
  subst h
  split
  · refine ⟨?_, Nat.succ_le_succ Nat.length_toDigits_pos, ?_⟩
    · intro c hc
      rcases List.mem_cons.mp hc with rfl | hc
      · rfl
      · exact digits c hc
    · rw [Nat.ofDigitChars_cons]
      exact Nat.ofDigitChars_ten_toDigits
  · rename_i h
    exact ⟨digits, not_lt.mp h, Nat.ofDigitChars_ten_toDigits⟩

theorem exponentPart?_exponentText (e : Int) :
    exponentPart? ('e' :: exponentText e) = some e := by
  unfold exponentPart? exponentText
  simp only
  generalize hds : (if (Nat.toDigits 10 e.natAbs).length < 2 then '0' :: Nat.toDigits 10 e.natAbs
    else Nat.toDigits 10 e.natAbs) = ds
  obtain ⟨digits, two, value⟩ := padded_digits e.natAbs hds.symm
  have read := integer?_sign (List.ne_nil_of_length_pos (by omega)) digits (decide (e < 0))
  rw [value, signed_natAbs] at read
  simpa only [decide_eq_true_eq] using read

/-- A decimal in scientific notation is read as it is. -/
theorem scan?_scientific (d : Decimal) : scan? d.scientific = some d := by
  have exponent := exponentPart?_exponentText (d.point - 1)
  have digits := d.allDigits_digits
  have value := d.ofDigitChars_digits
  have hpoint : d.point = d.digits.length + d.exponent := rfl
  unfold scientific
  simp only
  rcases hd : d.digits with _ | ⟨first, _ | ⟨second, rest⟩⟩
  · exact absurd hd d.digits_ne_nil
  · rw [hd] at digits value hpoint
    have here : d.point - 1 = d.exponent := by
      rw [hpoint, List.length_singleton]
      omega
    refine (scan?_whole digits (List.cons_ne_nil _ _) exponent).trans ?_
    rw [value, here]
  · rw [hd] at digits value hpoint
    have hfirst : AllDigits [first] := by simpa [AllDigits] using digits first
    have hrest : AllDigits (second :: rest) := fun c hc => digits c (List.mem_cons_of_mem _ hc)
    have here : d.point - 1 - (second :: rest).length = d.exponent := by
      rw [hpoint, List.length_cons, List.length_cons]
      omega
    refine (scan?_point hfirst hrest (List.cons_ne_nil _ _) rfl exponent).trans ?_
    rw [List.singleton_append, value, here]

theorem ofDigitChars_zeros_append (count : Nat) (ds : List Char) :
    Nat.ofDigitChars 10 ('0' :: (List.replicate count '0' ++ ds)) 0
      = Nat.ofDigitChars 10 ds 0 := by
  rw [Nat.ofDigitChars_cons, Nat.ofDigitChars_append, Nat.ofDigitChars_replicate_zero]
  rfl

/-- A decimal without exponent is read as the same number. -/
theorem scan?_positional (d : Decimal) :
    ∃ d', scan? (d.positional ".0") = some d' ∧ d'.toRat = d.toRat := by
  have digits := d.allDigits_digits
  have value := d.ofDigitChars_digits
  have hpoint : d.point = d.digits.length + d.exponent := rfl
  have zero : AllDigits ['0'] := by simp [AllDigits]
  have nothing : exponentPart? [] = some 0 := rfl
  unfold positional
  split
  · rename_i h
    have scanned := scan?_point zero ((allDigits_zeros (-d.point).toNat).append digits)
      (List.cons_ne_nil _ _) rfl nothing
    rw [List.append_nil, List.singleton_append, List.singleton_append, ofDigitChars_zeros_append,
      value] at scanned
    refine ⟨_, scanned, ?_⟩
    have : (0 : Int) - (List.replicate (-d.point).toNat '0' ++ d.digits).length = d.exponent := by
      rw [List.length_append, List.length_replicate]
      omega
    rw [this]
  · split
    · rename_i h
      obtain ⟨k, hk⟩ := Int.eq_ofNat_of_zero_le h
      have scanned := scan?_point (digits.append (allDigits_zeros d.exponent.toNat)) zero
        (by simp) rfl nothing
      rw [Nat.ofDigitChars_append, Nat.ofDigitChars_append, value,
        Nat.ofDigitChars_replicate_zero] at scanned
      have last (n : Nat) : Nat.ofDigitChars 10 ['0'] n = 10 * n := by
        rw [Nat.ofDigitChars_cons, Nat.ofDigitChars_nil]
        rfl
      have place : (0 : Int) - ['0'].length = -1 := rfl
      refine ⟨_, scanned, ?_⟩
      unfold toRat
      simp only [hk, Int.toNat_natCast, last, place, zpow_natCast, zpow_neg_one]
      push_cast
      field_simp
    · rename_i h h'
      have scanned := scan?_point (fun c hc => digits c (List.mem_of_mem_take hc))
        (fun c hc => digits c (List.mem_of_mem_drop hc))
        (show d.digits.take d.point.toNat ++ d.digits.drop d.point.toNat ≠ [] by
          rw [List.take_append_drop]
          exact d.digits_ne_nil) rfl nothing
      rw [List.append_nil, List.take_append_drop, value] at scanned
      refine ⟨_, scanned, ?_⟩
      have : (0 : Int) - (d.digits.drop d.point.toNat).length = d.exponent := by
        rw [List.length_drop]
        omega
      rw [this]

end Decimal

/-! ## Texts of magnitudes -/

namespace Numeral

/-- A character of the text of a finite double. -/
def isFloatChar (c : Char) : Bool := c.isDigit || ['.', 'e', '+', '-'].contains c

/-- A text that begins with a digit and goes on with characters of doubles. -/
structure IsFloatText (cs : List Char) : Prop where
  chars : ∀ c ∈ cs, isFloatChar c = true
  first : ∃ c rest, cs = c :: rest ∧ c.isDigit = true

theorem AllDigits.isFloatChar {ds : List Char} (h : AllDigits ds) :
    ∀ c ∈ ds, isFloatChar c = true := by
  intro c hc
  rw [Numeral.isFloatChar, h c hc, Bool.true_or]

theorem AllDigits.isFloatText {ds rest : List Char} (h : AllDigits ds) (hne : ds ≠ [])
    (hrest : ∀ c ∈ rest, Numeral.isFloatChar c = true) : IsFloatText (ds ++ rest) := by
  refine ⟨List.forall_mem_append.mpr ⟨h.isFloatChar, hrest⟩, ?_⟩
  cases ds with
  | nil => exact absurd rfl hne
  | cons first ds => exact ⟨first, ds ++ rest, rfl, h first List.mem_cons_self⟩

/-- Digits on both sides of a point. -/
inductive IsPlain : List Char → Prop
  | mk {whole fraction : List Char} (digits : AllDigits whole) (nonempty : whole ≠ [])
      (digits' : AllDigits fraction) (nonempty' : fraction ≠ []) :
      IsPlain (whole ++ '.' :: fraction)

/-- The mark of an exponent, a sign, and two digits at least. -/
inductive IsSignedExponent : List Char → Prop
  | mk {sign : Char} {ds : List Char} (signed : sign ∈ ['+', '-']) (digits : AllDigits ds)
      (two : 2 ≤ ds.length) : IsSignedExponent ('e' :: sign :: ds)

/-- One digit, further digits after a point if there are any, and an exponent. -/
inductive IsScientific : List Char → Prop
  | single {first : Char} {exponent : List Char} (digit : first.isDigit = true)
      (scaled : IsSignedExponent exponent) : IsScientific (first :: exponent)
  | point {first : Char} {fraction exponent : List Char} (digit : first.isDigit = true)
      (digits : AllDigits fraction) (nonempty : fraction ≠ [])
      (scaled : IsSignedExponent exponent) :
      IsScientific (first :: '.' :: (fraction ++ exponent))

theorem IsPlain.isFloatText {cs : List Char} (h : IsPlain cs) : IsFloatText cs := by
  obtain ⟨digits, nonempty, digits', -⟩ := h
  exact digits.isFloatText nonempty (List.forall_mem_cons.mpr ⟨rfl, digits'.isFloatChar⟩)

theorem IsSignedExponent.isFloatChar {cs : List Char} (h : IsSignedExponent cs) :
    ∀ c ∈ cs, Numeral.isFloatChar c = true := by
  obtain ⟨signed, digits, -⟩ := h
  refine List.forall_mem_cons.mpr ⟨rfl, List.forall_mem_cons.mpr ⟨?_, digits.isFloatChar⟩⟩
  rcases List.mem_pair.mp signed with rfl | rfl <;> rfl

theorem IsScientific.isFloatText {cs : List Char} (h : IsScientific cs) : IsFloatText cs := by
  have one {first : Char} (digit : first.isDigit = true) : AllDigits [first] :=
    List.forall_mem_singleton.mpr digit
  cases h with
  | single digit scaled =>
    exact (one digit).isFloatText (List.cons_ne_nil _ _) scaled.isFloatChar
  | point digit digits _ scaled =>
    refine (one digit).isFloatText (List.cons_ne_nil _ _) (List.forall_mem_cons.mpr ⟨rfl, ?_⟩)
    exact List.forall_mem_append.mpr ⟨digits.isFloatChar, scaled.isFloatChar⟩

end Numeral

namespace Decimal

open Ippcode.Numeral

theorem isPlain_positional (d : Decimal) : IsPlain (d.positional ".0") := by
  have digits := d.allDigits_digits
  have zero : AllDigits ['0'] := List.forall_mem_singleton.mpr rfl
  unfold positional
  split
  · exact .mk zero (List.cons_ne_nil _ _) ((allDigits_zeros _).append digits)
      (List.append_ne_nil_of_right_ne_nil _ d.digits_ne_nil)
  · split
    · exact .mk (digits.append (allDigits_zeros _))
        (List.append_ne_nil_of_left_ne_nil d.digits_ne_nil _) zero (List.cons_ne_nil _ _)
    · have front : d.digits.take d.point.toNat ≠ [] := by
        rw [Ne, List.take_eq_nil_iff, not_or]
        exact ⟨by omega, d.digits_ne_nil⟩
      have back : d.digits.drop d.point.toNat ≠ [] := by
        have : d.point = d.digits.length + d.exponent := rfl
        rw [Ne, List.drop_eq_nil_iff]
        omega
      exact .mk (fun c hc => digits c (List.mem_of_mem_take hc)) front
        (fun c hc => digits c (List.mem_of_mem_drop hc)) back

theorem isSignedExponent_exponentText (e : Int) : IsSignedExponent ('e' :: exponentText e) := by
  unfold exponentText
  obtain ⟨digits, two, -⟩ := padded_digits e.natAbs rfl
  refine .mk ?_ digits two
  split <;> decide

theorem isScientific_scientific (d : Decimal) : IsScientific d.scientific := by
  have digits := d.allDigits_digits
  have exponent := isSignedExponent_exponentText (d.point - 1)
  unfold scientific
  simp only
  rcases hd : d.digits with _ | ⟨first, _ | ⟨second, rest⟩⟩
  · exact absurd hd d.digits_ne_nil
  · rw [hd] at digits
    exact .single (digits first List.mem_cons_self) exponent
  · rw [hd] at digits
    exact .point (digits first List.mem_cons_self)
      (fun c hc => digits c (List.mem_cons_of_mem _ hc)) (List.cons_ne_nil _ _) exponent

end Decimal

namespace Numeral

theorem isFloatText_magnitudeText (b : Nat) : IsFloatText (magnitudeText .source b) := by
  unfold magnitudeText
  split
  · exact ⟨List.all_eq_true.mp (by decide), '0', _, rfl, rfl⟩
  · simp only
    split
    · exact (Decimal.isPlain_positional _).isFloatText
    · exact (Decimal.isScientific_scientific _).isFloatText

theorem toLower_of_isDigit {c : Char} (h : c.isDigit = true) : c.toLower = c := by
  have hc := isDigit_iff.mp h
  unfold Char.toLower
  rw [dif_neg]
  rintro ⟨hA, -⟩
  have hA : 65 ≤ c.toNat := hA
  omega

/-- A decimal begins with a digit or with its point. -/
theorem first_of_scan? {cs : List Char} {d : Decimal} (h : scan? cs = some d) :
    ∃ c rest, cs = c :: rest ∧ (c.isDigit = true ∨ c = '.') := by
  cases cs with
  | nil => cases h
  | cons c rest =>
    refine ⟨c, rest, rfl, ?_⟩
    by_contra other
    obtain ⟨digit, point⟩ := not_or.mp other
    have whole : (c :: rest).takeWhile Char.isDigit = [] := List.takeWhile_cons_of_neg digit
    have fraction : fractionPart (c :: rest) = ([], c :: rest) := by
      unfold fractionPart
      split
      · rename_i e
        exact absurd (List.cons.inj e).1 point
      · rfl
    unfold scan? at h
    simp only [dropWhile_eq_self whole, whole, fraction] at h
    cases h

/-- So it has no sign. -/
theorem splitSign_of_scan? {cs : List Char} {d : Decimal} (h : scan? cs = some d) :
    splitSign cs = (false, cs) := by
  obtain ⟨c, rest, rfl, digit | rfl⟩ := first_of_scan? h
  · exact splitSign_of_isDigit digit
  · rfl

/-- It is no name either. -/
theorem ofDecimal?_of_scan? {cs : List Char} {d : Decimal} (h : scan? cs = some d) :
    ofDecimal? cs = some d.nearest := by
  obtain ⟨c, rest, rfl, first⟩ := first_of_scan? h
  have lower : c.toLower = c := first.elim toLower_of_isDigit fun point => by
    rw [point]
    rfl
  have letter {d : Char} (digit : d.isDigit = false) (point : d ≠ '.') : c.toLower ≠ d := by
    rw [lower]
    exact first.elim (fun h => ne_of_isDigit h digit) fun h => h ▸ point.symm
  have infinity : (infinityNames.any fun name => Text.sameIgnoringCase (c :: rest) name.toList)
      = false := by
    rw [infinityNames, List.any_cons, List.any_cons, List.any_nil, Bool.or_false]
    simp [Text.sameIgnoringCase, letter (d := 'i') rfl (by decide)]
  have nan : Text.sameIgnoringCase (c :: rest) nanName.toList = false := by
    simp [Text.sameIgnoringCase, nanName, letter (d := 'n') rfl (by decide)]
  unfold ofDecimal?
  simp only [infinity, nan, Bool.false_eq_true, if_false, h, Option.map_some]

theorem magnitude?_of_scan? {cs : List Char} {d : Decimal} (h : scan? cs = some d) :
    magnitude? cs = some d.nearest := by
  unfold magnitude?
  split
  · cases h
  · cases h
  · exact ofDecimal?_of_scan? h

/-- The text of a finite magnitude is scanned as a number that is rounded to this magnitude. -/
theorem scan?_magnitudeText {b : Nat} (finite : b < Binary64.infinity) :
    ∃ d, scan? (magnitudeText .source b) = some d ∧ d.nearest = b := by
  unfold magnitudeText
  split
  · rename_i h
    exact ⟨⟨0, -1⟩, rfl, h.symm⟩
  · rename_i h
    have nearest := Decimal.isNearest_shortest (Nat.pos_of_ne_zero h) finite
    simp only
    split
    · obtain ⟨d, scanned, value⟩ := Decimal.scan?_positional (Decimal.shortest b)
      rw [← value] at nearest
      exact ⟨d, scanned, d.isNearest_nearest.unique nearest⟩
    · exact ⟨_, Decimal.scan?_scientific _, (Decimal.isNearest_nearest _).unique nearest⟩

/-- A sign in front of a magnitude is read with it. -/
theorem float?_sign {body : List Char} {b : Nat} (plain : splitSign body = (false, body))
    (read : magnitude? body = some b) (negative : Bool) :
    float? (if negative then '-' :: body else body) = some (Binary64.ofMagnitude negative b) := by
  unfold float?
  cases negative with
  | true => simp only [if_true, splitSign, read, Option.map_some]
  | false => simp only [Bool.false_eq_true, if_false, plain, read, Option.map_some]

/-- A double that is not a NaN is read back from its text. -/
theorem float?_floatText {x : Float} (h : Binary64.isNaN x = false) :
    float? (floatText .source x).toList = some x := by
  have whole := Binary64.ofMagnitude_magnitude x
  unfold floatText
  simp only [h, Bool.false_eq_true, if_false, String.toList_ofList]
  by_cases finite : Binary64.magnitude x < Binary64.infinity
  · obtain ⟨d, scanned, nearest⟩ := scan?_magnitudeText finite
    have read := magnitude?_of_scan? scanned
    rw [nearest] at read
    rw [if_pos finite, float?_sign (splitSign_of_scan? scanned) read, whole]
  · have hinf : Binary64.magnitude x = Binary64.infinity := by
      have : ¬ Binary64.infinity < Binary64.magnitude x := by
        simpa [Binary64.isNaN] using h
      omega
    rw [if_neg finite, float?_sign rfl (b := Binary64.infinity) rfl, ← hinf, whole]

end Numeral

end Ippcode
