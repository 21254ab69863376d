import Ippcode.Proofs.Numeral.Fewest
import Ippcode.Proofs.Numeral.Grammar

/-!
# The text of a double

The text of a double shows its shortest decimal, with a point among the digits from the double
`1e-4` up to the double `1e16` and with an exponent outside (`isForm_magnitudeText`). In either form
every word that is not a NaN is read back bit by bit (`float?_floatText_ofBits`).
-/

namespace Ippcode

namespace Decimal

open Ippcode.Binary64

/-- The magnitude is nearest to the decimal, and to none with fewer digits. -/
structure IsShortest (d : Decimal) (b : Nat) : Prop where
  nearest : IsNearest d.toRat b
  fewest : ∀ d' : Decimal, IsNearest d'.toRat b → d.digits.length ≤ d'.digits.length

variable {b : Nat} {d : Decimal}

theorem isShortest_shortest (hb : 0 < b) (finite : b < infinity) : (shortest b).IsShortest b :=
  ⟨isNearest_shortest hb finite, fun _ h => length_digits_shortest_le hb finite h⟩

/-! ## Where the point stands -/

/-- The point stands behind as many digits as there are powers of ten up to the number. -/
theorem point_le_iff (hc : 0 < d.coefficient) {k : ℤ} : d.point ≤ k ↔ d.toRat < 10 ^ k := by
  have point : d.point = d.exponent + d.digits.length := Int.add_comm _ _
  constructor
  · intro h
    rw [point] at h
    exact lt_ten_zpow_of_digits.trans_le (zpow_le_zpow_right₀ (by norm_num) h)
  · intro h
    by_contra! lt
    have positive := d.length_digits_pos
    have first : (10 ^ (d.exponent + (d.digits.length - 1 : Nat)) : ℚ) ≤ d.toRat :=
      ten_zpow_le_of_digits hc (Nat.sub_lt positive Nat.one_pos)
    have : (10 ^ k : ℚ) ≤ 10 ^ (d.exponent + (d.digits.length - 1 : Nat)) :=
      zpow_le_zpow_right₀ (by norm_num) (by omega)
    linarith

/-- A decimal that is the shortest one of its magnitude parts the magnitudes as it parts their
shortest decimals. -/
theorem toRat_shortest_lt_iff (own : shortest d.nearest = d) (hb : 0 < b) (finite : b < infinity) :
    (shortest b).toRat < d.toRat ↔ b < d.nearest := by
  have here := isNearest_shortest hb finite
  constructor
  · intro h
    by_contra! le
    rcases Nat.eq_or_lt_of_le le with eq | lt
    · rw [← eq, own] at h
      exact lt_irrefl _ h
    · exact lt_asymm h (d.isNearest_nearest.lt here lt)
  · exact here.lt d.isNearest_nearest

/-- Between two powers of ten the point stands among the digits. -/
theorem positional_shortest_iff (hb : 0 < b) (finite : b < infinity) :
    FloatStyle.source.positional (shortest b).point = true ↔
      nearest ⟨1, -4⟩ ≤ b ∧ b < nearest ⟨1, 16⟩ := by
  have hc := coefficient_pos hb (isNearest_shortest hb finite)
  have power (k : ℤ) : (10 ^ k : ℚ) = toRat ⟨1, k⟩ := by
    unfold toRat
    rw [Nat.cast_one, one_mul]
  have least : shortest (nearest ⟨1, -4⟩) = ⟨1, -4⟩ := by decide +kernel
  have great : shortest (nearest ⟨1, 16⟩) = ⟨1, 16⟩ := by decide +kernel
  have unfolded (point : ℤ) : FloatStyle.source.positional point = true ↔
      ¬ point ≤ -4 ∧ point ≤ 16 := by
    simp [FloatStyle.source]
  rw [unfolded, point_le_iff hc, point_le_iff hc, power, power,
    toRat_shortest_lt_iff least hb finite, toRat_shortest_lt_iff great hb finite, not_lt]

/-- A whole number keeps a digit after its point. -/
theorem exists_positional_of_whole (hb : 0 < b) (finite : b < infinity) {n : Nat}
    (whole : (shortest b).toRat = n) :
    ∃ ds, Numeral.AllDigits ds ∧ (shortest b).positional ".0" = ds ++ ".0".toList := by
  have nearest := isNearest_shortest hb finite
  have hc := coefficient_pos hb nearest
  have exponent : 0 ≤ (shortest b).exponent := by
    by_contra! negative
    rw [whole, ← mul_one (n : ℚ), ← zpow_zero (10 : ℚ)] at nearest
    exact not_isNearest_of_coarser hb finite negative nearest
  have point : 0 < (shortest b).point := by
    have positive := (shortest b).length_digits_pos
    show (0 : ℤ) < (shortest b).digits.length + (shortest b).exponent
    omega
  refine ⟨_, (shortest b).allDigits_digits.append
    (Numeral.allDigits_zeros (shortest b).exponent.toNat), ?_⟩
  unfold positional
  rw [if_neg (by omega), if_pos exponent]

end Decimal

namespace Numeral

open Ippcode.Binary64

/-! ## The forms -/

/-- The text of a magnitude : a name for the infinity, digits with a point from the double `1e-4` up
to the double `1e16`, and digits with an exponent for the others. -/
inductive IsForm : Nat → List Char → Prop
  | zero : IsForm 0 "0.0".toList
  | plain {b : Nat} {d : Decimal} {cs : List Char} (low : Decimal.nearest ⟨1, -4⟩ ≤ b)
      (high : b < Decimal.nearest ⟨1, 16⟩) (shortest : d.IsShortest b) (plain : IsPlain cs)
      (written : Script.decimal.Writes cs d.toRat)
      (marked : (∃ n : Nat, d.toRat = n) → ∃ ds, AllDigits ds ∧ cs = ds ++ ".0".toList) :
      IsForm b cs
  | scientific {b : Nat} {d : Decimal} {cs : List Char} (finite : b < infinity)
      (outside : 0 < b ∧ b < Decimal.nearest ⟨1, -4⟩ ∨ Decimal.nearest ⟨1, 16⟩ ≤ b)
      (shortest : d.IsShortest b) (scientific : IsScientific cs)
      (written : Script.decimal.Writes cs d.toRat) : IsForm b cs
  | infinity : IsForm infinity "inf".toList

theorem isForm_magnitudeText {b : Nat} (finite : b < infinity) :
    IsForm b (magnitudeText .source b) := by
  unfold magnitudeText
  split
  · rename_i zero
    rw [zero]
    exact .zero
  · rename_i nonzero
    have hb := Nat.pos_of_ne_zero nonzero
    have shortest := Decimal.isShortest_shortest hb finite
    have style := Decimal.positional_shortest_iff hb finite
    simp only
    split
    · rename_i positional
      obtain ⟨low, high⟩ := style.mp positional
      refine .plain low high shortest (Decimal.isPlain_positional _)
        (scan?_iff_writes.mp (Decimal.scan?_positional _)) ?_
      rintro ⟨n, whole⟩
      exact Decimal.exists_positional_of_whole hb finite whole
    · rename_i scientific
      refine .scientific finite ?_ shortest (Decimal.isScientific_scientific _)
        (scan?_iff_writes.mp ⟨_, Decimal.scan?_scientific _, rfl⟩)
      rw [style] at scientific
      omega

theorem exists_isForm {x : Float} (number : isNaN x = false) :
    ∃ body, IsForm (magnitude x) body ∧ (floatText .source x).toList
      = if isNegative x then '-' :: body else body := by
  unfold floatText
  simp only [number, Bool.false_eq_true, if_false, String.toList_ofList]
  refine ⟨_, ?_, rfl⟩
  split
  · rename_i finite
    exact isForm_magnitudeText finite
  · rename_i great
    have le : ¬ infinity < magnitude x := of_decide_eq_false number
    have : magnitude x = infinity := by omega
    rw [this]
    exact .infinity

/-! ## Words -/

section

variable {w : UInt64}

theorem magnitude_ofBits (number : w.toNat % 2 ^ 63 ≤ infinity) :
    magnitude (Float.ofBits w) = w.toNat % 2 ^ 63 := by
  rw [magnitude_eq, toBits_ofBits number]

theorem isNaN_ofBits (number : w.toNat % 2 ^ 63 ≤ infinity) : isNaN (Float.ofBits w) = false := by
  unfold isNaN
  rw [magnitude_ofBits number]
  exact decide_eq_false (not_lt.mpr number)

theorem toBits_float?_floatText (number : w.toNat % 2 ^ 63 ≤ infinity) :
    (float? (floatText .source (Float.ofBits w)).toList).map Float.toBits = some w := by
  rw [float?_floatText (isNaN_ofBits number), Option.map_some, toBits_ofBits number]

/-- The text of a word that is not a NaN has one of the forms behind its sign, and is read as this
word. So no other word has this text. -/
theorem float?_floatText_ofBits (number : w.toNat % 2 ^ 63 ≤ infinity) :
    (float? (floatText .source (Float.ofBits w)).toList).map Float.toBits = some w ∧
    (∃ body, IsForm (w.toNat % 2 ^ 63) body ∧ (floatText .source (Float.ofBits w)).toList
      = if 2 ^ 63 ≤ w.toNat then '-' :: body else body) ∧
    ∀ w' : UInt64, w'.toNat % 2 ^ 63 ≤ infinity →
      floatText .source (Float.ofBits w') = floatText .source (Float.ofBits w) → w' = w := by
  refine ⟨toBits_float?_floatText number, ?_, fun w' number' same => ?_⟩
  · obtain ⟨body, form, text⟩ := exists_isForm (isNaN_ofBits number)
    rw [magnitude_ofBits number] at form
    simp only [isNegative_eq, toBits_ofBits number, decide_eq_true_eq] at text
    exact ⟨body, form, text⟩
  · have read := toBits_float?_floatText number'
    rw [same, toBits_float?_floatText number] at read
    exact (Option.some.inj read).symm

/-- The negative zero is told from the other one, and the least double and the infinity are read
back. -/
theorem float?_floatText_ofBits_ends :
    (floatText .source (Float.ofBits 0) = floatText .source (Float.ofBits 0x8000000000000000) →
      (0 : UInt64) = 0x8000000000000000) ∧
    (float? (floatText .source (Float.ofBits 1)).toList).map Float.toBits = some 1 ∧
    ∃ body, IsForm infinity body ∧
      (floatText .source (Float.ofBits 0xFFF0000000000000)).toList = '-' :: body := by
  have zero : (0 : UInt64).toNat % 2 ^ 63 ≤ infinity := by decide
  have zero' : (0x8000000000000000 : UInt64).toNat % 2 ^ 63 ≤ infinity := by decide
  have one : (1 : UInt64).toNat % 2 ^ 63 ≤ infinity := by decide
  have last : (0xFFF0000000000000 : UInt64).toNat % 2 ^ 63 ≤ infinity := by decide
  exact ⟨(float?_floatText_ofBits zero').2.2 0 zero, (float?_floatText_ofBits one).1,
    (float?_floatText_ofBits last).2.1⟩

end

end Numeral

end Ippcode
