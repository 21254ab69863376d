import Ippcode.Numeral.DecimalFloat
import Ippcode.Proofs.Numeral.Rounding

/-!
# The shortest decimal is read back

`Decimal.shortest` stays between the limits that its search begins with (`search_mem`), and these
are the midpoints to the neighbours of its magnitude (`isNearest_iff_quarters`). So the magnitude
is nearest to its shortest decimal (`isNearest_shortest`). `Decimal.nearest` is correctly rounded
for every decimal (`isNearest_nearest`) : beyond the two limits where it does not compute the
power of ten, all numbers have the same nearest magnitude.
-/

namespace Ippcode.Binary64

/-! ## Midpoints -/

variable {b : Nat} {x : ℚ}

theorem significand_pos (hb : 0 < b) : 0 < significand b := by
  rw [significand_eq]
  split <;> omega

theorem quartersBelow_def (b : Nat) :
    Decimal.quartersBelow b = if b % 2 ^ 52 = 0 ∧ 2 ^ 53 ≤ b then 1 else 2 := rfl

theorem quartersBelow_le (b : Nat) : Decimal.quartersBelow b ≤ 2 := by
  rw [quartersBelow_def]
  split <;> omega

/-- A unit in the last place in quarters. -/
theorem two_zpow_eq_quarters (q : ℤ) : (2 : ℚ) ^ q = 4 * 2 ^ (q - 2) := by
  have : q = 2 + (q - 2) := by omega
  rw [this, two_zpow_add]
  norm_num

/-- The midpoint to the neighbour below. -/
theorem number_add_number_succ (c : Nat) : number c + number (c + 1) =
    2 * ((4 * significand (c + 1) - Decimal.quartersBelow (c + 1)) * 2 ^ (exponent (c + 1) - 2)) := by
  have next := number_succ c
  have gap : (2 : ℚ) ^ exponent c
      = 2 * Decimal.quartersBelow (c + 1) * 2 ^ (exponent (c + 1) - 2) := by
    by_cases first : (c + 1) % 2 ^ 52 = 0 ∧ 2 ^ 53 ≤ c + 1
    · have same : exponent c = 1 + (exponent (c + 1) - 2) := by
        rw [exponent_eq, exponent_eq]
        omega
      rw [quartersBelow_def, if_pos first, same, two_zpow_add]
      norm_num
    · have same : exponent c = exponent (c + 1) := by
        rw [exponent_eq, exponent_eq]
        omega
      rw [quartersBelow_def, if_neg first, same, two_zpow_eq_quarters]
      norm_num
  have here : number (c + 1) = 4 * significand (c + 1) * 2 ^ (exponent (c + 1) - 2) := by
    rw [number, two_zpow_eq_quarters]
    ring
  linarith

/-- The midpoint to the neighbour above. -/
theorem number_add_number_next (b : Nat) : number b + number (b + 1) =
    2 * ((4 * significand b + 2) * 2 ^ (exponent b - 2)) := by
  rw [number_succ, number, two_zpow_eq_quarters]
  ring

/-- What a magnitude is nearest to, in quarters of the unit in the last place. -/
theorem isNearest_iff_quarters (hb : 0 < b) (finite : b < infinity) : IsNearest x b ↔
    ((4 * significand b - Decimal.quartersBelow b : ℚ) * 2 ^ (exponent b - 2) ≤ x ∧
      x ≤ (4 * significand b + 2 : ℚ) * 2 ^ (exponent b - 2)) ∧
    (significand b % 2 = 1 →
      (4 * significand b - Decimal.quartersBelow b : ℚ) * 2 ^ (exponent b - 2) < x ∧
        x < (4 * significand b + 2 : ℚ) * 2 ^ (exponent b - 2)) := by
  obtain ⟨c, rfl⟩ : ∃ c, b = c + 1 := ⟨b - 1, by omega⟩
  have below := number_add_number_succ c
  have above := number_add_number_next (c + 1)
  constructor
  · intro h
    obtain ⟨-, lower, upper⟩ := isNearest_iff.mp h
    obtain ⟨low, low'⟩ := lower c (Nat.lt_succ_self c)
    obtain ⟨high, high'⟩ := upper (c + 1 + 1) finite (Nat.lt_succ_self _)
    exact ⟨⟨by linarith, by linarith⟩, fun odd =>
      ⟨by linarith [low' odd], by linarith [high' odd]⟩⟩
  · rintro ⟨⟨low, high⟩, strict⟩
    refine isNearest_of_neighbours finite.le (fun c' hc => ?_) fun _ => ?_
    · obtain rfl : c' = c := by omega
      exact ⟨by linarith, fun odd => by linarith [(strict odd).1]⟩
    · exact ⟨by linarith, fun odd => by linarith [(strict odd).2]⟩

end Ippcode.Binary64

namespace Ippcode.Decimal

open Ippcode.Binary64

/-- The number that a decimal stands for. -/
def toRat (d : Decimal) : ℚ := d.coefficient * 10 ^ d.exponent

/-! ## The search -/

namespace Interval

variable {i : Interval} {n k : Nat}

theorem above_iff : i.above n = true ↔ i.low < n ∨ i.closed = true ∧ n = i.low := by
  simp [above]

theorem below_iff : i.below n = true ↔ n < i.high ∨ i.closed = true ∧ n = i.high := by
  simp [below]

theorem above_of_le (h : i.above n = true) (hle : n ≤ k) : i.above k = true := by
  rw [above_iff] at h ⊢
  rcases h with h | ⟨closed, rfl⟩
  · exact .inl (by omega)
  · rcases Nat.eq_or_lt_of_le hle with rfl | hlt
    · exact .inr ⟨closed, rfl⟩
    · exact .inl hlt

theorem below_of_le (h : i.below k = true) (hle : n ≤ k) : i.below n = true := by
  rw [below_iff] at h ⊢
  rcases h with h | ⟨closed, rfl⟩
  · exact .inl (by omega)
  · rcases Nat.eq_or_lt_of_le hle with rfl | hlt
    · exact .inr ⟨closed, rfl⟩
    · exact .inl hlt

end Interval

/-- What the search finds lies between the limits. -/
theorem search_mem {value : Nat} {i : Interval} (above : i.above value = true)
    (below : i.below value = true) : ∀ j : Nat,
      i.above ((search value i j).1 * 10 ^ (search value i j).2) = true ∧
        i.below ((search value i j).1 * 10 ^ (search value i j).2) = true
  | 0 => by
    rw [search, pow_zero, Nat.mul_one]
    exact ⟨above, below⟩
  | j + 1 => by
    have ih := search_mem above below j
    unfold search
    generalize hunit : Nat.pow 10 (j + 1) = unit
    have hunit : 10 ^ (j + 1) = unit := hunit
    have hpos : 0 < unit := hunit ▸ Nat.pow_pos (by omega)
    have hlower : value / unit * unit ≤ value := Nat.div_mul_le_self value unit
    have hupper : value < value / unit * unit + unit := Nat.lt_div_mul_add hpos
    have below' := i.below_of_le below hlower
    have above' := i.above_of_le above hupper.le
    have next : (value / unit + 1) * unit = value / unit * unit + unit := Nat.succ_mul _ _
    simp only
    split
    · rename_i ha hb
      split
      · simp only [hunit]
        exact ⟨ha, below'⟩
      · simp only [hunit, next]
        exact ⟨above', hb⟩
    · rename_i ha hb
      simp only [hunit]
      exact ⟨ha, below'⟩
    · rename_i ha hb
      simp only [hunit, next]
      exact ⟨above', hb⟩
    · exact ih

/-! ## What is found -/

theorem quarter_eq (q : ℤ) :
    quarter q = if 2 ≤ q then 2 ^ (q - 2).toNat else 5 ^ (2 - q).toNat := by
  rw [quarter, Nat.one_shiftLeft]
  rfl

/-- A quarter of a unit is what it is counted as. -/
theorem quarter_mul (q : ℤ) : (quarter q * 10 ^ quarterExponent q : ℚ) = 2 ^ (q - 2) := by
  rw [quarter_eq, quarterExponent]
  split
  · rename_i h
    rw [min_eq_right (by omega), zpow_zero, mul_one, Nat.cast_pow, Nat.cast_ofNat, ← zpow_natCast,
      Int.toNat_of_nonneg (by omega)]
  · rename_i h
    rw [min_eq_left (by omega), Nat.cast_pow, Nat.cast_ofNat, ← zpow_natCast,
      Int.toNat_of_nonneg (by omega)]
    have ten : (10 : ℚ) = 2 * 5 := by norm_num
    have five : (5 : ℚ) ^ (2 - q) * 5 ^ (q - 2) = 1 := by
      rw [← zpow_add₀ (by norm_num)]
      norm_num
    rw [ten, mul_zpow, mul_left_comm, five, mul_one]

/-- The numbers that are read back as a magnitude, as the search counts them. -/
def readBack (b : Nat) : Interval where
  low := (4 * significand b - quartersBelow b) * quarter (Binary64.exponent b)
  high := (4 * significand b + 2) * quarter (Binary64.exponent b)
  closed := significand b % 2 == 0

/-- A magnitude is nearest to what lies between these limits, and to nothing else. -/
theorem isNearest_iff_mem {b n : Nat} (hb : 0 < b) (finite : b < infinity) :
    IsNearest (n * 10 ^ quarterExponent (Binary64.exponent b)) b ↔
      (readBack b).above n = true ∧ (readBack b).below n = true := by
  have hm := significand_pos hb
  have hbelow := quartersBelow_le b
  have hten : (0 : ℚ) < 10 ^ quarterExponent (Binary64.exponent b) := zpow_pos (by norm_num) _
  have low : (4 * significand b - quartersBelow b : ℚ) * 2 ^ (Binary64.exponent b - 2)
      = ((readBack b).low : ℚ) * 10 ^ quarterExponent (Binary64.exponent b) := by
    rw [← quarter_mul, readBack, Nat.cast_mul, Nat.cast_sub (by omega), Nat.cast_mul, mul_assoc]
    rfl
  have high : (4 * significand b + 2 : ℚ) * 2 ^ (Binary64.exponent b - 2)
      = ((readBack b).high : ℚ) * 10 ^ quarterExponent (Binary64.exponent b) := by
    rw [← quarter_mul, readBack]
    push_cast
    ring
  have closed : (readBack b).closed = true ↔ significand b % 2 = 0 := by
    simp [readBack]
  rw [isNearest_iff_quarters hb finite, low, high, Interval.above_iff, Interval.below_iff, closed]
  simp only [mul_le_mul_iff_left₀ hten, mul_lt_mul_iff_left₀ hten, Nat.cast_le, Nat.cast_lt]
  omega

/-- The number of a magnitude, as the search counts it. -/
def countOf (b : Nat) : Nat := 4 * significand b * quarter (Binary64.exponent b)

theorem shortest_eq (b : Nat) : shortest b =
    let found := search (countOf b) (readBack b) (Nat.toDigits 10 (countOf b)).length
    ⟨found.1, quarterExponent (Binary64.exponent b) + found.2⟩ := rfl

theorem quarter_pos (q : ℤ) : 0 < quarter q := by
  rw [quarter_eq]
  split <;> positivity

/-- The number itself lies between the limits. -/
theorem countOf_mem {b : Nat} (hb : 0 < b) :
    (readBack b).above (countOf b) = true ∧ (readBack b).below (countOf b) = true := by
  have hm := significand_pos hb
  have hquarters : 0 < quartersBelow b := by
    rw [quartersBelow_def]
    split <;> omega
  have hunit := quarter_pos (Binary64.exponent b)
  rw [Interval.above_iff, Interval.below_iff]
  exact ⟨.inl (Nat.mul_lt_mul_of_pos_right (by omega) hunit),
    .inl (Nat.mul_lt_mul_of_pos_right (by omega) hunit)⟩

/-- A magnitude is nearest to its shortest decimal. -/
theorem isNearest_shortest {b : Nat} (hb : 0 < b) (finite : b < infinity) :
    IsNearest (shortest b).toRat b := by
  obtain ⟨above, below⟩ := countOf_mem hb
  have mem := search_mem above below (Nat.toDigits 10 (countOf b)).length
  rw [shortest_eq]
  simp only
  generalize search (countOf b) (readBack b) _ = found at mem ⊢
  have value : toRat ⟨found.1, quarterExponent (Binary64.exponent b) + found.2⟩
      = (found.1 * 10 ^ found.2 : Nat) * 10 ^ quarterExponent (Binary64.exponent b) := by
    unfold toRat
    simp only
    rw [zpow_add₀ (by norm_num), zpow_natCast]
    push_cast
    ring
  rw [value]
  exact (isNearest_iff_mem hb finite).mpr mem

/-! ## Correct rounding -/

/-- A power of two beyond all doubles and their inverses, against the limit. -/
theorem two_pow_lt_beyond : (2 : ℚ) ^ (1075 : ℤ) < 10 ^ beyond :=
  calc (2 : ℚ) ^ (1075 : ℤ)
      ≤ 2 ^ (1200 : ℤ) := zpow_le_zpow_right₀ one_le_two (by norm_num)
    _ = (2 ^ 150) ^ 8 := by rw [← pow_mul]; rfl
    _ < (10 ^ 50) ^ 8 := pow_lt_pow_left₀ (by norm_num) (by positivity) (by norm_num)
    _ = 10 ^ beyond := by rw [← pow_mul]; rfl

section

variable {c : Nat} {e : ℤ}

/-- A decimal is less than the power of ten that follows its digits. -/
theorem lt_ten_zpow_of_digits : (c * 10 ^ e : ℚ) < 10 ^ (e + (Nat.toDigits 10 c).length) := by
  have digits : c < 10 ^ (Nat.toDigits 10 c).length :=
    (Nat.length_toDigits_le_iff (by omega) Nat.length_toDigits_pos).mp le_rfl
  rw [zpow_add₀ (by norm_num), mul_comm, zpow_natCast]
  exact mul_lt_mul_of_pos_left (by exact_mod_cast digits) (zpow_pos (by norm_num) e)

theorem cast_mul_pow (he : 0 ≤ e) :
    ((c * Nat.pow 10 e.toNat : Nat) : ℚ) / (1 : Nat) = c * 10 ^ e := by
  obtain ⟨k, rfl⟩ := Int.eq_ofNat_of_zero_le he
  rw [Int.toNat_natCast, Nat.pow_eq, zpow_natCast]
  push_cast
  rw [div_one]

theorem cast_div_pow (he : ¬ 0 ≤ e) : (c : ℚ) / (Nat.pow 10 (-e).toNat : Nat) = c * 10 ^ e := by
  obtain ⟨k, hk⟩ := Int.eq_ofNat_of_zero_le (show 0 ≤ -e by omega)
  obtain rfl : e = -(k : ℤ) := by omega
  rw [neg_neg, Int.toNat_natCast, Nat.pow_eq, zpow_neg, zpow_natCast, div_eq_mul_inv]
  push_cast
  rfl

end

/-- A decimal is rounded to the nearest magnitude. -/
theorem isNearest_nearest (d : Decimal) : IsNearest d.toRat d.nearest := by
  obtain ⟨c, e⟩ := d
  unfold toRat nearest
  simp only
  split_ifs with zero large small whole
  · rw [zero, Nat.cast_zero, zero_mul]
    exact isNearest_zero (two_zpow_pos _).le
  · have hc : (1 : ℚ) ≤ c := by exact_mod_cast Nat.pos_of_ne_zero zero
    refine isNearest_infinity ?_
    calc (2 : ℚ) ^ (1024 : ℤ) ≤ 2 ^ (1075 : ℤ) := zpow_le_zpow_right₀ one_le_two (by norm_num)
      _ ≤ 10 ^ beyond := two_pow_lt_beyond.le
      _ ≤ 10 ^ e := zpow_le_zpow_right₀ (by norm_num) large
      _ ≤ c * 10 ^ e := le_mul_of_one_le_left (zpow_pos (by norm_num) e).le hc
  · refine isNearest_zero ?_
    calc (c * 10 ^ e : ℚ) ≤ 10 ^ (e + (Nat.toDigits 10 c).length) := lt_ten_zpow_of_digits.le
      _ ≤ 10 ^ (-beyond) := zpow_le_zpow_right₀ (by norm_num) small
      _ ≤ 2 ^ (-1075 : ℤ) := by
        rw [zpow_neg, zpow_neg]
        exact (inv_strictAnti₀ (two_zpow_pos _) two_pow_lt_beyond).le
  · rw [← cast_mul_pow whole]
    exact Binary64.isNearest_nearest Nat.one_pos
  · rw [← cast_div_pow whole]
    exact Binary64.isNearest_nearest (Nat.pow_pos (by omega))

end Ippcode.Decimal
