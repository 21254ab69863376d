import Ippcode.Numeral.FloatText
import Ippcode.Proofs.Numeral.Shortest

/-!
# The shortest decimal is the shortest

No grid coarser than that of `Decimal.shortest` has a point between the limits
(`search_coarsest`). A decimal with fewer digits would be such a point, or there would be one
between it and the shortest decimal, a power of ten (`length_digits_shortest_le`).
-/

namespace Ippcode.Decimal

open Ippcode.Binary64

/-! ## The coarsest grid -/

theorem search_snd_le (value : Nat) (i : Interval) : ∀ j, (search value i j).2 ≤ j
  | 0 => le_rfl
  | j + 1 => by
    have ih := search_snd_le value i j
    unfold search
    simp only
    split
    · split <;> exact le_rfl
    · exact le_rfl
    · exact le_rfl
    · exact Nat.le_succ_of_le ih

/-- The coarser grids that have been tried have no point between the limits. -/
theorem search_coarsest {value n : Nat} {i : Interval} : ∀ {j : Nat}, (search value i j).2 < j →
    10 ^ ((search value i j).2 + 1) ∣ n → ¬ (i.above n = true ∧ i.below n = true)
  | 0, lt, _ => absurd lt (Nat.not_lt_zero _)
  | j + 1, lt, dvd => by
    have ih := @search_coarsest value n i j
    have hle := search_snd_le value i j
    unfold search at lt dvd
    generalize hunit : Nat.pow 10 (j + 1) = unit at lt dvd
    have hunit : 10 ^ (j + 1) = unit := hunit
    have hpos : 0 < unit := hunit ▸ Nat.pow_pos (by omega)
    simp only at lt dvd
    split at lt
    · split at lt <;> exact absurd lt (lt_irrefl _)
    · exact absurd lt (lt_irrefl _)
    · exact absurd lt (lt_irrefl _)
    · rename_i below above
      rw [below, above] at dvd
      rcases Nat.lt_or_eq_of_le hle with finer | last
      · exact ih finer dvd
      · simp only [last, hunit] at dvd
        obtain ⟨k, rfl⟩ := dvd
        rintro ⟨ha, hb⟩
        -- The point is none of the two around the value, and not between them.
        rcases Nat.lt_or_ge (value / unit) k with hk | hk
        · have : value / unit * unit + unit ≤ unit * k := by
            rw [← Nat.succ_mul, Nat.mul_comm unit]
            exact Nat.mul_le_mul_right unit hk
          rw [i.below_of_le hb this] at above
          cases above
        · have : unit * k ≤ value / unit * unit := by
            rw [Nat.mul_comm unit]
            exact Nat.mul_le_mul_right unit hk
          rw [i.above_of_le ha this] at below
          cases below

/-! ## Between the limits -/

variable {b : Nat}

/-- A whole power of ten with one digit more than the number is above all limits. -/
theorem not_mem_of_digits {n : Nat} (hb : 0 < b)
    (dvd : 10 ^ ((Nat.toDigits 10 (countOf b)).length + 1) ∣ n) :
    ¬ ((readBack b).above n = true ∧ (readBack b).below n = true) := by
  rintro ⟨above, below⟩
  have hm := significand_pos hb
  have hbelow := quartersBelow_le b
  have digits : countOf b < 10 ^ (Nat.toDigits 10 (countOf b)).length :=
    (Nat.length_toDigits_le_iff (by omega) Nat.length_toDigits_pos).mp le_rfl
  have unit := quarter_pos (Binary64.exponent b)
  have positive : 0 < n := by
    have low : 0 < (readBack b).low := Nat.mul_pos (by omega) unit
    rcases Interval.above_iff.mp above with h | ⟨-, rfl⟩
    · omega
    · exact low
  have high : (readBack b).high ≤ 2 * countOf b := by
    have : 2 * countOf b = 8 * significand b * quarter (Binary64.exponent b) := by
      unfold countOf
      ring
    rw [this]
    exact Nat.mul_le_mul_right _ (by omega)
  have least := Nat.le_of_dvd positive dvd
  rw [pow_succ] at least
  rcases Interval.below_iff.mp below with h | ⟨-, rfl⟩ <;> omega

/-- A magnitude is not nearest to any point of a grid coarser than that of its shortest decimal. -/
theorem not_isNearest_of_coarser (hb : 0 < b) (finite : b < infinity) {c : Nat} {e : ℤ}
    (coarser : (shortest b).exponent < e) : ¬ IsNearest (c * 10 ^ e) b := by
  rw [shortest_eq] at coarser
  simp only at coarser
  generalize hk : (search (countOf b) (readBack b) _).2 = k at coarser
  obtain ⟨i, hi⟩ : ∃ i : Nat, e = quarterExponent (Binary64.exponent b) + (k + 1 + i : Nat) :=
    ⟨(e - quarterExponent (Binary64.exponent b) - k - 1).toNat, by omega⟩
  have count : (c * 10 ^ e : ℚ)
      = (c * 10 ^ (k + 1 + i) : Nat) * 10 ^ quarterExponent (Binary64.exponent b) := by
    rw [hi, zpow_add₀ (by norm_num), zpow_natCast]
    push_cast
    ring
  have dvd : 10 ^ (k + 1) ∣ c * 10 ^ (k + 1 + i) :=
    (Nat.pow_dvd_pow 10 (Nat.le_add_right _ i)).mul_left c
  rw [count, isNearest_iff_mem hb finite]
  rcases Nat.lt_or_eq_of_le (search_snd_le (countOf b) (readBack b) _) with lt | eq
  · rw [← hk] at dvd ⊢
    exact search_coarsest lt dvd
  · rw [hk] at eq
    exact not_mem_of_digits hb (eq ▸ dvd)

/-! ## The number of digits -/

theorem length_digits_pos (d : Decimal) : 0 < d.digits.length := Nat.length_toDigits_pos

/-- A decimal is at least the powers of ten at its digits. -/
theorem ten_zpow_le_of_digits {c k : Nat} {e : ℤ} (hc : 0 < c)
    (hk : k < (Nat.toDigits 10 c).length) : (10 ^ (e + k) : ℚ) ≤ c * 10 ^ e := by
  have reached : 10 ^ k ≤ c := by
    rcases Nat.eq_zero_or_pos k with rfl | hpos
    · exact hc
    · exact not_lt.mp fun lt => hk.not_ge ((Nat.length_toDigits_le_iff (by omega) hpos).mpr lt)
  rw [zpow_add₀ (by norm_num), mul_comm, zpow_natCast]
  exact mul_le_mul_of_nonneg_right (by exact_mod_cast reached) (zpow_pos (by norm_num) e).le

theorem coefficient_pos (hb : 0 < b) {d : Decimal} (h : IsNearest d.toRat b) :
    0 < d.coefficient := by
  refine Nat.pos_of_ne_zero fun zero => hb.ne' ?_
  rw [toRat, zero, Nat.cast_zero, zero_mul] at h
  exact h.unique (isNearest_zero (two_zpow_pos _).le)

/-- No decimal that is read back as the same magnitude has fewer digits. -/
theorem length_digits_shortest_le (hb : 0 < b) (finite : b < infinity) {d : Decimal}
    (h : IsNearest d.toRat b) : (shortest b).digits.length ≤ d.digits.length := by
  have nearest := isNearest_shortest hb finite
  have coarser {c : Nat} {e : ℤ} := @not_isNearest_of_coarser b hb finite c e
  generalize shortest b = s at nearest coarser ⊢
  by_contra! fewer
  rcases Int.lt_or_le s.exponent d.exponent with lt | le
  · exact coarser lt h
  · -- The power of ten at the first digit of the one is above the other.
    have first := d.length_digits_pos
    have below : d.toRat ≤ 10 ^ (s.exponent + d.digits.length) :=
      lt_ten_zpow_of_digits.le.trans (zpow_le_zpow_right₀ (by norm_num) (by
        show d.exponent + d.digits.length ≤ _
        omega))
    have above : (10 ^ (s.exponent + d.digits.length) : ℚ) ≤ s.toRat :=
      ten_zpow_le_of_digits (coefficient_pos hb nearest) fewer
    have between := h.between nearest below above
    rw [← one_mul (10 ^ (s.exponent + d.digits.length) : ℚ), ← Nat.cast_one] at between
    exact coarser (by omega) between

end Ippcode.Decimal
