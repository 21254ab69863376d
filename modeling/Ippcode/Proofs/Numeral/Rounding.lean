import Ippcode.Proofs.Numeral.Nearest

/-!
# Rounding a quotient

`Binary64.nearest` is correctly rounded (`isNearest_nearest`) : it finds the power of two below the
quotient (`floorLog_spec`), and rounds the quotient to a whole number of the units that doubles of
this size have.
-/

namespace Ippcode.Binary64

variable {n d : Nat}

/-! ## Whole numbers -/

/-- A quotient is rounded to the nearest whole number. -/
theorem roundsTo_roundHalfEven (hd : 0 < d) :
    RoundsTo (n / d) (roundHalfEven n d) := by
  have hd' : (0 : ℚ) < d := Nat.cast_pos.mpr hd
  have double : 2 * (n / d : ℚ) = 2 * n / d := (mul_div_assoc 2 (n : ℚ) d).symm
  have hn : n = n / d * d + n % d := (Nat.div_add_mod' n d).symm
  have hr : n % d < d := Nat.mod_lt n hd
  unfold roundHalfEven
  generalize n / d = k at hn ⊢
  generalize n % d = r at hn hr ⊢
  subst hn
  have bounds {m : Nat} (lower : 2 * m * d ≤ 2 * (k * d + r) + d)
      (upper : 2 * (k * d + r) ≤ 2 * m * d + d)
      (odd : m % 2 = 1 → 2 * m * d < 2 * (k * d + r) + d ∧ 2 * (k * d + r) < 2 * m * d + d) :
      RoundsTo ((k * d + r : Nat) / d) m := by
    refine ⟨?_, ?_, fun h => ⟨?_, ?_⟩⟩
    · rw [double, le_div_iff₀ hd']
      have : (2 * m * d : ℚ) ≤ 2 * (k * d + r : Nat) + d := by exact_mod_cast lower
      linarith
    · rw [double, div_le_iff₀ hd']
      have : (2 * (k * d + r : Nat) : ℚ) ≤ 2 * m * d + d := by exact_mod_cast upper
      linarith
    · rw [double, lt_div_iff₀ hd']
      have : (2 * m * d : ℚ) < 2 * (k * d + r : Nat) + d := by exact_mod_cast (odd h).1
      linarith
    · rw [double, div_lt_iff₀ hd']
      have : (2 * (k * d + r : Nat) : ℚ) < 2 * m * d + d := by exact_mod_cast (odd h).2
      linarith
  simp only
  have next : 2 * (k + 1) * d = 2 * (k * d) + 2 * d := by ring
  have here : 2 * k * d = 2 * (k * d) := by ring
  split_ifs with h
  · refine bounds ?_ ?_ ?_ <;> omega
  · refine bounds ?_ ?_ ?_ <;> omega

/-! ## Powers of two -/

theorem cast_shiftLeft_of_nonneg {q : ℤ} (hq : 0 ≤ q) (n : Nat) :
    ((n <<< q.toNat : Nat) : ℚ) = n * 2 ^ q := by
  obtain ⟨k, rfl⟩ := Int.eq_ofNat_of_zero_le hq
  rw [Int.toNat_natCast, Nat.shiftLeft_eq, zpow_natCast]
  push_cast
  rfl

theorem cast_shiftLeft_of_neg {q : ℤ} (hq : q < 0) (n : Nat) :
    ((n <<< (-q).toNat : Nat) : ℚ) = n / 2 ^ q := by
  rw [cast_shiftLeft_of_nonneg (by omega), zpow_neg, div_eq_mul_inv]

/-- Whether `floorLog` has reached the exponent that the lengths of its arguments suggest. -/
theorem floorLog_reached_iff (hd : 0 < d) (e : ℤ) :
    (if 0 ≤ e then d <<< e.toNat ≤ n else d ≤ n <<< (-e).toNat) ↔ (2 : ℚ) ^ e ≤ n / d := by
  have hd' : (0 : ℚ) < d := Nat.cast_pos.mpr hd
  rw [le_div_iff₀ hd']
  split
  · rename_i he
    rw [← Nat.cast_le (α := ℚ), cast_shiftLeft_of_nonneg he, mul_comm]
  · rename_i he
    rw [← Nat.cast_le (α := ℚ), cast_shiftLeft_of_neg (by omega), le_div_iff₀ (two_zpow_pos e),
      mul_comm]

/-- The logarithm of a quotient lies between the powers of two around the quotient. -/
theorem floorLog_spec (hn : 0 < n) (hd : 0 < d) :
    (2 : ℚ) ^ floorLog n d ≤ n / d ∧ (n / d : ℚ) < 2 ^ (floorLog n d + 1) := by
  have hd' : (0 : ℚ) < d := Nat.cast_pos.mpr hd
  obtain ⟨nlow, nhigh⟩ := log2_spec hn
  obtain ⟨dlow, dhigh⟩ := log2_spec hd
  have low : (2 : ℚ) ^ ((n.log2 : ℤ) - d.log2 - 1) ≤ n / d := by
    rw [le_div_iff₀ hd']
    calc (2 : ℚ) ^ ((n.log2 : ℤ) - d.log2 - 1) * d
        ≤ 2 ^ ((n.log2 : ℤ) - d.log2 - 1) * 2 ^ (d.log2 + 1 : ℤ) :=
          mul_le_mul_of_nonneg_left dhigh.le (two_zpow_pos _).le
      _ = 2 ^ (n.log2 : ℤ) := by
          rw [← two_zpow_add]
          congr 1
          omega
      _ ≤ n := nlow
  have high : (n / d : ℚ) < 2 ^ ((n.log2 : ℤ) - d.log2 + 1) := by
    rw [div_lt_iff₀ hd']
    calc (n : ℚ) < 2 ^ (n.log2 + 1 : ℤ) := nhigh
      _ = 2 ^ ((n.log2 : ℤ) - d.log2 + 1) * 2 ^ (d.log2 : ℤ) := by
          rw [← two_zpow_add]
          congr 1
          omega
      _ ≤ 2 ^ ((n.log2 : ℤ) - d.log2 + 1) * d :=
          mul_le_mul_of_nonneg_left dlow (two_zpow_pos _).le
  unfold floorLog
  simp only [floorLog_reached_iff hd]
  split
  · rename_i h
    exact ⟨h, high⟩
  · rename_i h
    refine ⟨low, ?_⟩
    rw [Int.sub_add_cancel]
    exact not_le.mp h

/-! ## The nearest magnitude -/

/-- A quotient in other units, which are a power of two. -/
theorem roundsTo_scaled (hd : 0 < d) (q : ℤ) :
    RoundsTo (n / d / 2 ^ q)
      (if 0 ≤ q then roundHalfEven n (d <<< q.toNat) else roundHalfEven (n <<< (-q).toNat) d) := by
  split
  · rename_i h
    have positive : 0 < d <<< q.toNat := by
      rw [Nat.shiftLeft_eq]
      positivity
    rw [div_div, ← cast_shiftLeft_of_nonneg h]
    exact roundsTo_roundHalfEven positive
  · rename_i h
    rw [div_right_comm, ← cast_shiftLeft_of_neg (by omega)]
    exact roundsTo_roundHalfEven hd

/-- A quotient is rounded to the nearest magnitude. -/
theorem isNearest_nearest (hd : 0 < d) : IsNearest (n / d) (nearest n d) := by
  rcases Nat.eq_zero_or_pos n with rfl | hn
  · rw [Nat.cast_zero, zero_div]
    exact isNearest_zero (two_zpow_pos _).le
  · obtain ⟨low, high⟩ := floorLog_spec hn hd
    have rounded := isNearest_of_log low high (roundsTo_scaled hd _)
    unfold nearest
    rw [if_neg hn.ne']
    exact rounded

end Ippcode.Binary64
