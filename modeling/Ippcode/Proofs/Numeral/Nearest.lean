import Ippcode.Numeral.Binary64
import Mathlib

/-!
# The nearest double

A magnitude stands for a number (`Binary64.number`), and greater magnitudes stand for greater
numbers (`number_strictMono`). `IsNearest` says which magnitude a number is rounded to : the
nearest one, and of two equally near the one with the even significand. The infinity takes part
as the power of two behind the greatest double, so it is nearest exactly to the numbers that are
too great to be rounded to a double. No number has two nearest magnitudes (`IsNearest.unique`).

The distance to the next magnitude is one unit in the last place (`number_succ`). So a number is
rounded by counting it in units of the last place and rounding this count to a whole number
(`isNearest_of_log`).
-/

namespace Ippcode.Binary64

/-! ## Magnitudes and powers of two -/

theorem significand_eq (b : Nat) :
    significand b = if b < 2 ^ 52 then b else 2 ^ 52 + b % 2 ^ 52 := rfl

theorem exponent_eq (b : Nat) : exponent b = (max (b / 2 ^ 52) 1 : Nat) - 1075 := rfl

theorem significand_mod_two (b : Nat) : significand b % 2 = b % 2 := by
  rw [significand_eq]
  split <;> omega

theorem le_exponent {b k : Nat} (h : k = 0 ∨ (k + 1) * 2 ^ 52 ≤ b) :
    (k : ℤ) - 1074 ≤ exponent b := by
  rw [exponent_eq]
  omega

theorem two_zpow_pos (q : ℤ) : (0 : ℚ) < 2 ^ q := zpow_pos two_pos q

theorem two_zpow_add (p q : ℤ) : (2 : ℚ) ^ (p + q) = 2 ^ p * 2 ^ q := zpow_add₀ two_ne_zero p q

/-- The logarithm of a whole number lies between the powers of two around the number. -/
theorem log2_spec {n : Nat} (hn : 0 < n) :
    (2 : ℚ) ^ (n.log2 : ℤ) ≤ n ∧ (n : ℚ) < 2 ^ (n.log2 + 1 : ℤ) := by
  have next : (n.log2 + 1 : ℤ) = ((n.log2 + 1 : Nat) : ℤ) := by omega
  rw [next, zpow_natCast, zpow_natCast]
  exact ⟨by exact_mod_cast Nat.log2_self_le hn.ne', by exact_mod_cast Nat.lt_log2_self⟩

/-- In other units too. -/
theorem log2_mul_zpow_spec {n : Nat} (hn : 0 < n) (q : ℤ) :
    (2 : ℚ) ^ (n.log2 + q) ≤ n * 2 ^ q ∧ (n : ℚ) * 2 ^ q < 2 ^ (n.log2 + q + 1) := by
  obtain ⟨low, high⟩ := log2_spec hn
  constructor
  · rw [two_zpow_add]
    exact mul_le_mul_of_nonneg_right low (two_zpow_pos q).le
  · rw [add_right_comm, two_zpow_add]
    exact mul_lt_mul_of_pos_right high (two_zpow_pos q)

/-! ## Numbers -/

/-- The number that a magnitude stands for. The infinity stands for the power of two behind the
greatest double. -/
def number (b : Nat) : ℚ := significand b * 2 ^ exponent b

theorem number_zero : number 0 = 0 := by
  have : significand 0 = 0 := rfl
  rw [number, this, Nat.cast_zero, zero_mul]

theorem number_infinity : number infinity = 2 ^ (1024 : ℤ) := by
  have m : significand infinity = 2 ^ 52 := rfl
  have e : exponent infinity = 972 := rfl
  rw [number, m, e, Nat.cast_pow, Nat.cast_ofNat, ← zpow_natCast, ← two_zpow_add]
  rfl

/-- From one magnitude to the next is one unit in the last place, also where the significand is
carried to the next exponent. -/
theorem number_succ (b : Nat) : number (b + 1) = number b + 2 ^ exponent b := by
  by_cases carried : significand b = 2 ^ 53 - 1
  · have next : significand (b + 1) = 2 ^ 52 ∧ exponent (b + 1) = exponent b + 1 := by
      rw [significand_eq] at carried
      rw [significand_eq, exponent_eq, exponent_eq]
      split_ifs at carried ⊢ <;> omega
    rw [number, number, next.1, next.2, carried, two_zpow_add]
    push_cast
    ring
  · have next : significand (b + 1) = significand b + 1 ∧ exponent (b + 1) = exponent b := by
      rw [significand_eq] at carried
      rw [significand_eq, significand_eq, exponent_eq, exponent_eq]
      split_ifs at carried ⊢ <;> omega
    rw [number, number, next.1, next.2]
    push_cast
    ring

theorem number_strictMono : StrictMono number := strictMono_nat_of_lt_succ fun b => by
  rw [number_succ]
  exact lt_add_of_pos_right _ (two_zpow_pos _)

/-- A significand and an exponent make up the magnitude of the number that they write. -/
theorem number_compose {m k : Nat} (hk : k ≤ 2045) (hm : m ≤ 2 ^ 53)
    (full : k = 0 ∨ 2 ^ 52 ≤ m) :
    compose m (k - 1074) = k * 2 ^ 52 + m ∧ number (k * 2 ^ 52 + m) = m * 2 ^ (k - 1074 : ℤ) := by
  constructor
  · unfold compose leastExponent infinity
    rw [Nat.shiftLeft_eq]
    omega
  · rcases Nat.eq_or_lt_of_le hm with rfl | hlt
    · have parts : significand (k * 2 ^ 52 + 2 ^ 53) = 2 ^ 52 ∧
          exponent (k * 2 ^ 52 + 2 ^ 53) = (k - 1074) + 1 := by
        rw [significand_eq, exponent_eq]
        split_ifs <;> omega
      rw [number, parts.1, parts.2, two_zpow_add]
      push_cast
      ring
    · have parts : significand (k * 2 ^ 52 + m) = m ∧ exponent (k * 2 ^ 52 + m) = k - 1074 := by
        rw [significand_eq, exponent_eq]
        split_ifs <;> omega
      rw [number, parts.1, parts.2]

/-! ## Of two numbers the nearer -/

theorem abs_sub_le_left_iff {x a b : ℚ} (h : a < b) : |x - a| ≤ |x - b| ↔ 2 * x ≤ a + b := by
  rw [← sq_le_sq]
  have pos : 0 < b - a := sub_pos.mpr h
  constructor
  · intro near
    nlinarith
  · intro near
    nlinarith

theorem abs_sub_le_right_iff {x a b : ℚ} (h : a < b) : |x - b| ≤ |x - a| ↔ a + b ≤ 2 * x := by
  rw [← sq_le_sq]
  have pos : 0 < b - a := sub_pos.mpr h
  constructor
  · intro near
    nlinarith
  · intro near
    nlinarith

/-! ## The nearest magnitude -/

/-- The magnitude `b` is nearest to the number, of two equally near the one with the even
significand. What is nearest to the infinity is beyond the doubles. -/
structure IsNearest (x : ℚ) (b : Nat) : Prop where
  le_infinity : b ≤ infinity
  nearest : ∀ c ≤ infinity, |x - number b| ≤ |x - number c|
  even : ∀ c ≤ infinity, c ≠ b → |x - number b| = |x - number c| → significand b % 2 = 0

/-- The numbers that are nearest to a magnitude lie between the midpoints to all others, and not
at one if the significand is odd. -/
theorem isNearest_iff {x : ℚ} {b : Nat} : IsNearest x b ↔ b ≤ infinity ∧
    (∀ c < b, number c + number b ≤ 2 * x ∧
      (significand b % 2 = 1 → number c + number b < 2 * x)) ∧
    (∀ c ≤ infinity, b < c → 2 * x ≤ number b + number c ∧
      (significand b % 2 = 1 → 2 * x < number b + number c)) := by
  constructor
  · intro h
    refine ⟨h.le_infinity, fun c hc => ?_, fun c hle hc => ?_⟩
    · have hle : c ≤ infinity := hc.le.trans h.le_infinity
      have near := h.nearest c hle
      have lt := number_strictMono hc
      refine ⟨(abs_sub_le_right_iff lt).mp near, fun odd => ?_⟩
      rw [← not_le, ← abs_sub_le_left_iff lt]
      intro same
      have := h.even c hle hc.ne (le_antisymm near same)
      omega
    · have near := h.nearest c hle
      have lt := number_strictMono hc
      refine ⟨(abs_sub_le_left_iff lt).mp near, fun odd => ?_⟩
      rw [← not_le, ← abs_sub_le_right_iff lt]
      intro same
      have := h.even c hle hc.ne' (le_antisymm near same)
      omega
  · rintro ⟨hb, below, above⟩
    refine ⟨hb, fun c hle => ?_, fun c hle hne same => ?_⟩
    · rcases Nat.lt_trichotomy c b with hc | rfl | hc
      · exact (abs_sub_le_right_iff (number_strictMono hc)).mpr (below c hc).1
      · exact le_rfl
      · exact (abs_sub_le_left_iff (number_strictMono hc)).mpr (above c hle hc).1
    · by_contra odd
      rcases Nat.lt_or_gt_of_ne hne with hc | hc
      · have := (below c hc).2 (by omega)
        exact this.not_ge ((abs_sub_le_left_iff (number_strictMono hc)).mp same.ge)
      · have := (above c hle hc).2 (by omega)
        exact this.not_ge ((abs_sub_le_right_iff (number_strictMono hc)).mp same.ge)

/-- Of the midpoints only those to the two neighbours matter. -/
theorem isNearest_of_neighbours {x : ℚ} {b : Nat} (hb : b ≤ infinity)
    (lower : ∀ c, c + 1 = b → number c + number b ≤ 2 * x ∧
      (significand b % 2 = 1 → number c + number b < 2 * x))
    (upper : b < infinity → 2 * x ≤ number b + number (b + 1) ∧
      (significand b % 2 = 1 → 2 * x < number b + number (b + 1))) : IsNearest x b := by
  refine isNearest_iff.mpr ⟨hb, fun c hc => ?_, fun c hle hc => ?_⟩
  · obtain ⟨p, rfl⟩ : ∃ p, p + 1 = b := ⟨b - 1, by omega⟩
    have hcp : number c ≤ number p := number_strictMono.monotone (by omega)
    obtain ⟨near, strict⟩ := lower p rfl
    exact ⟨by linarith, fun odd => by linarith [strict odd]⟩
  · have hbc : number (b + 1) ≤ number c := number_strictMono.monotone hc
    obtain ⟨near, strict⟩ := upper (by omega)
    exact ⟨by linarith, fun odd => by linarith [strict odd]⟩

/-- No number has two nearest magnitudes. -/
theorem IsNearest.unique {x : ℚ} {b c : Nat} (hb : IsNearest x b) (hc : IsNearest x c) :
    b = c := by
  wlog hlt : b < c generalizing b c
  · rcases Nat.lt_trichotomy b c with h | h | h
    · exact absurd h hlt
    · exact h
    · exact (this hc hb h).symm
  have same : |x - number b| = |x - number c| :=
    le_antisymm (hb.nearest c hc.le_infinity) (hc.nearest b hb.le_infinity)
  have evenb := hb.even c hc.le_infinity hlt.ne' same
  have evenc := hc.even b hb.le_infinity hlt.ne same.symm
  rw [significand_mod_two] at evenb evenc
  -- Both are even, so there is a magnitude between them, and it would be nearer.
  have between : b + 1 < c := by omega
  have near := ((isNearest_iff.mp hb).2.2 (b + 1) (between.le.trans hc.le_infinity)
    (Nat.lt_succ_self b)).1
  have far := (abs_sub_le_right_iff (number_strictMono hlt)).mp same.ge
  have := number_strictMono between
  linarith

/-- What lies between two numbers with the same nearest magnitude has it too. -/
theorem IsNearest.between {x y z : ℚ} {b : Nat} (hx : IsNearest x b) (hz : IsNearest z b)
    (low : x ≤ y) (high : y ≤ z) : IsNearest y b := by
  obtain ⟨hb, below, -⟩ := isNearest_iff.mp hx
  obtain ⟨-, -, above⟩ := isNearest_iff.mp hz
  refine isNearest_iff.mpr ⟨hb, fun c hc => ?_, fun c hle hc => ?_⟩
  · obtain ⟨near, strict⟩ := below c hc
    exact ⟨by linarith, fun odd => by linarith [strict odd]⟩
  · obtain ⟨near, strict⟩ := above c hle hc
    exact ⟨by linarith, fun odd => by linarith [strict odd]⟩

/-- A magnitude is nearest to the number that it stands for. -/
theorem isNearest_number {b : Nat} (hb : b ≤ infinity) : IsNearest (number b) b := by
  refine isNearest_of_neighbours hb (fun c hc => ?_) fun _ => ?_
  · have : number c < number b := number_strictMono (by omega)
    exact ⟨by linarith, fun _ => by linarith⟩
  · have : number b < number (b + 1) := number_strictMono (Nat.lt_succ_self b)
    exact ⟨by linarith, fun _ => by linarith⟩

/-- Numbers with different nearest magnitudes are in the order of these. -/
theorem IsNearest.lt {x y : ℚ} {b c : Nat} (hb : IsNearest x b) (hc : IsNearest y c)
    (h : b < c) : x < y := by
  have below := ((isNearest_iff.mp hb).2.2 c hc.le_infinity h).1
  have above := ((isNearest_iff.mp hc).2.1 b h).1
  refine lt_of_le_of_ne (by linarith) ?_
  rintro rfl
  exact h.ne (hb.unique hc)

/-! ## Rounding -/

/-- A number beyond all doubles. -/
theorem isNearest_infinity {x : ℚ} (h : 2 ^ (1024 : ℤ) ≤ x) : IsNearest x infinity := by
  rw [← number_infinity] at h
  refine isNearest_of_neighbours le_rfl (fun c hc => ?_) fun hlt => absurd hlt (lt_irrefl _)
  have : number c < number infinity := number_strictMono (by omega)
  exact ⟨by linarith, fun _ => by linarith⟩

/-- The infinity is nearest to the numbers from half a unit behind the greatest double on. -/
theorem isNearest_infinity_iff {x : ℚ} :
    IsNearest x infinity ↔ (2 ^ 54 - 1) * 2 ^ (970 : ℤ) ≤ x := by
  obtain ⟨c, hc⟩ : ∃ c, c + 1 = infinity := ⟨infinity - 1, rfl⟩
  have greatest : number c + number infinity = 2 * ((2 ^ 54 - 1) * 2 ^ (970 : ℤ)) := by
    have e : exponent c = 971 := by
      rw [exponent_eq]
      unfold infinity at hc
      omega
    have next := number_succ c
    have last : (2 : ℚ) ^ (971 : ℤ) = 2 * 2 ^ (970 : ℤ) := two_zpow_add 1 970
    have whole : (2 : ℚ) ^ (1024 : ℤ) = 2 ^ (54 : ℤ) * 2 ^ (970 : ℤ) := two_zpow_add 54 970
    rw [hc, e, last] at next
    rw [number_infinity, whole] at next ⊢
    generalize (2 : ℚ) ^ (970 : ℤ) = unit at next ⊢
    norm_num at next ⊢
    linarith
  constructor
  · intro h
    have := ((isNearest_iff.mp h).2.1 c (by omega)).1
    linarith
  · intro h
    refine isNearest_of_neighbours le_rfl (fun c' hc' => ?_) fun hlt => absurd hlt (lt_irrefl _)
    obtain rfl : c' = c := by omega
    exact ⟨by linarith, fun odd => absurd odd (by decide)⟩

/-- A number that is too small for any other double. -/
theorem isNearest_zero {x : ℚ} (h : x ≤ 2 ^ (-1075 : ℤ)) : IsNearest x 0 := by
  refine isNearest_of_neighbours (Nat.zero_le _) (fun c hc => absurd hc (by omega)) fun _ => ?_
  have one : number (0 + 1) = 2 * 2 ^ (-1075 : ℤ) := by
    have e : exponent 0 = 1 + -1075 := rfl
    rw [number_succ, number_zero, zero_add, e, two_zpow_add, zpow_one]
  rw [number_zero, one]
  exact ⟨by linarith, fun odd => absurd odd (by decide)⟩

/-! ### To whole numbers -/

/-- The whole number `m` is at most half away from the number, and less if it is odd. -/
structure RoundsTo (y : ℚ) (m : Nat) : Prop where
  lower : (2 * m - 1 : ℚ) ≤ 2 * y
  upper : 2 * y ≤ (2 * m + 1 : ℚ)
  odd : m % 2 = 1 → (2 * m - 1 : ℚ) < 2 * y ∧ 2 * y < (2 * m + 1 : ℚ)

theorem RoundsTo.le {y : ℚ} {m n : Nat} (h : RoundsTo y m) (hn : (n : ℚ) ≤ y) : n ≤ m := by
  have : (2 * n : ℚ) ≤ 2 * m + 1 := by linarith [h.upper]
  have : 2 * n ≤ 2 * m + 1 := by exact_mod_cast this
  omega

theorem RoundsTo.ge {y : ℚ} {m n : Nat} (h : RoundsTo y m) (hn : y < n) : m ≤ n := by
  have : (2 * m : ℚ) < 2 * n + 1 := by linarith [h.lower]
  have : 2 * m < 2 * n + 1 := by exact_mod_cast this
  omega

/-! ### In units of the last place -/

/-- Rounding to a whole number of the right units leads to the nearest magnitude. -/
theorem isNearest_compose {y : ℚ} {m k : Nat} (hk : k ≤ 2045) (full : k = 0 ∨ 2 ^ 52 ≤ y)
    (fits : y < 2 ^ 53) (rounded : RoundsTo y m) :
    IsNearest (y * 2 ^ (k - 1074 : ℤ)) (compose m (k - 1074)) := by
  have hm : m ≤ 2 ^ 53 := rounded.ge (by exact_mod_cast fits)
  have short : k = 0 ∨ 2 ^ 52 ≤ m := full.imp_right fun full =>
    rounded.le (by exact_mod_cast full)
  obtain ⟨composed, value⟩ := number_compose hk hm short
  rw [composed]
  generalize hb : k * 2 ^ 52 + m = b at composed value ⊢
  have parity : m % 2 = significand b % 2 := by
    rw [significand_mod_two]
    omega
  have unit := two_zpow_pos (k - 1074)
  have lower := mul_le_mul_of_nonneg_right rounded.lower unit.le
  have upper := mul_le_mul_of_nonneg_right rounded.upper unit.le
  have oddLower (h : significand b % 2 = 1) :=
    mul_lt_mul_of_pos_right (rounded.odd (parity.trans h)).1 unit
  have oddUpper (h : significand b % 2 = 1) :=
    mul_lt_mul_of_pos_right (rounded.odd (parity.trans h)).2 unit
  refine isNearest_of_neighbours ?_ (fun c hc => ?_) fun _ => ?_
  · rw [← composed]
    exact Nat.min_le_right _ _
  · subst hc
    have next := number_succ c
    by_cases same : k = 0 ∨ 2 ^ 52 < m
    · have : (2 : ℚ) ^ (k - 1074 : ℤ) ≤ 2 ^ exponent c :=
        zpow_le_zpow_right₀ one_le_two (le_exponent (by omega))
      exact ⟨by linarith, fun h => by linarith [oddLower h]⟩
    · -- The neighbour below a power of two is closer, but the number is not below the power.
      obtain ⟨hk, hm⟩ := not_or.mp same
      obtain rfl : m = 2 ^ 52 := by omega
      have reached := mul_le_mul_of_nonneg_right (full.resolve_left hk) unit.le
      have gap := two_zpow_pos (exponent c)
      push_cast at value
      exact ⟨by linarith, fun _ => by linarith⟩
  · have next := number_succ b
    have : (2 : ℚ) ^ (k - 1074 : ℤ) ≤ 2 ^ exponent b :=
      zpow_le_zpow_right₀ one_le_two (le_exponent (by omega))
    exact ⟨by linarith, fun h => by linarith [oddUpper h]⟩

/-- The exponent of the last place of the doubles between two powers of two. -/
def lastPlace (log : ℤ) : ℤ := max (log - 52) leastExponent

section

variable {x : ℚ} {log : ℤ} {m : Nat} (low : 2 ^ log ≤ x) (high : x < 2 ^ (log + 1))

include low in
/-- Where it is not the least exponent, the numbers have at least 53 bits above it. -/
theorem le_units (h : -1074 < lastPlace log) : (2 ^ 52 : ℚ) ≤ x / 2 ^ lastPlace log := by
  have : log = ((52 : Nat) : ℤ) + lastPlace log := by
    unfold lastPlace leastExponent at h ⊢
    omega
  rw [le_div_iff₀ (two_zpow_pos _), ← zpow_natCast, ← two_zpow_add, ← this]
  exact low

include high in
/-- They never have more. -/
theorem units_lt : x / 2 ^ lastPlace log < 2 ^ 53 := by
  rw [div_lt_iff₀ (two_zpow_pos _), ← zpow_natCast, ← two_zpow_add]
  refine high.trans_le (zpow_le_zpow_right₀ one_le_two ?_)
  unfold lastPlace
  omega

theorem exists_lastPlace (hlog : log ≤ 1023) : ∃ k ≤ 2045, lastPlace log = (k : Nat) - 1074 := by
  refine ⟨(lastPlace log + 1074).toNat, ?_, ?_⟩ <;>
    unfold lastPlace leastExponent <;> omega

include low high

/-- Rounding at the last place leads to the nearest magnitude. -/
theorem isNearest_of_log (rounded : RoundsTo (x / 2 ^ lastPlace log) m) :
    IsNearest x (compose m (lastPlace log)) := by
  have full := le_units low
  have fits := units_lt high
  by_cases beyond : 1024 ≤ log
  · have hlarge : 972 ≤ lastPlace log := by
      unfold lastPlace
      omega
    have hm : 2 ^ 52 ≤ m := rounded.le (by exact_mod_cast full (by omega))
    have : compose m (lastPlace log) = infinity := by
      unfold compose leastExponent infinity
      rw [Nat.shiftLeft_eq]
      omega
    rw [this]
    exact isNearest_infinity ((zpow_le_zpow_right₀ one_le_two beyond).trans low)
  · have small : log ≤ 1023 := by omega
    obtain ⟨k, bound, place⟩ := exists_lastPlace small
    have whole : x / 2 ^ lastPlace log * 2 ^ lastPlace log = x :=
      div_mul_cancel₀ _ (two_zpow_pos _).ne'
    rw [← whole]
    rw [place] at full fits rounded ⊢
    exact isNearest_compose bound (or_iff_not_imp_left.mpr fun h => full (by omega)) fits rounded

/-- What is rounded at the last place to a double is a whole number of units. -/
theorem number_compose_of_log (hlog : log ≤ 1023)
    (rounded : RoundsTo (x / 2 ^ lastPlace log) m) :
    number (compose m (lastPlace log)) = m * 2 ^ lastPlace log := by
  have full := le_units low
  have fits := units_lt high
  obtain ⟨k, bound, place⟩ := exists_lastPlace hlog
  rw [place] at full fits rounded ⊢
  have hm : m ≤ 2 ^ 53 := rounded.ge (by exact_mod_cast fits)
  obtain ⟨composed, value⟩ := number_compose bound hm
    (or_iff_not_imp_left.mpr fun h => rounded.le (by exact_mod_cast full (by omega)))
  rw [composed, value]

end

/-! ## Exact numbers -/

theorem roundsTo_natCast (n : Nat) : RoundsTo n n :=
  ⟨by linarith, by linarith, fun _ => ⟨by linarith, by linarith⟩⟩

/-- What has at most 53 bits is a whole number of units of the last place. -/
theorem exists_number_eq_of_lt {m : Nat} {q : ℤ} (hm : m < 2 ^ 53) (hq : -1074 ≤ q)
    (small : (m : ℚ) * 2 ^ q < 2 ^ (1024 : ℤ)) : ∃ b ≤ infinity, number b = m * 2 ^ q := by
  rcases Nat.eq_zero_or_pos m with rfl | pos
  · exact ⟨0, Nat.zero_le _, by rw [number_zero, Nat.cast_zero, zero_mul]⟩
  obtain ⟨low, high⟩ := log2_mul_zpow_spec pos q
  have hlog : m.log2 + q ≤ 1023 := by
    have := (zpow_lt_zpow_iff_right₀ one_lt_two).mp (low.trans_lt small)
    omega
  have bits : m.log2 < 53 := (Nat.log2_lt pos.ne').mpr hm
  obtain ⟨k, hk⟩ : ∃ k : Nat, q = k + lastPlace (m.log2 + q) := by
    refine ⟨(q - lastPlace (m.log2 + q)).toNat, ?_⟩
    unfold lastPlace leastExponent
    omega
  have units : (m : ℚ) * 2 ^ q / 2 ^ lastPlace (m.log2 + q) = (m * 2 ^ k : Nat) := by
    have power : (2 : ℚ) ^ q = 2 ^ k * 2 ^ lastPlace (m.log2 + q) := by
      rw [← zpow_natCast, ← two_zpow_add, ← hk]
    rw [power, ← mul_assoc, mul_div_cancel_right₀ _ (two_zpow_pos _).ne']
    push_cast
    rfl
  have whole := number_compose_of_log low high hlog (units ▸ roundsTo_natCast _)
  refine ⟨_, Nat.min_le_right _ _, whole.trans ?_⟩
  rw [← units, div_mul_cancel₀ _ (two_zpow_pos _).ne']

/-- The numbers of at most 53 bits in units of a power of two are numbers of magnitudes. -/
theorem exists_number_eq_mul_zpow {m : Nat} {q : ℤ} (hm : m ≤ 2 ^ 53) (hq : -1074 ≤ q)
    (small : (m : ℚ) * 2 ^ q ≤ 2 ^ (1024 : ℤ)) : ∃ b ≤ infinity, number b = m * 2 ^ q := by
  rcases small.eq_or_lt with beyond | small
  · exact ⟨infinity, le_rfl, number_infinity.trans beyond.symm⟩
  rcases hm.eq_or_lt with rfl | lt
  · have next : ((2 ^ 53 : Nat) : ℚ) * 2 ^ q = (2 ^ 52 : Nat) * 2 ^ (q + 1) := by
      rw [two_zpow_add]
      push_cast
      ring
    rw [next] at small ⊢
    exact exists_number_eq_of_lt (by norm_num) (by omega) small
  · exact exists_number_eq_of_lt lt hq small

end Ippcode.Binary64
