import Ippcode.Proofs.Numeral.HexFloat
import Ippcode.Proofs.Numeral.Product
import Ippcode.Proofs.Result

/-!
# Hexadecimal notation in machine words

The numbers of `Numeral/HexFloat` are unbounded. Here they are calculated with in machine words : a
mantissa of 64 bits, exponents that are integers of 64 bits, 128 bits where a mantissa is shifted,
and at the end a double that is multiplied by powers of two. Every operation is checked (`Fault`).

No check ever fails, and the double is the one that is read without bounds (`calculate_eq`). The
digits keep a reading within its words (`Reading.Fits.foldl`). Rounding leaves at most 53 bits
(`kept_le`), so one multiplication after another is exact (`ofMagnitude_scaled_mul`), and two of
them suffice for every exponent of a double (`scaling_eq`).
-/

namespace Ippcode.Numeral.Hex

open Ippcode.Binary64

/-! ## Checked operations -/

/-- What can go wrong with an operation. -/
inductive Fault where
  /-- A mantissa of more than 64 bits. -/
  | mantissa
  /-- An exponent beyond the 64-bit range. -/
  | exponent
  /-- A shift by less than no bits, or by more than 65. -/
  | amount
  /-- More than 128 bits. -/
  | wide
  /-- Digits were left off of a mantissa that fits a double. -/
  | sticky
  /-- An integer that has no double, or more than 53 bits. -/
  | significand
  /-- A product that is not exact, and not the last one either. -/
  | product
  /-- Too many multiplications. -/
  | steps
  deriving DecidableEq, Repr

namespace Checked

def check (fault : Fault) (p : Prop) [Decidable p] (a : α) : Except Fault α :=
  if p then .ok a else .error fault

theorem check_eq {fault : Fault} {p : Prop} [Decidable p] {a : α} (h : p) :
    check fault p a = .ok a := if_pos h

def uint64 (n : Nat) : Except Fault Nat := check .mantissa (n < 2 ^ 64) n

def int64 (n : Int) : Except Fault Int := check .exponent (-2 ^ 63 ≤ n ∧ n < 2 ^ 63) n

def uint128 (n : Nat) : Except Fault Nat := check .wide (n < 2 ^ 128) n

/-- The number of bits to shift by. -/
def amount (n : Int) : Except Fault Nat := check .amount (0 ≤ n ∧ n ≤ 65) n.toNat

/-! ## Digits -/

/-- A further digit behind a mantissa. -/
def takeDigit (m d : Nat) : Except Fault Nat := do
  let shifted ← uint64 (m * 16)
  uint64 (shifted + d)

/-- A further digit in front of the point. -/
def pushWhole (r : Reading) (d : Nat) : Except Fault Reading :=
  if r.mantissa < mantissaLimit then do
    let mantissa ← takeDigit r.mantissa d
    .ok { r with mantissa }
  else .ok { r with shift := saturate (r.shift + 4), sticky := r.sticky || d != 0 }

/-- A further digit after the point. -/
def pushFraction (r : Reading) (d : Nat) : Except Fault Reading :=
  if r.mantissa < mantissaLimit then do
    let mantissa ← takeDigit r.mantissa d
    .ok { r with mantissa, shift := saturate (r.shift - 4) }
  else .ok { r with sticky := r.sticky || d != 0 }

/-- All digits up to the end, or none if something else is among them. -/
def pushAll (push : Reading → Nat → Except Fault Reading) :
    Reading → List Char → Except Fault (Option Reading)
  | r, [] => .ok (some r)
  | r, c :: cs =>
    match digit? 16 c with
    | none => .ok none
    | some d => do
      let r ← push r d
      pushAll push r cs

/-! ## Rounding -/

/-- The mantissa without its last bits, rounded to nearest, ties to even. -/
def kept (r : Reading) (drop : Int) : Except Fault Nat := do
  let unit ← uint128 (1 <<< (← amount drop))
  let dropped := r.mantissa &&& (unit - 1)
  let half ← uint128 (1 <<< (← amount (drop - 1)))
  let kept := r.mantissa >>> (← amount drop)
  if half < dropped ∨ (dropped = half ∧ (r.sticky ∨ kept % 2 = 1)) then uint128 (kept + 1)
  else .ok kept

/-- The double of an integer of at most 53 bits. -/
def significand (n : Nat) : Except Fault Float :=
  check .significand (n ≤ 2 ^ 53 ∧ number (magnitude (Binary64.ofInt n)) = n) (Binary64.ofInt n)

/-- The power of two with this exponent. -/
def power (k : Int) : Float := ofMagnitude false (scaled 1 k)

/-- The product with a power of two. It is exact, or it is the infinity and nothing remains to be
multiplied by. -/
def product (x : Float) (k remaining : Int) : Except Fault Float :=
  let y := x * power k
  check .product ((isFinite y ∧ number (magnitude y) = number (magnitude x) * 2 ^ k) ∨
    (magnitude y = infinity ∧ remaining = 0)) y

/-- The double times `2 ^ q`, in this number of steps or fewer. A single power of two that a step
multiplies by is that of a double. -/
def scaling (steps : Nat) (x : Float) (q : Int) : Except Fault Float :=
  if q = 0 then .ok x
  else
    match steps with
    | 0 => .error .steps
    | steps + 1 => do
      let step := max (-1000) (min q 1000)
      let remaining ← int64 (q - step)
      let y ← product x step remaining
      scaling steps y remaining

/-- The double `m * 2 ^ q`, if it is finite. -/
def finish (m : Nat) (q : Int) : Except Fault (Option Float) := do
  let x ← significand m
  let y ← scaling 2 x q
  .ok (if isFinite y then some y else none)

/-- The number of bits of a double with this leading bit. -/
def precision (top : Int) : Except Fault Int := if -1022 ≤ top then .ok 53 else int64 (top + 1075)

/-- The nearest double to what was read, if it is finite. -/
def round (r : Reading) : Except Fault (Option Float) := do
  check .sticky (r.sticky → 0 < r.drop) ()
  let bits ← int64 r.bits
  let height ← int64 (bits - 1)
  let top := saturate (r.shift + height)
  if 1023 < top then .ok none
  else do
    let precision ← precision top
    let drop ← int64 (bits - precision)
    if 0 < drop then
      if dropLimit < drop then .ok (some (ofMagnitude false 0))
      else do
        let m ← kept r drop
        let q ← int64 (r.shift + drop)
        finish m q
    else finish r.mantissa r.shift

/-! ## Reading -/

/-- The double that a text after the mark `0x` writes. -/
def calculate (cs : List Char) : Except Fault (Option Float) :=
  match splitExponent? cs with
  | none => .ok none
  | some (digits, exponent) =>
    let (whole, fraction) := splitPoint digits
    if whole.isEmpty && fraction.isEmpty then .ok none
    else do
      let some r ← pushAll pushWhole ⟨0, exponent, false⟩ whole | .ok none
      let some r ← pushAll pushFraction r fraction | .ok none
      if r.mantissa = 0 then .ok (some (ofMagnitude false 0)) else round r

end Checked

/-! ## Readings in words -/

/-- A reading within its words. Only of a long mantissa digits were left off. -/
structure Reading.Fits (r : Reading) : Prop where
  mantissa : r.mantissa < 2 ^ 64
  least : -2 ^ 63 ≤ r.shift
  greatest : r.shift < 2 ^ 63
  long : r.sticky = true → 2 ^ 60 ≤ r.mantissa

theorem saturate_mem (n : ℤ) : -2 ^ 63 ≤ saturate n ∧ saturate n < 2 ^ 63 := by
  rw [saturate_eq]
  omega

section

variable {r : Reading} {d : Nat}

theorem Reading.Fits.pushWhole (h : r.Fits) (hd : d < 16) : (r.pushWhole d).Fits := by
  have bound := Reading.mantissa_pushWhole_lt h.mantissa hd
  have saturated := saturate_mem (r.shift + 4)
  unfold Reading.pushWhole at bound ⊢
  split at bound
  · rename_i short
    rw [if_pos short]
    exact ⟨bound, h.least, h.greatest, fun sticky => absurd (h.long sticky) (not_le.mpr short)⟩
  · rename_i full
    rw [if_neg full]
    exact ⟨bound, saturated.1, saturated.2, fun _ => not_lt.mp full⟩

theorem Reading.Fits.pushFraction (h : r.Fits) (hd : d < 16) : (r.pushFraction d).Fits := by
  have bound := Reading.mantissa_pushFraction_lt h.mantissa hd
  have saturated := saturate_mem (r.shift - 4)
  unfold Reading.pushFraction at bound ⊢
  split at bound
  · rename_i short
    rw [if_pos short]
    exact ⟨bound, saturated.1, saturated.2, fun sticky => absurd (h.long sticky) (not_le.mpr short)⟩
  · rename_i full
    rw [if_neg full]
    exact ⟨bound, h.least, h.greatest, fun _ => not_lt.mp full⟩

/-- If every digit keeps a reading within its words, so do all digits. -/
theorem Reading.Fits.foldl {f : Reading → Nat → Reading}
    (step : ∀ {r d}, Reading.Fits r → d < 16 → (f r d).Fits) :
    ∀ {ds : List Nat} {r : Reading}, (∀ d ∈ ds, d < 16) → r.Fits → (ds.foldl f r).Fits
  | [], _, _, h => h
  | d :: _, _, digits, h => by
    obtain ⟨digit, digits⟩ := List.forall_mem_cons.mp digits
    rw [List.foldl_cons]
    exact foldl step digits (step h digit)

end

namespace Checked

variable {r : Reading} {d m : Nat} {q k : ℤ}

theorem takeDigit_eq (hm : m < mantissaLimit) (hd : d < 16) :
    takeDigit m d = .ok (m * 16 + d) := by
  have hm : m < 2 ^ 60 := hm
  unfold takeDigit uint64
  rw [check_eq (by omega), ok_bind, check_eq (by omega)]

theorem pushWhole_eq (hd : d < 16) : pushWhole r d = .ok (r.pushWhole d) := by
  unfold pushWhole Reading.pushWhole
  split
  · rename_i short
    rw [takeDigit_eq short hd, ok_bind]
  · rfl

theorem pushFraction_eq (hd : d < 16) : pushFraction r d = .ok (r.pushFraction d) := by
  unfold pushFraction Reading.pushFraction
  split
  · rename_i short
    rw [takeDigit_eq short hd, ok_bind]
  · rfl

/-- If no digit fails a check, all digits of a text do not. -/
theorem pushAll_eq {push : Reading → Nat → Except Fault Reading} {f : Reading → Nat → Reading}
    (step : ∀ {r d}, d < 16 → push r d = .ok (f r d)) : ∀ (cs : List Char) (r : Reading),
      pushAll push r cs = .ok ((cs.mapM (digit? 16)).map fun ds => ds.foldl f r)
  | [], _ => rfl
  | c :: cs, r => by
    unfold pushAll
    rw [List.mapM_cons]
    cases read : digit? 16 c with
    | none => rfl
    | some d =>
      have digit : d < 16 := by
        have := digits_lt (.cons ((digit?_eq_some_iff le_rfl).mp read) .nil)
        exact this d (List.mem_singleton_self d)
      simp only [step digit, ok_bind, pushAll_eq step cs]
      cases cs.mapM (digit? 16) <;> rfl

/-! ## Multiplication by powers of two -/

/-- The number `m * 2 ^ q` is that of a finite double. -/
structure IsDouble (m : Nat) (q : ℤ) : Prop where
  short : m ≤ 2 ^ 53
  least : -1074 ≤ q
  small : (m : ℚ) * 2 ^ q < 2 ^ (1024 : ℤ)

theorem mul_zpow_le (m : Nat) {p q : ℤ} (h : p ≤ q) : (m : ℚ) * 2 ^ p ≤ m * 2 ^ q :=
  mul_le_mul_of_nonneg_left (zpow_le_zpow_right₀ one_le_two h) m.cast_nonneg

theorem IsDouble.number_scaled (h : IsDouble m q) : number (scaled m q) = m * 2 ^ q := by
  obtain ⟨b, hb, value⟩ := exists_number_eq_mul_zpow h.short h.least h.small.le
  have exact := isNearest_number hb
  rw [value] at exact
  rw [(Reading.isNearest_scaled m q).unique exact, value]

theorem IsDouble.scaled_lt (h : IsDouble m q) : scaled m q < infinity := by
  rw [← number_strictMono.lt_iff_lt, h.number_scaled, number_infinity]
  exact h.small

theorem magnitude_scaled (m : Nat) (q : ℤ) :
    magnitude (ofMagnitude false (scaled m q)) = scaled m q :=
  magnitude_ofMagnitude (Reading.isNearest_scaled m q).le_infinity

theorem isFinite_scaled_iff : isFinite (ofMagnitude false (scaled m q)) = true ↔
    scaled m q < infinity := by
  rw [isFinite_iff, magnitude_scaled]

/-- The exponents of doubles are those of powers of two. -/
theorem isDouble_one (low : -1000 ≤ k) (high : k ≤ 1000) : IsDouble 1 k := by
  refine ⟨by norm_num, by omega, ?_⟩
  rw [Nat.cast_one, one_mul]
  exact zpow_lt_zpow_right₀ one_lt_two (by omega)

/-- A double times a power of two is the nearest double to the product. -/
theorem ofMagnitude_scaled_mul (h : IsDouble m q) (low : -1000 ≤ k) (high : k ≤ 1000) :
    ofMagnitude false (scaled m q) * power k = ofMagnitude false (scaled m (q + k)) := by
  have one := isDouble_one low high
  have hx := isFinite_scaled_iff.mpr h.scaled_lt
  have hy := isFinite_scaled_iff.mpr one.scaled_lt
  have nearest := isNearest_mul hx hy
  have sign := isNegative_mul hx hy
  rw [magnitude_scaled, magnitude_scaled, h.number_scaled, one.number_scaled, Nat.cast_one,
    one_mul, mul_assoc, ← two_zpow_add] at nearest
  rw [isNegative_ofMagnitude (Reading.isNearest_scaled m q).le_infinity,
    isNegative_ofMagnitude (Reading.isNearest_scaled 1 k).le_infinity] at sign
  have same := nearest.unique (Reading.isNearest_scaled m (q + k))
  have parts :=
    ofMagnitude_magnitude (ofMagnitude false (scaled m q) * ofMagnitude false (scaled 1 k))
  rw [sign, same] at parts
  exact parts.symm

/-- The product is exact, unless it is beyond the doubles. -/
theorem product_eq {remaining : ℤ} (h : IsDouble m q) (low : -1000 ≤ k) (high : k ≤ 1000)
    (least : -1074 ≤ q + k) (small : remaining ≠ 0 → (m : ℚ) * 2 ^ (q + k) < 2 ^ (1024 : ℤ)) :
    product (ofMagnitude false (scaled m q)) k remaining
      = .ok (ofMagnitude false (scaled m (q + k))) := by
  unfold product
  simp only [ofMagnitude_scaled_mul h low high, magnitude_scaled]
  refine check_eq ?_
  by_cases fits : (m : ℚ) * 2 ^ (q + k) < 2 ^ (1024 : ℤ)
  · have next : IsDouble m (q + k) := ⟨h.short, least, fits⟩
    refine .inl ⟨isFinite_scaled_iff.mpr next.scaled_lt, ?_⟩
    rw [next.number_scaled, h.number_scaled, mul_assoc, ← two_zpow_add]
  · refine .inr ⟨?_, by_contra fun more => fits (small more)⟩
    exact (Reading.isNearest_scaled m (q + k)).unique (isNearest_infinity (not_lt.mp fits))

/-- A step comes no closer to the ends of the range of doubles than the exponent that it leads
to. -/
theorem IsDouble.step {p : ℤ} (h : IsDouble m q) (least : -1074 ≤ q + p)
    (small : 1000 < p → (m : ℚ) * 2 ^ (q + p) < 2 ^ (1024 : ℤ))
    (more : p - max (-1000) (min p 1000) ≠ 0) : IsDouble m (q + max (-1000) (min p 1000)) := by
  have above := h.least
  refine ⟨h.short, by omega, ?_⟩
  rcases le_or_gt p 0 with down | up
  · exact (mul_zpow_le m (by omega)).trans_lt h.small
  · exact (mul_zpow_le m (by omega)).trans_lt (small (by omega))

/-- Each thousand of an exponent takes one step. -/
theorem scaling_eq : ∀ (steps : Nat) {q p : ℤ}, p.natAbs ≤ 1000 * steps →
    -2 ^ 63 ≤ p ∧ p < 2 ^ 63 → IsDouble m q → -1074 ≤ q + p →
    (1000 < p → (m : ℚ) * 2 ^ (q + p) < 2 ^ (1024 : ℤ)) →
    scaling steps (ofMagnitude false (scaled m q)) p = .ok (ofMagnitude false (scaled m (q + p)))
  | 0, q, p, few, _, _, _, _ => by
    obtain rfl : p = 0 := by omega
    rw [add_zero]
    rfl
  | steps + 1, q, p, few, range, h, least, small => by
    unfold scaling
    split
    · rename_i zero
      rw [zero, add_zero]
    · have above := h.least
      generalize hstep : max (-1000) (min p 1000) = step
      have next : p - step ≠ 0 → IsDouble m (q + step) := by
        subst hstep
        exact h.step least small
      have multiplied : product (ofMagnitude false (scaled m q)) step (p - step)
          = .ok (ofMagnitude false (scaled m (q + step))) :=
        product_eq h (by omega) (by omega) (by omega) fun more => (next more).small
      have inRange : int64 (p - step) = .ok (p - step) := check_eq (by omega)
      simp only [inRange, multiplied, ok_bind]
      rcases eq_or_ne (p - step) 0 with last | more
      · obtain rfl : p = step := by omega
        rw [last]
        unfold scaling
        rfl
      · have rest : q + step + (p - step) = q + p := by omega
        have ih := scaling_eq steps (p := p - step) (by omega) (by omega) (next more)
          (rest ▸ least) fun great => rest ▸ small (by omega)
        rwa [rest] at ih

/-- Two steps lead to every exponent of a double. -/
theorem finish_eq (short : m ≤ 2 ^ 53) (least : -1074 ≤ q) (greatest : q ≤ 1023)
    (small : 1000 < q → (m : ℚ) * 2 ^ q < 2 ^ (1024 : ℤ)) : finish m q = .ok
      ((if scaled m q < infinity then some (scaled m q) else none).map (ofMagnitude false)) := by
  have whole : IsDouble m 0 := by
    refine ⟨short, by decide, ?_⟩
    rw [zpow_zero, mul_one]
    calc (m : ℚ) ≤ 2 ^ (53 : ℤ) := by exact_mod_cast short
      _ < 2 ^ (1024 : ℤ) := zpow_lt_zpow_right₀ one_lt_two (by decide)
  have start : Binary64.ofInt m = ofMagnitude false (scaled m 0) := by
    have sign : decide ((m : ℤ) < 0) = false := decide_eq_false (by omega)
    rw [Binary64.ofInt, sign]
    rfl
  have multiplied := scaling_eq 2 (p := q) (by omega) (by omega) whole (by omega)
  rw [zero_add] at multiplied
  unfold finish significand
  rw [start, magnitude_scaled, whole.number_scaled, zpow_zero, mul_one, check_eq ⟨short, rfl⟩,
    ok_bind, multiplied small, ok_bind]
  simp only [isFinite_scaled_iff]
  split <;> rfl

/-! ## Rounding in words -/

theorem kept_eq (h : r.Fits) {drop : ℤ} (low : 0 < drop) (high : drop ≤ 65) :
    kept r drop = .ok (r.kept drop.toNat) := by
  obtain ⟨k, rfl⟩ := Int.eq_ofNat_of_zero_le low.le
  have power {n : Nat} (hn : n ≤ 65) : 1 <<< n < 2 ^ 128 := by
    rw [Nat.one_shiftLeft]
    exact Nat.pow_lt_pow_right one_lt_two (by omega)
  have whole : amount (k : ℤ) = .ok k := check_eq (by omega)
  have half : amount ((k : ℤ) - 1) = .ok (k - 1) := by
    unfold amount
    rw [check_eq (by omega)]
    congr 1
    omega
  have unit : uint128 (1 <<< k) = .ok (1 <<< k) := check_eq (power (by omega))
  have middle : uint128 (1 <<< (k - 1)) = .ok (1 <<< (k - 1)) := check_eq (power (by omega))
  have shifted : r.mantissa >>> k ≤ r.mantissa := Nat.shiftRight_le _ _
  have next : uint128 (r.mantissa >>> k + 1) = .ok (r.mantissa >>> k + 1) := by
    have := h.mantissa
    exact check_eq (by omega)
  have dropped : r.mantissa &&& (1 <<< k - 1) = r.mantissa % (1 <<< k) := by
    rw [Nat.one_shiftLeft, Nat.and_two_pow_sub_one_eq_mod]
  unfold kept Reading.kept
  simp only [whole, half, unit, middle, next, dropped, ok_bind, Int.toNat_natCast]
  split <;> rfl

/-- What is kept of a mantissa has at most 53 bits, or rounding has carried it to the next power of
two. -/
theorem kept_le {j : Nat} (fits : r.mantissa < 2 ^ (j + 53)) : r.kept j ≤ 2 ^ 53 := by
  have front : r.mantissa >>> j < 2 ^ 53 := by
    rw [Nat.shiftRight_eq_div_pow, Nat.div_lt_iff_lt_mul (Nat.two_pow_pos j), ← pow_add, add_comm]
    exact fits
  unfold Reading.kept
  dsimp only
  split <;> omega

theorem bits_le (h : r.Fits) : 1 ≤ r.bits ∧ r.bits ≤ 64 := by
  unfold Reading.bits
  have short : r.mantissa.log2 < 64 := by
    rcases Nat.eq_zero_or_pos r.mantissa with zero | positive
    · rw [zero]
      decide
    · exact (Nat.log2_lt positive.ne').mpr h.mantissa
  omega

theorem precision_le (r : Reading) : r.precision ≤ 53 := by
  unfold Reading.precision
  split <;> omega

/-- Of a mantissa that digits were left off of, bits do not fit. -/
theorem drop_pos (h : r.Fits) (sticky : r.sticky = true) : 0 < r.drop := by
  have long := h.long sticky
  have high := (Nat.le_log2 (by omega)).mpr long
  have precision := precision_le r
  unfold Reading.drop Reading.bits
  omega

/-- Without its checks rounding is this. -/
theorem round_eq_ite (h : r.Fits) : round r =
    if 1023 < r.top then .ok none
    else if 0 < r.drop then
      if dropLimit < r.drop then .ok (some (ofMagnitude false 0))
      else do
        let m ← kept r r.drop
        let q ← int64 (r.shift + r.drop)
        finish m q
    else finish r.mantissa r.shift := by
  obtain ⟨one, few⟩ := bits_le h
  have least := h.least
  have greatest := h.greatest
  have sticky : check .sticky (r.sticky → 0 < r.drop) () = .ok () := check_eq (drop_pos h)
  have bits : int64 r.bits = .ok r.bits := check_eq (by omega)
  have height : int64 (r.bits - 1) = .ok (r.bits - 1) := check_eq (by omega)
  have range : -2 ^ 63 ≤ r.top ∧ r.top < 2 ^ 63 := saturate_mem _
  have precision : precision r.top = .ok r.precision := by
    unfold precision Reading.precision
    split
    · rfl
    · exact check_eq (by omega)
  have drop : int64 (r.bits - r.precision) = .ok r.drop := by
    refine check_eq ?_
    unfold Reading.precision
    split <;> omega
  have top : saturate (r.shift + (r.bits - 1)) = r.top := rfl
  unfold round
  simp only [sticky, bits, height, top, precision, drop, ok_bind]

/-- The exponents that rounding leads to are those of doubles. -/
theorem places (h : r.Fits) (finite : r.top ≤ 1023) :
    (0 < r.drop → r.drop ≤ dropLimit → r.bits ≤ r.drop + 53 ∧
      -1074 ≤ r.shift + r.drop ∧ r.shift + r.drop ≤ 971) ∧
    (r.drop ≤ 0 → r.bits ≤ 53 ∧ -1074 ≤ r.shift ∧ r.shift + r.bits ≤ 1024) := by
  obtain ⟨one, few⟩ := bits_le h
  have least := h.least
  have greatest := h.greatest
  unfold Reading.drop Reading.precision dropLimit
  unfold Reading.top at finite ⊢
  rw [saturate_eq] at finite ⊢
  split_ifs <;> omega

/-- Rounding never fails a check, and it gives the nearest double. -/
theorem round_eq (h : r.Fits) (positive : 0 < r.mantissa) :
    round r = .ok (r.magnitude?.map (ofMagnitude false)) := by
  have fits : r.mantissa < 2 ^ (r.mantissa.log2 + 1) := Nat.lt_log2_self
  have bits : r.bits = r.mantissa.log2 + 1 := rfl
  rw [round_eq_ite h, Reading.magnitude?, if_neg positive.ne']
  by_cases great : 1023 < r.top
  · rw [if_pos great, if_pos great]
    rfl
  rw [if_neg great, if_neg great]
  obtain ⟨rounded, whole⟩ := places h (not_lt.mp great)
  by_cases more : 0 < r.drop
  · rw [if_pos more, if_pos more]
    by_cases tiny : dropLimit < r.drop
    · rw [if_pos tiny, if_pos tiny]
      rfl
    · rw [if_neg tiny, if_neg tiny]
      obtain ⟨few, least, greatest⟩ := rounded more (not_lt.mp tiny)
      have short : r.kept r.drop.toNat ≤ 2 ^ 53 :=
        kept_le (fits.trans_le (Nat.pow_le_pow_right two_pos (by omega)))
      have place : int64 (r.shift + r.drop) = .ok (r.shift + r.drop) := check_eq (by omega)
      rw [kept_eq h more (not_lt.mp tiny), ok_bind, place, ok_bind,
        finish_eq short least (by omega) (by omega)]
  · obtain ⟨few, least, greatest⟩ := whole (not_lt.mp more)
    have tiny : ¬ dropLimit < r.drop := by
      unfold dropLimit
      omega
    have short : r.mantissa ≤ 2 ^ 53 :=
      (fits.trans_le (Nat.pow_le_pow_right two_pos (by omega))).le
    have small : (r.mantissa : ℚ) * 2 ^ r.shift < 2 ^ (1024 : ℤ) :=
      (log2_mul_zpow_spec positive r.shift).2.trans_le
        (zpow_le_zpow_right₀ one_le_two (by omega))
    rw [if_neg more, if_neg tiny, if_neg more, finish_eq short least (by omega) fun _ => small]

/-! ## Reading in words -/

/-- The exponent that a text writes, with no digits yet. -/
theorem fits_of_splitExponent? {cs digits : List Char} {e : ℤ}
    (h : splitExponent? cs = some (digits, e)) : Reading.Fits ⟨0, e, false⟩ := by
  obtain ⟨-, exponent, -, written⟩ := splitExponent?_eq_some_iff.mp h
  exact ⟨by norm_num, (range_of_isExponent written).1, (range_of_isExponent written).2, nofun⟩

/-- No check fails with any text, and its double is found. -/
theorem calculate_eq (cs : List Char) :
    calculate cs = .ok (((read? cs).bind Reading.magnitude?).map (ofMagnitude false)) := by
  rw [read?_eq]
  unfold calculate
  cases split : splitExponent? cs with
  | none => rfl
  | some parts =>
    obtain ⟨digits, e⟩ := parts
    simp only [Option.bind_some]
    rcases splitPoint digits with ⟨whole, fraction⟩
    dsimp only
    by_cases empty : (whole.isEmpty && fraction.isEmpty) = true
    · rw [if_pos empty, if_pos empty]
      rfl
    rw [if_neg empty, if_neg empty]
    have fits := fits_of_splitExponent? split
    rw [pushAll_eq pushWhole_eq, ok_bind]
    cases hws : whole.mapM (digit? 16) with
    | none => rfl
    | some ws =>
      have fits := fits.foldl Reading.Fits.pushWhole (digits_lt (mapM_digit?_eq_some_iff.mp hws))
      simp only [Option.map_some, Option.bind_some, pushAll_eq pushFraction_eq, ok_bind]
      cases hfs : fraction.mapM (digit? 16) with
      | none => rfl
      | some fs =>
        have fits :=
          fits.foldl Reading.Fits.pushFraction (digits_lt (mapM_digit?_eq_some_iff.mp hfs))
        simp only [Option.map_some, Option.bind_some]
        split
        · rename_i zero
          rw [Reading.magnitude?, if_pos zero]
          rfl
        · rename_i nonzero
          exact round_eq fits (Nat.pos_of_ne_zero nonzero)

/-- No check fails with any text, nor when any reading within its words is rounded. The doubles are
those of the calculation without bounds. -/
theorem calculation_is_safe :
    (∀ cs, calculate cs = .ok (((read? cs).bind Reading.magnitude?).map (ofMagnitude false))) ∧
    ∀ r : Reading, 0 < r.mantissa → r.Fits →
      round r = .ok (r.magnitude?.map (ofMagnitude false)) :=
  ⟨calculate_eq, fun _ positive fits => round_eq fits positive⟩

/-- A number that is rounded up beyond the doubles, and readings with the ends of the 64-bit range
for an exponent. -/
theorem calculation_is_safe_ends :
    calculate "1.fffffffffffff8p1023".toList = .ok none ∧
    round ⟨2 ^ 64 - 1, 2 ^ 63 - 1, true⟩ = .ok none ∧
    round ⟨2 ^ 60, -2 ^ 63, true⟩ = .ok (some (ofMagnitude false 0)) := by
  have greatest : Reading.Fits ⟨2 ^ 64 - 1, 2 ^ 63 - 1, true⟩ :=
    ⟨by decide, by decide, by decide, by decide⟩
  have least : Reading.Fits ⟨2 ^ 60, -2 ^ 63, true⟩ :=
    ⟨by decide, by decide, by decide, by decide⟩
  have carried : (read? "1.fffffffffffff8p1023".toList).bind Reading.magnitude? = none := by
    decide +kernel
  have beyond : Reading.magnitude? ⟨2 ^ 64 - 1, 2 ^ 63 - 1, true⟩ = none := by decide +kernel
  have tiny : Reading.magnitude? ⟨2 ^ 60, -2 ^ 63, true⟩ = some 0 := by decide +kernel
  refine ⟨?_, ?_, ?_⟩
  · rw [calculation_is_safe.1, carried]
    rfl
  · rw [calculation_is_safe.2 _ (by decide) greatest, beyond]
    rfl
  · rw [calculation_is_safe.2 _ (by decide) least, tiny]
    rfl

end Checked

end Ippcode.Numeral.Hex
