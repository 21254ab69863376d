import Ippcode.Proofs.Numeral.Grammar
import Ippcode.Proofs.Numeral.Rounding

/-!
# Hexadecimal notation is correctly rounded

A reading keeps the leading bits of a number and whether anything else is left of it (`Cuts`), and
every further digit keeps it so (`Cuts.pushWhole`, `Cuts.pushFraction`). That suffices to round the
number at every place behind the leading ones (`Cuts.kept_eq`), and so `Reading.magnitude?` finds
the magnitude that is nearest to the whole number (`Cuts.magnitude?_eq`).

Exactly what the hexadecimal script writes is read (`read?_eq_some_iff`).
-/

namespace Ippcode.Numeral

open Ippcode.Binary64

namespace Hex

/-! ## What is kept of a number -/

theorem saturate_eq (n : ℤ) : saturate n = max (-2 ^ 63) (min n (2 ^ 63 - 1)) := rfl

/-- The reading keeps the number `n * 2 ^ e` without the last `k` bits of `n`, and whether these
are all zero. Only a long mantissa is cut. -/
structure Reading.Cuts (r : Reading) (n : Nat) (e : ℤ) (k : Nat) : Prop where
  mantissa : r.mantissa = n / 2 ^ k
  shift : r.shift = saturate (e + k)
  sticky : r.sticky = true ↔ n % 2 ^ k ≠ 0
  fits : r.mantissa < 2 ^ 64
  long : k = 0 ∨ 2 ^ 60 ≤ r.mantissa

namespace Reading

variable {r : Reading} {n k d : Nat} {e : ℤ}

theorem Cuts.exact (h : r.Cuts n e k) (short : r.mantissa < 2 ^ 60) :
    k = 0 ∧ r.mantissa = n := by
  have hk : k = 0 := h.long.resolve_right (by omega)
  have hn := h.mantissa
  rw [hk, pow_zero, Nat.div_one] at hn
  exact ⟨hk, hn⟩

/-- A digit behind a mantissa that takes up no more is left off with the others. -/
theorem Cuts.leave (h : r.Cuts n e k) (long : 2 ^ 60 ≤ r.mantissa) (hd : d < 16) {shift e' : ℤ}
    (hshift : shift = saturate (e' + (k + 4 : Nat))) :
    Cuts ⟨r.mantissa, shift, r.sticky || d != 0⟩ (n * 16 + d) e' (k + 4) := by
  have power : 2 ^ (k + 4) = 16 * 2 ^ k := by
    rw [pow_add]
    ring
  have front : (n * 16 + d) / 16 = n := by omega
  have back : (n * 16 + d) % 16 = d := by omega
  refine ⟨?_, hshift, ?_, h.fits, .inr long⟩
  · rw [power, ← Nat.div_div_eq_div_mul, front]
    exact h.mantissa
  · rw [power, Nat.mod_mul, front, back, Bool.or_eq_true, h.sticky, bne_iff_ne]
    omega

/-- A digit is taken up by a short mantissa. -/
theorem Cuts.take (h : r.Cuts n e k) (short : r.mantissa < 2 ^ 60) (hd : d < 16) {shift e' : ℤ}
    (hshift : shift = saturate e') :
    Cuts ⟨r.mantissa * 16 + d, shift, r.sticky⟩ (n * 16 + d) e' 0 := by
  obtain ⟨rfl, hn⟩ := h.exact short
  have nothing : ¬ r.sticky = true := by
    rw [h.sticky, pow_zero, Nat.mod_one]
    exact fun ne => ne rfl
  refine ⟨?_, ?_, ?_, ?_, .inl rfl⟩
  · rw [hn, pow_zero, Nat.div_one]
  · rw [hshift, Nat.cast_zero, add_zero]
  · rw [pow_zero, Nat.mod_one]
    exact iff_of_false nothing fun ne => ne rfl
  · show r.mantissa * 16 + d < 2 ^ 64
    omega

/-- A digit in front of the point. -/
theorem Cuts.pushWhole (h : r.Cuts n e k) (he : -2 ^ 63 ≤ e) (hd : d < 16) :
    ∃ k, (r.pushWhole d).Cuts (n * 16 + d) e k := by
  unfold Reading.pushWhole
  have limit : mantissaLimit = 2 ^ 60 := rfl
  have hshift := h.shift
  split
  · rename_i short
    obtain ⟨rfl, -⟩ := h.exact short
    exact ⟨0, h.take short hd (by rwa [Nat.cast_zero, add_zero] at hshift)⟩
  · rename_i long
    refine ⟨k + 4, h.leave (not_lt.mp long) hd ?_⟩
    rw [hshift, saturate_eq, saturate_eq, saturate_eq]
    omega

/-- A digit after the point. -/
theorem Cuts.pushFraction (h : r.Cuts n e k) (he : e < 2 ^ 63) (hd : d < 16) :
    ∃ k, (r.pushFraction d).Cuts (n * 16 + d) (e - 4) k := by
  unfold Reading.pushFraction
  have limit : mantissaLimit = 2 ^ 60 := rfl
  have hshift := h.shift
  split
  · rename_i short
    obtain ⟨rfl, -⟩ := h.exact short
    refine ⟨0, h.take short hd ?_⟩
    rw [hshift, saturate_eq, saturate_eq, saturate_eq]
    omega
  · rename_i long
    refine ⟨k + 4, h.leave (not_lt.mp long) hd ?_⟩
    rw [hshift]
    congr 1
    omega

theorem Cuts.foldl_pushWhole (he : -2 ^ 63 ≤ e) : ∀ {ds : List Nat} {r : Reading} {n k : Nat},
    (∀ d ∈ ds, d < 16) → r.Cuts n e k →
      ∃ k, (ds.foldl Reading.pushWhole r).Cuts (ds.foldl (fun n d => n * 16 + d) n) e k
  | [], _, _, k, _, h => ⟨k, h⟩
  | d :: _, _, _, _, digits, h => by
    obtain ⟨_, h⟩ := h.pushWhole he (digits d List.mem_cons_self)
    obtain ⟨k, h⟩ := h.foldl_pushWhole he fun d hd => digits d (List.mem_cons_of_mem _ hd)
    exact ⟨k, h⟩

theorem Cuts.foldl_pushFraction : ∀ {ds : List Nat} {r : Reading} {n k : Nat} {e : ℤ},
    e < 2 ^ 63 → (∀ d ∈ ds, d < 16) → r.Cuts n e k →
      ∃ k, (ds.foldl Reading.pushFraction r).Cuts (ds.foldl (fun n d => n * 16 + d) n)
        (e - 4 * ds.length) k
  | [], _, _, k, _, _, _, h => ⟨k, by simpa using h⟩
  | d :: ds, _, _, _, e, he, digits, h => by
    obtain ⟨_, h⟩ := h.pushFraction he (digits d List.mem_cons_self)
    obtain ⟨k, h⟩ := h.foldl_pushFraction (by omega) fun d hd =>
      digits d (List.mem_cons_of_mem _ hd)
    have same : e - 4 - 4 * (ds.length : ℤ) = e - 4 * ((d :: ds).length : ℤ) := by
      rw [List.length_cons]
      push_cast
      ring
    exact ⟨k, same ▸ h⟩

/-- What is read of digits with a point among them. -/
theorem exists_cuts {ws fs : List Nat} (least : -2 ^ 63 ≤ e) (greatest : e < 2 ^ 63)
    (whole : ∀ d ∈ ws, d < 16) (fraction : ∀ d ∈ fs, d < 16) :
    ∃ k, (fs.foldl Reading.pushFraction (ws.foldl Reading.pushWhole ⟨0, e, false⟩)).Cuts
      (Nat.ofDigits 16 (ws ++ fs).reverse) (e - 4 * fs.length) k := by
  have nothing : Cuts ⟨0, e, false⟩ 0 e 0 := by
    refine ⟨rfl, ?_, by simp, by norm_num, .inl rfl⟩
    show e = saturate (e + 0)
    rw [saturate_eq]
    omega
  obtain ⟨_, h⟩ := nothing.foldl_pushWhole least whole
  obtain ⟨k, h⟩ := h.foldl_pushFraction greatest fraction
  rw [← List.foldl_append, foldl_digits, Nat.zero_mul, Nat.zero_add] at h
  exact ⟨k, h⟩

/-! ## Rounding -/

/-- What is kept suffices to round the number to a whole number of higher units. -/
theorem Cuts.kept_eq (h : r.Cuts n e k) {j : Nat} (hj : 0 < j) :
    r.kept j = roundHalfEven n (2 ^ (k + j)) := by
  obtain ⟨i, rfl⟩ : ∃ i, j = i + 1 := ⟨j - 1, by omega⟩
  have front : n / 2 ^ (k + (i + 1)) = r.mantissa / 2 ^ (i + 1) := by
    rw [h.mantissa, Nat.div_div_eq_div_mul, pow_add]
  have back : n % 2 ^ (k + (i + 1)) = n % 2 ^ k + 2 ^ k * (r.mantissa % 2 ^ (i + 1)) := by
    rw [h.mantissa, pow_add, Nat.mod_mul]
  have unit : 2 ^ (k + (i + 1)) = 2 * (2 ^ k * 2 ^ i) := by
    rw [pow_add, pow_succ]
    ring
  have small : n % 2 ^ k < 2 ^ k := Nat.mod_lt _ (Nat.two_pow_pos k)
  have sticky := h.sticky
  unfold Reading.kept roundHalfEven
  simp only [Nat.shiftRight_eq_div_pow, Nat.one_shiftLeft, Nat.add_sub_cancel]
  rw [front, back, unit]
  generalize r.mantissa / 2 ^ (i + 1) = whole
  generalize r.mantissa % 2 ^ (i + 1) = dropped
  generalize 2 ^ i = half
  generalize n % 2 ^ k = rest at small sticky ⊢
  generalize 2 ^ k = u at small ⊢
  refine if_congr ?_ rfl rfl
  rcases Nat.lt_trichotomy dropped half with lt | rfl | gt
  · have : u * (dropped + 1) ≤ u * half := Nat.mul_le_mul_left u lt
    rw [Nat.mul_succ] at this
    constructor <;> omega
  · rw [sticky]
    constructor <;> omega
  · have : u * (half + 1) ≤ u * dropped := Nat.mul_le_mul_left u gt
    rw [Nat.mul_succ] at this
    constructor <;> omega

/-- The number lies between the powers of two around its leading bit. -/
theorem Cuts.leading (h : r.Cuts n e k) (positive : 0 < r.mantissa) :
    (2 : ℚ) ^ (e + k + r.mantissa.log2) ≤ n * 2 ^ e ∧
      (n : ℚ) * 2 ^ e < 2 ^ (e + k + r.mantissa.log2 + 1) := by
  obtain ⟨low, high⟩ := log2_spec positive
  have unit : (2 : ℚ) ^ (e + k) = 2 ^ k * 2 ^ e := by
    rw [two_zpow_add, zpow_natCast, mul_comm]
  have front : r.mantissa * 2 ^ k ≤ n := by
    rw [h.mantissa]
    exact Nat.div_mul_le_self _ _
  have back : n < (r.mantissa + 1) * 2 ^ k := by
    rw [h.mantissa, Nat.succ_mul]
    exact Nat.lt_div_mul_add (Nat.two_pow_pos k)
  have next : (r.mantissa + 1 : ℚ) ≤ 2 ^ (r.mantissa.log2 + 1 : ℤ) := by
    exact_mod_cast Nat.succ_le_of_lt (Nat.lt_log2_self (n := r.mantissa))
  constructor
  · calc (2 : ℚ) ^ (e + k + r.mantissa.log2)
        = 2 ^ (r.mantissa.log2 : ℤ) * 2 ^ k * 2 ^ e := by
          rw [two_zpow_add, unit]
          ring
      _ ≤ r.mantissa * 2 ^ k * 2 ^ e := by gcongr
      _ ≤ n * 2 ^ e := by
          gcongr
          exact_mod_cast front
  · calc (n : ℚ) * 2 ^ e
        < (r.mantissa + 1) * 2 ^ k * 2 ^ e := by
          gcongr
          exact_mod_cast back
      _ ≤ 2 ^ (r.mantissa.log2 + 1 : ℤ) * 2 ^ k * 2 ^ e := by gcongr
      _ = 2 ^ (e + k + r.mantissa.log2 + 1) := by
          rw [add_assoc (e + k : ℤ), two_zpow_add (e + k), unit]
          ring

/-- Saturation does not matter for a number that is neither beyond the doubles nor below half of
the least one. -/
theorem Cuts.places (h : r.Cuts n e k) :
    (1023 < r.top → 1024 ≤ e + k + r.mantissa.log2) ∧
    (r.top ≤ 1023 → dropLimit < r.drop → e + k + r.mantissa.log2 + 1 ≤ -1075) ∧
    (r.top ≤ 1023 → r.drop ≤ dropLimit → r.shift = e + k ∧ e + k + r.mantissa.log2 ≤ 1023 ∧
      (0 < r.drop → r.shift + r.drop = lastPlace (e + k + r.mantissa.log2)) ∧
      (r.drop ≤ 0 → r.mantissa < 2 ^ 60)) := by
  have bits : r.mantissa.log2 < 64 := by
    rcases Nat.eq_zero_or_pos r.mantissa with zero | positive
    · rw [zero]
      decide
    · exact (Nat.log2_lt positive.ne').mpr h.fits
  have short : r.mantissa.log2 < 60 → r.mantissa < 2 ^ 60 := fun lt =>
    Nat.lt_log2_self.trans_le (Nat.pow_le_pow_right two_pos lt)
  have hshift := h.shift
  unfold Reading.drop Reading.precision Reading.top Reading.bits dropLimit lastPlace leastExponent
  generalize r.mantissa.log2 = log at bits short ⊢
  generalize r.shift = shift at hshift ⊢
  rw [saturate_eq] at hshift ⊢
  split_ifs <;> omega

/-- What is already a whole number of units of a double is not rounded again. -/
theorem isNearest_scaled (m : Nat) (q : ℤ) : IsNearest (m * 2 ^ q) (scaled m q) := by
  unfold scaled
  split
  · rename_i h
    have rounded := isNearest_nearest (n := m <<< q.toNat) Nat.one_pos
    rw [cast_shiftLeft_of_nonneg h, Nat.cast_one, div_one] at rounded
    exact rounded
  · rename_i h
    have positive : 0 < 1 <<< (-q).toNat := by
      rw [Nat.one_shiftLeft]
      exact Nat.two_pow_pos _
    have rounded := isNearest_nearest (n := m) positive
    rw [cast_shiftLeft_of_neg (by omega), Nat.cast_one, div_div_eq_mul_div, div_one] at rounded
    exact rounded

/-- The bits that do not fit are rounded away once. -/
theorem Cuts.isNearest_kept (h : r.Cuts n e k) (positive : 0 < r.mantissa) (dropped : 0 < r.drop)
    (hshift : r.shift = e + k) (hlog : e + k + r.mantissa.log2 ≤ 1023)
    (place : r.shift + r.drop = lastPlace (e + k + r.mantissa.log2)) :
    IsNearest (n * 2 ^ e) (scaled (r.kept r.drop.toNat) (r.shift + r.drop)) := by
  obtain ⟨low, high⟩ := h.leading positive
  have rounded : RoundsTo (n * 2 ^ e / 2 ^ lastPlace (e + k + r.mantissa.log2))
      (r.kept r.drop.toNat) := by
    have units : (n * 2 ^ e / 2 ^ lastPlace (e + k + r.mantissa.log2) : ℚ)
        = n / (2 ^ (k + r.drop.toNat) : Nat) := by
      have : lastPlace (e + k + r.mantissa.log2) = e + (k + r.drop.toNat : Nat) := by omega
      rw [this, two_zpow_add, mul_comm (n : ℚ), mul_div_mul_left _ _ (two_zpow_pos e).ne',
        zpow_natCast, Nat.cast_pow, Nat.cast_ofNat]
    rw [units, h.kept_eq (by omega)]
    exact roundsTo_roundHalfEven (Nat.two_pow_pos _)
  have nearest := isNearest_of_log low high rounded
  have whole := isNearest_number nearest.le_infinity
  rw [number_compose_of_log low high hlog rounded] at whole
  rw [place, (isNearest_scaled _ _).unique whole]
  exact nearest

/-- The nearest magnitude is found, if it is finite. -/
theorem Cuts.magnitude?_eq (h : r.Cuts n e k) : ∃ b, IsNearest (n * 2 ^ e) b ∧
    r.magnitude? = if b < infinity then some b else none := by
  have finite : (0 : Nat) < infinity := by decide
  obtain ⟨beyond, tiny, between⟩ := h.places
  unfold Reading.magnitude?
  rcases Nat.eq_zero_or_pos r.mantissa with zero | positive
  · obtain ⟨-, hn⟩ := h.exact (by omega)
    refine ⟨0, ?_, by rw [if_pos zero, if_pos finite]⟩
    rw [← hn, zero, Nat.cast_zero, zero_mul]
    exact isNearest_zero (two_zpow_pos _).le
  obtain ⟨low, high⟩ := h.leading positive
  rw [if_neg positive.ne']
  by_cases htop : 1023 < r.top
  · refine ⟨infinity, ?_, by rw [if_pos htop, if_neg (lt_irrefl _)]⟩
    exact isNearest_infinity ((zpow_le_zpow_right₀ one_le_two (beyond htop)).trans low)
  rw [if_neg htop]
  by_cases hdrop : dropLimit < r.drop
  · refine ⟨0, ?_, by rw [if_pos hdrop, if_pos finite]⟩
    exact isNearest_zero
      (high.le.trans (zpow_le_zpow_right₀ one_le_two (tiny (not_lt.mp htop) hdrop)))
  rw [if_neg hdrop]
  obtain ⟨hshift, hlog, place, short⟩ := between (not_lt.mp htop) (not_lt.mp hdrop)
  refine ⟨_, ?_, rfl⟩
  split
  · rename_i dropped
    exact h.isNearest_kept positive dropped hshift hlog (place dropped)
  · rename_i fits
    obtain ⟨rfl, hn⟩ := h.exact (short (not_lt.mp fits))
    rw [Nat.cast_zero, add_zero] at hshift
    rw [hshift, ← hn]
    exact isNearest_scaled _ _

end Reading

/-! ## Reading -/

theorem exponent?_eq_some_iff {cs : List Char} {e : ℤ} :
    exponent? cs = some e ↔ IsInteger cs e ∧ Script.hexadecimal.admits e := by
  have range : Script.hexadecimal.admits e ↔
      Int64.minValue.toInt ≤ e ∧ e ≤ Int64.maxValue.toInt := by
    have least : Int64.minValue.toInt = -2 ^ 63 := rfl
    have greatest : Int64.maxValue.toInt = 2 ^ 63 - 1 := rfl
    rw [least, greatest, Int.le_sub_one_iff]
    rfl
  rw [exponent?, Option.filter_eq_some_iff, integer?_eq_some_iff, range, decide_eq_true_iff]

theorem range_of_isExponent {cs : List Char} {e : ℤ}
    (h : Script.hexadecimal.IsExponent cs e) : -2 ^ 63 ≤ e ∧ e < 2 ^ 63 := by
  cases h with
  | absent => decide
  | mark _ _ admitted => exact admitted

theorem isMark_iff {c : Char} :
    (c == 'p' || c == 'P') = true ↔ c ∈ Script.hexadecimal.marks := by
  simp [Script.hexadecimal]

/-- The exponent begins with the first mark. -/
theorem splitExponent?_eq_some_iff {cs digits : List Char} {e : ℤ} :
    splitExponent? cs = some (digits, e) ↔ (∀ c ∈ digits, c ∉ Script.hexadecimal.marks) ∧
      ∃ exponent, cs = digits ++ exponent ∧ Script.hexadecimal.IsExponent exponent e := by
  simp only [← isMark_iff, Bool.not_eq_true]
  constructor
  · intro h
    unfold splitExponent? at h
    split at h
    · rename_i split
      obtain ⟨rfl, marked, unmarked⟩ := Text.splitFirst?_eq_some_iff.mp split
      obtain ⟨e, read, pair⟩ := Option.map_eq_some_iff.mp h
      cases pair
      obtain ⟨written, admitted⟩ := exponent?_eq_some_iff.mp read
      exact ⟨unmarked, _, rfl, .mark (isMark_iff.mp marked) written admitted⟩
    · rename_i unmarked
      cases Option.some.inj h
      exact ⟨Text.splitFirst?_eq_none_iff.mp unmarked, [], (List.append_nil _).symm, .absent⟩
  · rintro ⟨unmarked, exponent, rfl, scaled⟩
    unfold splitExponent?
    cases scaled with
    | absent => rw [List.append_nil, Text.splitFirst?_eq_none_iff.mpr unmarked]
    | @mark c cs _ marked written admitted =>
      rw [Text.splitFirst?_eq_some_iff.mpr ⟨rfl, isMark_iff.mpr marked, unmarked⟩]
      exact Option.map_eq_some_iff.mpr
        ⟨e, exponent?_eq_some_iff.mpr ⟨written, admitted⟩, rfl⟩

/-- The digits are parted by the first point. -/
theorem splitPoint_eq_iff {cs whole fraction : List Char} :
    splitPoint cs = (whole, fraction) ↔ '.' ∉ whole ∧
      ∃ point, cs = whole ++ point ∧ Script.IsFraction point fraction := by
  have unpointed {cs : List Char} : (∀ c ∈ cs, (c == '.') = false) ↔ '.' ∉ cs := by
    simp only [beq_eq_false_iff_ne, ne_eq]
    exact ⟨fun h mem => h _ mem rfl, fun h c hc e => h (e ▸ hc)⟩
  constructor
  · intro h
    unfold splitPoint at h
    split at h
    · rename_i split
      cases h
      obtain ⟨rfl, point, before⟩ := Text.splitFirst?_eq_some_iff.mp split
      rw [beq_iff_eq.mp point]
      exact ⟨unpointed.mp before, _, rfl, .point _⟩
    · rename_i none
      cases h
      exact ⟨unpointed.mp (Text.splitFirst?_eq_none_iff.mp none), [],
        (List.append_nil _).symm, .absent⟩
  · rintro ⟨before, point, rfl, pointed⟩
    unfold splitPoint
    cases pointed with
    | absent => rw [List.append_nil, Text.splitFirst?_eq_none_iff.mpr (unpointed.mpr before)]
    | point => rw [Text.splitFirst?_eq_some_iff.mpr ⟨rfl, rfl, unpointed.mpr before⟩]

theorem mapM_digit?_eq_some_iff {cs : List Char} {ds : List Nat} :
    cs.mapM (digit? 16) = some ds ↔ List.Forall₂ (IsDigit 16) cs ds := by
  simp only [mapM_eq_some_iff, digit?_eq_some_iff le_rfl]

/-- Points and marks are not digits. -/
theorem not_mem_of_digits {c : Char} (hc : c = '.' ∨ c ∈ Script.hexadecimal.marks) :
    ∀ {cs : List Char} {ds : List Nat}, List.Forall₂ (IsDigit 16) cs ds → c ∉ cs
  | _, _, .nil => List.not_mem_nil
  | _, _, .cons digit digits => by
    refine List.not_mem_cons_of_ne_of_not_mem ?_ (not_mem_of_digits hc digits)
    rintro rfl
    have read := (digit?_eq_some_iff le_rfl).mpr digit
    rcases hc with rfl | hc
    · cases read
    · rcases List.mem_pair.mp hc with rfl | rfl <;> cases read

theorem read?_eq (cs : List Char) : read? cs =
    (splitExponent? cs).bind fun (digits, e) =>
      if (splitPoint digits).1.isEmpty && (splitPoint digits).2.isEmpty then none
      else
        ((splitPoint digits).1.mapM (digit? 16)).bind fun ws =>
          ((splitPoint digits).2.mapM (digit? 16)).map fun fs =>
            fs.foldl .pushFraction (ws.foldl .pushWhole ⟨0, e, false⟩) := rfl

/-- Exactly what the script writes is read, digit by digit. -/
theorem read?_eq_some_iff {cs : List Char} {r : Reading} : read? cs = some r ↔
    ∃ whole point fraction exponent ws fs e, cs = whole ++ (point ++ exponent) ∧
      Script.IsFraction point fraction ∧ Script.hexadecimal.IsExponent exponent e ∧
      whole ++ fraction ≠ [] ∧ List.Forall₂ (IsDigit 16) whole ws ∧
      List.Forall₂ (IsDigit 16) fraction fs ∧
      r = fs.foldl .pushFraction (ws.foldl .pushWhole ⟨0, e, false⟩) := by
  rw [read?_eq]
  constructor
  · intro h
    obtain ⟨⟨digits, e⟩, split, read⟩ := Option.bind_eq_some_iff.mp h
    obtain ⟨-, exponent, rfl, scaled⟩ := splitExponent?_eq_some_iff.mp split
    rcases parts : splitPoint digits with ⟨whole, fraction⟩
    obtain ⟨-, point, rfl, pointed⟩ := splitPoint_eq_iff.mp parts
    simp only [parts] at read
    split at read
    · cases read
    · rename_i nonempty
      obtain ⟨ws, hws, read⟩ := Option.bind_eq_some_iff.mp read
      obtain ⟨fs, hfs, rfl⟩ := Option.map_eq_some_iff.mp read
      refine ⟨whole, point, fraction, exponent, ws, fs, e, List.append_assoc _ _ _, pointed, scaled,
        ?_, mapM_digit?_eq_some_iff.mp hws, mapM_digit?_eq_some_iff.mp hfs, rfl⟩
      simpa [List.isEmpty_iff] using nonempty
  · rintro ⟨whole, point, fraction, exponent, ws, fs, e, rfl, pointed, scaled, nonempty, hws, hfs,
      rfl⟩
    have parts : splitPoint (whole ++ point) = (whole, fraction) :=
      splitPoint_eq_iff.mpr ⟨not_mem_of_digits (.inl rfl) hws, point, rfl, pointed⟩
    have unmarked : ∀ c ∈ whole ++ point, c ∉ Script.hexadecimal.marks := by
      intro c hc marked
      rcases List.mem_append.mp hc with hc | hc
      · exact not_mem_of_digits (.inr marked) hws hc
      · cases pointed with
        | absent => cases hc
        | point =>
          rcases List.mem_cons.mp hc with rfl | hc
          · exact absurd marked (by decide)
          · exact not_mem_of_digits (.inr marked) hfs hc
    have split : splitExponent? (whole ++ (point ++ exponent)) = some (whole ++ point, e) :=
      splitExponent?_eq_some_iff.mpr
        ⟨unmarked, exponent, (List.append_assoc _ _ _).symm, scaled⟩
    have digits : (whole.isEmpty && fraction.isEmpty) = false := by
      simpa [List.isEmpty_iff] using nonempty
    simp only [split, Option.bind_some, parts, digits, mapM_digit?_eq_some_iff.mpr hws,
      mapM_digit?_eq_some_iff.mpr hfs, Option.map_some, Bool.false_eq_true, if_false]

/-- Enough is kept of every number that is written. -/
theorem exists_read {cs : List Char} {x : ℚ} (h : Script.hexadecimal.Writes cs x) :
    ∃ r n e k, read? cs = some r ∧ Reading.Cuts r n e k ∧ x = n * 2 ^ e := by
  obtain ⟨pointed, nonempty, ⟨ds, digits, rfl⟩, scaled⟩ := h
  rename_i whole point fraction exponent e
  have range := range_of_isExponent scaled
  have hws := (List.forall₂_take_append ds whole fraction digits.flip).flip
  have hfs := (List.forall₂_drop_append ds whole fraction digits.flip).flip
  have parts : ds.take whole.length ++ ds.drop whole.length = ds := List.take_append_drop _ _
  generalize ds.take whole.length = ws at hws parts
  generalize ds.drop whole.length = fs at hfs parts
  subst parts
  obtain ⟨k, cuts⟩ := Reading.exists_cuts range.1 range.2 (digits_lt hws) (digits_lt hfs)
  have value (n : Nat) : (n / ((16 : Nat) : ℚ) ^ fraction.length * ((2 : Nat) : ℚ) ^ e)
      = n * 2 ^ (e - 4 * fs.length : ℤ) := by
    have places : ((16 : Nat) : ℚ) ^ fraction.length = 2 ^ (4 * fs.length : ℤ) := by
      rw [hfs.length_eq, zpow_mul, zpow_natCast]
      norm_num
    rw [places, zpow_sub₀ two_ne_zero, Nat.cast_ofNat]
    ring
  exact ⟨_, _, _, k, read?_eq_some_iff.mpr ⟨whole, point, fraction, exponent, ws, fs, e, rfl,
    pointed, scaled, nonempty, hws, hfs, rfl⟩, cuts, value _⟩

/-- Nothing else is read. -/
theorem exists_writes {cs : List Char} {r : Reading} (h : read? cs = some r) :
    ∃ x, Script.hexadecimal.Writes cs x := by
  obtain ⟨whole, point, fraction, exponent, ws, fs, e, rfl, pointed, scaled, nonempty, hws, hfs,
    -⟩ := read?_eq_some_iff.mp h
  exact ⟨_, .mk pointed nonempty ⟨_, List.rel_append hws hfs, rfl⟩ scaled⟩

end Hex

/-! ## Doubles -/

section

variable {sign body : List Char} {negative : Bool} {mark : Char} {x : ℚ}

theorem magnitude?_hexadecimal (marked : mark ∈ ['x', 'X']) (body : List Char) :
    magnitude? ('0' :: mark :: body) = (Hex.read? body).bind Hex.Reading.magnitude? := by
  rcases List.mem_pair.mp marked with rfl | rfl <;> rfl

/-- The nearest magnitude is read, if it is finite. -/
theorem magnitude?_of_hexadecimal (marked : mark ∈ ['x', 'X'])
    (written : Script.hexadecimal.Writes body x) : ∃ b, IsNearest x b ∧
      magnitude? ('0' :: mark :: body) = if b < infinity then some b else none := by
  obtain ⟨r, n, e, k, read, cuts, rfl⟩ := Hex.exists_read written
  obtain ⟨b, nearest, rounded⟩ := cuts.magnitude?_eq
  refine ⟨b, nearest, ?_⟩
  rw [magnitude?_hexadecimal marked, read]
  exact rounded

/-- A text with the mark of the hexadecimal notation is read if it is in this notation and its
number is not half a unit or more above the greatest double. Then it is read as the nearest double
with its sign. -/
theorem float?_hexadecimal (signed : IsSign sign negative) (marked : mark ∈ ['x', 'X']) :
    (∀ x, Script.hexadecimal.Writes body x →
      (float? (sign ++ '0' :: mark :: body) = none ↔ (2 ^ 54 - 1) * 2 ^ (970 : ℤ) ≤ x) ∧
      ∀ y, float? (sign ++ '0' :: mark :: body) = some y →
        isNegative y = negative ∧ magnitude y < infinity ∧ IsNearest x (magnitude y)) ∧
    ((¬ ∃ x, Script.hexadecimal.Writes body x) →
      float? (sign ++ '0' :: mark :: body) = none) := by
  rw [float?_append signed rfl]
  constructor
  · intro x written
    obtain ⟨b, nearest, read⟩ := magnitude?_of_hexadecimal marked written
    rw [read, ← isNearest_infinity_iff]
    split
    · rename_i finite
      refine ⟨iff_of_false nofun fun beyond => ?_, fun y hy => ?_⟩
      · exact finite.ne (nearest.unique beyond)
      · obtain rfl := Option.some.inj hy
        rw [isNegative_ofMagnitude finite.le, magnitude_ofMagnitude finite.le]
        exact ⟨rfl, finite, nearest⟩
    · rename_i beyond
      obtain rfl : b = infinity := le_antisymm nearest.le_infinity (not_lt.mp beyond)
      exact ⟨iff_of_true rfl nearest, nofun⟩
  · intro none
    have unread : Hex.read? body = .none := Option.eq_none_iff_forall_not_mem.mpr fun r hr =>
      none (Hex.exists_writes hr)
    rw [magnitude?_hexadecimal marked, unread]
    rfl

/-- Three quarters of the least double, with a sign. -/
theorem float?_hexadecimal_tiny : ∃ y, float? ("-0x1.8p-1075".toList) = some y ∧
    isNegative y = true ∧ magnitude y < infinity ∧
      IsNearest (3 * 2 ^ (-1076 : ℤ)) (magnitude y) := by
  have digits : Digits 16 ['1', '8'] 24 :=
    ⟨[1, 8], .cons ⟨by decide, rfl⟩ (.cons ⟨by decide, rfl⟩ .nil), rfl⟩
  have exponent : Script.hexadecimal.IsExponent "p-1075".toList (-1075) :=
    .mark (by decide) (integer?_eq_some_iff.mp (by decide)) ⟨by decide, by decide⟩
  have written : Script.hexadecimal.Writes "1.8p-1075".toList (3 * 2 ^ (-1076 : ℤ)) := by
    have value : (3 * 2 ^ (-1076 : ℤ) : ℚ)
        = (24 : Nat) / (16 : Nat) ^ 1 * (2 : Nat) ^ (-1075 : ℤ) := by
      have : (-1075 : ℤ) = -1076 + 1 := rfl
      rw [this, Nat.cast_ofNat, Nat.cast_ofNat, Nat.cast_ofNat, two_zpow_add (-1076)]
      ring
    rw [value]
    exact @Script.Writes.mk .hexadecimal ['1'] _ _ _ _ _ (.point ['8']) (by decide) digits exponent
  have small : (3 * 2 ^ (-1076 : ℤ) : ℚ) < (2 ^ 54 - 1) * 2 ^ (970 : ℤ) := by
    have less : (2 : ℚ) ^ (-1076 : ℤ) ≤ 2 ^ (970 : ℤ) :=
      zpow_le_zpow_right₀ one_le_two (by decide)
    have positive := two_zpow_pos (-1076)
    generalize (2 : ℚ) ^ (-1076 : ℤ) = small at less positive ⊢
    generalize (2 : ℚ) ^ (970 : ℤ) = great at less ⊢
    linarith
  have mark : 'x' ∈ ['x', 'X'] := by decide
  obtain ⟨finite, nearest⟩ := (float?_hexadecimal .minus mark).1 _ written
  obtain ⟨y, hy⟩ := Option.ne_none_iff_exists'.mp (mt finite.mp small.not_ge)
  exact ⟨y, hy, nearest y hy⟩

end

end Ippcode.Numeral
