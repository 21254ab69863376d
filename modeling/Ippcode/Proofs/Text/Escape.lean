import Ippcode.Proofs.Numeral.Digits
import Ippcode.Text.Escape

/-!
# Escaped texts

What an escaped text stands for is said without the scan (`Resolves`) : a backslash with three
decimal digits behind it stands for the character with that code (`IsCode`), and any other character
for itself. The scan finds exactly that (`decode?_eq_some_iff`), and it fails exactly at a backslash
that is not part of an earlier escape and does not begin one (`isSome_decode?_iff`).

An escape has all of its digits or none, so a text that can be resolved has no influence on what
follows it (`Resolves.decode?_append`).
-/

namespace Ippcode.Text.Escape

/-! ## Escapes -/

/-- Three decimal digits, and the number that they write. -/
inductive IsCode : List Char → Nat → Prop
  | mk {i j k : Nat} (hi : i < 10) (hj : j < 10) (hk : k < 10) :
      IsCode [i.digitChar, j.digitChar, k.digitChar] (i * 100 + j * 10 + k)

/-- The text begins with three decimal digits. -/
def BeginsWithCode (cs : List Char) : Prop := ∃ digits code rest, cs = digits ++ rest ∧
  IsCode digits code

/-- What an escaped text stands for. -/
inductive Resolves : List Char → List Char → Prop
  | nil : Resolves [] []
  | plain {c : Char} {cs ds : List Char} (hc : c ≠ '\\') (rest : Resolves cs ds) :
      Resolves (c :: cs) (c :: ds)
  | escape {digits cs ds : List Char} {d : Char} (code : IsCode digits d.toNat)
      (rest : Resolves cs ds) : Resolves ('\\' :: (digits ++ cs)) (d :: ds)

variable {cs ds digits : List Char} {code : Nat} {a b c d : Char}

/-- No code is among the surrogates. -/
theorem IsCode.isValidChar (h : IsCode digits code) : code.isValidChar := by
  obtain ⟨hi, hj, hk⟩ := h
  exact .inl (by omega)

theorem digitChar_of_isDigit (h : c.isDigit = true) : (c.toNat - 48).digitChar = c := by
  obtain ⟨least, greatest⟩ := Numeral.isDigit_iff.mp h
  refine Char.toNat_inj.mp ?_
  rw [toNat_digitChar (by omega)]
  omega

/-- The three characters are read as the code that they write. -/
theorem ofDigits?_eq_some_iff : ofDigits? a b c = some d ↔ IsCode [a, b, c] d.toNat := by
  constructor
  · intro h
    unfold ofDigits? at h
    split at h
    · rename_i digits
      simp only [Bool.and_eq_true] at digits
      obtain ⟨⟨ha, hb⟩, hc⟩ := digits
      have la := (Numeral.isDigit_iff.mp ha).2
      have lb := (Numeral.isDigit_iff.mp hb).2
      have lc := (Numeral.isDigit_iff.mp hc).2
      have written : IsCode [a, b, c]
          ((a.toNat - 48) * 100 + (b.toNat - 48) * 10 + (c.toNat - 48)) := by
        have digits := @IsCode.mk (a.toNat - 48) (b.toNat - 48) (c.toNat - 48) (by omega) (by omega)
          (by omega)
        rwa [digitChar_of_isDigit ha, digitChar_of_isDigit hb, digitChar_of_isDigit hc] at digits
      obtain rfl := Option.some.inj h
      rwa [Char.toNat_ofNat, if_pos written.isValidChar]
    · cases h
  · intro h
    generalize hn : d.toNat = n at h
    obtain ⟨hi, hj, hk⟩ := h
    rw [ofDigits?, isDigit_digitChar hi, isDigit_digitChar hj, isDigit_digitChar hk,
      toNat_digitChar hi, toNat_digitChar hj, toNat_digitChar hk]
    simp only [Bool.and_self, if_true, Nat.add_sub_cancel]
    rw [← hn, Char.ofNat_toNat]

/-! ## One step of the scan -/

theorem decode?_cons_of_ne (hc : c ≠ '\\') (cs : List Char) :
    decode? (c :: cs) = (decode? cs).map (c :: ·) := by
  rw [decode?.eq_3 c cs fun _ _ _ _ same _ => hc same, if_neg hc]

theorem decode?_escape (h : IsCode digits d.toNat) (cs : List Char) :
    decode? ('\\' :: (digits ++ cs)) = (decode? cs).map (d :: ·) := by
  cases digits with
  | nil => nomatch h
  | cons a digits =>
    obtain ⟨b, c, rfl⟩ : ∃ b c, digits = [b, c] := by
      generalize d.toNat = n at h
      cases h
      exact ⟨_, _, rfl⟩
    have read := ofDigits?_eq_some_iff.mpr h
    change decode? ('\\' :: a :: b :: c :: cs) = _
    rw [decode?, read]

/-- A backslash that does not begin an escape cannot be read. -/
theorem decode?_backslash (h : ¬ BeginsWithCode cs) : decode? ('\\' :: cs) = none := by
  unfold decode?
  split
  · rename_i same
    cases same
  · rename_i a b c rest same
    obtain ⟨-, rfl⟩ := List.cons.inj same
    cases read : ofDigits? a b c with
    | none => rfl
    | some d => exact absurd ⟨[a, b, c], _, rest, rfl, ofDigits?_eq_some_iff.mp read⟩ h
  · rename_i same
    obtain ⟨rfl, -⟩ := List.cons.inj same
    exact if_pos rfl

/-! ## Whole texts -/

/-- A text that can be resolved has no influence on what follows it. -/
theorem Resolves.decode?_append (h : Resolves cs ds) (rest : List Char) :
    decode? (cs ++ rest) = (decode? rest).map (ds ++ ·) := by
  induction h with
  | nil => exact (congrFun Option.map_id (decode? rest)).symm
  | plain hc _ ih =>
    rw [List.cons_append, decode?_cons_of_ne hc, ih, Option.map_map]
    rfl
  | escape code _ ih =>
    rw [List.cons_append, List.append_assoc, decode?_escape code, ih, Option.map_map]
    rfl

theorem Resolves.decode?_eq (h : Resolves cs ds) : decode? cs = some ds := by
  have alone := h.decode?_append []
  rwa [List.append_nil, decode?, Option.map_some, List.append_nil] at alone

/-- Nothing behind a backslash that does not begin an escape makes the text readable. -/
theorem decode?_of_stuck {rest : List Char} (h : Resolves cs ds) (stuck : ¬ BeginsWithCode rest) :
    decode? (cs ++ '\\' :: rest) = none := by
  rw [h.decode?_append, decode?_backslash stuck, Option.map_none]

/-- A text can be resolved, or there is a first backslash in it that does not begin an escape. -/
theorem resolves_or_stuck : ∀ cs : List Char, (∃ ds, Resolves cs ds) ∨
    ∃ front ds rest, cs = front ++ '\\' :: rest ∧ Resolves front ds ∧ ¬ BeginsWithCode rest
  | [] => .inl ⟨[], .nil⟩
  | c :: cs => by
    by_cases hc : c = '\\'
    · subst hc
      by_cases begins : BeginsWithCode cs
      · obtain ⟨digits, code, rest, rfl, written⟩ := begins
        have named : (Char.ofNat code).toNat = code := by
          rw [Char.toNat_ofNat, if_pos written.isValidChar]
        rw [← named] at written
        rcases resolves_or_stuck rest with ⟨ds, h⟩ | ⟨front, ds, tail, rfl, h, stuck⟩
        · exact .inl ⟨_, .escape written h⟩
        · refine .inr ⟨_, _, tail, ?_, .escape written h, stuck⟩
          rw [List.cons_append, List.append_assoc]
      · exact .inr ⟨[], [], cs, rfl, .nil, begins⟩
    · rcases resolves_or_stuck cs with ⟨ds, h⟩ | ⟨front, ds, tail, rfl, h, stuck⟩
      · exact .inl ⟨_, .plain hc h⟩
      · exact .inr ⟨_, _, tail, rfl, .plain hc h, stuck⟩
termination_by cs => cs.length

/-- A text is decoded to what it stands for. -/
theorem decode?_eq_some_iff : decode? cs = some ds ↔ Resolves cs ds := by
  refine ⟨fun read => ?_, Resolves.decode?_eq⟩
  rcases resolves_or_stuck cs with ⟨ds', h⟩ | ⟨front, ds', rest, rfl, h, stuck⟩
  · obtain rfl := Option.some.inj (h.decode?_eq.symm.trans read)
    exact h
  · cases (decode?_of_stuck h stuck).symm.trans read

/-- Decoding fails exactly at a backslash that is not part of an earlier escape and does not begin
one. -/
theorem isSome_decode?_iff : (decode? cs).isSome ↔ ∀ front ds rest, cs = front ++ '\\' :: rest →
    Resolves front ds → BeginsWithCode rest := by
  rw [Option.isSome_iff_exists]
  constructor
  · rintro ⟨s, read⟩ front ds rest rfl h
    by_contra stuck
    cases (decode?_of_stuck h stuck).symm.trans read
  · intro begins
    rcases resolves_or_stuck cs with ⟨ds, h⟩ | ⟨front, ds, rest, same, h, stuck⟩
    · exact ⟨ds, h.decode?_eq⟩
    · exact absurd (begins front ds rest same h) stuck

/-- Decoding succeeds exactly if each backslash that is not part of an earlier escape has three
decimal digits behind it. It puts the character with their code in the place of each such group,
there is always one, and it keeps all other characters. What follows a text that can be decoded is
decoded on its own. And decoding undoes encoding. -/
theorem decode?_exact (cs : List Char) :
    ((decode? cs).isSome ↔ ∀ front ds rest, cs = front ++ '\\' :: rest → Resolves front ds →
      BeginsWithCode rest) ∧
    (∀ ds, decode? cs = some ds ↔ Resolves cs ds) ∧
    (∀ digits code, IsCode digits code → code.isValidChar) ∧
    (∀ ds rest, decode? cs = some ds →
      (∀ es, decode? rest = some es → decode? (cs ++ rest) = some (ds ++ es)) ∧
      (decode? rest = none → decode? (cs ++ rest) = none)) ∧
    decode? (encode cs) = some cs := by
  refine ⟨isSome_decode?_iff, fun _ => decode?_eq_some_iff, fun _ _ => IsCode.isValidChar,
    fun ds rest read => ?_, decode?_encode cs⟩
  rw [(decode?_eq_some_iff.mp read).decode?_append]
  exact ⟨fun es tail => by rw [tail, Option.map_some], fun tail => by rw [tail, Option.map_none]⟩

/-- A digit behind an escape is not part of it, and digits of other scripts are no digits. -/
theorem decode?_exact_adjacent :
    decode? "\\0651\\092".toList = some "A1\\".toList ∧
    decode? ("\\0651\\092".toList ++ "065".toList) = some "A1\\065".toList ∧
    decode? ("\\0651\\092".toList ++ "\\06\u0665".toList) = none := by
  have read : decode? "\\0651\\092".toList = some "A1\\".toList := by decide
  obtain ⟨goesOn, fails⟩ := (decode?_exact _).2.2.2.1 _ "065".toList read
  exact ⟨read, goesOn _ (by decide),
    ((decode?_exact _).2.2.2.1 _ "\\06\u0665".toList read).2 (by decide)⟩

end Ippcode.Text.Escape
