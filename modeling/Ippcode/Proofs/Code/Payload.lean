import Ippcode.Constant
import Ippcode.Proofs.Numeral.Characters

/-!
# Payloads of constants

A payload is read back as the value that it writes (`ofPayload_payload`), and it is clean, so it
can be part of a token (`isClean_payload`). Whatever is read as a value of another type than string
is clean, too (`isClean_of_ofPayload`), and so is what writes the value of a clean payload again
(`isEscapable_of_ofPayload`).
-/

namespace Ippcode

open Ippcode.Text

namespace Text.Escape

/-- What an encoded character consists of, if blanks that no escape can name are left out. -/
theorem isClean_encodeChar {c : Char} (h : isBlank c = true → c.toNat ≤ greatestCode) :
    IsClean (encodeChar c) := by
  unfold encodeChar
  split
  · rename_i hc
    rw [Bool.and_eq_true, decide_eq_true_eq, greatestCode] at hc
    have clean (n : Nat) (hn : n < 10) : isBlank n.digitChar = false ∧ n.digitChar ≠ '#' :=
      Numeral.clean_of_isNumeralChar
        (Numeral.isNumeralChar_of_isAlphanum (Numeral.isAlphanum_of_isDigit (isDigit_digitChar hn)))
    refine .cons (by decide) (.cons (clean _ ?_) (.cons (clean _ ?_) (.cons (clean _ ?_) nofun)))
    all_goals omega
  · rename_i hc
    refine .cons ?_ isClean_nil
    by_cases hblank : isBlank c = true
    · have := h hblank
      simp_all [isReserved]
    · refine ⟨by simpa using hblank, ?_⟩
      rintro rfl
      exact hc (by decide)

theorem isClean_encode {cs : List Char}
    (h : ∀ c ∈ cs, isBlank c = true → c.toNat ≤ greatestCode) : IsClean (encode cs) := by
  intro c hc
  obtain ⟨d, hd, hc⟩ := List.mem_flatMap.mp hc
  exact isClean_encodeChar (h d hd) c hc

theorem toNat_le_of_ofDigits? {a b c d : Char} (h : ofDigits? a b c = some d) :
    d.toNat ≤ greatestCode := by
  unfold ofDigits? at h
  split at h
  · rename_i digits
    simp only [Bool.and_eq_true, Numeral.isDigit_iff] at digits
    obtain rfl := Option.some.inj h
    generalize hn : (a.toNat - 48) * 100 + (b.toNat - 48) * 10 + (c.toNat - 48) = n
    have hle : n ≤ 999 := by omega
    have valid : n.isValidChar := .inl (by omega)
    rw [Char.ofNat, dif_pos valid]
    exact hle
  · cases h

/-- What is decoded has no blanks but those of the text and those that escapes name. -/
theorem toNat_le_of_decode? {cs ds : List Char} (h : decode? cs = some ds)
    (hcs : ∀ c ∈ cs, isBlank c = false) :
    ∀ d ∈ ds, isBlank d = true → d.toNat ≤ greatestCode := by
  induction cs using decode?.induct generalizing ds with
  | case1 =>
    obtain rfl := Option.some.inj h
    nofun
  | case2 a b c cs d hd ih =>
    rw [decode?, hd] at h
    obtain ⟨rest, hrest, rfl⟩ := Option.map_eq_some_iff.mp h
    refine List.forall_mem_cons.mpr ⟨fun _ => toNat_le_of_ofDigits? hd, ?_⟩
    exact ih hrest fun x hx => hcs x (by simp [hx])
  | case3 a b c cs hd =>
    rw [decode?, hd] at h
    cases h
  | case4 cs other =>
    rw [decode?] at h
    · cases h
    · exact other
  | case5 c cs other hc ih =>
    rw [decode?] at h
    · rw [if_neg hc] at h
      obtain ⟨rest, hrest, rfl⟩ := Option.map_eq_some_iff.mp h
      refine List.forall_mem_cons.mpr ⟨fun blank => ?_, ?_⟩
      · rw [hcs c List.mem_cons_self] at blank
        cases blank
      · exact ih hrest fun x hx => hcs x (List.mem_cons_of_mem c hx)
    · exact other

end Text.Escape

namespace Value

/-- Whether a value is a double that is not a number. -/
def isNaN : Value → Bool
  | float x => Binary64.isNaN x
  | _ => false

/-- Strings have no blanks that an escape cannot name. -/
def IsEscapable : Value → Prop
  | string s => ∀ c ∈ s.toList, isBlank c = true → c.toNat ≤ Escape.greatestCode
  | _ => True

instance : (v : Value) → Decidable v.IsEscapable
  | string s => List.decidableBAll _ s.toList
  | int _ | float _ | bool _ | nil => .isTrue trivial

/-- A payload is read back, unless it is that of a NaN. -/
theorem ofPayload_payload {v : Value} (h : v.isNaN = false) : ofPayload v.ty v.payload = .ok v := by
  cases v with
  | int n =>
    simp only [ofPayload, ty, payload, text, String.toList_ofList, Numeral.ofLiteral?_ofInt]
  | float x => simp only [ofPayload, ty, payload, text, Numeral.float?_floatText h]
  | bool b => cases b <;> rfl
  | string s =>
    simp only [ofPayload, ty, payload, String.toList_ofList, Escape.decode?_encode,
      String.ofList_toList]
  | nil => rfl

theorem isClean_payload {v : Value} (h : v.IsEscapable) : IsClean v.payload.toList := by
  cases v with
  | int n =>
    have := (Numeral.isNumeral_ofInt n.toInt).isClean
    simpa only [payload, text, String.toList_ofList] using this
  | float x => exact (Numeral.isNumeral_floatText x).isClean
  | bool b =>
    cases b <;> decide
  | string s => simpa only [payload, String.toList_ofList] using Escape.isClean_encode h
  | nil =>
    decide

/-- The name of a type in front of a payload decides how it is read. -/
theorem ofConstant_eq_ok_iff {name payload : String} {v : Value} :
    ofConstant name payload = .ok v ↔ ∃ ty : Ty, ty.name = name ∧ ofPayload ty payload = .ok v := by
  unfold ofConstant Ty.ofName
  constructor
  · intro h
    cases hty : Ty.ofName? name with
    | none =>
      rw [hty] at h
      cases h
    | some ty =>
      rw [hty] at h
      exact ⟨ty, Ty.name_of_ofName? hty, h⟩
  · rintro ⟨ty, rfl, h⟩
    rw [Ty.ofName?_name]
    exact h

/-- What is read as another value than a string has no blanks and no comment in it. -/
theorem isClean_of_ofPayload {ty : Ty} {payload : String} {v : Value} (hty : ty ≠ .string)
    (h : ofPayload ty payload = .ok v) : IsClean payload.toList := by
  unfold ofPayload at h
  split at h
  · split at h
    · rename_i read
      exact (Numeral.isNumeral_of_ofLiteral? read).isClean
    · cases h
  · split at h
    · rename_i read
      exact (Numeral.isNumeral_of_float? read).isClean
    · cases h
  · split at h
    · rename_i e
      rw [e]
      decide
    · split at h
      · rename_i e
        rw [e]
        decide
      · cases h
  · exact absurd rfl hty
  · split at h
    · rename_i e
      rw [e]
      decide
    · cases h

/-- A string in a payload without blanks can be written as a payload again. -/
theorem isEscapable_of_ofPayload {ty : Ty} {payload : String} {v : Value}
    (h : ofPayload ty payload = .ok v) (hpayload : ∀ c ∈ payload.toList, isBlank c = false) :
    v.IsEscapable := by
  cases v with
  | string s =>
    obtain rfl : Ty.string = ty := ty_of_ofPayload h
    unfold ofPayload at h
    simp only at h
    split at h
    · rename_i cs read
      obtain rfl := Value.string.inj (Except.ok.inj h)
      have := Escape.toNat_le_of_decode? read hpayload
      simpa only [IsEscapable, String.toList_ofList] using this
    · cases h
  | _ => trivial

end Value

end Ippcode
