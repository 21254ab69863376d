import Ippcode.Text.Blank

/-!
# Escapes

In the constants of a source text a backslash and three decimal digits stand for the
character with that code. `decode?` resolves the escapes of a text and refuses a backslash
that does not begin one. `encode` writes an escape for each character that cannot stand in
a constant as it is : blanks, control characters, the comment sign and the backslash.

Three digits name no code above 999, so a blank beyond that is written as it is.

* `decode?_encodeChar_append` : what follows an escape has no part in it;
* `decode?_encode` : decoding undoes encoding, for every text.
-/

namespace Ippcode.Text.Escape

/-! ## Decoding -/

/-- The character whose code three decimal digits give. -/
def ofDigits? (a b c : Char) : Option Char :=
  if a.isDigit && b.isDigit && c.isDigit then
    some (Char.ofNat ((a.toNat - 48) * 100 + (b.toNat - 48) * 10 + (c.toNat - 48)))
  else none

/-- The text with its escapes resolved, or nothing if a backslash does not begin one. -/
def decode? : List Char → Option (List Char)
  | [] => some []
  | '\\' :: a :: b :: c :: cs =>
    match ofDigits? a b c with
    | some d => (decode? cs).map (d :: ·)
    | none => none
  | c :: cs => if c = '\\' then none else (decode? cs).map (c :: ·)

/-! ## Encoding -/

/-- A character that cannot stand in a constant as it is. -/
def isReserved (c : Char) : Bool := isBlank c || isControl c || c == '#' || c == '\\'

/-- The greatest code that three digits can name. -/
def greatestCode : Nat := 999

/-- The escape of the character with the given code. -/
def ofCode (code : Nat) : List Char :=
  ['\\', (code / 100).digitChar, (code / 10 % 10).digitChar, (code % 10).digitChar]

/-- A character as it is written in a constant. -/
def encodeChar (c : Char) : List Char :=
  if isReserved c && c.toNat ≤ greatestCode then ofCode c.toNat else [c]

/-- The text as it is written in a constant. -/
def encode (cs : List Char) : List Char := cs.flatMap encodeChar

/-! ## Laws -/

theorem isDigit_digitChar {n : Nat} (h : n < 10) : n.digitChar.isDigit = true := by
  have : n ∈ List.range 10 := List.mem_range.mpr h
  revert n
  decide

theorem toNat_digitChar {n : Nat} (h : n < 10) : n.digitChar.toNat = n + 48 := by
  have : n ∈ List.range 10 := List.mem_range.mpr h
  revert n
  decide

theorem ofDigits?_ofCode {c : Char} (h : c.toNat ≤ greatestCode) :
    ofDigits? (c.toNat / 100).digitChar (c.toNat / 10 % 10).digitChar (c.toNat % 10).digitChar
      = some c := by
  unfold greatestCode at h
  have ha : c.toNat / 100 < 10 := by omega
  have hb : c.toNat / 10 % 10 < 10 := Nat.mod_lt _ (by omega)
  have hc : c.toNat % 10 < 10 := Nat.mod_lt _ (by omega)
  simp only [ofDigits?, isDigit_digitChar ha, isDigit_digitChar hb, isDigit_digitChar hc,
    toNat_digitChar ha, toNat_digitChar hb, toNat_digitChar hc, Bool.and_self, if_true]
  have : (c.toNat / 100 + 48 - 48) * 100 + (c.toNat / 10 % 10 + 48 - 48) * 10
      + (c.toNat % 10 + 48 - 48) = c.toNat := by omega
  rw [this, Char.ofNat_toNat]

/-- What follows the encoding of a character has no part in it. -/
theorem decode?_encodeChar_append (c : Char) (cs : List Char) :
    decode? (encodeChar c ++ cs) = (decode? cs).map (c :: ·) := by
  unfold encodeChar
  split
  · rename_i h
    simp only [Bool.and_eq_true, decide_eq_true_eq] at h
    simp [ofCode, decode?, ofDigits?_ofCode h.2]
  · rename_i h
    have hc : c ≠ '\\' := by
      rintro rfl
      exact h (by decide)
    simp only [List.singleton_append]
    rw [decode?.eq_3]
    · simp [hc]
    · intro a b d ds e
      exact fun _ => hc e

/-- Decoding undoes encoding. -/
theorem decode?_encode : ∀ cs : List Char, decode? (encode cs) = some cs
  | [] => rfl
  | c :: cs => by
    have : encode (c :: cs) = encodeChar c ++ encode cs := by simp [encode]
    rw [this, decode?_encodeChar_append, decode?_encode cs, Option.map_some]

end Ippcode.Text.Escape
