/-!
# Blank and control characters

Which characters separate the words of a source text, which ones can only be written
as escapes, and the cutting of a text at its blanks.

* `isBlank` : the Unicode property `White_Space`, given by its ten ranges (`blankRanges`);
* `isControl` : the Unicode category `Cc`;
* `trim` : a text without the blanks at its two ends;
* `words` : the maximal runs of characters that are not blank, in order.

`words` never yields an empty word and never a word with a blank in it
(`ne_nil_of_mem_words`, `not_isBlank_of_mem_words`).
-/

namespace Ippcode.Text

/-! ## Character classes -/

/-- The ranges of `White_Space`, both ends included. -/
def blankRanges : List (Nat × Nat) :=
  [(0x09, 0x0D), (0x20, 0x20), (0x85, 0x85), (0xA0, 0xA0), (0x1680, 0x1680), (0x2000, 0x200A),
    (0x2028, 0x2029), (0x202F, 0x202F), (0x205F, 0x205F), (0x3000, 0x3000)]

/-- A character that separates words. -/
def isBlank (c : Char) : Bool :=
  blankRanges.any fun range => range.1 ≤ c.toNat && c.toNat ≤ range.2

/-- A control character : category `Cc`, which is closed for further additions. -/
def isControl (c : Char) : Bool :=
  c.toNat ≤ 0x1F || (0x7F ≤ c.toNat && c.toNat ≤ 0x9F)

/-! ## Trimming -/

/-- The text from its first character that is not blank. -/
def trimStart (cs : List Char) : List Char := cs.dropWhile isBlank

/-- The text up to its last character that is not blank. -/
def trimEnd (cs : List Char) : List Char := (cs.reverse.dropWhile isBlank).reverse

/-- The text without the blanks at its two ends. -/
def trim (cs : List Char) : List Char := trimEnd (trimStart cs)

/-! ## Words -/

/-- Whether a word that is running when `cs` is reached ends there. -/
def endsWord : List Char → Bool
  | [] => true
  | c :: _ => isBlank c

/-- The maximal runs of characters that are not blank. -/
def words : List Char → List (List Char)
  | [] => []
  | c :: cs =>
    if isBlank c then words cs
    else
      match words cs with
      | [] => [[c]]
      | w :: ws => if endsWord cs then [c] :: w :: ws else (c :: w) :: ws

theorem ne_nil_of_mem_words : ∀ {cs w : List Char}, w ∈ words cs → w ≠ []
  | [], w, h => by simp [words] at h
  | c :: cs, w, h => by
    unfold words at h
    split at h
    · exact ne_nil_of_mem_words h
    · split at h
      · simp_all
      · rename_i v vs hv
        split at h
        · rcases List.mem_cons.mp h with rfl | h
          · simp
          · exact @ne_nil_of_mem_words cs w (hv ▸ h)
        · rcases List.mem_cons.mp h with rfl | h
          · simp
          · exact @ne_nil_of_mem_words cs w (hv ▸ List.mem_cons_of_mem _ h)

theorem not_isBlank_of_mem_words :
    ∀ {cs w : List Char}, w ∈ words cs → ∀ c ∈ w, isBlank c = false
  | [], w, h => by simp [words] at h
  | d :: cs, w, h => by
    unfold words at h
    split at h
    · exact not_isBlank_of_mem_words h
    · rename_i hd
      split at h
      · simp_all
      · rename_i v vs hv
        have tail : ∀ u ∈ v :: vs, ∀ c ∈ u, isBlank c = false := fun u hu =>
          @not_isBlank_of_mem_words cs u (hv ▸ hu)
        split at h
        · rcases List.mem_cons.mp h with rfl | h
          · simp_all
          · exact tail w h
        · rcases List.mem_cons.mp h with rfl | h
          · intro c hc
            rcases List.mem_cons.mp hc with rfl | hc
            · simpa using hd
            · exact tail v (List.mem_cons_self ..) c hc
          · exact tail w (List.mem_cons_of_mem _ h)

/-! ## Comparison without regard to case -/

/-- Equality up to the case of ASCII letters. -/
def sameIgnoringCase (a b : List Char) : Bool := a.map Char.toLower == b.map Char.toLower

end Ippcode.Text
