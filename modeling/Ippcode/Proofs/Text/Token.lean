import Ippcode.Text.Blank
import Ippcode.Text.Line
import Mathlib

/-!
# Lines and tokens

A token is what the reader of a listing can find as a word on a line : some characters, none of
which is a blank or begins a comment. Tokens with spaces between them are found again
(`words_spaced`), trimming leaves a token as it is (`trim_of_isClean`), and a text that puts lines
one below the other is cut into these lines again (`lines_stacked`).
-/

namespace Ippcode.Text

/-! ## ASCII -/

/-- What holds of all ASCII characters can be checked one by one. -/
theorem of_ascii {P : Char → Prop} (h : ∀ n < 128, P (Char.ofNat n)) {c : Char}
    (hc : c.toNat < 128) : P c := by
  have := h c.toNat hc
  rwa [Char.ofNat_toNat] at this

theorem toNat_lt_of_isAlphanum {c : Char} (h : c.isAlphanum = true) : c.toNat < 128 := by
  simp only [Char.isAlphanum, Char.isAlpha, Char.isUpper, Char.isLower, Char.isDigit,
    Bool.or_eq_true, Bool.and_eq_true, decide_eq_true_eq, UInt32.le_iff_toNat_le] at h
  have e : c.toNat = c.val.toNat := rfl
  rcases h with (⟨_, h⟩ | ⟨_, h⟩) | ⟨_, h⟩
  · have : c.val.toNat ≤ 90 := h
    omega
  · have : c.val.toNat ≤ 122 := h
    omega
  · have : c.val.toNat ≤ 57 := h
    omega

theorem isAlphanum_of_isAlphanum_toLower {c : Char} (h : c.toLower.isAlphanum = true) :
    c.isAlphanum = true := by
  by_cases hc : c.val ≥ 'A'.val ∧ c.val ≤ 'Z'.val
  · have upper : c.isUpper = true := decide_eq_true hc
    rw [Char.isAlphanum, Char.isAlpha, upper]
    rfl
  · have lower : c.toLower = c := dif_neg hc
    rwa [lower] at h

/-- Ignoring the case of letters, letters and digits are only the same as such. -/
theorem isAlphanum_of_sameIgnoringCase {as bs : List Char} (h : sameIgnoringCase as bs = true)
    (hbs : (bs.all fun b => b.toLower.isAlphanum) = true) : ∀ a ∈ as, a.isAlphanum = true := by
  intro a ha
  have same : as.map Char.toLower = bs.map Char.toLower := beq_iff_eq.mp h
  have mem : a.toLower ∈ bs.map Char.toLower := same ▸ List.mem_map_of_mem ha
  obtain ⟨b, hb, e⟩ := List.mem_map.mp mem
  exact isAlphanum_of_isAlphanum_toLower (e ▸ List.all_eq_true.mp hbs b hb)

/-! ## Clean texts -/

/-- No character is a blank or the sign of a comment. -/
def IsClean (cs : List Char) : Prop := ∀ c ∈ cs, isBlank c = false ∧ c ≠ '#'

instance (cs : List Char) : Decidable (IsClean cs) :=
  List.decidableBAll _ cs

/-- A clean text that is not empty. -/
structure IsToken (cs : List Char) : Prop where
  ne_nil : cs ≠ []
  clean : IsClean cs

theorem isClean_nil : IsClean [] := nofun

theorem IsClean.append {as bs : List Char} (ha : IsClean as) (hb : IsClean bs) :
    IsClean (as ++ bs) :=
  List.forall_mem_append.mpr ⟨ha, hb⟩

theorem IsClean.cons {c : Char} {cs : List Char} (hc : isBlank c = false ∧ c ≠ '#')
    (h : IsClean cs) : IsClean (c :: cs) :=
  List.forall_mem_cons.mpr ⟨hc, h⟩

/-- The ends of lines are blanks. -/
theorem IsClean.ne_lineEnd {cs : List Char} (h : IsClean cs) : ∀ c ∈ cs, c ≠ '\n' ∧ c ≠ '\r' := by
  intro c hc
  constructor
  · rintro rfl
    exact absurd (h '\n' hc).1 (by decide)
  · rintro rfl
    exact absurd (h '\r' hc).1 (by decide)

/-! ### Trimming -/

theorem dropWhile_isBlank_of_isClean {cs : List Char} (h : IsClean cs) :
    cs.dropWhile isBlank = cs := by
  cases cs with
  | nil => rfl
  | cons c cs =>
    rw [List.dropWhile_cons_of_neg]
    have := (h c List.mem_cons_self).1
    simp [this]

theorem trim_of_isClean {cs : List Char} (h : IsClean cs) : trim cs = cs := by
  have reversed : IsClean cs.reverse := fun c hc => h c (List.mem_reverse.mp hc)
  rw [trim, trimStart, dropWhile_isBlank_of_isClean h, trimEnd,
    dropWhile_isBlank_of_isClean reversed, List.reverse_reverse]

/-! ## Words -/

/-- A word ends where a blank or the end of the text follows. -/
theorem words_append : ∀ {w rest : List Char}, w ≠ [] → (∀ c ∈ w, isBlank c = false) →
    endsWord rest = true → words (w ++ rest) = w :: words rest
  | [c], rest, _, hw, hrest => by
    have hc : isBlank c = false := hw c List.mem_cons_self
    rw [List.singleton_append, words, hc]
    cases h : words rest with
    | nil => rfl
    | cons v vs => simp only [hrest, if_true, Bool.false_eq_true, if_false]
  | c :: d :: w, rest, _, hw, hrest => by
    have hc : isBlank c = false := hw c List.mem_cons_self
    have hd : isBlank d = false := hw d (List.mem_cons_of_mem c List.mem_cons_self)
    have ih := words_append (List.cons_ne_nil d w) (fun x hx => hw x (List.mem_cons_of_mem c hx))
      hrest
    rw [List.cons_append, words, hc, ih]
    simp only [List.cons_append, endsWord, hd, Bool.false_eq_true, if_false]

/-- A character that is no blank begins the first word, alone or in front of the word that was the
first one. -/
theorem words_cons_of_not_isBlank {c : Char} (h : isBlank c = false) (cs : List Char) :
    words (c :: cs) = [c] :: words cs ∨
      ∃ w ws, words cs = w :: ws ∧ words (c :: cs) = (c :: w) :: ws := by
  rw [words, if_neg (by simp [h])]
  cases words cs with
  | nil => exact .inl rfl
  | cons w ws =>
    by_cases ends : endsWord cs = true
    · exact .inl (if_pos ends)
    · exact .inr ⟨w, ws, rfl, if_neg ends⟩

/-- A word has no characters but those of the text. -/
theorem mem_of_mem_words : ∀ {cs w : List Char}, w ∈ words cs → ∀ c ∈ w, c ∈ cs
  | [], w, h => by simp [words] at h
  | d :: cs, w, h => by
    have tail : ∀ u ∈ words cs, ∀ c ∈ u, c ∈ d :: cs := fun u hu c hc =>
      List.mem_cons_of_mem d (mem_of_mem_words hu c hc)
    by_cases blank : isBlank d = true
    · rw [words, if_pos blank] at h
      exact tail w h
    rcases words_cons_of_not_isBlank (Bool.eq_false_of_not_eq_true blank) cs with
      alone | ⟨v, vs, first, joined⟩
    · rw [alone] at h
      rcases List.mem_cons.mp h with rfl | h
      · intro c hc
        obtain rfl := List.mem_singleton.mp hc
        exact List.mem_cons_self
      · exact tail w h
    · rw [joined] at h
      rw [first] at tail
      rcases List.mem_cons.mp h with rfl | h
      · exact List.forall_mem_cons.mpr ⟨List.mem_cons_self, tail v List.mem_cons_self⟩
      · exact tail w (List.mem_cons_of_mem v h)

/-- Words with a space between them. -/
def spaced (ws : List (List Char)) : List Char := List.intercalate [' '] ws

theorem words_spaced : ∀ {ws : List (List Char)}, (∀ w ∈ ws, IsToken w) → words (spaced ws) = ws
  | [], _ => rfl
  | [w], h => by
    have hw := h w List.mem_cons_self
    have single : spaced [w] = w ++ [] := by simp [spaced, List.intercalate]
    rw [single, words_append hw.ne_nil (fun c hc => (hw.clean c hc).1) rfl]
    rfl
  | w :: v :: ws, h => by
    have hw := h w List.mem_cons_self
    have ih := words_spaced fun u hu => h u (List.mem_cons_of_mem w hu)
    have split : spaced (w :: v :: ws) = w ++ ' ' :: spaced (v :: ws) := by
      simp [spaced, List.intercalate]
    rw [split, words_append hw.ne_nil (fun c hc => (hw.clean c hc).1) rfl]
    exact congrArg (w :: ·) ih

/-! ## Lines -/

theorem lines_cons {c : Char} {cs : List Char} (hn : c ≠ '\n') (hr : c ≠ '\r') :
    lines (c :: cs) =
      match lines cs with
      | [] => [[c]]
      | l :: ls => (c :: l) :: ls :=
  lines.eq_4 c cs (fun _ h => absurd h hr) hn

/-- A line ends where a line feed follows. -/
theorem lines_append : ∀ {l rest : List Char}, (∀ c ∈ l, c ≠ '\n' ∧ c ≠ '\r') →
    lines (l ++ '\n' :: rest) = l :: lines rest
  | [], _, _ => rfl
  | c :: l, rest, h => by
    obtain ⟨hn, hr⟩ := h c List.mem_cons_self
    have ih : lines (l ++ '\n' :: rest) = l :: lines rest :=
      lines_append fun d hd => h d (List.mem_cons_of_mem c hd)
    rw [List.cons_append, lines_cons hn hr, ih]

/-- Each line has a character or an end in the text. -/
theorem length_lines_le (cs : List Char) : (lines cs).length ≤ cs.length := by
  induction cs using lines.induct with
  | case1 => exact Nat.le_refl 0
  | case2 cs ih =>
    rw [lines, List.length_cons, List.length_cons, List.length_cons]
    omega
  | case3 cs ih =>
    rw [lines, List.length_cons, List.length_cons]
    omega
  | case4 c cs hr hn e ih =>
    rw [lines, e, List.length_cons, List.length_cons, List.length_nil]
    · omega
    · exact hr
    · exact hn
  | case5 c cs hr hn l ls e ih =>
    rw [e, List.length_cons] at ih
    rw [lines, e, List.length_cons, List.length_cons]
    · omega
    · exact hr
    · exact hn

/-- Lines one below the other, each with its end. -/
def stacked (ls : List (List Char)) : List Char := ls.flatMap (· ++ ['\n'])

theorem lines_stacked : ∀ {ls : List (List Char)},
    (∀ l ∈ ls, ∀ c ∈ l, c ≠ '\n' ∧ c ≠ '\r') → lines (stacked ls) = ls
  | [], _ => rfl
  | l :: ls, h => by
    have ih := lines_stacked fun k hk => h k (List.mem_cons_of_mem l hk)
    have split : stacked (l :: ls) = l ++ '\n' :: stacked ls := by
      simp [stacked]
    rw [split, lines_append (h l List.mem_cons_self), ih]

end Ippcode.Text
