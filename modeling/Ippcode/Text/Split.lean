/-!
# Splitting a text

`splitFirst?` splits a text at its first character of a kind, and `cutAt?` at the first place
where a mark of several characters stands. Both say what stands before and after, and have
nothing to say if there is no such place.
-/

namespace Ippcode.Text

/-! ## At a character -/

/-- The text before the first character with the property `p`, that character, and the text
after it. -/
def splitFirst? (p : Char → Bool) : List Char → Option (List Char × Char × List Char)
  | [] => none
  | c :: cs =>
    if p c then some ([], c, cs)
    else (splitFirst? p cs).map fun (before, d, after) => (c :: before, d, after)

/-- The three parts make up the text, and the property holds in the middle first. -/
theorem splitFirst?_eq_some_iff {p : Char → Bool} : ∀ {cs a b : List Char} {c : Char},
    splitFirst? p cs = some (a, c, b) ↔ cs = a ++ c :: b ∧ p c = true ∧ ∀ x ∈ a, p x = false
  | [], a, b, c => by simp [splitFirst?]
  | d :: cs, [], b, c => by
    unfold splitFirst?
    by_cases h : p d <;> simp [h]
    · rintro rfl _; exact h
    · rintro rfl _; simpa using h
  | d :: cs, e :: a, b, c => by
    unfold splitFirst?
    by_cases h : p d <;> simp only [h, if_true, if_false, Bool.false_eq_true]
    · simp only [Option.some.injEq, Prod.mk.injEq, List.nil_eq, reduceCtorEq, false_and,
        List.cons_append, List.cons.injEq, false_iff]
      rintro ⟨⟨rfl, _⟩, _, ha⟩
      simp [h] at ha
    · constructor
      · intro hm
        obtain ⟨⟨a', c', b'⟩, hr, e'⟩ := Option.map_eq_some_iff.mp hm
        cases e'
        obtain ⟨rfl, hc, ha⟩ := splitFirst?_eq_some_iff.mp hr
        exact ⟨rfl, hc, by simpa [h] using ha⟩
      · rintro ⟨hcs, hc, ha⟩
        obtain ⟨rfl, rfl⟩ := List.cons.inj hcs
        have hs : splitFirst? p (a ++ c :: b) = some (a, c, b) :=
          splitFirst?_eq_some_iff.mpr ⟨rfl, hc, fun x hx => ha x (List.mem_cons_of_mem _ hx)⟩
        exact Option.map_eq_some_iff.mpr ⟨_, hs, rfl⟩

/-- A text is split unless no character matches. -/
theorem splitFirst?_eq_none_iff {p : Char → Bool} : ∀ {cs : List Char},
    splitFirst? p cs = none ↔ ∀ c ∈ cs, p c = false
  | [] => by simp [splitFirst?]
  | c :: cs => by
    unfold splitFirst?
    by_cases h : p c <;> simp [h, splitFirst?_eq_none_iff]

theorem length_splitFirst?_lt {p : Char → Bool} {cs a b : List Char} {c : Char}
    (h : splitFirst? p cs = some (a, c, b)) : b.length < cs.length := by
  rw [(splitFirst?_eq_some_iff.mp h).1]
  simp only [List.length_append, List.length_cons]
  omega

/-! ## At a mark -/

/-- The text before and after the first place where `mark` stands. -/
def cutAt? (mark cs : List Char) : Option (List Char × List Char) :=
  if mark.isPrefixOf cs then some ([], cs.drop mark.length)
  else
    match cs with
    | [] => none
    | c :: cs => (cutAt? mark cs).map fun (before, after) => (c :: before, after)

/-- Whether `mark` stands somewhere in a text. -/
def occurs (mark cs : List Char) : Bool := (cutAt? mark cs).isSome

theorem occurs_iff {mark : List Char} : ∀ {cs : List Char},
    occurs mark cs = true ↔ mark <:+: cs
  | [] => by
    unfold occurs cutAt?
    cases mark <;> simp
  | c :: cs => by
    have ih := @occurs_iff mark cs
    unfold occurs at ih ⊢
    unfold cutAt?
    rw [List.infix_cons_iff, ← List.isPrefixOf_iff_prefix, ← ih]
    by_cases begins : mark.isPrefixOf (c :: cs) <;> simp [begins]

theorem length_cutAt?_le {mark : List Char} : ∀ {cs a b : List Char},
    cutAt? mark cs = some (a, b) → b.length ≤ cs.length
  | cs, a, b, h => by
    unfold cutAt? at h
    split at h
    · cases h
      simp
    · split at h
      · simp at h
      · obtain ⟨⟨a', b'⟩, hr, e⟩ := Option.map_eq_some_iff.mp h
        cases e
        exact Nat.le_succ_of_le (length_cutAt?_le hr)

end Ippcode.Text
