/-!
# Tallies

A tally counts how often things occur, and keeps them in the order of their first
occurrence. Its view is `Tally.count`, and `count_add` and `count_ofList` say what that is.

Numbers may also be kept in ascending order (`Tally.addAscending`). Then a scan from the front comes
upon the least of those that occur most often first (`Tally.topmost?`).
-/

namespace Ippcode

/-- Things with the number of their occurrences, each thing once. -/
structure Tally (α : Type) where
  entries : List (α × Nat)
  deriving DecidableEq

namespace Tally

variable {α : Type} [DecidableEq α]

/-- The tally of nothing. -/
def empty : Tally α := ⟨[]⟩

/-- The entries with one more occurrence of a thing. -/
def bump (x : α) : List (α × Nat) → List (α × Nat)
  | [] => [(x, 1)]
  | (y, n) :: rest => if y = x then (y, n + 1) :: rest else (y, n) :: bump x rest

/-- The tally with one more occurrence of a thing. -/
def add (t : Tally α) (x : α) : Tally α := ⟨bump x t.entries⟩

/-- The tally of a list. -/
def ofList (xs : List α) : Tally α := xs.foldl add empty

/-- How often a thing occurs. -/
def count (t : Tally α) (x : α) : Nat := (t.entries.lookup x).getD 0

/-- The greatest number of occurrences. -/
def greatest (t : Tally α) : Nat := (t.entries.map Prod.snd).foldl max 0

/-- The things that occur most often. -/
def mostFrequent (t : Tally α) : List α :=
  (t.entries.filter fun entry => entry.2 == t.greatest).map Prod.fst

/-- The entries with one more occurrence of a number, which has its place among greater and smaller
ones. -/
def bumpAscending (x : Nat) : List (Nat × Nat) → List (Nat × Nat)
  | [] => [(x, 1)]
  | (y, n) :: rest =>
    if x < y then (x, 1) :: (y, n) :: rest
    else if x = y then (y, n + 1) :: rest
    else (y, n) :: bumpAscending x rest

/-- The tally with one more occurrence of a number, in ascending order. -/
def addAscending (t : Tally Nat) (x : Nat) : Tally Nat := ⟨bumpAscending x t.entries⟩

/-- What is best behind one more entry : it takes the place of an earlier one only if it has
occurred more often. -/
def better {α : Type} (best : Option (α × Nat)) (entry : α × Nat) : Option (α × Nat) :=
  match best with
  | none => some entry
  | some top => if top.2 < entry.2 then some entry else some top

/-- The first entry with the greatest number of occurrences. -/
def topmost? {α : Type} (t : Tally α) : Option (α × Nat) := t.entries.foldl better none

@[simp] theorem count_empty (x : α) : (empty : Tally α).count x = 0 := rfl

theorem count_add (t : Tally α) (x y : α) :
    (t.add x).count y = t.count y + if x = y then 1 else 0 := by
  obtain ⟨entries⟩ := t
  simp only [add, count]
  induction entries with
  | nil =>
    by_cases h : x = y
    · simp [bump, h]
    · simp [bump, h, List.lookup_cons, show (y == x) = false by simpa using Ne.symm h]
  | cons entry rest ih =>
    obtain ⟨z, n⟩ := entry
    unfold bump
    by_cases hz : z = y
    · subst hz
      by_cases hx : z = x
      · simp [hx]
      · simp [hx, Ne.symm hx]
    · have hyz : (y == z) = false := by simpa using Ne.symm hz
      by_cases hx : z = x
      · simp [← hx, hz, List.lookup_cons, hyz]
      · simpa [hx, List.lookup_cons, hyz] using ih

theorem count_foldl_add (xs : List α) (t : Tally α) (x : α) :
    (xs.foldl add t).count x = t.count x + xs.count x := by
  induction xs generalizing t with
  | nil => simp
  | cons y ys ih =>
    rw [List.foldl_cons, ih, count_add, List.count_cons]
    by_cases h : y = x <;> simp [h]; omega

theorem count_ofList (xs : List α) (x : α) : (ofList xs).count x = xs.count x := by
  rw [ofList, count_foldl_add, count_empty, Nat.zero_add]

end Tally

end Ippcode
