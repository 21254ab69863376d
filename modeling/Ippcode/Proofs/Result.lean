import Mathlib

/-!
# Results

A result is a value or an error. Steps one after another give a value exactly if each of them
does (`bind_eq_ok_iff`), and so does what is done to each thing of a list (`mapM_eq_some_iff`).
-/

namespace Ippcode

/-- A value is handed on to the next step. -/
@[simp] theorem ok_bind (x : α) (f : α → Except ε β) : (Except.ok x >>= f) = f x := rfl

/-- An error skips the next step. -/
@[simp] theorem error_bind (e : ε) (f : α → Except ε β) : (Except.error e >>= f) = .error e := rfl

@[simp] theorem map_ok (f : α → β) (x : α) : (Except.ok x : Except ε α).map f = .ok (f x) := rfl

@[simp] theorem map_error (f : α → β) (e : ε) :
    (Except.error e : Except ε α).map f = .error e := rfl

theorem pure_eq_ok (x : α) : (pure x : Except ε α) = .ok x := rfl

theorem throw_eq_error (e : ε) : (throw e : Except ε α) = .error e := rfl

/-- Two steps give a value if the first one does and the second one does so from there. -/
theorem bind_eq_ok_iff {r : Except ε α} {f : α → Except ε β} {y : β} :
    (r >>= f) = .ok y ↔ ∃ x, r = .ok x ∧ f x = .ok y := by
  cases r with
  | ok x => simp
  | error e => simp

/-- Working on a value neither makes an error nor mends one. -/
theorem map_eq_ok_iff {r : Except ε α} {f : α → β} {y : β} :
    r.map f = .ok y ↔ ∃ x, r = .ok x ∧ f x = y := by
  cases r <;> simp

theorem map_eq_error_iff {r : Except ε α} {f : α → β} {e : ε} :
    r.map f = .error e ↔ r = .error e := by
  cases r <;> simp

/-- Telling an error in other words does not change when there is one. -/
theorem mapError_eq_ok_iff {r : Except ε α} {f : ε → ε'} {x : α} :
    r.mapError f = .ok x ↔ r = .ok x := by
  cases r <;> simp [Except.mapError]

/-- The cause of an error can be found again. -/
theorem mapError_eq_error_iff {r : Except ε α} {f : ε → ε'} {e : ε'} :
    r.mapError f = .error e ↔ ∃ cause, r = .error cause ∧ f cause = e := by
  cases r <;> simp [Except.mapError]

/-- All things of a list have to be done, each by itself. -/
theorem mapM_eq_some_iff {α β : Type} {f : α → Option β} : ∀ {as : List α} {bs : List β},
    as.mapM f = some bs ↔ List.Forall₂ (fun a b => f a = some b) as bs
  | [], bs => by
    rw [List.mapM_nil, List.forall₂_nil_left_iff]
    exact ⟨fun h => (Option.some.inj h).symm, fun h => h ▸ rfl⟩
  | a :: as, bs => by
    have ih := @mapM_eq_some_iff α β f as
    rw [List.mapM_cons, List.forall₂_cons_left_iff]
    constructor
    · intro h
      obtain ⟨b, hb, h⟩ := Option.bind_eq_some_iff.mp h
      obtain ⟨rest, hrest, h⟩ := Option.bind_eq_some_iff.mp h
      exact ⟨b, rest, hb, ih.mp hrest, (Option.some.inj h).symm⟩
    · rintro ⟨b, rest, hb, hrest, rfl⟩
      rw [hb, ih.mpr hrest]
      rfl

end Ippcode
