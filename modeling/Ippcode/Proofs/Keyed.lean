import Mathlib

/-!
# Lists with keys

Looking up a key in a list finds what is there under it, as long as no key is there twice
(`lookup_eq_some_iff_mem`).
-/

namespace Ippcode

variable {κ α : Type} [BEq κ] [LawfulBEq κ] {keyed : List (κ × α)} {key : κ} {a : α}

/-- If no key is there twice, looking up finds all that is there. -/
theorem lookup_eq_some_iff_mem (h : (keyed.map Prod.fst).Nodup) :
    keyed.lookup key = some a ↔ (key, a) ∈ keyed := by
  rw [List.lookup_eq_some_iff]
  constructor
  · rintro ⟨before, after, rfl, -⟩
    simp
  · intro mem
    obtain ⟨before, after, rfl⟩ := List.append_of_mem mem
    refine ⟨before, after, rfl, fun pair hpair => ?_⟩
    rw [List.map_append, List.map_cons, List.nodup_append] at h
    have : pair.1 ≠ key := h.2.2 _ (List.mem_map_of_mem hpair) _ List.mem_cons_self
    exact bne_iff_ne.mpr this.symm

theorem lookup_isSome_iff : (keyed.lookup key).isSome = true ↔ key ∈ keyed.map Prod.fst := by
  rw [List.lookup_isSome_iff, List.mem_map]
  simp only [beq_iff_eq, eq_comm (a := key)]

end Ippcode
