import Ippcode.Proofs.Listing.Error
import Ippcode.Proofs.SourceForm

/-!
# A byte order mark in front of a text

The detector skips byte order marks, so a mark in front of a text does not change the form that the
text seems to have (`SourceForm.ofText_mark`). The listing reader skips none : to it the mark is a
character like others, which is no blank. It stands on the first line alone or at the beginning of
the header, and either way the first line with tokens is not the header any more
(`Program.ofListing_mark`).

So behind a mark no listing is read (`Program.ofSource_mark`). Documents are read as before if their
parser skips the mark (`Xml.Parser.SkipsMark`).
-/

namespace Ippcode

open Ippcode.Text

variable {text : String} {p : Program}

theorem dropWhile_mark (text : String) :
    ("\ufeff" ++ text).toList.dropWhile (· == Xml.byteOrderMark) =
      text.toList.dropWhile (· == Xml.byteOrderMark) := by
  rw [Xml.toList_mark, List.dropWhile_cons_of_pos (by simp)]

theorem SourceForm.ofText_mark (text : String) : ofText ("\ufeff" ++ text) = ofText text := by
  rw [ofText, ofText, dropWhile_mark]

/-! ## Listings -/

namespace Listing

theorem atSign_not_mem_header {token : List Char}
    (h : sameIgnoringCase token Word.headerText.toList = true) : '@' ∉ token := by
  intro sign
  have lower := List.mem_map_of_mem (f := Char.toLower) sign
  rw [eq_of_beq h] at lower
  exact absurd lower (by decide)

/-- A word that begins with the mark is neither the header nor an operand with a sign. -/
theorem spells_mark {w : List Char} (h : '@' ∉ w) :
    Word.Spells (Xml.byteOrderMark :: w) (.plain (String.ofList (Xml.byteOrderMark :: w))) :=
  .plain (not_header (by decide)) (List.not_mem_cons_of_ne_of_not_mem (by decide) h)

/-- A mark in front of an empty line, or in front of the header. -/
theorem fromHeader_mark {line : Nat} {l : List Char}
    (h : lineTokens l = [] ∨ IsHeader (lineTokens l)) (ls : List (List Char)) :
    fromHeader line ((Xml.byteOrderMark :: l) :: ls) = .error .missingHeader := by
  have read {words : List Word}
      (spelled : List.Forall₂ Word.Spells (lineTokens (Xml.byteOrderMark :: l)) words)
      (some : words ≠ []) (other : words ≠ [.header]) :
      fromHeader line ((Xml.byteOrderMark :: l) :: ls) = .error .missingHeader :=
    fromHeader_cons_of_words (ofLine_eq_ok_iff.mpr spelled) some other ls
  rcases lineTokens_cons (c := Xml.byteOrderMark) (by decide) (by decide) l with
    alone | ⟨w, ws, first, joined⟩
  · rcases h with blank | ⟨token, header, named⟩
    · rw [alone, blank] at read
      exact read (.cons (spells_mark List.not_mem_nil) .nil) (by simp) (by simp)
    · rw [alone, header] at read
      exact read (.cons (spells_mark List.not_mem_nil) (.cons (.header named) .nil)) (by simp)
        (by simp)
  · rcases h with blank | ⟨token, header, named⟩
    · cases blank.symm.trans first
    · obtain ⟨rfl, rfl⟩ := List.cons.inj (first.symm.trans header)
      rw [joined] at read
      exact read (.cons (spells_mark (atSign_not_mem_header named)) .nil) (by simp) (by simp)

end Listing

namespace Program

/-- No listing begins with a mark. -/
theorem ofListing_mark_ne_ok (text : String) (p : Program) :
    ofListing ("\ufeff" ++ text) ≠ .ok p := by
  intro accepted
  have whole := (Listing.not_opensWithTag accepted).1
  have shorter := List.length_dropWhile_le (· == Xml.byteOrderMark) text.toList
  rw [← dropWhile_mark, whole, Xml.toList_mark, List.length_cons] at shorter
  exact Nat.not_succ_le_self _ shorter

/-- Behind a mark an accepted listing has no header. -/
theorem ofListing_mark (h : ofListing text = .ok p) :
    ofListing ("\ufeff" ++ text) = .error .missingHeader := by
  obtain ⟨header, body, -, written, isHeader, -⟩ := ofListing_eq_ok_iff.mp h
  rw [ofListing_eq_error_iff, Xml.toList_mark, lines_cons (by decide) (by decide)]
  rw [Listing.tokens] at written
  cases cut : lines text.toList with
  | nil => exact Listing.fromHeader_mark (.inl rfl) []
  | cons l ls =>
    refine Listing.fromHeader_mark ?_ ls
    by_cases blank : Listing.lineTokens l = []
    · exact .inl blank
    · rw [cut, Listing.tokensOf_cons_of_ne_nil blank] at written
      exact .inr ((List.cons.inj written).1 ▸ isHeader)

section

variable [Xml.Parser]

/-- A text that does not begin with a mark, and the same text behind a mark. Both seem to have the
same form. A listing that is accepted is refused behind the mark, since its header is not found. So
what is accepted behind a mark are documents at most. With a parser that skips the mark these are
the documents that are accepted without it, and they give the same programs. -/
theorem ofSource_mark (text : String) (h : text.toList.head? ≠ some Xml.byteOrderMark) :
    SourceForm.ofText ("\ufeff" ++ text) = SourceForm.ofText text ∧
    (∀ p, ofListing text = .ok p → ofSource text = .ok p ∧
      ofSource ("\ufeff" ++ text) = .error (.listing .missingHeader)) ∧
    (∀ p, ofSource ("\ufeff" ++ text) = .ok p → ofDocument ("\ufeff" ++ text) = .ok p) ∧
    (Xml.Parser.WantsTag → Xml.Parser.SkipsMark →
      ∀ p, ofSource ("\ufeff" ++ text) = .ok p ↔ ofDocument text = .ok p) := by
  have documents {p : Program} (accepted : ofSource ("\ufeff" ++ text) = .ok p) :
      ofDocument ("\ufeff" ++ text) = .ok p := by
    unfold ofSource at accepted
    cases form : SourceForm.ofText ("\ufeff" ++ text) with
    | listing =>
      rw [form] at accepted
      exact absurd (ofListing_of_ofForm accepted) (ofListing_mark_ne_ok text p)
    | document =>
      rw [form] at accepted
      exact ofDocument_of_ofForm accepted
  refine ⟨SourceForm.ofText_mark text, fun p accepted => ?_, fun p => documents,
    fun wants skips p => ?_⟩
  · have form := SourceForm.ofText_of_ofListing accepted
    constructor
    · rw [ofSource, form]
      exact mapError_eq_ok_iff.mpr accepted
    · rw [ofSource, SourceForm.ofText_mark, form]
      exact mapError_eq_error_iff.mpr ⟨_, ofListing_mark accepted, rfl⟩
  · have same : ofDocument ("\ufeff" ++ text) = .ok p ↔ ofDocument text = .ok p := by
      simp only [ofDocument_eq_ok_iff, skips text h]
    rw [← same]
    refine ⟨documents, fun accepted => ?_⟩
    have form := SourceForm.ofText_of_opensWithTag (opensWithTag_of_ofDocument wants accepted)
    rw [ofSource, form]
    exact mapError_eq_ok_iff.mpr accepted

end

/-- A document and a listing behind a mark, with the parser of the program. -/
theorem ofSource_mark_both :
    ofSource "\ufeff\n<program language='IPPcode23'/>" = .ok ⟨[]⟩ ∧
    ofSource "\ufeff.IPPcode23\nBREAK\n" = .error (.listing .missingHeader) := by
  have document : ofDocument "\n<program language='IPPcode23'/>" = .ok ⟨[]⟩ := by decide +kernel
  have listing : ofListing ".IPPcode23\nBREAK\n" = .ok (.numbered [(.breakpoint, [])]) := by
    decide +kernel
  exact ⟨((ofSource_mark _ (by decide)).2.2.2 Xml.wantsTag Xml.skipsMark _).mpr document,
    ((ofSource_mark _ (by decide)).2.1 _ listing).2⟩

/-- A mark does change what is read, whatever the parser. -/
theorem mark_changes_program : ¬ ∃ _ : Xml.Parser, ∀ text : String,
    text.toList.head? ≠ some Xml.byteOrderMark →
      ∀ p, ofSource text = .ok p → ofSource ("\ufeff" ++ text) = .ok p := by
  rintro ⟨parser, unchanged⟩
  have form : SourceForm.ofText ".IPPcode23\nBREAK\n" = .listing := by decide +kernel
  have listing : ofListing ".IPPcode23\nBREAK\n" = .ok (.numbered [(.breakpoint, [])]) := by
    decide +kernel
  have accepted : ofSource ".IPPcode23\nBREAK\n" = .ok (.numbered [(.breakpoint, [])]) := by
    rw [ofSource, form, ofForm, listing]
    rfl
  have read := unchanged _ (by decide) _ accepted
  rw [ofSource, SourceForm.ofText_mark, form] at read
  exact ofListing_mark_ne_ok _ _ (ofListing_of_ofForm read)

end Program

end Ippcode
