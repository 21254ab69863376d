import Ippcode.Proofs.Listing.Reading
import Ippcode.Proofs.Runnable
import Ippcode.Proofs.Xml.Opening

/-!
# The form of a text

`SourceForm.ofText` looks at one character, and each reader skips something else before it comes to
this character : the listing reader any blanks, comments and empty lines, the document reader one
byte order mark, and white space in the sense of XML only. Still no text that one of the readers
accepts is taken for the other form (`Program.ofSource_eq_ofForm`).

What a reader accepts is told by how it begins. A listing begins, behind its blanks, with the point
of the header or with a comment (`first_of_ofListing`). A document begins with a tag
(`Xml.OpensWithTag`), whatever the parser, and this is all that the detector and the listing reader
have to know about it (`Xml.Parser.WantsTag`).
-/

namespace Ippcode

open Ippcode.Text

/-! ## How a listing begins -/

namespace Listing

variable {c : Char} {cs : List Char}

/-- In a listing a blank at the beginning does not count, even if it ends a line. -/
theorem tokens_cons_of_isBlank (h : isBlank c = true) : tokens (c :: cs) = tokens cs := by
  have comment : c ≠ '#' := by
    rintro rfl
    exact absurd h (by decide)
  have skipped (l : List Char) : lineTokens (c :: l) = lineTokens l := by
    rw [lineTokens, Word.withoutComment, List.takeWhile_cons_of_pos (by simpa using comment), words,
      if_pos h]
    rfl
  unfold tokens
  by_cases feed : c = '\n'
  · subst feed
    exact tokensOf_cons_of_nil rfl _
  by_cases both : c = '\r' ∧ ∃ rest, cs = '\n' :: rest
  · obtain ⟨rfl, rest, rfl⟩ := both
    rw [show lines ('\r' :: '\n' :: rest) = [] :: lines rest from rfl,
      show lines ('\n' :: rest) = [] :: lines rest from rfl]
  · rw [lines.eq_4 c cs (fun rest hc hrest => both ⟨hc, rest, hrest⟩) feed]
    cases lines cs with
    | nil => exact tokensOf_cons_of_nil (skipped []) []
    | cons l ls => simp only [tokensOf, List.map_cons, skipped]

theorem tokens_trimStart : ∀ cs : List Char, tokens (trimStart cs) = tokens cs
  | [] => rfl
  | c :: cs => by
    by_cases h : isBlank c = true
    · rw [tokens_cons_of_isBlank h, ← tokens_trimStart cs, trimStart, trimStart,
        List.dropWhile_cons_of_pos h]
    · rw [trimStart, List.dropWhile_cons_of_neg h]

/-- A character that is neither a blank nor the sign of a comment begins the first token of a line,
alone or in front of the token that was the first one. -/
theorem lineTokens_cons (blank : isBlank c = false) (comment : c ≠ '#') (l : List Char) :
    lineTokens (c :: l) = [c] :: lineTokens l ∨
      ∃ w ws, lineTokens l = w :: ws ∧ lineTokens (c :: l) = (c :: w) :: ws := by
  have kept : Word.withoutComment (c :: l) = c :: Word.withoutComment l :=
    List.takeWhile_cons_of_pos (by simpa using comment)
  rw [lineTokens, kept]
  exact words_cons_of_not_isBlank blank _

/-- Such a character begins the first token of a listing. -/
theorem tokens_cons (blank : isBlank c = false) (cs : List Char) (comment : c ≠ '#') :
    ∃ w ws rest, tokens (c :: cs) = ((c :: w) :: ws) :: rest := by
  have first (l : List Char) : ∃ w ws, lineTokens (c :: l) = (c :: w) :: ws := by
    rcases lineTokens_cons blank comment l with alone | ⟨w, ws, -, joined⟩
    · exact ⟨[], lineTokens l, alone⟩
    · exact ⟨w, ws, joined⟩
  have ends : c ≠ '\n' ∧ c ≠ '\r' :=
    (IsClean.cons ⟨blank, comment⟩ isClean_nil).ne_lineEnd c List.mem_cons_self
  obtain ⟨l, ls, cut⟩ : ∃ l ls, lines (c :: cs) = (c :: l) :: ls := by
    rw [lines_cons ends.1 ends.2]
    cases lines cs with
    | nil => exact ⟨_, _, rfl⟩
    | cons l ls => exact ⟨_, _, rfl⟩
  obtain ⟨w, ws, word⟩ := first l
  refine ⟨w, ws, tokensOf ls, ?_⟩
  rw [tokens, cut, tokensOf_cons_of_ne_nil (by simp [word]), word]

/-- Behind its blanks, an accepted listing begins with the point of the header or with a
comment. -/
theorem first_of_ofListing {text : String} {p : Program} (h : Program.ofListing text = .ok p) :
    ∃ c cs, trimStart text.toList = c :: cs ∧ (c = '.' ∨ c = '#') := by
  obtain ⟨header, body, -, written, ⟨token, rfl, isHeader⟩, -⟩ := Program.ofListing_eq_ok_iff.mp h
  rw [← tokens_trimStart] at written
  cases trimmed : trimStart text.toList with
  | nil =>
    rw [trimmed] at written
    cases written
  | cons c cs =>
    refine ⟨c, cs, rfl, ?_⟩
    by_contra other
    obtain ⟨notPoint, notComment⟩ := not_or.mp other
    have blank : isBlank c = false := by
      have := List.head?_dropWhile_not isBlank text.toList
      rw [← trimStart, trimmed, List.head?_cons] at this
      simpa using this
    obtain ⟨w, ws, rest, begins⟩ := tokens_cons blank cs notComment
    rw [trimmed, begins] at written
    obtain ⟨rfl, -⟩ := List.cons.inj (List.cons.inj written).1
    rw [not_header notPoint] at isHeader
    cases isHeader

end Listing

/-! ## How a document begins -/

namespace Xml

variable {text : List Char}

theorem isBlank_of_isSpace {c : Char} (h : isSpace c = true) : isBlank c = true := by
  simp only [isSpace, Bool.or_eq_true, beq_iff_eq] at h
  rcases h with ((rfl | rfl) | rfl) | rfl <;> decide

/-- The detector removes what stands in front of the white space, although it would remove more
marks. -/
theorem OpensWithTag.dropWhile_mark (h : OpensWithTag text) :
    ∃ spaces rest, text.dropWhile (· == byteOrderMark) = spaces ++ '<' :: rest ∧
      ∀ c ∈ spaces, isSpace c = true := by
  obtain ⟨mark, spaces, rest, rfl, few, blank⟩ := h
  have marks : ∀ c ∈ mark, (c == byteOrderMark) = true := by
    rcases few with rfl | rfl
    · exact List.forall_mem_nil _
    · exact List.forall_mem_singleton.mpr (beq_self_eq_true _)
  refine ⟨spaces, rest, ?_, blank⟩
  rw [List.dropWhile_append_of_pos marks]
  cases spaces with
  | nil => rfl
  | cons c spaces =>
    refine List.dropWhile_cons_of_neg ?_
    rw [beq_iff_eq]
    rintro rfl
    cases blank _ List.mem_cons_self

/-- White space in the sense of XML is skipped with all other blanks. -/
theorem trimStart_spaces {spaces : List Char} (blank : ∀ c ∈ spaces, isSpace c = true)
    (rest : List Char) : trimStart (spaces ++ '<' :: rest) = '<' :: rest := by
  rw [trimStart, List.dropWhile_append_of_pos fun c hc => isBlank_of_isSpace (blank c hc)]
  rfl

end Xml

/-! ## The form that is found -/

open Xml (OpensWithTag)

variable {text : String} {p : Program}

theorem SourceForm.ofText_of_opensWithTag (h : OpensWithTag text.toList) :
    SourceForm.ofText text = .document := by
  obtain ⟨spaces, rest, opens, blank⟩ := h.dropWhile_mark
  rw [SourceForm.ofText, opens, Xml.trimStart_spaces blank]
  rfl

/-- A byte order mark is no blank. So a listing that begins with one has no header. -/
theorem Listing.not_opensWithTag (h : Program.ofListing text = .ok p) :
    text.toList.dropWhile (· == Xml.byteOrderMark) = text.toList ∧
      ¬ OpensWithTag text.toList := by
  obtain ⟨c, cs, first, begins⟩ := first_of_ofListing h
  have noMark : text.toList.dropWhile (· == Xml.byteOrderMark) = text.toList := by
    cases whole : text.toList with
    | nil => rfl
    | cons d ds =>
      refine List.dropWhile_cons_of_neg ?_
      rw [beq_iff_eq]
      rintro rfl
      rw [whole, show trimStart (Xml.byteOrderMark :: ds) = Xml.byteOrderMark :: ds from rfl]
        at first
      obtain ⟨rfl, -⟩ := List.cons.inj first
      exact absurd begins (by decide)
  refine ⟨noMark, fun opens => ?_⟩
  obtain ⟨spaces, rest, tag, blank⟩ := opens.dropWhile_mark
  rw [noMark] at tag
  rw [tag, Xml.trimStart_spaces blank] at first
  obtain ⟨rfl, -⟩ := List.cons.inj first
  exact absurd begins (by decide)

theorem SourceForm.ofText_of_ofListing (h : Program.ofListing text = .ok p) :
    SourceForm.ofText text = .listing := by
  obtain ⟨c, cs, first, begins⟩ := Listing.first_of_ofListing h
  rw [SourceForm.ofText, (Listing.not_opensWithTag h).1, first]
  rcases begins with rfl | rfl <;> rfl

namespace Program

section

variable [Xml.Parser]

theorem opensWithTag_of_ofDocument (wants : Xml.Parser.WantsTag) (h : ofDocument text = .ok p) :
    OpensWithTag text.toList := by
  obtain ⟨root, accepted, -⟩ := ofDocument_eq_ok_iff.mp h
  exact wants text root accepted

/-- No accepted text is read in the wrong form, if the parser of documents accepts only what opens
with a tag. What one of the readers accepts is read by this reader, no text is accepted by both, and
so a text is a program if one of the readers says so. Whatever opens with a tag is read as a
document, and is no listing. -/
theorem ofSource_eq_ofForm (wants : Xml.Parser.WantsTag) (text : String) :
    (∀ p, ofListing text = .ok p → ofSource text = ofForm .listing text) ∧
    (∀ p, ofDocument text = .ok p → ofSource text = ofForm .document text) ∧
    (¬ ∃ p q, ofListing text = .ok p ∧ ofDocument text = .ok q) ∧
    (∀ p, ofSource text = .ok p ↔ ofListing text = .ok p ∨ ofDocument text = .ok p) ∧
    (OpensWithTag text.toList →
      ofSource text = ofForm .document text ∧ ∀ p, ofListing text ≠ .ok p) := by
  have listing {p : Program} (h : ofListing text = .ok p) :
      ofSource text = ofForm .listing text := by
    rw [ofSource, SourceForm.ofText_of_ofListing h]
  have tagged (h : OpensWithTag text.toList) : ofSource text = ofForm .document text := by
    rw [ofSource, SourceForm.ofText_of_opensWithTag h]
  have document {p : Program} (h : ofDocument text = .ok p) :
      ofSource text = ofForm .document text :=
    tagged (opensWithTag_of_ofDocument wants h)
  refine ⟨fun p => listing, fun p => document, ?_, fun p => ⟨fun h => ?_, ?_⟩,
    fun h => ⟨tagged h, fun p accepted => (Listing.not_opensWithTag accepted).2 h⟩⟩
  · rintro ⟨p, q, accepted, accepted'⟩
    exact (Listing.not_opensWithTag accepted).2 (opensWithTag_of_ofDocument wants accepted')
  · unfold ofSource at h
    cases form : SourceForm.ofText text with
    | listing =>
      rw [form] at h
      exact .inl (ofListing_of_ofForm h)
    | document =>
      rw [form] at h
      exact .inr (ofDocument_of_ofForm h)
  · rintro (accepted | accepted)
    · rw [listing accepted, ofForm, accepted]
      rfl
    · rw [document accepted, ofForm, accepted]
      rfl

end

/-- A listing whose first tag stands in a comment, and a document behind a byte order mark and an
empty line, with the parser of the program. -/
theorem ofSource_eq_ofForm_marks :
    Xml.Parser.WantsTag ∧
    (∃ p, ofListing "\u00a0\n #<?xml ?>\n.ippCODE23\nBREAK" = .ok p ∧
      ofSource "\u00a0\n #<?xml ?>\n.ippCODE23\nBREAK" =
        ofForm .listing "\u00a0\n #<?xml ?>\n.ippCODE23\nBREAK") ∧
    (∃ p, ofDocument "\ufeff\n<program language='IPPcode23'/>" = .ok p ∧
      ofSource "\ufeff\n<program language='IPPcode23'/>" =
        ofForm .document "\ufeff\n<program language='IPPcode23'/>") ∧
    ∀ p, ofListing "\ufeff\n<program language='IPPcode23'/>" ≠ .ok p := by
  have listed : ofListing "\u00a0\n #<?xml ?>\n.ippCODE23\nBREAK" =
      .ok (.numbered [(.breakpoint, [])]) := by
    decide +kernel
  have document : ofDocument "\ufeff\n<program language='IPPcode23'/>" = .ok ⟨[]⟩ := by
    decide +kernel
  have tagged : OpensWithTag "\ufeff\n<program language='IPPcode23'/>".toList :=
    ⟨[Xml.byteOrderMark], ['\n'], _, rfl, .inr rfl, List.forall_mem_singleton.mpr rfl⟩
  exact ⟨Xml.wantsTag, ⟨_, listed, (ofSource_eq_ofForm Xml.wantsTag _).1 _ listed⟩,
    ⟨_, document, (ofSource_eq_ofForm Xml.wantsTag _).2.1 _ document⟩,
    ((ofSource_eq_ofForm Xml.wantsTag _).2.2.2.2 tagged).2⟩

end Program

end Ippcode
