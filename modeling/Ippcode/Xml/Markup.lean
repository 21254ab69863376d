import Ippcode.Text.Split
import Ippcode.Xml.Character

/-!
# Markup

A document is a sequence of tags, text, comments and processing instructions. `scan?` cuts it
into these pieces and checks what each is made of, not how they fit together. Text and
attribute values are kept as they are written.

Each piece takes something off what is left to read (`length_next?_lt`), so cutting ends.
-/

namespace Ippcode.Xml

/-! ## Cutting a text -/

/-- The text from its first character that is not white space. -/
def skipSpaces (cs : List Char) : List Char := cs.dropWhile isSpace

/-- No reader gives back more than it was given. -/
theorem length_skipSpaces_le (cs : List Char) : (skipSpaces cs).length ≤ cs.length :=
  (List.dropWhile_sublist _).length_le

/-! ## Names -/

/-- A name, and what stands in front of its colon. -/
structure QName where
  qualifier : String
  localName : String
  deriving DecidableEq, Repr

/-- Whether a part of a name begins as names do. -/
def startsName : List Char → Bool
  | [] => false
  | c :: _ => isNameStart c

/-- The name that a run of name characters is. A colon with nothing in front of it does not
count. -/
def QName.ofChars? (cs : List Char) : Option QName :=
  match Text.splitFirst? (· == ':') cs with
  | none => if startsName cs then some ⟨"", String.ofList cs⟩ else none
  | some (qualifier, _, name) =>
    if (qualifier.isEmpty || startsName qualifier) && startsName name && !name.contains ':' then
      some ⟨String.ofList qualifier, String.ofList name⟩
    else none

/-- The name at the beginning of a text, and what follows it. -/
def qname? (cs : List Char) : Option (QName × List Char) :=
  (QName.ofChars? (cs.takeWhile isNameChar)).map fun name => (name, cs.dropWhile isNameChar)

theorem length_qname?_le {cs r : List Char} {name : QName} (h : qname? cs = some (name, r)) :
    r.length ≤ cs.length := by
  obtain ⟨_, _, e⟩ := Option.map_eq_some_iff.mp h
  cases e
  exact (List.dropWhile_sublist _).length_le

/-! ## Attributes -/

/-- An attribute as it is written : its name, and what stands between its quotation marks. -/
structure RawAttribute where
  name : QName
  value : List Char
  deriving DecidableEq, Repr

/-- The value between quotation marks at the beginning of a text. It has no tag in it. -/
def quoted? : List Char → Option (List Char × List Char)
  | [] => none
  | q :: cs =>
    if q == '"' || q == '\'' then
      match Text.splitFirst? (fun c => c == q || c == '<') cs with
      | some (value, c, rest) => if c = q then some (value, rest) else none
      | none => none
    else none

/-- The attribute at the beginning of a text. -/
def attribute? (cs : List Char) : Option (RawAttribute × List Char) :=
  match qname? cs with
  | none => none
  | some (name, rest) =>
    match skipSpaces rest with
    | '=' :: rest => (quoted? (skipSpaces rest)).map fun cut => (⟨name, cut.1⟩, cut.2)
    | _ => none

/-- The quote at the end of a value is always consumed. -/
theorem length_quoted?_lt {cs v r : List Char} (h : quoted? cs = some (v, r)) :
    r.length < cs.length := by
  unfold quoted? at h
  split at h
  · simp at h
  · split at h
    · split at h
      · rename_i value c rest hs
        split at h
        · cases h
          exact Nat.lt_succ_of_lt (Text.length_splitFirst?_lt hs)
        · simp at h
      · simp at h
    · simp at h

/-- An attribute that is read consumes something. -/
theorem length_attribute?_lt {cs r : List Char} {a : RawAttribute}
    (h : attribute? cs = some (a, r)) : r.length < cs.length := by
  unfold attribute? at h
  split at h
  · simp at h
  · rename_i name rest hn
    split at h
    · rename_i rest' hs
      obtain ⟨⟨v, s⟩, hv, e⟩ := Option.map_eq_some_iff.mp h
      cases e
      have h1 := length_qname?_le hn
      have h2 := length_skipSpaces_le rest
      have h3 := length_skipSpaces_le rest'
      have h4 := length_quoted?_lt hv
      simp only [hs, List.length_cons] at h2 ⊢
      omega
    · simp at h

/-- Whether a text begins with white space. -/
def startsWithSpace : List Char → Bool
  | [] => false
  | c :: _ => isSpace c

/-- The attributes of a tag, each after white space, whether the tag closes itself, and what
follows the tag. -/
def attributes? (cs : List Char) : Option (List RawAttribute × Bool × List Char) :=
  match skipSpaces cs with
  | '/' :: '>' :: rest => some ([], true, rest)
  | '>' :: rest => some ([], false, rest)
  | _ =>
    if startsWithSpace cs then
      match _h : attribute? (skipSpaces cs) with
      | none => none
      | some (a, rest) => (attributes? rest).map fun (as, empty, rest) => (a :: as, empty, rest)
    else none
termination_by cs.length
decreasing_by exact Nat.lt_of_lt_of_le (length_attribute?_lt _h) (length_skipSpaces_le cs)

/-- Attributes may be missing, and then nothing is consumed. -/
theorem length_attributes?_le {cs r : List Char} {as : List RawAttribute} {empty : Bool}
    (h : attributes? cs = some (as, empty, r)) : r.length ≤ cs.length := by
  have hs := length_skipSpaces_le cs
  fun_induction attributes? cs generalizing as with
  | case1 cs rest e => cases h; rw [e] at hs; simp only [List.length_cons] at hs; omega
  | case2 cs rest e => cases h; rw [e] at hs; simp only [List.length_cons] at hs; omega
  | case3 => simp at h
  | case4 cs _ a rest ha _ _ ih =>
    obtain ⟨⟨bs, b, s⟩, hb, e⟩ := Option.map_eq_some_iff.mp h
    cases e
    have h1 := length_attribute?_lt ha
    have h2 := ih hb (length_skipSpaces_le rest)
    omega
  | case5 => simp at h

/-! ## Pieces of a document -/

/-- A piece of a document. -/
inductive Markup where
  | startTag (name : QName) (attributes : List RawAttribute) (empty : Bool)
  | endTag (name : QName)
  | text (chars : List Char)
  /-- Text in which nothing is markup. -/
  | cdata (chars : List Char)
  | comment (chars : List Char)
  | processing (target : List Char) (chars : List Char)
  deriving DecidableEq, Repr

/-- A comment, after the mark that begins it. It has no two hyphens in it, and none at its
end. -/
def comment? (cs : List Char) : Option (Markup × List Char) :=
  match Text.cutAt? "-->".toList cs with
  | none => none
  | some (body, rest) =>
    if Text.occurs "--".toList body || body.getLast? == some '-' then none
    else some (.comment body, rest)

/-- A section of text in which nothing is markup, after the mark that begins it. -/
def cdata? (cs : List Char) : Option (Markup × List Char) :=
  (Text.cutAt? "]]>".toList cs).map fun cut => (.cdata cut.1, cut.2)

/-- A processing instruction, after the mark that begins it. A declaration is none. -/
def processing? (cs : List Char) : Option (Markup × List Char) :=
  let target := cs.takeWhile isNameChar
  if "xml ".toList.isPrefixOf cs || !startsName target then none
  else
    (Text.cutAt? "?>".toList (skipSpaces (cs.dropWhile isNameChar))).map fun cut =>
      (.processing target cut.1, cut.2)

/-- An end tag, after the mark that begins it. -/
def endTag? (cs : List Char) : Option (Markup × List Char) :=
  match qname? cs with
  | none => none
  | some (name, rest) =>
    match skipSpaces rest with
    | '>' :: rest => some (.endTag name, rest)
    | _ => none

/-- A start tag, after the mark that begins it. -/
def startTag? (cs : List Char) : Option (Markup × List Char) :=
  match qname? cs with
  | none => none
  | some (name, rest) =>
    (attributes? rest).map fun (as, empty, rest) => (.startTag name as empty, rest)

/-- Text up to the next tag. It has no end of a section in it. -/
def text? (cs : List Char) : Option (Markup × List Char) :=
  let chars := cs.takeWhile (· != '<')
  if Text.occurs "]]>".toList chars then none else some (.text chars, cs.dropWhile (· != '<'))

/-- The piece at the beginning of a document. -/
def next? : List Char → Option (Markup × List Char)
  | [] => none
  | '<' :: '!' :: '-' :: '-' :: cs => comment? cs
  | '<' :: '!' :: '[' :: 'C' :: 'D' :: 'A' :: 'T' :: 'A' :: '[' :: cs => cdata? cs
  | '<' :: '!' :: _ => none
  | '<' :: '?' :: cs => processing? cs
  | '<' :: '/' :: cs => endTag? cs
  | '<' :: cs => startTag? cs
  | cs => text? cs

/-- A comment goes on to its end mark. -/
theorem length_comment?_le {cs r : List Char} {m : Markup} (h : comment? cs = some (m, r)) :
    r.length ≤ cs.length := by
  unfold comment? at h
  split at h
  · simp at h
  · rename_i body rest hc
    split at h
    · simp at h
    · cases h
      exact Text.length_cutAt?_le hc

theorem length_cdata?_le {cs r : List Char} {m : Markup} (h : cdata? cs = some (m, r)) :
    r.length ≤ cs.length := by
  obtain ⟨⟨a, s⟩, hc, e⟩ := Option.map_eq_some_iff.mp h
  cases e
  exact Text.length_cutAt?_le hc

theorem length_processing?_le {cs r : List Char} {m : Markup}
    (h : processing? cs = some (m, r)) : r.length ≤ cs.length := by
  unfold processing? at h
  simp only at h
  split at h
  · simp at h
  · obtain ⟨⟨a, s⟩, hc, e⟩ := Option.map_eq_some_iff.mp h
    cases e
    have h1 := Text.length_cutAt?_le hc
    have h2 := length_skipSpaces_le (cs.dropWhile isNameChar)
    have h3 := (cs.dropWhile_sublist isNameChar).length_le
    simp only at h1 ⊢
    omega

theorem length_endTag?_le {cs r : List Char} {m : Markup} (h : endTag? cs = some (m, r)) :
    r.length ≤ cs.length := by
  unfold endTag? at h
  split at h
  · simp at h
  · rename_i name rest hn
    have h1 := length_qname?_le hn
    have h2 := length_skipSpaces_le rest
    split at h
    · rename_i rest' hs
      cases h
      simp only [hs, List.length_cons] at h2
      omega
    · simp at h

theorem length_startTag?_le {cs r : List Char} {m : Markup} (h : startTag? cs = some (m, r)) :
    r.length ≤ cs.length := by
  unfold startTag? at h
  split at h
  · simp at h
  · rename_i name rest hn
    obtain ⟨⟨as, b, s⟩, ha, e⟩ := Option.map_eq_some_iff.mp h
    cases e
    have h1 := length_qname?_le hn
    have h2 := length_attributes?_le ha
    omega

/-- Every piece takes something off the document. -/
theorem length_next?_lt {cs r : List Char} {m : Markup} (h : next? cs = some (m, r)) :
    r.length < cs.length := by
  unfold next? at h
  split at h
  · simp at h
  · have := length_comment?_le h; simp only [List.length_cons]; omega
  · have := length_cdata?_le h; simp only [List.length_cons]; omega
  · simp at h
  · have := length_processing?_le h; simp only [List.length_cons]; omega
  · have := length_endTag?_le h; simp only [List.length_cons]; omega
  · have := length_startTag?_le h; simp only [List.length_cons]; omega
  · rename_i h0 _ _ _ _ _ h6
    unfold text? at h
    simp only at h
    split at h
    · simp at h
    · cases h
      cases cs with
      | nil => exact absurd rfl h0
      | cons c cs =>
        have hc : c ≠ '<' := by
          rintro rfl
          exact h6 cs rfl
        have := (cs.dropWhile_sublist (· != '<')).length_le
        simp only [List.dropWhile_cons, bne_iff_ne, ne_eq, hc, not_false_eq_true, if_true,
          List.length_cons]
        omega

/-- The pieces of a document. -/
def scan? (cs : List Char) : Option (List Markup) :=
  if cs.isEmpty then some []
  else
    match _h : next? cs with
    | none => none
    | some (m, rest) => (scan? rest).map (m :: ·)
termination_by cs.length
decreasing_by exact length_next?_lt _h

end Ippcode.Xml
