import Ippcode.Proofs.Listing.Reading
import Ippcode.Proofs.Result
import Ippcode.Proofs.Text.Stream

/-!
# Where a listing is wrong

The reader goes through a listing line by line, and no line is looked at before all lines above it
have been read. A line without tokens changes nothing, the first other line is the header or an
error, and below the header each line gives operations or an error (`operations_cons`). So an error
is that of the first line with something wrong on it : what stands above this line would be read
(`fromHeader_eq_error`), and what stands below it does not matter.

A text can be cut after any of its lines (`Text.IsCut`), which leaves a text with fewer lines
(`Text.lines_firstLines`).
-/

namespace Ippcode

/-! ## Texts that are cut -/

namespace Text

/-- The first lines of a text, with their ends. -/
def firstLines : Nat → List Char → List Char
  | 0, _ => []
  | _ + 1, [] => []
  | n + 1, c :: cs => c :: firstLines (if c = '\n' then n else n + 1) cs

/-- The front of a text with so many of its lines. -/
structure IsCut (n : Nat) (text cut : String) : Prop where
  front : cut.toList <+: text.toList
  lines : lines cut.toList = (lines text.toList).take n

theorem firstLines_zero (cs : List Char) : firstLines 0 cs = [] := by
  cases cs <;> rfl

theorem firstLines_isPrefix : ∀ (n : Nat) (cs : List Char), firstLines n cs <+: cs
  | 0, cs => by
    rw [firstLines_zero]
    exact List.nil_prefix
  | _ + 1, [] => List.nil_prefix
  | n + 1, c :: cs => by
    rw [firstLines]
    exact (List.prefix_cons_inj c).mpr (firstLines_isPrefix _ cs)

theorem firstLines_of_plain (n : Nat) : ∀ {l : List Char}, '\n' ∉ l → firstLines (n + 1) l = l
  | [], _ => rfl
  | c :: l, plain => by
    obtain ⟨first, others⟩ := List.ne_and_not_mem_of_not_mem_cons plain
    rw [firstLines, if_neg first.symm, firstLines_of_plain n others]

theorem firstLines_append (n : Nat) (rest : List Char) : ∀ {l : List Char}, '\n' ∉ l →
    firstLines (n + 1) (l ++ '\n' :: rest) = l ++ '\n' :: firstLines n rest
  | [], _ => by rw [List.nil_append, firstLines, if_pos rfl, List.nil_append]
  | c :: l, plain => by
    obtain ⟨first, others⟩ := List.ne_and_not_mem_of_not_mem_cons plain
    rw [List.cons_append, firstLines, if_neg first.symm, firstLines_append n rest others,
      List.cons_append]

theorem lines_firstLines : ∀ (n : Nat) (cs : List Char),
    lines (firstLines n cs) = (lines cs).take n
  | 0, cs => by
    rw [firstLines_zero, List.take_zero]
    rfl
  | n + 1, cs => by
    by_cases ends : '\n' ∈ cs
    · obtain ⟨l, rest, rfl, plain⟩ := List.eq_append_cons_of_mem ends
      rw [firstLines_append n rest plain, lines_append_lineFeed _ plain,
        lines_append_lineFeed _ plain, lines_firstLines n rest, List.take_succ_cons]
    · rw [firstLines_of_plain n ends]
      by_cases empty : cs = []
      · subst empty
        rfl
      · rw [lines_of_plain ends empty, List.take_succ_cons, List.take_nil]

theorem exists_isCut (n : Nat) (text : String) : ∃ cut, IsCut n text cut := by
  refine ⟨String.ofList (firstLines n text.toList), ?_, ?_⟩
  · rw [String.toList_ofList]
    exact firstLines_isPrefix n text.toList
  · rw [String.toList_ofList, lines_firstLines]

end Text

open Ippcode.Text

/-! ## Errors of one line -/

/-- The number of the line that an error is about. -/
def ListingError.line? : ListingError → Option Nat
  | missingHeader => none
  | duplicateHeader line | unknownOpcode line _ | arity line _ _ _ | badVariable line _
  | badConstant line _ | operand line _ _ _ _ => some line

namespace Word

variable {line : Nat} {e : ListingError}

theorem line?_of_ofText {cs : List Char} (h : ofText line cs = .error e) :
    e.line? = some line := by
  unfold ofText at h
  simp only at h
  split at h
  · cases h
  split at h
  · cases h
  split at h
  · split at h
    · cases h
    · obtain rfl := Except.error.inj h
      rfl
  · split at h
    · cases h
    · obtain rfl := Except.error.inj h
      rfl

theorem line?_of_ofLine {cs : List Char} (h : ofLine line cs = .error e) :
    e.line? = some line := by
  unfold ofLine at h
  generalize words (withoutComment cs) = tokens at h
  induction tokens with
  | nil => cases h
  | cons token tokens ih =>
    rw [List.mapM_cons] at h
    cases first : ofText line token with
    | error e' =>
      rw [first] at h
      obtain rfl := Except.error.inj h
      exact line?_of_ofText first
    | ok word =>
      rw [first, ok_bind] at h
      cases rest : tokens.mapM (ofText line) with
      | error e' =>
        rw [rest] at h
        obtain rfl := Except.error.inj h
        exact ih rest
      | ok words =>
        rw [rest] at h
        cases h

end Word

namespace Listing

variable {line : Nat} {l : List Char} {ls : List (List Char)} {e : ListingError}

theorem line?_of_arguments {opcode : Opcode} : ∀ {position : Nat} {kinds : List OperandKind}
    {words : List Word}, arguments line opcode position kinds words = .error e →
      e.line? = some line
  | position, kind :: kinds, word :: words, h => by
    unfold arguments at h
    split at h
    · obtain rfl := Except.error.inj h
      rfl
    split at h
    · cases h
    · rename_i rest
      rw [Except.error.inj h] at rest
      exact line?_of_arguments rest
  | _, [], _, h => by cases h
  | _, _ :: _, [], h => by cases h

theorem line?_of_operation {words : List Word} (h : operation line words = .error e) :
    e.line? = some line := by
  unfold operation at h
  split at h
  · obtain rfl := Except.error.inj h
    rfl
  · obtain rfl := Except.error.inj h
    rfl
  · split at h
    · obtain rfl := Except.error.inj h
      rfl
    simp only at h
    split at h
    · split at h
      · cases h
      · rename_i wrong
        obtain rfl := Except.error.inj h
        exact line?_of_arguments wrong
    · obtain rfl := Except.error.inj h
      rfl
  · obtain rfl := Except.error.inj h
    rfl

/-! ## What one line gives -/

/-- The operations on a line below the header. -/
def entry (line : Nat) (l : List Char) : Except ListingError (List (Opcode × List Argument)) :=
  match Word.ofLine line l with
  | .error e => .error e
  | .ok [] => .ok []
  | .ok words => (operation line words).map fun op => [op]

theorem line?_of_entry (h : entry line l = .error e) : e.line? = some line := by
  unfold entry at h
  split at h
  · rename_i wrong
    obtain rfl := Except.error.inj h
    exact Word.line?_of_ofLine wrong
  · cases h
  · exact line?_of_operation (map_eq_error_iff.mp h)

/-- Operations are those of the first line and those of the others. -/
theorem operations_cons (line : Nat) (l : List Char) (ls : List (List Char)) :
    operations line (l :: ls) =
      (entry line l >>= fun ops => (operations (line + 1) ls).map (ops ++ ·)) := by
  rw [operations, entry]
  cases Word.ofLine line l with
  | error e => rfl
  | ok words =>
    cases words with
    | nil =>
      simp only [ok_bind]
      cases operations (line + 1) ls <;> rfl
    | cons word words =>
      simp only
      cases operation line (word :: words) with
      | error e => rfl
      | ok op =>
        simp only [map_ok, ok_bind]
        cases operations (line + 1) ls <;> rfl

theorem fromHeader_cons_of_header (h : IsHeader (lineTokens l)) (ls : List (List Char)) :
    fromHeader line (l :: ls) = operations (line + 1) ls := by
  obtain ⟨token, alone, named⟩ := h
  have spelled : Word.ofLine line l = .ok [.header] := by
    rw [ofLine_eq_ok_iff, alone]
    exact .cons (.header named) .nil
  rw [fromHeader, spelled]

/-- A line above the header that has words, but other ones than the header. -/
theorem fromHeader_cons_of_words {words : List Word} (read : Word.ofLine line l = .ok words)
    (some : words ≠ []) (other : words ≠ [.header]) (ls : List (List Char)) :
    fromHeader line (l :: ls) = .error .missingHeader := by
  rw [fromHeader, read]
  split
  · rename_i wrong
    cases wrong
  · rename_i none
    exact absurd (Except.ok.inj none) some
  · rename_i header
    exact absurd (Except.ok.inj header) other
  · rfl

/-- A line with tokens above the header is an error. -/
theorem fromHeader_cons_of_other (tokens : lineTokens l ≠ []) (h : ¬ IsHeader (lineTokens l)) :
    ∃ e, (e.line? = some line ∨ e = .missingHeader) ∧
      ∀ ls, fromHeader line (l :: ls) = .error e := by
  cases read : Word.ofLine line l with
  | error e =>
    refine ⟨e, .inl (Word.line?_of_ofLine read), fun ls => ?_⟩
    rw [fromHeader, read]
  | ok words =>
    have spelled := ofLine_eq_ok_iff.mp read
    refine ⟨.missingHeader, .inr rfl, fromHeader_cons_of_words read ?_ ?_⟩
    · rintro rfl
      exact tokens (List.forall₂_nil_right_iff.mp spelled)
    · exact fun header => h ((isHeader_iff spelled).mp header)

/-! ## The first line that is wrong -/

/-- Below the header, an error is that of the first line with something wrong on it. -/
theorem operations_eq_error : ∀ {line : Nat} {ls : List (List Char)} {e : ListingError},
    operations line ls = .error e → ∃ front l rest, ls = front ++ l :: rest ∧
      e.line? = some (line + front.length) ∧ (∃ ops, operations line front = .ok ops) ∧
      ∀ other, operations line (front ++ l :: other) = .error e
  | line, [], e, h => by cases h
  | line, l :: ls, e, h => by
    rw [operations_cons] at h
    cases first : entry line l with
    | error e' =>
      rw [first, error_bind, Except.error.injEq] at h
      have raised := line?_of_entry (first.trans (congrArg _ h))
      refine ⟨[], l, ls, rfl, raised, ⟨[], rfl⟩, fun other => ?_⟩
      rw [List.nil_append, operations_cons, first, error_bind, h]
    | ok ops =>
      rw [first, ok_bind, map_eq_error_iff] at h
      obtain ⟨front, l', rest, rfl, number, ⟨ops', read⟩, always⟩ := operations_eq_error h
      refine ⟨l :: front, l', rest, rfl, ?_, ⟨ops ++ ops', ?_⟩, fun other => ?_⟩
      · rw [number, List.length_cons, Nat.add_assoc, Nat.add_comm 1]
      · rw [operations_cons, first, ok_bind, read, map_ok]
      · rw [List.cons_append, operations_cons, first, ok_bind, always, map_error]

/-- An error is that of the first line with something wrong on it, or there is no line with tokens.
The lines above it would be read as they are, or the header is not among them yet. -/
theorem fromHeader_eq_error : ∀ {line : Nat} {ls : List (List Char)} {e : ListingError},
    fromHeader line ls = .error e → (e = .missingHeader ∧ tokensOf ls = []) ∨
      ∃ front l rest, ls = front ++ l :: rest ∧
        (e.line? = some (line + front.length) ∨
          e = .missingHeader ∧ tokensOf front = [] ∧ lineTokens l ≠ []) ∧
        ((∃ ops, fromHeader line front = .ok ops) ∨ tokensOf front = []) ∧
        ∀ other, fromHeader line (front ++ l :: other) = .error e
  | line, [], e, h => .inl ⟨(Except.error.inj h).symm, rfl⟩
  | line, l :: ls, e, h => by
    by_cases blank : lineTokens l = []
    · rw [fromHeader_cons_of_blank blank] at h
      rcases fromHeader_eq_error h with
        ⟨missing, none⟩ | ⟨front, l', rest, rfl, raised, above, always⟩
      · exact .inl ⟨missing, (tokensOf_cons_of_nil blank ls).trans none⟩
      · refine .inr ⟨l :: front, l', rest, rfl, ?_, ?_, fun other => ?_⟩
        · rw [List.length_cons, tokensOf_cons_of_nil blank, Nat.add_comm front.length,
            ← Nat.add_assoc]
          exact raised
        · rw [fromHeader_cons_of_blank blank, tokensOf_cons_of_nil blank]
          exact above
        · rw [List.cons_append, fromHeader_cons_of_blank blank, always]
    by_cases header : IsHeader (lineTokens l)
    · rw [fromHeader_cons_of_header header] at h
      obtain ⟨front, l', rest, rfl, number, ⟨ops, read⟩, always⟩ := operations_eq_error h
      refine .inr ⟨l :: front, l', rest, rfl, .inl ?_, .inl ⟨ops, ?_⟩, fun other => ?_⟩
      · rw [number, List.length_cons, Nat.add_assoc, Nat.add_comm 1]
      · rw [fromHeader_cons_of_header header, read]
      · rw [List.cons_append, fromHeader_cons_of_header header, always]
    · obtain ⟨e', raised, always⟩ := fromHeader_cons_of_other blank header
      obtain rfl : e' = e := Except.error.inj ((always ls).symm.trans h)
      refine .inr ⟨[], l, ls, rfl, ?_, .inr rfl, always⟩
      exact raised.imp id fun missing => ⟨missing, rfl, blank⟩

/-- The line with this number is the first one with tokens. -/
structure OpensAt (ls : List (List Char)) (k : Nat) : Prop where
  above : tokensOf (ls.take (k - 1)) = []
  here : tokensOf (ls.take k) ≠ []

/-- An error is raised by the line with this number : the error holds the number, or the line ought
to be the header. -/
inductive RaisedBy (ls : List (List Char)) : ListingError → Nat → Prop
  | numbered {e : ListingError} {k : Nat} (h : e.line? = some k) : RaisedBy ls e k
  | header {k : Nat} (h : OpensAt ls k) : RaisedBy ls .missingHeader k

theorem tokensOf_append (as bs : List (List Char)) :
    tokensOf (as ++ bs) = tokensOf as ++ tokensOf bs := by
  rw [tokensOf, List.map_append, List.filter_append]
  rfl

theorem tokensOf_isPrefix {as bs : List (List Char)} (h : as <+: bs) :
    tokensOf as <+: tokensOf bs := by
  obtain ⟨rest, rfl⟩ := h
  rw [tokensOf_append]
  exact List.prefix_append _ _

/-- The first line with tokens. -/
theorem opensAt_of_append {front rest : List (List Char)} (none : tokensOf front = [])
    (tokens : lineTokens l ≠ []) : OpensAt (front ++ l :: rest) (front.length + 1) := by
  constructor
  · rw [Nat.add_sub_cancel, List.take_left', none]
    rfl
  · rw [List.append_cons, List.take_left' (by simp), tokensOf_append,
      tokensOf_cons_of_ne_nil tokens]
    exact List.append_ne_nil_of_right_ne_nil _ (List.cons_ne_nil _ _)

theorem OpensAt.unique {k k' : Nat} (h : OpensAt ls k) (h' : OpensAt ls k') : k = k' := by
  have least {k k' : Nat} (h : OpensAt ls k) (h' : OpensAt ls k') : ¬ k < k' := by
    intro less
    have upTo := tokensOf_isPrefix
      (List.take_prefix_take_left (l := ls) (Nat.le_sub_one_of_lt less))
    rw [h'.above] at upTo
    exact h.here (List.prefix_nil.mp upTo)
  have first := least h h'
  have second := least h' h
  omega

/-- Where there are tokens, there is a first line with some. -/
theorem exists_opensAt (h : tokensOf ls ≠ []) : ∃ k, OpensAt ls k := by
  have some : ∃ k, tokensOf (ls.take k) ≠ [] := ⟨ls.length, by rwa [List.take_length]⟩
  refine ⟨Nat.find some, ?_, Nat.find_spec some⟩
  by_contra tokens
  have least := Nat.find_min' some tokens
  have zero : Nat.find some = 0 := by omega
  have here := Nat.find_spec some
  rw [zero] at here
  exact here rfl

/-- Without tokens there is no header. -/
theorem fromHeader_of_tokensOf_eq_nil : ∀ {line : Nat} {ls : List (List Char)},
    tokensOf ls = [] → fromHeader line ls = .error .missingHeader
  | _, [], _ => rfl
  | line, l :: ls, h => by
    by_cases blank : lineTokens l = []
    · rw [tokensOf_cons_of_nil blank] at h
      rw [fromHeader_cons_of_blank blank, fromHeader_of_tokensOf_eq_nil h]
    · rw [tokensOf_cons_of_ne_nil blank] at h
      cases h

/-- The line that raises an error, and what reading comes to without it. -/
theorem of_raisedBy {k : Nat} (h : fromHeader 1 ls = .error e) (raised : RaisedBy ls e k) :
    0 < k ∧ k ≤ ls.length ∧
      ((∃ ops, fromHeader 1 (ls.take (k - 1)) = .ok ops) ∨ tokensOf (ls.take (k - 1)) = []) ∧
      ∀ other, fromHeader 1 (ls.take k ++ other) = .error e := by
  rcases fromHeader_eq_error h with ⟨rfl, none⟩ | ⟨front, l, rest, rfl, place, above, always⟩
  · cases raised with
    | numbered number => cases number
    | header opens =>
      have upTo := tokensOf_isPrefix (List.take_prefix k ls)
      rw [none] at upTo
      exact absurd (List.prefix_nil.mp upTo) opens.here
  · have found : k = front.length + 1 := by
      rcases place with number | ⟨rfl, none, tokens⟩
      · cases raised with
        | numbered number' =>
          have := Option.some.inj (number'.symm.trans number)
          omega
        | header => cases number
      · cases raised with
        | numbered number => cases number
        | header opens => exact opens.unique (opensAt_of_append none tokens)
    subst found
    have cut : (front ++ l :: rest).take front.length = front := List.take_left' rfl
    rw [Nat.add_sub_cancel, cut]
    refine ⟨Nat.succ_pos _, by simp, above, fun other => ?_⟩
    rw [List.append_cons, List.take_left' (by simp), ← List.append_cons, always]

end Listing

open Listing

namespace Program

variable {text cut : String} {p : Program} {e : ListingError} {k n : Nat}

theorem ofListing_eq_error_iff :
    ofListing text = .error e ↔ fromHeader 1 (lines text.toList) = .error e :=
  map_eq_error_iff

theorem exists_ofListing_iff : (∃ q, ofListing text = .ok q) ↔
    ∃ ops, fromHeader 1 (lines text.toList) = .ok ops := by
  simp only [ofListing, map_eq_ok_iff]
  exact ⟨fun ⟨_, ops, h, _⟩ => ⟨ops, h⟩, fun ⟨ops, h⟩ => ⟨_, ops, h, rfl⟩⟩

theorem numberedFrom_isPrefix : ∀ {ops ops' : List (Opcode × List Argument)} (first : Nat),
    ops <+: ops' → numberedFrom first ops <+: numberedFrom first ops'
  | [], _, _, _ => List.nil_prefix
  | op :: ops, [], _, h => absurd h (by simp)
  | op :: ops, op' :: ops', first, h => by
    obtain ⟨rfl, rest⟩ := List.cons_prefix_cons.mp h
    exact List.cons_prefix_cons.mpr ⟨rfl, numberedFrom_isPrefix (first + 1) rest⟩

/-- A text that is cut below its header. -/
theorem ofListing_of_isCut (accepted : ofListing text = .ok p) (cut' : IsCut n text cut)
    (tokens : tokensOf ((lines text.toList).take n) ≠ []) : ∃ q, ofListing cut = .ok q ∧
      q.instructions <+: p.instructions ∧
      q.instructions.length + 1 = (Listing.tokens cut.toList).length := by
  obtain ⟨header, body, ops, whole, isHeader, written, rfl⟩ := ofListing_eq_ok_iff.mp accepted
  have front : Listing.tokens cut.toList <+: header :: body := by
    rw [← whole, Listing.tokens, Listing.tokens, cut'.lines]
    exact tokensOf_isPrefix (List.take_prefix n _)
  rw [← cut'.lines] at tokens
  cases cutTokens : Listing.tokens cut.toList with
  | nil => exact absurd cutTokens tokens
  | cons first rest =>
    rw [cutTokens] at front
    obtain ⟨rfl, shorter⟩ := List.cons_prefix_cons.mp front
    have kept : rest = body.take rest.length := List.prefix_iff_eq_take.mp shorter
    have read : List.Forall₂ WritesOperation rest (ops.take rest.length) := by
      rw [kept, List.length_take, Nat.min_eq_left shorter.length_le]
      exact List.forall₂_take _ written
    refine ⟨numbered (ops.take rest.length),
      ofListing_eq_ok_iff.mpr ⟨first, rest, _, cutTokens, isHeader, read, rfl⟩,
      numberedFrom_isPrefix 1 (List.take_prefix _ _), ?_⟩
    rw [numbered, length_numberedFrom, ← read.length_eq, List.length_cons]

/-- Errors are those of the first line with something wrong on it, and depend on no line below. If
an error is raised by a line, any text with the same lines up to there fails with the same error,
and without this line and all others below it the text is accepted, or the only thing wrong with it
is that its header has not come yet. An accepted text that is cut somewhere below its header is
accepted too, as the program of the instructions that are left. -/
theorem ofListing_lineByLine (text : String) :
    (∀ n, ∃ cut, IsCut n text cut) ∧
    (∀ e, ofListing text = .error e → (∃ k, RaisedBy (lines text.toList) e k) ∨
      e = .missingHeader ∧ tokens text.toList = []) ∧
    (∀ e k, ofListing text = .error e → RaisedBy (lines text.toList) e k →
      0 < k ∧ k ≤ (lines text.toList).length ∧
      (∀ other : String, (lines other.toList).take k = (lines text.toList).take k →
        ofListing other = .error e) ∧
      ∀ cut, IsCut (k - 1) text cut → (∃ q, ofListing cut = .ok q) ∨
        ofListing cut = .error .missingHeader ∧ tokens cut.toList = []) ∧
    ∀ p, ofListing text = .ok p → ∃ header, OpensAt (lines text.toList) header ∧
      ∀ n, header ≤ n → ∀ cut, IsCut n text cut → ∃ q, ofListing cut = .ok q ∧
        q.instructions <+: p.instructions ∧
        q.instructions.length + 1 = (tokens cut.toList).length := by
  refine ⟨fun n => exists_isCut n text, fun e refused => ?_, fun e k refused raised => ?_,
    fun p accepted => ?_⟩
  · rcases fromHeader_eq_error (ofListing_eq_error_iff.mp refused) with
      none | ⟨front, l, rest, split, number | ⟨rfl, none, some⟩, -⟩
    · exact .inr none
    · exact .inl ⟨_, .numbered number⟩
    · exact .inl ⟨_, .header (split ▸ opensAt_of_append none some)⟩
  · obtain ⟨positive, inside, above, always⟩ :=
      of_raisedBy (ofListing_eq_error_iff.mp refused) raised
    refine ⟨positive, inside, fun other same => ?_, fun cut cut' => ?_⟩
    · rw [ofListing_eq_error_iff, ← List.take_append_drop k (lines other.toList), same, always]
    · rw [exists_ofListing_iff, ofListing_eq_error_iff, tokens, cut'.lines]
      exact above.imp id fun none => ⟨fromHeader_of_tokensOf_eq_nil none, none⟩
  · obtain ⟨first, body, ops, whole, -⟩ := ofListing_eq_ok_iff.mp accepted
    have some : tokensOf (lines text.toList) ≠ [] := by
      rw [← tokens, whole]
      exact List.cons_ne_nil first body
    obtain ⟨header, opens⟩ := exists_opensAt some
    refine ⟨header, opens, fun n below cut cut' => ofListing_of_isCut accepted cut' fun none => ?_⟩
    have upTo := tokensOf_isPrefix (List.take_prefix_take_left (l := lines text.toList) below)
    rw [none] at upTo
    exact opens.here (List.prefix_nil.mp upTo)

/-- A word that is no opcode on the fourth line, whatever ends the lines and stands below. Without
it the text is accepted, and what is accepted can be cut behind its header. -/
theorem ofListing_lineByLine_unknownOpcode :
    ofListing ".IPPcode23\nBREAK\n\nHALT" = .error (.unknownOpcode 4 "HALT") ∧
    ofListing ".IPPcode23\r\nBREAK\n\nHALT\nint@x" = .error (.unknownOpcode 4 "HALT") ∧
    ((∃ q, ofListing ".IPPcode23\nBREAK\n\n" = .ok q) ∨
      ofListing ".IPPcode23\nBREAK\n\n" = .error .missingHeader ∧
        tokens ".IPPcode23\nBREAK\n\n".toList = []) ∧
    ∃ q, ofListing ".IPPcode23\n" = .ok q ∧
      q.instructions <+: (Program.numbered [(.breakpoint, [])]).instructions ∧
      q.instructions.length + 1 = (tokens ".IPPcode23\n".toList).length := by
  have refused : ofListing ".IPPcode23\nBREAK\n\nHALT" = .error (.unknownOpcode 4 "HALT") := by
    decide +kernel
  have accepted : ofListing ".IPPcode23\nBREAK\n\n" = .ok (.numbered [(.breakpoint, [])]) := by
    decide +kernel
  obtain ⟨-, -, same, cuts⟩ := (ofListing_lineByLine _).2.2.1 _ 4 refused (.numbered rfl)
  obtain ⟨header, opens, below⟩ := (ofListing_lineByLine _).2.2.2 _ accepted
  obtain rfl : header = 1 := opens.unique ⟨by decide +kernel, by decide +kernel⟩
  exact ⟨refused, same _ (by decide +kernel), cuts _ ⟨by decide +kernel, by decide +kernel⟩,
    below 1 (le_refl 1) _ ⟨by decide +kernel, by decide +kernel⟩⟩

end Program

end Ippcode
