import Ippcode.Listing.Printer
import Ippcode.Proofs.Listing.Reading

/-!
# Printing a program and reading it again

A program can be written if its instructions fit their opcodes, its names are identifiers, its
types are readable and its strings have no blanks that escapes cannot name
(`Program.IsWritable`). The printer puts each instruction on a line of its own, with one token for
the mnemonic and one for each argument. These tokens write the arguments (`Argument.writes_text`)
unless one is a NaN, so the reader finds the operations again (`Program.ofListing_listing`).
Conversely whatever the reader accepts can be written (`Program.isWritable_of_ofListing`).
-/

namespace Ippcode

open Ippcode.Text

/-! ## Tokens -/

theorem Ty.isClean_name (ty : Ty) : IsClean ty.name.toList := by
  cases ty <;> decide

theorem FrameKind.isClean_name (frame : FrameKind) : IsClean frame.name.toList := by
  cases frame <;> decide

theorem Ty.isToken_name (ty : Ty) : IsToken ty.name.toList := by
  refine ⟨?_, ty.isClean_name⟩
  cases ty <;> decide

/-- A clean text before an at sign and a clean text after it are a token. -/
theorem isToken_atSign {before after : String} (hb : IsClean before.toList)
    (ha : IsClean after.toList) : IsToken (before ++ "@" ++ after).toList := by
  have sign : IsClean "@".toList := by decide
  rw [String.toList_append, String.toList_append]
  refine ⟨?_, (hb.append sign).append ha⟩
  simp

theorem isToken_var {v : VariableName} (h : isIdentifier v.name = true) :
    IsToken v.text.toList :=
  isToken_atSign v.frame.isClean_name (isToken_of_isIdentifier h).clean

theorem isToken_of_ofMnemonic? {text : String} {opcode : Opcode}
    (h : Opcode.ofMnemonic? text = some opcode) : IsToken text.toList := by
  have chars := Listing.isAlphanum_of_ofMnemonic? h
  constructor
  · intro e
    obtain rfl := String.toList_eq_nil_iff.mp e
    have unknown : Opcode.ofMnemonic? "" = none := by decide
    rw [unknown] at h
    cases h
  · intro c hc
    have part : isIdentifierPart c = true := by
      rw [isIdentifierPart, chars c hc, Bool.true_or]
    exact (ne_of_isIdentifierPart part).1

/-! ## Listings of tokens -/

namespace Listing

/-- The tokens of the header. -/
def headerTokens : List (List Char) := [Word.headerText.toList]

theorem isToken_header : ∀ t ∈ headerTokens, IsToken t := by
  have clean : IsClean Word.headerText.toList := by decide
  intro t ht
  obtain rfl := List.mem_singleton.mp ht
  exact ⟨by decide, clean⟩

theorem WritesOperation.ne_nil {ts : List (List Char)} {op : Opcode × List Argument}
    (h : WritesOperation ts op) : ts ≠ [] := by
  cases h
  exact List.cons_ne_nil _ _

/-- The listing of the header and of lines with these tokens. -/
def ofTokens (body : List (List String)) : String :=
  String.join (".IPPcode23\n" :: body.map fun ts => " ".intercalate ts ++ "\n")

/-- The tokens of lines as lists of characters. -/
def chars (body : List (List String)) : List (List (List Char)) := body.map (·.map String.toList)

theorem toList_ofTokens (body : List (List String)) :
    (ofTokens body).toList = stacked ((headerTokens :: chars body).map spaced) := by
  have header : ".IPPcode23\n".toList = spaced headerTokens ++ ['\n'] := by decide
  have line (ts : List String) :
      (" ".intercalate ts ++ "\n").toList = spaced (ts.map String.toList) ++ ['\n'] := by
    rw [String.toList_append, String.toList_intercalate, spaced]
    rfl
  rw [ofTokens, chars, String.toList_join, stacked, List.map_cons, List.flatMap_cons,
    List.flatMap_cons, header, List.flatMap_map, List.flatMap_map, List.flatMap_map]
  simp only [line]

/-- Tokens that write operations, line by line, are read as these. -/
theorem ofListing_ofTokens {body : List (List String)} {ops : List (Opcode × List Argument)}
    (areTokens : ∀ ts ∈ body, ∀ t ∈ ts, IsToken t.toList)
    (written : List.Forall₂ WritesOperation (chars body) ops) :
    Program.ofListing (ofTokens body) = .ok (Program.numbered ops) := by
  have nonempty : ∀ ts ∈ chars body, ts ≠ [] := by
    intro ts hts
    obtain ⟨op, -, hop⟩ := exists_right_of_mem written hts
    exact hop.ne_nil
  have charsAreTokens : ∀ ts ∈ chars body, ∀ t ∈ ts, IsToken t := by
    intro cs hcs c hc
    obtain ⟨ts, hts, rfl⟩ := List.mem_map.mp hcs
    obtain ⟨t, ht, rfl⟩ := List.mem_map.mp hc
    exact areTokens ts hts t ht
  refine Program.ofListing_eq_ok_iff.mpr ⟨headerTokens, chars body, ops, ?_, ?_, written, rfl⟩
  · rw [toList_ofTokens]
    refine tokens_stacked ?_ ?_
    · exact List.forall_mem_cons.mpr ⟨List.cons_ne_nil _ _, nonempty⟩
    · exact List.forall_mem_cons.mpr ⟨isToken_header, charsAreTokens⟩
  · exact ⟨Word.headerText.toList, rfl, by decide⟩

end Listing

/-! ## What can be written -/

namespace Argument

/-- Whether a token can write an argument. -/
def IsWritable : Argument → Prop
  | var v => isIdentifier v.name = true
  | constant value => value.IsEscapable
  | label name => isIdentifier name = true
  | type ty => ty.isReadable = true

instance : (arg : Argument) → Decidable arg.IsWritable
  | var v => inferInstanceAs (Decidable (isIdentifier v.name = true))
  | constant value => inferInstanceAs (Decidable value.IsEscapable)
  | label name => inferInstanceAs (Decidable (isIdentifier name = true))
  | type ty => inferInstanceAs (Decidable (ty.isReadable = true))

/-- Whether an argument is a NaN. -/
def isNaN : Argument → Bool
  | constant value => value.isNaN
  | _ => false

theorem isToken_text : ∀ {arg : Argument}, arg.IsWritable → IsToken arg.text.toList
  | var _, h => isToken_var h
  | constant value, h => isToken_atSign value.ty.isClean_name (Value.isClean_payload h)
  | label _, h => isToken_of_isIdentifier h
  | type ty, _ => ty.isToken_name

/-- An argument is written by its text. -/
theorem writes_text : ∀ {arg : Argument}, arg.IsWritable → arg.isNaN = false →
    Listing.Writes arg.text.toList arg
  | var _, h, _ => .var h
  | constant _, _, number => .constant (Value.ofPayload_payload number)
  | label _, h, _ => .label h
  | type _, h, _ => .type h

/-- What a token writes can be written. -/
theorem isWritable_of_writes {token : List Char} {arg : Argument} (h : Listing.Writes token arg)
    (clean : IsClean token) : arg.IsWritable := by
  cases h with
  | var h => exact h
  | constant h =>
    refine Value.isEscapable_of_ofPayload h fun c hc => (clean c ?_).1
    rw [String.toList_append]
    exact List.mem_append_right _ hc
  | label h => exact h
  | type h => exact h

end Argument

namespace Instruction

/-- Whether a line can write an instruction. -/
structure IsWritable (i : Instruction) : Prop where
  fits : i.misfit? = none
  args : ∀ arg ∈ i.args, arg.IsWritable

instance (i : Instruction) : Decidable i.IsWritable :=
  decidable_of_iff (i.misfit? = none ∧ ∀ arg ∈ i.args, arg.IsWritable)
    ⟨fun h => ⟨h.1, h.2⟩, fun h => ⟨h.fits, h.args⟩⟩

/-- The tokens of an instruction. -/
def tokens (i : Instruction) : List String := i.opcode.mnemonic :: i.args.map Argument.text

theorem isToken_tokens {i : Instruction} (h : i.IsWritable) : ∀ t ∈ i.tokens, IsToken t.toList := by
  refine List.forall_mem_cons.mpr ⟨isToken_of_ofMnemonic? (Opcode.ofMnemonic?_mnemonic _), ?_⟩
  intro t ht
  obtain ⟨arg, harg, rfl⟩ := List.mem_map.mp ht
  exact Argument.isToken_text (h.args arg harg)

theorem writesOperation_tokens {i : Instruction} (h : i.IsWritable)
    (numbers : ∀ arg ∈ i.args, arg.isNaN = false) :
    Listing.WritesOperation (i.tokens.map String.toList) i.operation := by
  refine .mk ?_ ?_ (misfit?_eq_none_iff.mp h.fits)
  · rw [String.ofList_toList]
    exact Opcode.ofMnemonic?_mnemonic i.opcode
  · rw [List.forall₂_map_left_iff, List.forall₂_map_left_iff, List.forall₂_same]
    exact fun arg harg => Argument.writes_text (h.args arg harg) (numbers arg harg)

end Instruction

namespace Program

/-- Whether a listing can write a program. -/
def IsWritable (p : Program) : Prop := ∀ i ∈ p.instructions, i.IsWritable

instance (p : Program) : Decidable p.IsWritable :=
  inferInstanceAs (Decidable (∀ i ∈ p.instructions, i.IsWritable))

/-- Whether no argument of a program is a NaN. -/
def IsNaNFree (p : Program) : Prop :=
  ∀ i ∈ p.instructions, ∀ arg ∈ i.args, arg.isNaN = false

instance (p : Program) : Decidable p.IsNaNFree :=
  inferInstanceAs (Decidable (∀ i ∈ p.instructions, ∀ arg ∈ i.args, arg.isNaN = false))

/-- What a program does, apart from the orders of its instructions. -/
def operations (p : Program) : List (Opcode × List Argument) :=
  p.instructions.map Instruction.operation

/-- Whether the instructions of a program are numbered 1, 2, 3 and so on. -/
def IsNumbered (p : Program) : Prop :=
  p.instructions.map Instruction.order = List.range' 1 p.instructions.length

theorem numbered_operations {p : Program} (h : p.IsNumbered) : numbered p.operations = p :=
  congrArg Program.mk (numberedFrom_map_operation h)

theorem listing_eq_ofTokens (p : Program) :
    p.listing = Listing.ofTokens (p.instructions.map Instruction.tokens) := by
  rw [listing, Listing.ofTokens, List.map_map]
  rfl

/-- What is printed is read as the same operations. -/
theorem ofListing_listing {p : Program} (h : p.IsWritable) (numbers : p.IsNaNFree) :
    ofListing p.listing = .ok (numbered p.operations) := by
  rw [listing_eq_ofTokens]
  refine Listing.ofListing_ofTokens ?_ ?_
  · intro ts hts
    obtain ⟨i, hi, rfl⟩ := List.mem_map.mp hts
    exact Instruction.isToken_tokens (h i hi)
  · rw [Listing.chars, operations, List.forall₂_map_left_iff, List.forall₂_map_left_iff,
      List.forall₂_map_right_iff, List.forall₂_same]
    exact fun i hi => Instruction.writesOperation_tokens (h i hi) (numbers i hi)

theorem isNumbered_of_ofListing {text : String} {p : Program} (h : ofListing text = .ok p) :
    p.IsNumbered := by
  obtain ⟨_, _, ops, _, _, _, rfl⟩ := ofListing_eq_ok_iff.mp h
  rw [IsNumbered, numbered, map_order_numberedFrom, length_numberedFrom]

/-- Whatever the reader accepts can be written. -/
theorem isWritable_of_ofListing {text : String} {p : Program} (h : ofListing text = .ok p) :
    p.IsWritable := by
  obtain ⟨header, body, ops, tokens, _, written, rfl⟩ := ofListing_eq_ok_iff.mp h
  intro i hi
  have hop : i.operation ∈ ops := by
    rw [← map_operation_numberedFrom 1 ops]
    exact List.mem_map_of_mem hi
  obtain ⟨ts, hts, line⟩ := exists_left_of_mem written hop
  have areTokens := Listing.isToken_of_mem_tokens (tokens ▸ List.mem_cons_of_mem header hts)
  generalize hi : i.operation = op at line
  cases line with
  | mk found args fits =>
    obtain ⟨rfl, rfl⟩ := Prod.mk.inj hi
    refine ⟨Instruction.misfit?_eq_none_iff.mpr fits, fun arg harg => ?_⟩
    obtain ⟨t, ht, writes⟩ := exists_left_of_mem args harg
    exact Argument.isWritable_of_writes writes (areTokens t (List.mem_cons_of_mem _ ht)).clean

/-- A program that can be written and has no NaN is read back from its listing, with the same
operations and numbered from one on. What the reader accepts can be written and is numbered, so
without a NaN it is read back as it is. Doubles are equal here only with equal bits. -/
theorem listing_readBack :
    (∀ p : Program, p.IsWritable → p.IsNaNFree →
      ofListing p.listing = .ok (numbered p.operations) ∧
        (p.IsNumbered → ofListing p.listing = .ok p)) ∧
    (∀ (text : String) (p : Program), ofListing text = .ok p → p.IsWritable ∧ p.IsNumbered) ∧
    ∀ (text : String) (p : Program), ofListing text = .ok p → p.IsNaNFree →
      ofListing p.listing = .ok p := by
  have again {p : Program} (h : p.IsWritable) (numbers : p.IsNaNFree) (orders : p.IsNumbered) :
      ofListing p.listing = .ok p := by
    rw [ofListing_listing h numbers, numbered_operations orders]
  refine ⟨fun p h numbers => ⟨ofListing_listing h numbers, again h numbers⟩, ?_, ?_⟩
  · exact fun text p h => ⟨isWritable_of_ofListing h, isNumbered_of_ofListing h⟩
  · intro text p h numbers
    exact again (isWritable_of_ofListing h) numbers (isNumbered_of_ofListing h)

/-- A program with an argument of each kind, numbered from `first` on. -/
def sample (first : Nat) : Program :=
  ⟨numberedFrom first
    [(.label, [.label "again"]), (.read, [.var ⟨.gf, "x"⟩, .type .int]),
      (.write, [.constant (.string "a b#@\\")]),
      (.jumpIf .direct true, [.label "again", .var ⟨.gf, "x"⟩, .constant (.int Int64.minValue)])]⟩

/-- The sample is read back with numbers from one on, and then read back as it is. -/
theorem listing_readBack_sample :
    (sample 7).listing = ".IPPcode23\nLABEL again\nREAD GF@x int\n" ++
      "WRITE string@a\\032b\\035@\\092\nJUMPIFEQ again GF@x int@-9223372036854775808\n" ∧
    ofListing (sample 7).listing = .ok (sample 1) ∧ (sample 1).IsWritable ∧
    ofListing (sample 1).listing = .ok (sample 1) := by
  have accepted : ofListing (sample 7).listing = .ok (sample 1) :=
    (listing_readBack.1 (sample 7) (by decide) (by decide)).1
  exact ⟨by decide +kernel, accepted, (listing_readBack.2.1 _ _ accepted).1,
    listing_readBack.2.2 _ _ accepted (by decide)⟩

end Program

end Ippcode
