import Ippcode.Proofs.Document.Reading
import Ippcode.Proofs.Listing.RoundTrip

/-!
# Listings and documents agree

A listing that is accepted can be transcribed : each operation becomes the element of an
instruction, each token behind the mnemonic the element of an argument. The document is read as
the same program (`ofElement_transcription`). Conversely the elements of a document that is
accepted can be put on lines, and the listing is read as the same operations
(`ofListing_listing`), if strings have nothing in them that a line cannot hold.

Both directions rest on `Document.argument_eq_ok_iff` : what a token writes does not depend on the
form that it stands in.
-/

namespace Ippcode.Document

open Ippcode.Text
open Xml (Element)

/-! ## Documents from listings -/

/-- The kind and the text that an operand becomes. A plain word is a type or a label, as its
position wants it. -/
def transcribed (position : OperandKind) (operand : String) : String × String :=
  match splitAtSign? operand with
  | none => (if position = .type then "type" else "label", operand)
  | some (before, after) =>
    if (FrameKind.ofName? before).isSome then ("var", operand) else (before, after)

/-- The element with this name for an operand. -/
def argumentElement (name : String) (position : OperandKind) (operand : String) : Element :=
  let (kind, text) := transcribed position operand
  ⟨name, [⟨none, "type", kind⟩], if text = "" then [] else [.text text]⟩

/-- The elements with these names for operands. -/
def operandElements : List String → List OperandKind → List (List Char) → List Element
  | name :: names, position :: positions, operand :: operands =>
    argumentElement name position (String.ofList operand) ::
      operandElements names positions operands
  | _, _, _ => []

/-- The element for the tokens of a line. -/
def instructionElement (order : Nat) : List (List Char) → Element
  | [] => ⟨"instruction", [], []⟩
  | mnemonic :: operands =>
    let positions := ((Opcode.ofMnemonic? (String.ofList mnemonic)).map Opcode.signature).getD []
    ⟨"instruction", [⟨none, "order", toString order⟩, ⟨none, "opcode", String.ofList mnemonic⟩],
      (operandElements argumentNames positions operands).map Element.toNode⟩

/-- The elements for the tokens of lines, numbered from `order` on. -/
def instructionElements : Nat → List (List (List Char)) → List Element
  | _, [] => []
  | order, line :: lines => instructionElement order line :: instructionElements (order + 1) lines

/-- The document for a listing : an element for each line below the header. -/
def transcription (listing : String) : Element :=
  ⟨"program", [⟨none, "language", "IPPcode23"⟩],
    (instructionElements 1 (Listing.tokens listing.toList).tail).map Element.toNode⟩

/-! ### Arguments -/

section

variable {order : Nat} {position : OperandKind} {operand : String} {arg : Argument}

theorem text_argumentElement (name : String) :
    (argumentElement name position operand).text = (transcribed position operand).2 := by
  simp only [argumentElement, Element.text]
  split_ifs with h
  · exact h.symm
  · rfl

/-- The kind of the element is that of the argument, and kind and text make the token again. -/
theorem transcribed_of_writes (h : Listing.Writes operand.toList arg)
    (fits : arg.fits position = true) :
    (transcribed position operand).1 = arg.kind.name ∧
      token (transcribed position operand).1 (transcribed position operand).2 = operand := by
  cases arg with
  | var v =>
    obtain ⟨identifier, e⟩ := Listing.Writes.var_iff.mp h
    obtain rfl := String.toList_inj.mp e
    have found : (FrameKind.ofName? v.frame.name).isSome = true := by
      rw [FrameKind.ofName?_name]
      rfl
    simp only [transcribed, splitAtSign?_var, found, if_true]
    exact ⟨rfl, by rw [token_bare (by decide), trimmed_of_isClean (isToken_var identifier).clean]⟩
  | constant value =>
    obtain ⟨payload, read, e⟩ := Listing.Writes.constant_iff.mp h
    obtain rfl := String.toList_inj.mp e
    simp only [transcribed, splitAtSign?_constant, FrameKind.ofName?_ty_name, Option.isSome_none,
      Bool.false_eq_true, if_false]
    exact ⟨rfl, token_of_ofPayload read⟩
  | label name =>
    obtain ⟨identifier, e⟩ := Listing.Writes.label_iff.mp h
    obtain rfl := String.toList_inj.mp e
    have other : position ≠ .type := by
      rintro rfl
      cases fits
    simp only [transcribed, splitAtSign?_eq_none_iff.mpr (atSign_not_mem identifier), other,
      if_false]
    refine ⟨rfl, ?_⟩
    rw [token_bare (by decide), trimmed_of_isClean (isToken_of_isIdentifier identifier).clean]
  | type ty =>
    obtain ⟨-, e⟩ := Listing.Writes.type_iff.mp h
    obtain rfl := String.toList_inj.mp e
    obtain rfl : position = .type := by
      cases position <;> cases fits
      rfl
    have plain : splitAtSign? ty.name = none := by
      refine splitAtSign?_eq_none_iff.mpr ?_
      cases ty <;> decide
    simp only [transcribed, plain, if_true]
    exact ⟨rfl, by rw [token_bare (by decide), trimmed_of_isClean ty.isClean_name]⟩

/-- The element of an operand is read as what the operand writes. -/
theorem reads_argumentElement {name : String} {key : Nat} (hname : argumentNames[key]? = some name)
    (h : Listing.Writes operand.toList arg) (fits : arg.fits position = true) :
    Reads order (argumentElement name position operand) (key, arg) := by
  obtain ⟨kind, whole⟩ := transcribed_of_writes h fits
  refine ⟨position?_eq_some_iff.mpr hname, rfl, argument_eq_ok_iff.mpr ?_⟩
  have hkind : valueOf (argumentElement name position operand) "type" =
    (transcribed position operand).1 := rfl
  rw [hkind, text_argumentElement, whole]
  exact ⟨kind, h⟩

end

theorem reads_operandElements {order : Nat} : ∀ {key : Nat} {names : List String}
    {positions : List OperandKind} {operands : List (List Char)} {args : List Argument},
    argumentNames.drop key = names → args.length ≤ names.length →
      List.Forall₂ Listing.Writes operands args → Argument.AllFit args positions →
      List.Forall₂ (Reads order) (operandElements names positions operands)
        ((List.range' key args.length).zip args)
  | key, [], positions, operands, args, hnames, few, written, fits => by
    obtain rfl := List.length_eq_zero_iff.mp (Nat.le_zero.mp few)
    exact .nil
  | key, name :: names, _, _, _, hnames, few, .nil, List.Forall₂.nil => .nil
  | key, name :: names, position :: positions, operand :: operands, arg :: args, hnames, few,
    .cons written rest, List.Forall₂.cons fits allFit => by
    have hname : argumentNames[key]? = some name := by
      rw [← List.head?_drop, hnames, List.head?_cons]
    have hnames : argumentNames.drop (key + 1) = names := by
      rw [← List.tail_drop, hnames, List.tail_cons]
    rw [← String.toList_ofList (l := operand)] at written
    rw [operandElements, List.length_cons, List.range'_succ, List.zip_cons_cons]
    exact .cons (reads_argumentElement hname written fits)
      (reads_operandElements hnames (Nat.le_of_succ_le_succ few) rest allFit)

/-- Arguments one behind the other are in order. -/
theorem inOrder?_zip (args : List Argument) :
    inOrder? ((List.range' 0 args.length).zip args) = some args :=
  (inOrder?_eq_some_iff (nodup_keys args)).mpr (List.Perm.refl _)

/-! ### Instructions -/

theorem length_signature_le (opcode : Opcode) :
    opcode.signature.length ≤ argumentNames.length := by
  have h : ∀ opcode ∈ Opcode.all, opcode.signature.length ≤ argumentNames.length := by decide
  exact h opcode (Opcode.mem_all opcode)

/-- An order is read from its digits. -/
theorem order?_toString {order : Nat} (positive : 0 < order) (small : order < 2 ^ 64) :
    order? (toString order) = some order := by
  have digits := Numeral.allDigits_toDigits order
  have text : (toString order).toList = Nat.toDigits 10 order := String.toList_ofList
  have clean : IsClean (toString order).toList := by
    rw [text]
    exact digits.isNumeral.isClean
  rw [order?, trimmed_of_isClean clean, text]
  cases hd : Nat.toDigits 10 order with
  | nil => exact absurd hd Nat.toDigits_ne_nil
  | cons c cs =>
    rw [hd] at digits
    have noSign : c ≠ '+' := Numeral.ne_of_isDigit (digits c List.mem_cons_self) rfl
    split
    · rename_i e
      exact absurd (List.cons.inj e).1 noSign
    · rw [← hd, Numeral.natOfDigits?_toDigits, Option.filter_some, decide_eq_true ⟨positive, small⟩]
      rfl

theorem readsInstruction_instructionElement {previous order : Nat} {line : List (List Char)}
    {op : Opcode × List Argument} (h : Listing.WritesOperation line op) (later : previous < order)
    (small : order < 2 ^ 64) :
    ReadsInstruction previous (instructionElement order line) ⟨order, op.1, op.2⟩ := by
  cases h with
  | @mk mnemonic operands opcode args found written fits =>
    have few : args.length ≤ argumentNames.length := by
      rw [fits.length_eq]
      exact length_signature_le opcode
    have clean : IsClean (String.ofList mnemonic).toList := (isToken_of_ofMnemonic? found).clean
    have reads : List.Forall₂ (Reads order) _ _ :=
      reads_operandElements List.drop_zero few written fits
    constructor
    · rfl
    · rfl
    · exact order?_toString (Nat.zero_lt_of_lt later) small
    · exact later
    · have hopcode : valueOf (instructionElement order (mnemonic :: operands)) "opcode" =
        String.ofList mnemonic := rfl
      rw [hopcode, trimmed_of_isClean clean]
      exact found
    · refine ⟨_, ?_, inOrder?_zip args⟩
      have elements : (instructionElement order (mnemonic :: operands)).elements =
          operandElements argumentNames opcode.signature operands := by
        rw [instructionElement, found]
        exact elements_map_toNode _ _ _
      rw [elements]
      exact arguments_nil_eq_ok_iff.mpr ⟨reads, nodup_keys args⟩

theorem instructions_instructionElements : ∀ {previous order : Nat}
    {lines : List (List (List Char))} {ops : List (Opcode × List Argument)},
    List.Forall₂ Listing.WritesOperation lines ops → previous < order →
      order + ops.length ≤ 2 ^ 64 →
      instructions previous (instructionElements order lines) =
        .ok (Program.numberedFrom order ops)
  | _, _, _, _, .nil, _, _ => rfl
  | previous, order, line :: lines, (opcode, args) :: ops, .cons first rest, later, small => by
    rw [List.length_cons] at small
    have ih := instructions_instructionElements rest (Nat.lt_succ_self order) (by omega)
    have hfirst := readsInstruction_instructionElement first later (by omega)
    exact instructions_cons_eq_ok_iff.mpr ⟨_, _, hfirst, ih, rfl⟩

/-! ### Programs -/

/-- The transcription of a listing is read as the same program. Orders are machine words, and so
is the length of every text in memory : there are more orders than lines. -/
theorem ofElement_transcription {listing : String} {p : Program} (small : listing.length < 2 ^ 64)
    (h : Program.ofListing listing = .ok p) :
    Program.ofElement (transcription listing) = .ok p := by
  have fits : ∀ i ∈ p.instructions, i.Fits := fun i hi =>
    Instruction.misfit?_eq_none_iff.mp (Program.isWritable_of_ofListing h i hi).fits
  obtain ⟨header, body, ops, tokens, -, written, rfl⟩ := Program.ofListing_eq_ok_iff.mp h
  have few : 1 + ops.length ≤ 2 ^ 64 := by
    have := Listing.length_tokens_le listing.toList
    rw [tokens, List.length_cons, String.length_toList, written.length_eq] at this
    omega
  have hlanguage : valueOf (transcription listing) "language" = language := rfl
  refine Program.ofElement_eq_ok_iff.mpr ⟨rfl, rfl, ?_, ?_, fits⟩
  · rw [hlanguage]
    decide
  rw [transcription, elements_map_toNode, tokens, List.tail_cons]
  exact instructions_instructionElements written Nat.zero_lt_one few

/-! ## Listings from documents -/

/-- The tokens for the element of an instruction, its arguments by their names. -/
def instructionTokens (e : Element) : List String :=
  trimmed (valueOf e "opcode") ::
    (argumentElements e.elements).map fun a => token (valueOf a "type") a.text

/-- The listing for a document : a line for each instruction below the header. -/
def listing (root : Element) : String := Listing.ofTokens (root.elements.map instructionTokens)

/-- Whether strings are clean, so that they can stand on a line as they are. -/
def StringsAreClean (root : Element) : Prop :=
  ∀ e ∈ root.elements, ∀ a ∈ e.elements, valueOf a "type" = "string" → IsClean a.text.toList

instance (root : Element) : Decidable (StringsAreClean root) :=
  inferInstanceAs (Decidable (∀ e ∈ root.elements, ∀ a ∈ e.elements,
    valueOf a "type" = "string" → IsClean a.text.toList))

theorem mem_of_mem_argumentElements {es : List Element} {a : Element}
    (h : a ∈ argumentElements es) : a ∈ es := by
  obtain ⟨name, -, found⟩ := List.mem_filterMap.mp h
  exact List.mem_of_find?_eq_some found

/-- What writes an argument is a token, as far as strings are clean. -/
theorem isToken_of_writes {t : String} {arg : Argument} (h : Listing.Writes t.toList arg)
    (strings : arg.kind.name = "string" → IsClean t.toList) : IsToken t.toList := by
  cases arg with
  | var v =>
    obtain ⟨identifier, e⟩ := Listing.Writes.var_iff.mp h
    rw [e]
    exact isToken_var identifier
  | constant value =>
    obtain ⟨payload, read, e⟩ := Listing.Writes.constant_iff.mp h
    rw [e] at strings ⊢
    refine isToken_atSign value.ty.isClean_name ?_
    by_cases hs : value.ty = .string
    · have clean := strings (congrArg Ty.name hs)
      rw [String.toList_append] at clean
      exact fun c hc => clean c (List.mem_append_right _ hc)
    · exact Value.isClean_of_ofPayload hs read
  | label name =>
    obtain ⟨identifier, e⟩ := Listing.Writes.label_iff.mp h
    rw [e]
    exact isToken_of_isIdentifier identifier
  | type ty =>
    obtain ⟨-, e⟩ := Listing.Writes.type_iff.mp h
    rw [e]
    exact ty.isToken_name

section

variable {previous : Nat} {e : Element} {i : Instruction}

theorem forall₂_args (h : ReadsInstruction previous e i) :
    List.Forall₂ (fun a arg => argument i.order (valueOf a "type") a.text = .ok arg)
      (argumentElements e.elements) i.args := by
  obtain ⟨read, hread, ordered⟩ := h.args
  exact forall₂_argumentElements hread ordered

theorem writesOperation_instructionTokens (h : ReadsInstruction previous e i) (fits : i.Fits) :
    Listing.WritesOperation ((instructionTokens e).map String.toList) i.operation := by
  refine .mk ?_ ?_ fits
  · rw [String.ofList_toList]
    exact h.opcode
  · rw [List.forall₂_map_left_iff, List.forall₂_map_left_iff]
    exact (forall₂_args h).imp fun _ _ read => (argument_eq_ok_iff.mp read).2

theorem isToken_instructionTokens (h : ReadsInstruction previous e i)
    (strings : ∀ a ∈ e.elements, valueOf a "type" = "string" → IsClean a.text.toList) :
    ∀ t ∈ instructionTokens e, IsToken t.toList := by
  refine List.forall_mem_cons.mpr ⟨isToken_of_ofMnemonic? h.opcode, ?_⟩
  intro t ht
  obtain ⟨a, ha, rfl⟩ := List.mem_map.mp ht
  obtain ⟨arg, -, read⟩ := exists_right_of_mem (forall₂_args h) ha
  obtain ⟨kind, written⟩ := argument_eq_ok_iff.mp read
  refine isToken_of_writes written fun hstring => ?_
  rw [← kind] at hstring
  have clean := strings a (mem_of_mem_argumentElements ha) hstring
  rw [hstring, token_string]
  exact (isToken_atSign (Ty.isClean_name .string) clean).clean

end

/-- The listing of a document is read as the same operations. -/
theorem ofListing_listing {root : Element} {p : Program} (h : Program.ofElement root = .ok p)
    (strings : StringsAreClean root) :
    Program.ofListing (listing root) = .ok (Program.numbered p.operations) := by
  obtain ⟨-, -, -, read, fits⟩ := Program.ofElement_eq_ok_iff.mp h
  have each := forall₂_of_instructions read
  refine Listing.ofListing_ofTokens ?_ ?_
  · intro ts hts
    obtain ⟨e, he, rfl⟩ := List.mem_map.mp hts
    obtain ⟨i, -, previous, hi⟩ := exists_right_of_mem each he
    exact isToken_instructionTokens hi (strings e he)
  · rw [Listing.chars, Program.operations, List.forall₂_map_left_iff,
      List.forall₂_map_left_iff, List.forall₂_map_right_iff]
    refine List.forall₂_iff_zip.mpr ⟨each.length_eq, fun mem => ?_⟩
    obtain ⟨previous, hi⟩ := List.forall₂_zip each mem
    exact writesOperation_instructionTokens hi (fits _ (List.of_mem_zip mem).2)

end Ippcode.Document

namespace Ippcode.Program

/-- Listings and documents agree : a listing is read as its transcription is, and a document with
clean strings has a listing with the same operations. -/
theorem listing_document_agree :
    (∀ (listing : String) (p : Program), listing.length < 2 ^ 64 → ofListing listing = .ok p →
      ofElement (Document.transcription listing) = .ok p) ∧
    ∀ (root : Xml.Element) (p : Program), ofElement root = .ok p →
      Document.StringsAreClean root →
      ofListing (Document.listing root) = .ok (numbered p.operations) :=
  ⟨fun _ _ small h => Document.ofElement_transcription small h,
    fun _ _ h strings => Document.ofListing_listing h strings⟩

/-- A document with spaces around texts and arguments that are not in order. -/
def padded : Xml.Element :=
  ⟨"program", [⟨none, "language", "ippcode23"⟩],
    [.text "\n", .element "instruction" [⟨none, "opcode", "stri2int"⟩, ⟨none, "order", " 40 "⟩]
      [.element "arg3" [⟨none, "type", "int"⟩] [.text " 0x1 "],
        .element "arg1" [⟨none, "type", "var"⟩] [.text "\nGF@x\n"], .comment "source",
        .element "arg2" [⟨none, "type", "string"⟩] [.text "a\\032@"]]]⟩

/-- From the padded document to its listing, and from there to the transcription. -/
theorem listing_document_agree_padded :
    Document.listing padded = ".IPPcode23\nstri2int GF@x string@a\\032@ int@0x1\n" ∧
    ∃ i : Instruction, i.order = 40 ∧ ofElement padded = .ok ⟨[i]⟩ ∧
      ofListing (Document.listing padded) = .ok ⟨[{ i with order := 1 }]⟩ ∧
      ofElement (Document.transcription (Document.listing padded)) =
        .ok ⟨[{ i with order := 1 }]⟩ := by
  have read : ofElement padded = .ok ⟨[⟨40, .binary .direct .charCode,
      [.var ⟨.gf, "x"⟩, .constant (.string "a @"), .constant (.int 1)]⟩]⟩ := by
    decide +kernel
  have listed := listing_document_agree.2 padded _ read (by decide)
  have transcribed := listing_document_agree.1 _ _ (by decide +kernel) listed
  exact ⟨by decide +kernel, _, rfl, read, listed, transcribed⟩

end Ippcode.Program
