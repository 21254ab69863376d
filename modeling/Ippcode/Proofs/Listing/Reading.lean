import Ippcode.Listing.Reader
import Ippcode.Proofs.Code.Payload
import Ippcode.Proofs.Code.Signature
import Ippcode.Proofs.Result

/-!
# What a listing says

A listing is to its reader nothing but tokens on lines (`tokens`). `Writes` tells what a token
writes as an argument, `WritesOperation` what the tokens of a line write, and
`ofListing_eq_ok_iff` is the whole reader : it accepts the listings with a header and operations
below it, and gives these operations with their numbers.

Which kind of position a token stands in does not change what it writes. It only decides whether
the argument may stand there.
-/

namespace Ippcode

open Ippcode.Text

/-! ## Splitting at an at sign -/

/-- A text is split at its first sign. -/
theorem splitAtSign?_eq_some_iff {text before after : String} :
    splitAtSign? text = some (before, after) ↔
      text = before ++ "@" ++ after ∧ '@' ∉ before.toList := by
  unfold splitAtSign?
  constructor
  · intro h
    obtain ⟨⟨b, c, a⟩, hs, e⟩ := Option.map_eq_some_iff.mp h
    obtain ⟨ht, hc, hb⟩ := splitFirst?_eq_some_iff.mp hs
    obtain ⟨rfl, rfl⟩ := Prod.mk.inj e
    obtain rfl := beq_iff_eq.mp hc
    refine ⟨?_, fun mem => ?_⟩
    · rw [← String.toList_inj, ht]
      simp
    · rw [String.toList_ofList] at mem
      exact absurd (hb '@' mem) (by decide)
  · rintro ⟨rfl, hb⟩
    refine Option.map_eq_some_iff.mpr ⟨(before.toList, '@', after.toList), ?_, by simp⟩
    refine splitFirst?_eq_some_iff.mpr ⟨by simp, rfl, fun x hx => ?_⟩
    rw [beq_eq_false_iff_ne]
    rintro rfl
    exact hb hx

/-- A text is not split if there is no sign in it. -/
theorem splitAtSign?_eq_none_iff {text : String} :
    splitAtSign? text = none ↔ '@' ∉ text.toList := by
  constructor
  · intro h mem
    obtain ⟨before, after, split, hb⟩ := List.eq_append_cons_of_mem mem
    have : splitAtSign? text = some (String.ofList before, String.ofList after) := by
      refine splitAtSign?_eq_some_iff.mpr ⟨?_, by rwa [String.toList_ofList]⟩
      rw [← String.toList_inj, split]
      simp
    rw [h] at this
    cases this
  · intro h
    cases hs : splitAtSign? text with
    | none => rfl
    | some pair =>
      obtain ⟨rfl, -⟩ := splitAtSign?_eq_some_iff.mp hs
      exact absurd (by simp) h

/-! ## Names -/

theorem FrameKind.name_of_ofName? {text : String} {frame : FrameKind}
    (h : FrameKind.ofName? text = some frame) : frame.name = text := by
  simpa using List.find?_some h

/-- No type has the name of a frame, so constants are no variables. -/
theorem FrameKind.ofName?_ty_name (ty : Ty) : FrameKind.ofName? ty.name = none := by
  cases ty <;> decide

/-- A variable is split into its frame and its name. -/
theorem splitAtSign?_var (v : VariableName) :
    splitAtSign? v.text = some (v.frame.name, v.name) := by
  refine splitAtSign?_eq_some_iff.mpr ⟨rfl, ?_⟩
  cases v.frame <;> decide

/-- A constant is split into its type and its payload. -/
theorem splitAtSign?_constant (ty : Ty) (payload : String) :
    splitAtSign? (ty.name ++ "@" ++ payload) = some (ty.name, payload) := by
  refine splitAtSign?_eq_some_iff.mpr ⟨rfl, ?_⟩
  cases ty <;> decide

/-- The header begins with a point, in whatever case its letters are. -/
theorem toLower_ne_point {c : Char} (h : c ≠ '.') : c.toLower ≠ '.' := by
  by_cases hc : c.val ≥ 'A'.val ∧ c.val ≤ 'Z'.val
  · have ascii : c.toNat < 128 := by
      have : c.toNat ≤ 90 := hc.2
      omega
    exact of_ascii (P := fun c => c ≠ '.' → c.toLower ≠ '.') (by decide) ascii h
  · have lower : c.toLower = c := dif_neg hc
    rwa [lower]

/-- Only the header begins with a point. -/
theorem not_header {c : Char} {cs : List Char} (h : c ≠ '.') :
    sameIgnoringCase (c :: cs) Word.headerText.toList = false := by
  have first : Word.headerText.toList = '.' :: "IPPcode23".toList := rfl
  have : c.toLower ≠ '.' := toLower_ne_point h
  rw [first, sameIgnoringCase, List.map_cons, List.map_cons, beq_eq_false_iff_ne]
  exact fun e => this (List.cons.inj e).1

/-- A word without points is not the header. -/
theorem not_header_of_forall {cs : List Char} (h : ∀ c ∈ cs, c ≠ '.') :
    sameIgnoringCase cs Word.headerText.toList = false := by
  cases cs with
  | nil => rfl
  | cons c cs => exact not_header (h c List.mem_cons_self)

theorem not_header_append {s : String} (h : ∃ c cs, s.toList = c :: cs ∧ c ≠ '.') (t : String) :
    sameIgnoringCase (s ++ t).toList Word.headerText.toList = false := by
  obtain ⟨c, cs, e, hc⟩ := h
  rw [String.toList_append, e, List.cons_append]
  exact not_header hc

theorem FrameKind.name_first (frame : FrameKind) :
    ∃ c cs, frame.name.toList = c :: cs ∧ c ≠ '.' := by
  cases frame <;> exact ⟨_, _, rfl, by decide⟩

theorem Ty.name_first (ty : Ty) : ∃ c cs, ty.name.toList = c :: cs ∧ c ≠ '.' := by
  cases ty <;> exact ⟨_, _, rfl, by decide⟩

/-! ### Identifiers -/

/-- Names are written in ASCII. -/
theorem toNat_lt_of_isIdentifierPart {c : Char} (h : isIdentifierPart c = true) :
    c.toNat < 128 := by
  rw [isIdentifierPart, Bool.or_eq_true] at h
  rcases h with h | h
  · exact toNat_lt_of_isAlphanum h
  · have marks : (identifierMarks.all fun d => d.toNat < 128) = true := by decide
    exact of_decide_eq_true (List.all_eq_true.mp marks c (List.contains_iff_mem.mp h))

/-- What no character of a name is. -/
theorem ne_of_isIdentifierPart {c : Char} (h : isIdentifierPart c = true) :
    (isBlank c = false ∧ c ≠ '#') ∧ c ≠ '@' ∧ c ≠ '.' := by
  have ascii := toNat_lt_of_isIdentifierPart h
  revert h
  exact of_ascii
    (P := fun c => isIdentifierPart c = true → (isBlank c = false ∧ c ≠ '#') ∧ c ≠ '@' ∧ c ≠ '.')
    (by decide) ascii

/-- A name begins with one of the characters that are no digits. -/
theorem isIdentifier_iff {text : String} :
    isIdentifier text = true ↔
      ∃ c cs, text.toList = c :: cs ∧ isIdentifierStart c = true ∧
        ∀ d ∈ cs, isIdentifierPart d = true := by
  unfold isIdentifier
  cases text.toList with
  | nil => simp
  | cons c cs =>
    rw [Bool.and_eq_true, List.all_eq_true]
    constructor
    · rintro ⟨start, rest⟩
      exact ⟨c, cs, rfl, start, rest⟩
    · rintro ⟨d, ds, e, start, rest⟩
      obtain ⟨rfl, rfl⟩ := List.cons.inj e
      exact ⟨start, rest⟩

theorem isIdentifierPart_of_mem {text : String} (h : isIdentifier text = true) :
    ∀ c ∈ text.toList, isIdentifierPart c = true := by
  obtain ⟨c, cs, e, start, rest⟩ := isIdentifier_iff.mp h
  rw [e]
  refine List.forall_mem_cons.mpr ⟨?_, rest⟩
  rw [isIdentifierStart, Bool.or_eq_true] at start
  rw [isIdentifierPart, Char.isAlphanum, Bool.or_eq_true, Bool.or_eq_true]
  exact start.imp_left .inl

/-- No sign is in a name. -/
theorem atSign_not_mem {text : String} (h : isIdentifier text = true) : '@' ∉ text.toList :=
  fun mem => (ne_of_isIdentifierPart (isIdentifierPart_of_mem h _ mem)).2.1 rfl

/-- A name is a token. -/
theorem isToken_of_isIdentifier {text : String} (h : isIdentifier text = true) :
    IsToken text.toList := by
  refine ⟨?_, fun c hc => (ne_of_isIdentifierPart (isIdentifierPart_of_mem h c hc)).1⟩
  obtain ⟨c, cs, e, -⟩ := isIdentifier_iff.mp h
  rw [e]
  exact List.cons_ne_nil c cs

/-! ## Words -/

namespace Word

/-- What a word is to the reader, by its characters. -/
inductive Spells : List Char → Word → Prop
  | header {cs : List Char} (h : sameIgnoringCase cs headerText.toList = true) : Spells cs header
  | plain {cs : List Char} (h : sameIgnoringCase cs headerText.toList = false) (at_ : '@' ∉ cs) :
    Spells cs (plain (String.ofList cs))
  | var {v : VariableName} (h : isIdentifier v.name = true) : Spells v.text.toList (.var v)
  | constant {ty : Ty} {payload : String} {value : Value}
    (h : Value.ofPayload ty payload = .ok value) :
    Spells (ty.name ++ "@" ++ payload).toList (.constant (ty.name ++ "@" ++ payload) value)

/-- Each word is spelled in one of three ways. -/
theorem spells_of_ofText {line : Nat} {cs : List Char} {w : Word} (h : ofText line cs = .ok w) :
    Spells cs w := by
  unfold ofText at h
  simp only at h
  split at h
  · rename_i header
    obtain rfl := Except.ok.inj h
    exact .header header
  · rename_i header
    split at h
    · rename_i plain
      obtain rfl := Except.ok.inj h
      refine .plain (by simpa using header) ?_
      simpa using splitAtSign?_eq_none_iff.mp plain
    · rename_i before after split
      have hcs : cs = (before ++ "@" ++ after).toList := by
        rw [← (splitAtSign?_eq_some_iff.mp split).1, String.toList_ofList]
      split at h
      · rename_i frame hframe
        split at h
        · rename_i identifier
          obtain rfl := Except.ok.inj h
          rw [hcs, ← FrameKind.name_of_ofName? hframe]
          have spelled : Spells (VariableName.text ⟨frame, after⟩).toList _ := .var identifier
          exact spelled
        · cases h
      · split at h
        · rename_i value hvalue
          obtain rfl := Except.ok.inj h
          obtain ⟨ty, rfl, payload⟩ := Value.ofConstant_eq_ok_iff.mp hvalue
          have text : String.ofList cs = ty.name ++ "@" ++ after := by
            rw [hcs, String.ofList_toList]
          rw [text, hcs]
          exact .constant payload
        · cases h

/-- Whatever is spelled in one of the three ways is that word. -/
theorem ofText_of_spells {line : Nat} {cs : List Char} {w : Word} (h : Spells cs w) :
    ofText line cs = .ok w := by
  unfold ofText
  cases h with
  | header h => simp only [h, if_true]
  | plain h none =>
    have none : splitAtSign? (String.ofList cs) = .none :=
      splitAtSign?_eq_none_iff.mpr (by rwa [String.toList_ofList])
    simp only [h, none, Bool.false_eq_true, if_false]
  | @var v h =>
    have other : sameIgnoringCase v.text.toList headerText.toList = false := by
      rw [VariableName.text, String.append_assoc]
      exact not_header_append v.frame.name_first _
    simp only [other, String.ofList_toList, splitAtSign?_var, FrameKind.ofName?_name, h,
      Bool.false_eq_true, if_false, if_true]
  | @constant ty payload value h =>
    have other : sameIgnoringCase (ty.name ++ "@" ++ payload).toList headerText.toList = false := by
      rw [String.append_assoc]
      exact not_header_append ty.name_first _
    have read : Value.ofConstant ty.name payload = .ok value :=
      Value.ofConstant_eq_ok_iff.mpr ⟨ty, rfl, h⟩
    simp only [other, String.ofList_toList, splitAtSign?_constant, FrameKind.ofName?_ty_name, read,
      Bool.false_eq_true, if_false]

/-- The reader takes a word for what its characters make it. -/
theorem ofText_eq_ok_iff {line : Nat} {cs : List Char} {w : Word} :
    ofText line cs = .ok w ↔ Spells cs w :=
  ⟨spells_of_ofText, ofText_of_spells⟩

/-- No token spells two words. -/
theorem Spells.unique {cs : List Char} {w v : Word} (hw : Spells cs w) (hv : Spells cs v) :
    w = v := by
  have read : ofText 0 cs = .ok w := ofText_of_spells hw
  rw [ofText_of_spells hv] at read
  exact (Except.ok.inj read).symm

theorem ofTexts_eq_ok_iff {line : Nat} : ∀ {tokens : List (List Char)} {ws : List Word},
    tokens.mapM (ofText line) = .ok ws ↔ List.Forall₂ Spells tokens ws
  | [], ws => by
    rw [List.mapM_nil, List.forall₂_nil_left_iff]
    exact ⟨fun h => (Except.ok.inj h).symm, fun h => h ▸ rfl⟩
  | t :: ts, ws => by
    have ih := @ofTexts_eq_ok_iff line ts
    rw [List.mapM_cons, List.forall₂_cons_left_iff, bind_eq_ok_iff]
    constructor
    · rintro ⟨w, hw, h⟩
      obtain ⟨rest, hrest, h⟩ := bind_eq_ok_iff.mp h
      exact ⟨w, rest, ofText_eq_ok_iff.mp hw, ih.mp hrest, (Except.ok.inj h).symm⟩
    · rintro ⟨w, rest, hw, hrest, rfl⟩
      exact ⟨w, ofText_eq_ok_iff.mpr hw, bind_eq_ok_iff.mpr ⟨rest, ih.mpr hrest, rfl⟩⟩

end Word

/-! ## Arguments -/

section

variable {α β : Type} {R : α → β → Prop}

/-- In lists that are related one for one, an element on the right has one on the left. -/
theorem exists_left_of_mem {as : List α} {bs : List β} (h : List.Forall₂ R as bs) {b : β}
    (hb : b ∈ bs) : ∃ a ∈ as, R a b := by
  induction h with
  | nil => cases hb
  | @cons a c as bs first rest ih =>
    rcases List.mem_cons.mp hb with rfl | hb
    · exact ⟨a, List.mem_cons_self, first⟩
    · obtain ⟨d, hd, related⟩ := ih hb
      exact ⟨d, List.mem_cons_of_mem a hd, related⟩

theorem exists_right_of_mem {as : List α} {bs : List β} (h : List.Forall₂ R as bs) {a : α}
    (ha : a ∈ as) : ∃ b ∈ bs, R a b :=
  exists_left_of_mem (List.Forall₂.flip (R := fun b a => R a b) h) ha

end

namespace Listing

/-- The argument that a token writes. -/
inductive Writes : List Char → Argument → Prop
  | var {v : VariableName} (h : isIdentifier v.name = true) : Writes v.text.toList (.var v)
  | constant {ty : Ty} {payload : String} {value : Value}
    (h : Value.ofPayload ty payload = .ok value) :
    Writes (ty.name ++ "@" ++ payload).toList (.constant value)
  | label {name : String} (h : isIdentifier name = true) : Writes name.toList (.label name)
  | type {ty : Ty} (h : ty.isReadable = true) : Writes ty.name.toList (.type ty)

namespace Writes

variable {token : List Char}

/-- A variable is written as it is printed. -/
theorem var_iff {v : VariableName} :
    Writes token (.var v) ↔ isIdentifier v.name = true ∧ token = v.text.toList := by
  constructor
  · rintro ⟨h⟩
    exact ⟨h, rfl⟩
  · rintro ⟨h, rfl⟩
    exact .var h

/-- A constant can be written with any payload that stands for its value. -/
theorem constant_iff {value : Value} :
    Writes token (.constant value) ↔ ∃ payload, Value.ofPayload value.ty payload = .ok value ∧
      token = (value.ty.name ++ "@" ++ payload).toList := by
  constructor
  · intro h
    cases h with
    | @constant ty payload _ h =>
      obtain rfl : value.ty = ty := Value.ty_of_ofPayload h
      exact ⟨payload, h, rfl⟩
  · rintro ⟨payload, h, rfl⟩
    exact .constant h

/-- A label is written as its name. -/
theorem label_iff {name : String} :
    Writes token (.label name) ↔ isIdentifier name = true ∧ token = name.toList := by
  constructor
  · intro h
    cases h with
    | label h => exact ⟨h, rfl⟩
  · rintro ⟨h, rfl⟩
    exact .label h

/-- A type is written as its name, if values of it can be read. -/
theorem type_iff {ty : Ty} :
    Writes token (.type ty) ↔ ty.isReadable = true ∧ token = ty.name.toList := by
  constructor
  · intro h
    cases h with
    | type h => exact ⟨h, rfl⟩
  · rintro ⟨h, rfl⟩
    exact .type h

end Writes

/-- An argument that a word is accepted as is written by its token, and fits. -/
theorem writes_of_argument? {kind : OperandKind} {token : List Char} {word : Word}
    {arg : Argument} (spelled : Word.Spells token word) (h : argument? kind word = some arg) :
    Writes token arg ∧ arg.fits kind = true := by
  cases spelled with
  | header => cases kind <;> cases h
  | plain =>
    cases kind with
    | label =>
      simp only [argument?] at h
      split at h
      · rename_i identifier
        obtain rfl := Option.some.inj h
        have written := Writes.label identifier
        rw [String.toList_ofList] at written
        exact ⟨written, rfl⟩
      · cases h
    | type =>
      obtain ⟨ty, hty, rfl⟩ := Option.map_eq_some_iff.mp h
      obtain ⟨name, readable⟩ := Option.filter_eq_some_iff.mp hty
      have written := Writes.type readable
      rw [Ty.name_of_ofName? name, String.toList_ofList] at written
      exact ⟨written, rfl⟩
    | _ => cases h
  | var identifier =>
    cases kind <;> cases h <;> exact ⟨.var identifier, rfl⟩
  | constant read =>
    cases kind with
    | symb =>
      obtain rfl := Option.some.inj h
      exact ⟨.constant read, rfl⟩
    | _ => cases h

/-- What writes an argument is a word from which it is taken wherever it may stand. -/
theorem Writes.exists_word {kind : OperandKind} {token : List Char} {arg : Argument}
    (written : Writes token arg) (fits : arg.fits kind = true) :
    ∃ word, Word.Spells token word ∧ argument? kind word = some arg := by
  cases written with
  | var identifier =>
    refine ⟨_, .var identifier, ?_⟩
    cases kind <;> cases fits <;> rfl
  | constant read =>
    refine ⟨_, .constant read, ?_⟩
    cases kind with
    | symb => rfl
    | _ => cases fits
  | @label name identifier =>
    have parts := isIdentifierPart_of_mem identifier
    have spelled : Word.Spells name.toList (.plain (String.ofList name.toList)) :=
      .plain (not_header_of_forall fun c hc => (ne_of_isIdentifierPart (parts c hc)).2.2)
        (atSign_not_mem identifier)
    rw [String.ofList_toList] at spelled
    refine ⟨_, spelled, ?_⟩
    cases kind with
    | label => simp only [argument?, identifier, if_true]
    | _ => cases fits
  | @type ty readable =>
    have spelled : Word.Spells ty.name.toList (.plain (String.ofList ty.name.toList)) := by
      refine .plain ?_ ?_ <;> cases ty <;> decide
    rw [String.ofList_toList] at spelled
    refine ⟨_, spelled, ?_⟩
    cases kind with
    | type =>
      simp only [argument?, Ty.ofName?_name, Option.filter_some, readable, if_true,
        Option.map_some]
    | _ => cases fits

/-- What the reader makes of a word in a position is what the token writes, if that may stand
there. -/
theorem argument?_eq_some_iff {kind : OperandKind} {token : List Char} {word : Word}
    {arg : Argument} (spelled : Word.Spells token word) :
    argument? kind word = some arg ↔ Writes token arg ∧ arg.fits kind = true := by
  constructor
  · exact writes_of_argument? spelled
  · rintro ⟨written, fits⟩
    obtain ⟨other, spelled', h⟩ := written.exists_word fits
    obtain rfl := spelled.unique spelled'
    exact h

/-- Arguments are read one after the other, each of the kind that its position asks for. -/
theorem arguments_cons_eq_ok_iff {line position : Nat} {opcode : Opcode} {kind : OperandKind}
    {kinds : List OperandKind} {word : Word} {words : List Word} {args : List Argument} :
    arguments line opcode position (kind :: kinds) (word :: words) = .ok args ↔
      ∃ arg rest, argument? kind word = some arg ∧
        arguments line opcode (position + 1) kinds words = .ok rest ∧ args = arg :: rest := by
  rw [arguments]
  constructor
  · intro h
    cases harg : argument? kind word with
    | none =>
      rw [harg] at h
      cases h
    | some arg =>
      cases hrest : arguments line opcode (position + 1) kinds words with
      | error e =>
        rw [harg, hrest] at h
        cases h
      | ok rest =>
        rw [harg, hrest] at h
        exact ⟨arg, rest, rfl, rfl, (Except.ok.inj h).symm⟩
  · rintro ⟨arg, rest, harg, hrest, rfl⟩
    rw [harg, hrest]

/-- As many tokens as positions are read as what they write, if each may stand where it does. -/
theorem arguments_eq_ok_iff {line : Nat} {opcode : Opcode} : ∀ {position : Nat}
    {kinds : List OperandKind} {tokens : List (List Char)} {words : List Word}
    {args : List Argument}, List.Forall₂ Word.Spells tokens words →
      tokens.length = kinds.length →
      (arguments line opcode position kinds words = .ok args ↔
        List.Forall₂ Writes tokens args ∧ Argument.AllFit args kinds)
  | position, [], [], [], args, _, _ => by
    rw [arguments, List.forall₂_nil_left_iff]
    constructor
    · intro h
      obtain rfl := Except.ok.inj h
      exact ⟨rfl, List.Forall₂.nil⟩
    · rintro ⟨rfl, -⟩
      rfl
    · simp
  | position, kind :: kinds, token :: tokens, word :: words, args, .cons spelled rest, h => by
    have ih {args : List Argument} :
        arguments line opcode (position + 1) kinds words = .ok args ↔ _ :=
      arguments_eq_ok_iff rest (Nat.succ.inj h)
    rw [arguments_cons_eq_ok_iff]
    constructor
    · rintro ⟨arg, args, harg, hargs, rfl⟩
      obtain ⟨written, fits⟩ := (argument?_eq_some_iff spelled).mp harg
      obtain ⟨allWritten, allFit⟩ := ih.mp hargs
      exact ⟨.cons written allWritten, .cons fits allFit⟩
    · rintro ⟨all, fitting⟩
      obtain ⟨arg, args, written, allWritten, rfl⟩ := List.forall₂_cons_left_iff.mp all
      obtain ⟨fits, allFit⟩ := List.forall₂_cons.mp fitting
      exact ⟨arg, args, (argument?_eq_some_iff spelled).mpr ⟨written, fits⟩,
        ih.mpr ⟨allWritten, allFit⟩, rfl⟩

/-! ## Lines -/

/-- The operation that the tokens of a line write. -/
inductive WritesOperation : List (List Char) → Opcode × List Argument → Prop
  | mk {mnemonic : List Char} {tokens : List (List Char)} {opcode : Opcode} {args : List Argument}
    (found : Opcode.ofMnemonic? (String.ofList mnemonic) = some opcode)
    (written : List.Forall₂ Writes tokens args)
    (fits : Argument.AllFit args opcode.signature) :
    WritesOperation (mnemonic :: tokens) (opcode, args)

/-- Mnemonics are made of letters and digits. -/
theorem isAlphanum_mnemonic (opcode : Opcode) :
    (opcode.mnemonic.toList.all fun c => c.toLower.isAlphanum) = true := by
  have h : ∀ opcode ∈ Opcode.all,
      (opcode.mnemonic.toList.all fun c => c.toLower.isAlphanum) = true := by
    decide
  exact h opcode (Opcode.mem_all opcode)

/-- A mnemonic has no characters but letters and digits, in letters of any case. -/
theorem isAlphanum_of_ofMnemonic? {text : String} {opcode : Opcode}
    (h : Opcode.ofMnemonic? text = some opcode) : ∀ c ∈ text.toList, c.isAlphanum = true := by
  have same := List.find?_some h
  have same : sameIgnoringCase text.toList opcode.mnemonic.toList = true := by
    rw [sameIgnoringCase, beq_iff_eq] at same ⊢
    exact same.symm
  exact isAlphanum_of_sameIgnoringCase same (isAlphanum_mnemonic opcode)

/-- A mnemonic is neither the header nor an operand with a sign. -/
theorem spells_mnemonic {mnemonic : List Char} {opcode : Opcode}
    (h : Opcode.ofMnemonic? (String.ofList mnemonic) = some opcode) :
    Word.Spells mnemonic (.plain (String.ofList mnemonic)) := by
  have chars := isAlphanum_of_ofMnemonic? h
  rw [String.toList_ofList] at chars
  refine .plain (not_header_of_forall fun c hc => ?_) fun mem => absurd (chars _ mem) (by decide)
  rintro rfl
  exact absurd (chars _ hc) (by decide)

/-- An operation is a mnemonic and as many arguments as its signature has. -/
theorem operation_eq_ok_iff {line : Nat} {tokens : List (List Char)} {words : List Word}
    {op : Opcode × List Argument} (spelled : List.Forall₂ Word.Spells tokens words) :
    operation line words = .ok op ↔ WritesOperation tokens op := by
  constructor
  · intro h
    cases spelled with
    | nil => cases h
    | cons first rest =>
      cases first with
      | plain =>
        simp only [operation] at h
        split at h
        · cases h
        · rename_i opcode found
          split at h
          · rename_i hlength
            split at h
            · rename_i args read
              obtain rfl := Except.ok.inj h
              obtain ⟨written, fits⟩ :=
                (arguments_eq_ok_iff rest (rest.length_eq.trans hlength)).mp read
              exact .mk found written fits
            · cases h
          · cases h
      | _ => cases h
  · intro h
    cases h with
    | @mk mnemonic tokens opcode args found written fits =>
      obtain ⟨word, words, first, rest, rfl⟩ := List.forall₂_cons_left_iff.mp spelled
      obtain rfl := first.unique (spells_mnemonic found)
      have hlength := written.length_eq.trans fits.length_eq
      have read : arguments line opcode 0 opcode.signature words = .ok args :=
        (arguments_eq_ok_iff rest hlength).mpr ⟨written, fits⟩
      simp only [operation, found, rest.length_eq.symm.trans hlength, if_true, read]

/-- Every argument is written as some word. -/
theorem Writes.spells {token : List Char} {arg : Argument} (h : Writes token arg) :
    ∃ word, Word.Spells token word := by
  have somewhere : ∃ kind, arg.fits kind = true := by
    cases h with
    | var => exact ⟨.var, rfl⟩
    | constant => exact ⟨.symb, rfl⟩
    | label => exact ⟨.label, rfl⟩
    | type => exact ⟨.type, rfl⟩
  obtain ⟨kind, fits⟩ := somewhere
  obtain ⟨word, spelled, -⟩ := h.exists_word fits
  exact ⟨word, spelled⟩

theorem exists_words {tokens : List (List Char)} {args : List Argument}
    (h : List.Forall₂ Writes tokens args) : ∃ words, List.Forall₂ Word.Spells tokens words := by
  induction h with
  | nil => exact ⟨[], .nil⟩
  | cons written _ ih =>
    obtain ⟨word, spelled⟩ := written.spells
    obtain ⟨words, rest⟩ := ih
    exact ⟨word :: words, .cons spelled rest⟩

/-- Tokens that write an operation are words. -/
theorem WritesOperation.spells {tokens : List (List Char)} {op : Opcode × List Argument}
    (h : WritesOperation tokens op) : ∃ words, List.Forall₂ Word.Spells tokens words := by
  cases h with
  | mk found written fits =>
    obtain ⟨words, spelled⟩ := exists_words written
    exact ⟨_, .cons (spells_mnemonic found) spelled⟩

/-! ## The tokens of a listing -/

theorem withoutComment_of_not_mem {line : List Char} (h : '#' ∉ line) :
    Word.withoutComment line = line := by
  refine List.takeWhile_eq_self_iff.mpr fun c hc => bne_iff_ne.mpr ?_
  rintro rfl
  exact h hc

/-- The tokens of a line. -/
def lineTokens (line : List Char) : List (List Char) := words (Word.withoutComment line)

/-- The tokens of each line that has some. -/
def tokensOf (ls : List (List Char)) : List (List (List Char)) :=
  (ls.map lineTokens).filter (!·.isEmpty)

/-- The tokens of a listing. -/
def tokens (text : List Char) : List (List (List Char)) := tokensOf (lines text)

/-- There are no more lines with tokens than characters. -/
theorem length_tokens_le (text : List Char) : (tokens text).length ≤ text.length := by
  have kept := List.length_filter_le (!·.isEmpty) ((lines text).map lineTokens)
  rw [List.length_map] at kept
  exact kept.trans (length_lines_le text)

theorem isToken_of_mem_lineTokens {line w : List Char} (h : w ∈ lineTokens line) : IsToken w := by
  refine ⟨ne_nil_of_mem_words h, fun c hc => ⟨not_isBlank_of_mem_words h c hc, ?_⟩⟩
  have := List.mem_takeWhile_imp (mem_of_mem_words h c hc)
  simpa using this

theorem isToken_of_mem_tokens {text : List Char} {ts : List (List Char)} (h : ts ∈ tokens text) :
    ∀ t ∈ ts, IsToken t := by
  obtain ⟨l, -, rfl⟩ := List.mem_map.mp (List.mem_filter.mp h).1
  exact fun t ht => isToken_of_mem_lineTokens ht

/-- Tokens and the spaces between them neither begin a comment nor end a line. -/
theorem mem_spaced : ∀ {ws : List (List Char)}, (∀ w ∈ ws, IsToken w) → ∀ c ∈ spaced ws,
    c ≠ '#' ∧ c ≠ '\n' ∧ c ≠ '\r'
  | [], _, c, hc => by simp [spaced] at hc
  | [w], h, c, hc => by
    have hw := (h w List.mem_cons_self).clean
    have hc : c ∈ w := by simpa [spaced, List.intercalate] using hc
    exact ⟨(hw c hc).2, hw.ne_lineEnd c hc⟩
  | w :: v :: ws, h, c, hc => by
    have hw := (h w List.mem_cons_self).clean
    have split : spaced (w :: v :: ws) = w ++ ' ' :: spaced (v :: ws) := by
      simp [spaced, List.intercalate]
    rw [split] at hc
    rcases List.mem_append.mp hc with hc | hc
    · exact ⟨(hw c hc).2, hw.ne_lineEnd c hc⟩
    · rcases List.mem_cons.mp hc with rfl | hc
      · decide
      · exact mem_spaced (fun u hu => h u (List.mem_cons_of_mem w hu)) c hc

/-- Tokens with spaces between them are read back from the line. -/
theorem lineTokens_spaced {ws : List (List Char)} (h : ∀ w ∈ ws, IsToken w) :
    lineTokens (spaced ws) = ws := by
  have plain : '#' ∉ spaced ws := fun mem => (mem_spaced h '#' mem).1 rfl
  rw [lineTokens, withoutComment_of_not_mem plain, words_spaced h]

/-- A listing that puts tokens on lines has these tokens. -/
theorem tokens_stacked {tss : List (List (List Char))} (hne : ∀ ts ∈ tss, ts ≠ [])
    (h : ∀ ts ∈ tss, ∀ t ∈ ts, IsToken t) : tokens (stacked (tss.map spaced)) = tss := by
  have cut : lines (stacked (tss.map spaced)) = tss.map spaced := by
    refine lines_stacked fun l hl => ?_
    obtain ⟨ts, hts, rfl⟩ := List.mem_map.mp hl
    exact fun c hc => (mem_spaced (h ts hts) c hc).2
  have same : (tss.map spaced).map lineTokens = tss := by
    rw [List.map_map]
    exact (List.map_congr_left fun ts hts => lineTokens_spaced (h ts hts)).trans tss.map_id
  rw [tokens, tokensOf, cut, same, List.filter_eq_self]
  intro ts hts
  simp [hne ts hts]

/-! ## Whole listings -/

/-- The words of a line are what its tokens spell. -/
theorem ofLine_eq_ok_iff {line : Nat} {cs : List Char} {words : List Word} :
    Word.ofLine line cs = .ok words ↔ List.Forall₂ Word.Spells (lineTokens cs) words :=
  Word.ofTexts_eq_ok_iff

/-- Lines without tokens are passed over. -/
theorem tokensOf_cons_of_nil {l : List Char} (h : lineTokens l = []) (ls : List (List Char)) :
    tokensOf (l :: ls) = tokensOf ls := by
  simp [tokensOf, h]

theorem tokensOf_cons_of_ne_nil {l : List Char} (h : lineTokens l ≠ []) (ls : List (List Char)) :
    tokensOf (l :: ls) = lineTokens l :: tokensOf ls := by
  simp [tokensOf, h]

theorem ofLine_of_blank {line : Nat} {l : List Char} (h : lineTokens l = []) :
    Word.ofLine line l = .ok [] := by
  rw [ofLine_eq_ok_iff, h]
  exact .nil

/-- Lines without tokens count as lines all the same. -/
theorem operations_cons_of_blank {line : Nat} {l : List Char} (h : lineTokens l = [])
    (ls : List (List Char)) : operations line (l :: ls) = operations (line + 1) ls := by
  rw [operations, ofLine_of_blank h]

/-- A line with tokens must write an operation. -/
theorem operations_cons_eq_ok_iff {line : Nat} {l : List Char} (h : lineTokens l ≠ [])
    {ls : List (List Char)} {ops : List (Opcode × List Argument)} :
    operations line (l :: ls) = .ok ops ↔
      ∃ op rest, WritesOperation (lineTokens l) op ∧ operations (line + 1) ls = .ok rest ∧
        ops = op :: rest := by
  rw [operations]
  constructor
  · intro read
    cases hline : Word.ofLine line l with
    | error e =>
      rw [hline] at read
      cases read
    | ok words =>
      have spelled := ofLine_eq_ok_iff.mp hline
      rw [hline] at read
      cases words with
      | nil => exact absurd (List.forall₂_nil_right_iff.mp spelled) h
      | cons word words =>
        simp only at read
        split at read
        · cases read
        · rename_i op hop
          split at read
          · cases read
          · rename_i rest hrest
            exact ⟨op, rest, (operation_eq_ok_iff spelled).mp hop, hrest,
              (Except.ok.inj read).symm⟩
  · rintro ⟨op, rest, written, hrest, rfl⟩
    obtain ⟨words, spelled⟩ := written.spells
    have hwords : words ≠ [] := by
      rintro rfl
      exact h (List.forall₂_nil_right_iff.mp spelled)
    rw [ofLine_eq_ok_iff.mpr spelled]
    simp only [(operation_eq_ok_iff spelled).mpr written, hrest]

/-- Each line with tokens is one operation. -/
theorem operations_eq_ok_iff : ∀ {line : Nat} {ls : List (List Char)}
    {ops : List (Opcode × List Argument)},
    operations line ls = .ok ops ↔ List.Forall₂ WritesOperation (tokensOf ls) ops
  | _, [], ops => by
    show Except.ok [] = Except.ok ops ↔ List.Forall₂ WritesOperation [] ops
    rw [List.forall₂_nil_left_iff]
    exact ⟨fun h => (Except.ok.inj h).symm, fun h => h ▸ rfl⟩
  | line, l :: ls, ops => by
    have ih {ops : List (Opcode × List Argument)} :
        operations (line + 1) ls = .ok ops ↔ _ := operations_eq_ok_iff
    by_cases h : lineTokens l = []
    · rw [operations_cons_of_blank h, tokensOf_cons_of_nil h, ih]
    · rw [operations_cons_eq_ok_iff h, tokensOf_cons_of_ne_nil h, List.forall₂_cons_left_iff]
      simp only [ih]

/-- Whether tokens are the header alone. -/
def IsHeader (tokens : List (List Char)) : Prop :=
  ∃ token, tokens = [token] ∧ sameIgnoringCase token Word.headerText.toList = true

/-- The header stands alone on its line. -/
theorem isHeader_iff {tokens : List (List Char)} {words : List Word}
    (spelled : List.Forall₂ Word.Spells tokens words) : words = [.header] ↔ IsHeader tokens := by
  constructor
  · rintro rfl
    obtain ⟨token, rest, first, nothing, rfl⟩ := List.forall₂_cons_right_iff.mp spelled
    obtain rfl := List.forall₂_nil_right_iff.mp nothing
    cases first with
    | header h => exact ⟨token, rfl, h⟩
  · rintro ⟨token, rfl, h⟩
    obtain ⟨word, rest, first, nothing, rfl⟩ := List.forall₂_cons_left_iff.mp spelled
    obtain rfl := List.forall₂_nil_left_iff.mp nothing
    rw [first.unique (.header h)]

/-- Empty lines may stand in front of the header. -/
theorem fromHeader_cons_of_blank {line : Nat} {l : List Char} (h : lineTokens l = [])
    (ls : List (List Char)) : fromHeader line (l :: ls) = fromHeader (line + 1) ls := by
  rw [fromHeader, ofLine_of_blank h]

/-- The first line with tokens must be the header. -/
theorem fromHeader_cons_eq_ok_iff {line : Nat} {l : List Char} (h : lineTokens l ≠ [])
    {ls : List (List Char)} {ops : List (Opcode × List Argument)} :
    fromHeader line (l :: ls) = .ok ops ↔
      IsHeader (lineTokens l) ∧ operations (line + 1) ls = .ok ops := by
  rw [fromHeader]
  constructor
  · intro read
    cases hline : Word.ofLine line l with
    | error e =>
      rw [hline] at read
      cases read
    | ok words =>
      have spelled := ofLine_eq_ok_iff.mp hline
      rw [hline] at read
      split at read
      · rename_i e
        cases e
      · rename_i e
        obtain rfl := Except.ok.inj e
        exact absurd (List.forall₂_nil_right_iff.mp spelled) h
      · rename_i e
        exact ⟨(isHeader_iff spelled).mp (Except.ok.inj e), read⟩
      · cases read
  · rintro ⟨⟨token, htoken, isHeader⟩, read⟩
    have spelled : List.Forall₂ Word.Spells (lineTokens l) [.header] := by
      rw [htoken]
      exact .cons (.header isHeader) .nil
    rw [ofLine_eq_ok_iff.mpr spelled]
    exact read

/-- The first line with tokens is the header, and all others are operations. -/
theorem fromHeader_eq_ok_iff : ∀ {line : Nat} {ls : List (List Char)}
    {ops : List (Opcode × List Argument)},
    fromHeader line ls = .ok ops ↔
      ∃ header body, tokensOf ls = header :: body ∧ IsHeader header ∧
        List.Forall₂ WritesOperation body ops
  | _, [], ops => by simp [fromHeader, tokensOf]
  | line, l :: ls, ops => by
    by_cases h : lineTokens l = []
    · rw [fromHeader_cons_of_blank h, tokensOf_cons_of_nil h]
      exact fromHeader_eq_ok_iff
    · rw [fromHeader_cons_eq_ok_iff h, tokensOf_cons_of_ne_nil h, operations_eq_ok_iff]
      constructor
      · rintro ⟨isHeader, written⟩
        exact ⟨_, _, rfl, isHeader, written⟩
      · rintro ⟨header, body, e, isHeader, written⟩
        obtain ⟨rfl, rfl⟩ := List.cons.inj e
        exact ⟨isHeader, written⟩

end Listing

/-- What the reader accepts, and as which program : the header, and below it lines that write
operations. -/
theorem Program.ofListing_eq_ok_iff {text : String} {p : Program} :
    Program.ofListing text = .ok p ↔
      ∃ header body ops, Listing.tokens text.toList = header :: body ∧ Listing.IsHeader header ∧
        List.Forall₂ Listing.WritesOperation body ops ∧ p = Program.numbered ops := by
  unfold Program.ofListing Listing.tokens
  constructor
  · intro h
    cases read : Listing.fromHeader 1 (lines text.toList) with
    | error e =>
      rw [read] at h
      cases h
    | ok ops =>
      rw [read] at h
      obtain ⟨header, body, e, isHeader, written⟩ := Listing.fromHeader_eq_ok_iff.mp read
      exact ⟨header, body, ops, e, isHeader, written, (Except.ok.inj h).symm⟩
  · rintro ⟨header, body, ops, e, isHeader, written, rfl⟩
    rw [Listing.fromHeader_eq_ok_iff.mpr ⟨header, body, e, isHeader, written⟩]
    rfl

end Ippcode
