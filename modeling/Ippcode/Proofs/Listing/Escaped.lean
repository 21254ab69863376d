import Ippcode.Proofs.Listing.RoundTrip

/-!
# Strings on a line

A string that is written with escapes has no sign of a comment in it, and the only blanks left in
it are those that no escape can name (`filter_isBlank_encode`). There are such blanks because an
escape has three digits : they are the wide ones, with a code above 999.

So the constant of a string is one word of a line exactly if the string has no wide blank
(`ofLine_constant_string_iff`). Otherwise the word ends at the first wide blank, and what follows
it is cut into words on its own (`ofLine_constant_string`).
-/

namespace Ippcode

open Ippcode.Text

/-! ## Wide blanks -/

namespace Text.Escape

/-- A blank that no escape can name. -/
def isWide (c : Char) : Bool := isBlank c && greatestCode < c.toNat

/-- The blanks that are too great to be escaped. -/
theorem isWide_iff {c : Char} : isWide c = true ↔ isBlank c = true ∧ greatestCode < c.toNat := by
  rw [isWide, Bool.and_eq_true, decide_eq_true_eq]

theorem encode_cons (c : Char) (cs : List Char) : encode (c :: cs) = encodeChar c ++ encode cs :=
  List.flatMap_cons

/-- Characters are encoded one by one. -/
theorem encode_append (as bs : List Char) : encode (as ++ bs) = encode as ++ encode bs :=
  List.flatMap_append

/-- Wide blanks are written as they are. -/
theorem encodeChar_of_isWide {c : Char} (h : isWide c = true) : encodeChar c = [c] := by
  have large : ¬ c.toNat ≤ greatestCode := not_le.mpr (isWide_iff.mp h).2
  rw [encodeChar, decide_eq_false large, Bool.and_false]
  rfl

/-- What is no wide blank is written clean. -/
theorem isClean_encodeChar_of_not_isWide {c : Char} (h : isWide c = false) :
    IsClean (encodeChar c) := by
  refine isClean_encodeChar fun blank => ?_
  by_contra large
  rw [isWide_iff.mpr ⟨blank, not_le.mp large⟩] at h
  cases h

/-- What is written with escapes does not begin a comment. -/
theorem numberSign_not_mem_encode (cs : List Char) : '#' ∉ encode cs := by
  intro mem
  obtain ⟨c, -, hc⟩ := List.mem_flatMap.mp mem
  cases wide : isWide c with
  | true =>
    rw [encodeChar_of_isWide wide] at hc
    obtain rfl := List.mem_singleton.mp hc
    exact absurd wide (by decide)
  | false => exact (isClean_encodeChar_of_not_isWide wide '#' hc).2 rfl

theorem filter_isBlank_encodeChar (c : Char) :
    (encodeChar c).filter isBlank = [c].filter isWide := by
  cases wide : isWide c with
  | true =>
    rw [encodeChar_of_isWide wide, List.filter_cons_of_pos (isWide_iff.mp wide).1,
      List.filter_cons_of_pos wide, List.filter_nil, List.filter_nil]
  | false =>
    have blanks : ∀ d ∈ encodeChar c, ¬ isBlank d = true := fun d hd => by
      rw [(isClean_encodeChar_of_not_isWide wide d hd).1]
      exact Bool.false_ne_true
    rw [List.filter_eq_nil_iff.mpr blanks, List.filter_cons_of_neg (by rw [wide]; decide),
      List.filter_nil]

/-- The blanks that are left are the wide ones, in their order. -/
theorem filter_isBlank_encode (cs : List Char) :
    (encode cs).filter isBlank = cs.filter isWide := by
  induction cs with
  | nil => rfl
  | cons c cs ih =>
    rw [encode_cons, List.filter_append, ih, filter_isBlank_encodeChar, ← List.filter_append,
      List.singleton_append]

/-- What stands in front of the first wide blank. -/
def narrowPart (cs : List Char) : List Char := cs.takeWhile fun c => !isWide c

/-- What follows from the first wide blank on. -/
def widePart (cs : List Char) : List Char := cs.dropWhile fun c => !isWide c

/-- A string is what stands in front of its first wide blank, and the rest. -/
theorem narrowPart_append_widePart (cs : List Char) : narrowPart cs ++ widePart cs = cs :=
  List.takeWhile_append_dropWhile

theorem isWide_of_mem_narrowPart {c : Char} {cs : List Char} (h : c ∈ narrowPart cs) :
    isWide c = false := by
  have narrow := List.mem_takeWhile_imp (p := fun c => !isWide c) h
  rwa [Bool.not_eq_true'] at narrow

theorem parts_of_not_isWide {cs : List Char} (h : ∀ c ∈ cs, isWide c = false) :
    narrowPart cs = cs ∧ widePart cs = [] := by
  have all : ∀ c ∈ cs, (!isWide c) = true := fun c hc => by
    rw [h c hc]
    rfl
  exact ⟨List.takeWhile_eq_self_iff.mpr all, List.dropWhile_eq_nil_iff.mpr all⟩

/-- A word that is running ends at the first wide blank. -/
theorem endsWord_encode_widePart (cs : List Char) : endsWord (encode (widePart cs)) = true := by
  induction cs with
  | nil => rfl
  | cons c cs ih =>
    cases wide : isWide c with
    | true =>
      rw [widePart, List.dropWhile_cons_of_neg (by rw [wide]; decide), encode_cons,
        encodeChar_of_isWide wide]
      exact (isWide_iff.mp wide).1
    | false =>
      rw [widePart, List.dropWhile_cons_of_pos (by rw [wide]; rfl)]
      exact ih

end Text.Escape

open Text.Escape

/-! ## The constant of a string -/

/-- A string is escapable if there is no such blank in it. -/
theorem Value.isEscapable_string_iff {s : String} :
    (Value.string s).IsEscapable ↔ ∀ c ∈ s.toList, isWide c = false := by
  refine forall₂_congr fun c _ => ?_
  rw [← Bool.not_eq_true, isWide_iff, not_and, not_lt]

theorem Value.toList_constant_string (s : String) :
    (Value.string s).constant.toList = "string@".toList ++ encode s.toList := by
  rw [constant, payload, String.toList_append, String.toList_ofList]
  rfl

namespace Listing

/-- The string of what stands in front of the first wide blank. -/
def narrowString (s : String) : String := String.ofList (narrowPart s.toList)

theorem toList_narrowString (s : String) : (narrowString s).toList = narrowPart s.toList :=
  String.toList_ofList

/-- The narrow part of a string is written as one token. -/
theorem isToken_constant_narrowString (s : String) :
    IsToken (Value.string (narrowString s)).constant.toList := by
  refine isToken_atSign (Ty.isClean_name .string) (Value.isClean_payload ?_)
  rw [Value.isEscapable_string_iff, toList_narrowString]
  exact fun _ => isWide_of_mem_narrowPart

/-- Behind the token of the narrow part stands the rest of the string. -/
theorem toList_constant_append (s : String) :
    (Value.string s).constant.toList
      = (Value.string (narrowString s)).constant.toList ++ encode (widePart s.toList) := by
  rw [Value.toList_constant_string, Value.toList_constant_string, List.append_assoc,
    toList_narrowString, ← encode_append, narrowPart_append_widePart]

/-- On a line the constant of a string is cut at the first wide blank. What stands in front of it
is one token, and the rest is cut on its own. -/
theorem lineTokens_constant_string (s : String) :
    lineTokens (Value.string s).constant.toList
      = (Value.string (narrowString s)).constant.toList
        :: lineTokens (encode (widePart s.toList)) := by
  have first := isToken_constant_narrowString s
  have rest := numberSign_not_mem_encode (widePart s.toList)
  have plain : '#' ∉ (Value.string s).constant.toList := by
    rw [toList_constant_append, List.mem_append, not_or]
    exact ⟨fun mem => (first.clean '#' mem).2 rfl, rest⟩
  rw [lineTokens, withoutComment_of_not_mem plain, toList_constant_append,
    words_append first.ne_nil (fun c hc => (first.clean c hc).1) (endsWord_encode_widePart _),
    lineTokens, withoutComment_of_not_mem rest]

end Listing

namespace Word

open Listing

/-- What stands in front of the first wide blank is read as a constant, and the rest is read on its
own. -/
theorem ofLine_constant_string (line : Nat) (s : String) :
    ofLine line (Value.string s).constant.toList = do
      let rest ← ofLine line (encode (widePart s.toList))
      return .constant (Value.string (narrowString s)).constant (.string (narrowString s))
        :: rest := by
  have first : ofText line (Value.string (narrowString s)).constant.toList
      = .ok (.constant (Value.string (narrowString s)).constant (.string (narrowString s))) :=
    ofText_of_spells (.constant (Value.ofPayload_payload rfl))
  have cut := lineTokens_constant_string s
  unfold lineTokens at cut
  rw [ofLine, cut, List.mapM_cons, first, ofLine]
  rfl

/-- The payload of a string has no sign of a comment in it and no blanks but the wide ones of the
string. It has no blank at all exactly if there is none that an escape cannot name, and exactly then
the constant of the string is one word, which is read as the string. -/
theorem ofLine_constant_string_iff (line : Nat) (s : String) :
    '#' ∉ encode s.toList ∧
    (encode s.toList).filter isBlank = s.toList.filter isWide ∧
    ((∀ c ∈ encode s.toList, isBlank c = false) ↔ (Value.string s).IsEscapable) ∧
    (ofLine line (Value.string s).constant.toList
        = .ok [.constant (Value.string s).constant (.string s)] ↔
      (Value.string s).IsEscapable) := by
  have blanks := filter_isBlank_encode s.toList
  refine ⟨numberSign_not_mem_encode _, blanks, ?_, ?_, ?_⟩
  · have none : (encode s.toList).filter isBlank = [] ↔ s.toList.filter isWide = [] := by
      rw [blanks]
    rw [Value.isEscapable_string_iff]
    simpa only [List.filter_eq_nil_iff, Bool.not_eq_true] using none
  · intro read
    rw [ofLine_constant_string] at read
    obtain ⟨rest, -, whole⟩ := bind_eq_ok_iff.mp read
    obtain ⟨-, same⟩ := Word.constant.inj (List.cons.inj (Except.ok.inj whole)).1
    have narrow := congrArg String.toList (Value.string.inj same)
    rw [toList_narrowString] at narrow
    rw [Value.isEscapable_string_iff]
    exact fun c hc => isWide_of_mem_narrowPart (narrow ▸ hc)
  · intro escapable
    obtain ⟨narrow, wide⟩ := parts_of_not_isWide (Value.isEscapable_string_iff.mp escapable)
    rw [ofLine_constant_string, wide, narrowString, narrow, String.ofList_toList]
    rfl

/-- The ideographic space is a wide blank. It is written as it is, so a string that ends in it is
read without it, and a program that prints this string does not print it once it has been written
as a listing and read again. -/
theorem wide_blank_lost :
    encode "a\u3000".toList = ['a', '\u3000'] ∧ isBlank '\u3000' = true ∧
    ofLine 1 (Value.string "a\u3000").constant.toList
      = .ok [.constant "string@a" (.string "a")] ∧
    Program.ofListing (Program.listing ⟨[⟨1, .write, [.constant (.string "a\u3000")]⟩]⟩)
      = .ok ⟨[⟨1, .write, [.constant (.string "a")]⟩]⟩ := by
  decide +kernel

end Word

end Ippcode
