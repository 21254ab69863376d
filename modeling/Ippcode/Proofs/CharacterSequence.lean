import Ippcode.Operation
import Ippcode.Proofs.Result

/-!
# Strings as sequences of characters

What is read from a string at an index, written to it and put together of two strings, is told by
the sequence of its characters (`Value.operations_onCharacters`). An index is an integer of 64 bits,
and it is one of the string if it is not negative and less than the length (`Value.IsIndex`); all
operations agree on that. The length is an integer of 64 bits, too, and exact for every string that
can be stored (`Value.IsMeasured`).
-/

namespace Ippcode.Value

variable {s t r : String} {i n : Int64} {c : Char} {e : RuntimeError} {v : Value}

/-! ## Lengths -/

/-- A memory of 64 bits can hold the string : its bytes are counted without a sign bit. -/
def IsStorable (s : String) : Prop := s.utf8ByteSize < 2 ^ 63

/-- No character is shorter than a byte. -/
theorem length_le_utf8Len : ∀ cs : List Char, cs.length ≤ String.utf8Len cs
  | [] => Nat.zero_le _
  | c :: cs => by
    have rest := length_le_utf8Len cs
    have first := c.utf8Size_pos
    rw [List.length_cons, String.utf8Len_cons]
    omega

/-- No character takes less than a byte. -/
theorem IsStorable.length_lt (h : IsStorable s) : s.length < 2 ^ 63 := by
  have bytes := length_le_utf8Len s.toList
  rw [← String.utf8ByteSize_ofList, String.ofList_toList, String.length_toList] at bytes
  exact lt_of_le_of_lt bytes h

/-- The length of a storable string is a number that an integer can hold. -/
theorem IsStorable.toInt_length (h : IsStorable s) : (Int64.ofNat s.length).toInt = s.length :=
  Int64.toInt_ofNat_of_lt h.length_lt

/-! ## Indices -/

/-- There is a character of the string at the index. -/
def IsIndex (s : String) (i : Int64) : Prop := 0 ≤ i.toInt ∧ i.toInt < s.length

/-- The character of the string at the index is this one. -/
def IsAt (s : String) (i : Int64) (c : Char) : Prop :=
  0 ≤ i.toInt ∧ s.toList[i.toInt.toNat]? = some c

/-- Where there is a character there is an index. -/
theorem IsAt.isIndex (h : IsAt s i c) : IsIndex s i := by
  obtain ⟨nonneg, there⟩ := h
  have inside := (List.getElem?_eq_some_iff.mp there).1
  rw [String.length_toList] at inside
  exact ⟨nonneg, by omega⟩

theorem IsIndex.toNat_lt (h : IsIndex s i) : i.toInt.toNat < s.toList.length := by
  obtain ⟨nonneg, inside⟩ := h
  rw [String.length_toList]
  omega

/-- At each index there is a character. -/
theorem IsIndex.exists_isAt (h : IsIndex s i) : ∃ c, IsAt s i c :=
  ⟨s.toList.get ⟨i.toInt.toNat, h.toNat_lt⟩, h.1, List.getElem?_eq_getElem h.toNat_lt⟩

/-- The operation finds the character at an index and no other. -/
theorem charAt_eq_ok_iff : charAt s i = .ok c ↔ IsAt s i c := by
  unfold charAt IsAt
  by_cases nonneg : 0 ≤ i.toInt
  · rw [if_pos nonneg, and_iff_right nonneg]
    cases s.toList[i.toInt.toNat]? <;> simp
  · rw [if_neg nonneg]
    simp [nonneg]

/-- Elsewhere the error tells the index and the length of the string. -/
theorem charAt_of_not_isIndex (h : ¬ IsIndex s i) : charAt s i = .error (.index i s.length) := by
  cases found : if 0 ≤ i.toInt then s.toList[i.toInt.toNat]? else none with
  | some c =>
    have read : charAt s i = .ok c := by rw [charAt, found]
    exact absurd (charAt_eq_ok_iff.mp read).isIndex h
  | none => rw [charAt, found]

theorem exists_charAt_iff : (∃ c, charAt s i = .ok c) ↔ IsIndex s i := by
  simp only [charAt_eq_ok_iff]
  exact ⟨fun ⟨_, h⟩ => h.isIndex, IsIndex.exists_isAt⟩

/-- What is made of the character at an index is there at the indices of the string only. -/
theorem exists_map_charAt_iff {f : Char → Value} :
    (∃ v, (charAt s i).map f = .ok v) ↔ IsIndex s i := by
  simp only [← exists_charAt_iff, map_eq_ok_iff]
  exact ⟨fun ⟨_, c, read, _⟩ => ⟨c, read⟩, fun ⟨c, read⟩ => ⟨_, c, read, rfl⟩⟩

theorem length_set (s : String) (k : Nat) (c : Char) :
    (String.ofList (s.toList.set k c)).length = s.length := by
  rw [String.length_ofList, List.length_set, String.length_toList]

/-- Replacing a character changes it and none of the others. -/
theorem charAt_set (h : IsIndex s i) (j : Int64) :
    charAt (String.ofList (s.toList.set i.toInt.toNat c)) j =
      if j = i then .ok c else charAt s j := by
  split
  · next same =>
    subst same
    refine charAt_eq_ok_iff.mpr ⟨h.1, ?_⟩
    rw [String.toList_ofList, List.getElem?_set_self h.toNat_lt]
  · next differ =>
    unfold charAt
    rw [length_set, String.toList_ofList]
    by_cases nonneg : 0 ≤ j.toInt
    · have nonneg' : 0 ≤ i.toInt := h.1
      have other : i.toInt.toNat ≠ j.toInt.toNat := by
        intro same
        exact differ (Int64.toInt_inj.mp (by omega))
      rw [List.getElem?_set_ne other]
    · rw [if_neg nonneg, if_neg nonneg]

theorem toInt_sub_length (h : s.length ≤ i.toInt) :
    (i - Int64.ofNat s.length).toInt = i.toInt - s.length := by
  have high := i.toInt_lt
  rw [Int64.toInt_sub, Int64.toInt_ofNat_of_lt (by omega)]
  exact Int.bmod_eq_of_le (by omega) (by omega)

/-- The characters of the first string keep their indices. -/
theorem isAt_append_left (h : IsAt s i c) : IsAt (s ++ t) i c := by
  refine ⟨h.1, ?_⟩
  rw [String.toList_append, List.getElem?_append_left h.isIndex.toNat_lt, h.2]

/-- Behind the characters of the first string are those of the second one. -/
theorem isAt_append_right (h : s.length ≤ i.toInt) :
    IsAt (s ++ t) i c ↔ IsAt t (i - Int64.ofNat s.length) c := by
  have place : (i.toInt - s.length).toNat = i.toInt.toNat - s.toList.length := by
    rw [String.length_toList]
    omega
  unfold IsAt
  rw [toInt_sub_length h, place, String.toList_append,
    List.getElem?_append_right (by rw [String.length_toList]; omega)]
  exact and_congr_left' (by omega)

/-! ## What the operations do to strings -/

/-- The character, as a string. -/
theorem getChar_string (s : String) (i : Int64) :
    getChar (string s) (int i) = (charAt s i).map fun c => string c.toString := by
  show (charAt s i >>= _) = _
  cases charAt s i <;> rfl

/-- The code of the character. -/
theorem charCode_string (s : String) (i : Int64) :
    charCode (string s) (int i) = (charAt s i).map fun c => int (Int64.ofNat c.toNat) := by
  show (charAt s i >>= _) = _
  cases charAt s i <;> rfl

theorem setChar_empty (s : String) (i : Int64) :
    setChar (string s) (int i) (string "") = .error .emptyReplacement := rfl

/-- Of the replacement only the first character counts. -/
theorem setChar_string {cs : List Char} (h : r.toList = c :: cs) :
    setChar (string s) (int i) (string r) =
      (charAt s i).map fun _ => string (String.ofList (s.toList.set i.toInt.toNat c)) := by
  simp only [setChar, expectString, expectInt, ok_bind, h]
  cases charAt s i <;> rfl

/-- The codes of characters : those of Unicode, without the surrogates. -/
def IsScalar (n : Int64) : Prop :=
  0 ≤ n.toInt ∧ (n.toInt < 0xD800 ∨ 0xDFFF < n.toInt ∧ n.toInt < 0x110000)

/-- The codes of characters are the numbers that make up a character. -/
theorem isScalar_iff : IsScalar n ↔ 0 ≤ n.toInt ∧ n.toInt.toNat.isValidChar := by
  unfold IsScalar Nat.isValidChar
  omega

theorem intToChar_of_isScalar (h : IsScalar n) :
    intToChar (int n) = .ok (string (Char.ofNat n.toInt.toNat).toString) :=
  if_pos (isScalar_iff.mp h)

theorem intToChar_of_not_isScalar (h : ¬ IsScalar n) :
    intToChar (int n) = .error (.codePoint n) :=
  if_neg (mt isScalar_iff.mpr h)

/-- The code of a character is one, and it is the code of this character. -/
theorem intToChar_code (c : Char) :
    intToChar (int (Int64.ofNat c.toNat)) = .ok (string c.toString) := by
  have valid : c.toNat.isValidChar := c.valid
  have code : (Int64.ofNat c.toNat).toInt = c.toNat := by
    refine Int64.toInt_ofNat_of_lt ?_
    unfold Nat.isValidChar at valid
    omega
  have scalar : IsScalar (Int64.ofNat c.toNat) := by
    rw [isScalar_iff, code]
    exact ⟨Int.natCast_nonneg _, valid⟩
  rw [intToChar_of_isScalar scalar, code, Int.toNat_natCast, Char.ofNat_toNat]

/-! ## Laws -/

/-- The length of a string, as a program gets it, is the number of its characters. -/
structure IsMeasured (s : String) : Prop where
  length : strLen (string s) = .ok (int (Int64.ofNat s.length))
  exact : IsStorable s → (Int64.ofNat s.length).toInt = s.length
  /-- The indices of a string are the integers from zero up to its length. -/
  isIndex_iff : IsStorable s → ∀ i, IsIndex s i ↔ 0 ≤ i ∧ i < Int64.ofNat s.length

/-- Every string is measured by the number of its characters. -/
theorem isMeasured (s : String) : IsMeasured s where
  length := rfl
  exact h := h.toInt_length
  isIndex_iff h i := by
    rw [Int64.le_iff_toInt_le, Int64.lt_iff_toInt_lt, h.toInt_length]
    exact Iff.rfl

/-- The character of a string at an index, and its code. -/
structure IsReadAt (s : String) (i : Int64) : Prop where
  char_iff : ∀ c : Char, getChar (string s) (int i) = .ok (string c.toString) ↔ IsAt s i c
  exists_char_iff : (∃ v, getChar (string s) (int i) = .ok v) ↔ IsIndex s i
  exists_code_iff : (∃ v, charCode (string s) (int i) = .ok v) ↔ IsIndex s i
  char_error : ¬ IsIndex s i → getChar (string s) (int i) = .error (.index i s.length)
  code_error : ¬ IsIndex s i → charCode (string s) (int i) = .error (.index i s.length)
  /-- The code is that of the character. -/
  char_of_code : ∀ v, charCode (string s) (int i) = .ok v → intToChar v = getChar (string s) (int i)

/-- Every string can be read at exactly its indices. -/
theorem isReadAt (s : String) (i : Int64) : IsReadAt s i where
  char_iff c := by
    rw [getChar_string, map_eq_ok_iff, ← charAt_eq_ok_iff]
    constructor
    · rintro ⟨d, read, same⟩
      have same : d.toString = c.toString := Value.string.inj same
      have same : [d] = [c] := by simpa [Char.toString] using congrArg String.toList same
      rwa [List.singleton_inj.mp same] at read
    · exact fun read => ⟨c, read, rfl⟩
  exists_char_iff := by rw [getChar_string, exists_map_charAt_iff]
  exists_code_iff := by rw [charCode_string, exists_map_charAt_iff]
  char_error h := by rw [getChar_string, charAt_of_not_isIndex h, map_error]
  code_error h := by rw [charCode_string, charAt_of_not_isIndex h, map_error]
  char_of_code v h := by
    rw [charCode_string] at h
    obtain ⟨c, read, rfl⟩ := map_eq_ok_iff.mp h
    rw [getChar_string, read, map_ok, intToChar_code]

/-- The character with a code. -/
structure IsCode (n : Int64) : Prop where
  exists_iff : (∃ v, intToChar (int n) = .ok v) ↔ IsScalar n
  error : ¬ IsScalar n → intToChar (int n) = .error (.codePoint n)
  /-- The character has this code. -/
  code_of_char : ∀ v, intToChar (int n) = .ok v → charCode v (int 0) = .ok (int n)

/-- Every number is the code of one character or of none. -/
theorem isCode (n : Int64) : IsCode n where
  exists_iff := by
    refine ⟨fun ⟨v, h⟩ => ?_, fun h => ⟨_, intToChar_of_isScalar h⟩⟩
    by_contra scalar
    rw [intToChar_of_not_isScalar scalar] at h
    cases h
  error := intToChar_of_not_isScalar
  code_of_char v h := by
    by_cases scalar : IsScalar n
    · rw [intToChar_of_isScalar scalar] at h
      obtain rfl := Except.ok.inj h
      obtain ⟨nonneg, valid⟩ := isScalar_iff.mp scalar
      have first : charAt (Char.ofNat n.toInt.toNat).toString 0 = .ok (Char.ofNat n.toInt.toNat) :=
        charAt_eq_ok_iff.mpr ⟨le_rfl, by simp [Char.toString]⟩
      have code : Int64.ofNat (Char.ofNat n.toInt.toNat).toNat = n := by
        rw [Char.toNat_ofNat, if_pos valid, ← Int64.ofInt_eq_ofNat, Int.toNat_of_nonneg nonneg,
          Int64.ofInt_toInt]
      rw [charCode_string, first, map_ok, code]
    · rw [intToChar_of_not_isScalar scalar] at h
      cases h

/-- The string with the character at an index replaced by the first one of another string. -/
structure IsReplacedAt (s : String) (i : Int64) (r : String) : Prop where
  exists_iff : (∃ v, setChar (string s) (int i) (string r) = .ok v) ↔ r ≠ "" ∧ IsIndex s i
  empty : r = "" → setChar (string s) (int i) (string r) = .error .emptyReplacement
  outside : r ≠ "" → ¬ IsIndex s i →
    setChar (string s) (int i) (string r) = .error (.index i s.length)
  result : ∀ v, setChar (string s) (int i) (string r) = .ok v → ∃ t, v = string t ∧
    t.length = s.length ∧ getChar v (int i) = getChar (string r) (int 0) ∧
    ∀ j, j ≠ i → getChar v (int j) = getChar (string s) (int j)

/-- Every replacement changes one character at most. -/
theorem isReplacedAt (s : String) (i : Int64) (r : String) : IsReplacedAt s i r := by
  cases h : r.toList with
  | nil =>
    obtain rfl := String.toList_eq_nil_iff.mp h
    have refused := setChar_empty s i
    refine ⟨?_, fun _ => refused, fun some => absurd rfl some, fun v done => ?_⟩
    · rw [refused]
      exact ⟨nofun, fun both => absurd rfl both.1⟩
    · rw [refused] at done
      cases done
  | cons c cs =>
    have some : r ≠ "" := fun none => by simp [none] at h
    have replaced := setChar_string (s := s) (i := i) h
    have first : charAt r 0 = .ok c := charAt_eq_ok_iff.mpr ⟨le_rfl, by rw [h]; rfl⟩
    refine ⟨?_, fun none => absurd none some, fun _ outside => ?_, fun v done => ?_⟩
    · rw [replaced, and_iff_right some, exists_map_charAt_iff]
    · rw [replaced, charAt_of_not_isIndex outside, map_error]
    · rw [replaced] at done
      obtain ⟨old, read, rfl⟩ := map_eq_ok_iff.mp done
      have index := (charAt_eq_ok_iff.mp read).isIndex
      refine ⟨_, rfl, length_set .., ?_, fun j differ => ?_⟩
      · rw [getChar_string, getChar_string, charAt_set index, if_pos rfl, first]
      · rw [getChar_string, getChar_string, charAt_set index, if_neg differ]

/-- Two strings one after the other. -/
structure IsJoined (s t : String) : Prop where
  joined : concat (string s) (string t) = .ok (string (s ++ t))
  length : ∃ m n, strLen (string s) = .ok (int m) ∧ strLen (string t) = .ok (int n) ∧
    strLen (string (s ++ t)) = .ok (int (m + n))
  /-- First come the characters of the one string. -/
  left : ∀ i, IsIndex s i →
    IsIndex (s ++ t) i ∧ getChar (string (s ++ t)) (int i) = getChar (string s) (int i)
  /-- Behind them are those of the other one. -/
  right : ∀ i : Int64, s.length ≤ i.toInt →
    (IsIndex (s ++ t) i ↔ IsIndex t (i - Int64.ofNat s.length)) ∧
    (IsIndex (s ++ t) i → getChar (string (s ++ t)) (int i) =
      getChar (string t) (int (i - Int64.ofNat s.length)))

/-- Every two strings are joined character by character. -/
theorem isJoined (s t : String) : IsJoined s t where
  joined := rfl
  length := ⟨_, _, rfl, rfl, by
    rw [strLen, expectString, ok_bind, String.length_append, Int64.ofNat_add]
    rfl⟩
  left i h := by
    obtain ⟨c, there⟩ := h.exists_isAt
    have there' : IsAt (s ++ t) i c := isAt_append_left there
    refine ⟨there'.isIndex, ?_⟩
    rw [((isReadAt _ _).char_iff c).mpr there', ((isReadAt _ _).char_iff c).mpr there]
  right i h := by
    constructor
    · rw [IsIndex, IsIndex, toInt_sub_length h, String.length_append]
      push_cast
      omega
    · intro index
      obtain ⟨c, there⟩ := index.exists_isAt
      rw [((isReadAt _ _).char_iff c).mpr there,
        ((isReadAt _ _).char_iff c).mpr ((isAt_append_right h).mp there)]

/-- All operations on strings are operations on the sequences of their characters. The length is
their number. At an index of the string, which is an integer from zero up to the length, there is a
character to read, to take the code of and to replace; at any other index all three fail in one way,
which tells the index and the length, unless there is nothing to replace the character by. Codes are
those of Unicode, to and fro. The characters of two joined strings follow one another. -/
theorem operations_onCharacters (s t r : String) (i n : Int64) :
    IsMeasured s ∧ IsReadAt s i ∧ IsCode n ∧ IsReplacedAt s i r ∧ IsJoined s t :=
  ⟨isMeasured s, isReadAt s i, isCode n, isReplacedAt s i r, isJoined s t⟩

/-- Characters of several bytes count as one, and what is missing comes before the index. -/
example :
    getChar (string "aé𝕏") (int 2) = .ok (string "𝕏") ∧
    setChar (string "aé𝕏") (int 1) (string "ß!") = .ok (string "aß𝕏") ∧
    setChar (string "aé𝕏") (int 3) (string "ß!") = .error (.index 3 3) ∧
    setChar (string "aé𝕏") (int (-1)) (string "") = .error .emptyReplacement := by
  decide

end Ippcode.Value
