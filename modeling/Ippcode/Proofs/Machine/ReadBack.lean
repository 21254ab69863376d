import Ippcode.Proofs.Listing.Escaped
import Ippcode.Proofs.Text.Stream

/-!
# Reading what was written

A value can be given to a program on a line of its input, as it is written behind the at sign of
a constant. A line is read by other rules than a constant is : integers have no radix, and what
surrounds a number does not count, while it does in a string. Still each value but a NaN is read
back at its type (`ofLine_payload`). Escapes hide the ends of lines, so a column of values is cut
where one value ends (`lines_column`), and a program that asks for the types of the values one
after the other gets all of them (`readValues_column`).
-/

namespace Ippcode

open Ippcode.Text

/-! ## One line -/

namespace Text.Escape

/-- A blank that is written with escapes is a wide one. -/
theorem isWide_of_mem_encode {c : Char} {cs : List Char} (h : c ∈ encode cs)
    (blank : isBlank c = true) : isWide c = true := by
  have mem : c ∈ (encode cs).filter isBlank := List.mem_filter.mpr ⟨h, blank⟩
  rw [filter_isBlank_encode] at mem
  exact (List.mem_filter.mp mem).2

/-- What is written with escapes does not end a line. -/
theorem ne_lineEnd_of_mem_encode {c : Char} {cs : List Char} (h : c ∈ encode cs) :
    c ≠ '\n' ∧ c ≠ '\r' := by
  constructor
  · rintro rfl
    exact absurd (isWide_of_mem_encode h (by decide)) (by decide)
  · rintro rfl
    exact absurd (isWide_of_mem_encode h (by decide)) (by decide)

end Text.Escape

namespace Value

/-- A payload is part of one line. -/
theorem ne_lineEnd_of_mem_payload {v : Value} : ∀ c ∈ v.payload.toList, c ≠ '\n' ∧ c ≠ '\r' := by
  intro c hc
  cases v with
  | string s =>
    rw [payload, String.toList_ofList] at hc
    exact Escape.ne_lineEnd_of_mem_encode hc
  | int _ | float _ | bool _ | nil =>
    refine (isClean_payload ?_).ne_lineEnd c hc
    trivial

/-- A payload is read back from a line, unless it is that of a NaN. -/
theorem ofLine_payload {v : Value} (h : v.isNaN = false) : ofLine v.ty v.payload = v := by
  cases v with
  | int n =>
    have trimmed := trim_of_isClean (Numeral.isNumeral_ofInt n.toInt).isClean
    simp only [ofLine, ty, payload, text, String.toList_ofList, trimmed, Numeral.ofLine?_ofInt,
      Option.map_some, Option.getD_some]
  | float x =>
    have trimmed := trim_of_isClean (Numeral.isNumeral_floatText x).isClean
    simp only [ofLine, ty, payload, text, trimmed, Numeral.float?_floatText h, Option.map_some,
      Option.getD_some]
  | bool b => cases b <;> decide
  | string s =>
    simp only [ofLine, ty, payload, String.toList_ofList, Escape.decode?_encode, Option.map_some,
      Option.getD_some, String.ofList_toList]
  | nil => rfl

/-! ## A column -/

/-- Values one below the other. -/
def column (vs : List Value) : String := String.join (vs.map fun v => v.payload ++ "\n")

theorem toList_column (vs : List Value) :
    (column vs).toList = stacked (vs.map fun v => v.payload.toList) := by
  simp [column, stacked, String.toList_join, List.flatMap_map]

/-- The lines of a column are the payloads of its values. -/
theorem lines_column (vs : List Value) :
    (Text.lines (column vs).toList).map String.ofList = vs.map payload := by
  have plain : ∀ l ∈ vs.map fun v => v.payload.toList, ∀ c ∈ l, c ≠ '\n' ∧ c ≠ '\r' := by
    intro l hl
    obtain ⟨v, -, rfl⟩ := List.mem_map.mp hl
    exact ne_lineEnd_of_mem_payload
  rw [toList_column, lines_stacked plain, List.map_map]
  simp only [Function.comp_def, String.ofList_toList]

end Value

namespace Input

open Value

theorem answers_column {input : Input} {vs : List Value}
    (h : input = ofText (column vs) ∨ input = stream (encode (column vs))) (count : Nat) :
    answers count input = (List.range count).map ((vs.map payload)[·]?) := by
  have cut := lines_column vs
  rcases h with rfl | rfl
  · rw [ofText, cut, answers_lines]
  · rw [← String.ofList_toList (s := column vs), answers_stream, cut]

/-- The values of the next lines, one for each type, and `nil` for a line that cannot be read. -/
def readValues : List Ty → Input → List Value
  | [], _ => []
  | ty :: tys, input => (input.next.1.map (ofLine ty)).getD .nil :: readValues tys input.next.2

theorem readValues_eq_zipWith : ∀ (tys : List Ty) (input : Input),
    readValues tys input = List.zipWith (fun ty line => (line.map (ofLine ty)).getD .nil) tys
      (answers tys.length input)
  | [], _ => rfl
  | ty :: tys, input => by
    rw [readValues, readValues_eq_zipWith tys, List.length_cons, answers, List.zipWith_cons_cons]

theorem readValues_lines : ∀ {vs : List Value}, (∀ v ∈ vs, v.isNaN = false) →
    readValues (vs.map ty) (lines (vs.map payload)) = vs
  | [], _ => rfl
  | v :: vs, h => by
    have ih := readValues_lines fun w hw => h w (List.mem_cons_of_mem v hw)
    have first := ofLine_payload (h v List.mem_cons_self)
    simp only [List.map_cons, readValues, next, Option.map_some, Option.getD_some, first, ih]

/-- Each value of a column is on a line of its own, whether the lines are known in advance or are
taken off a stream, and there is no other line. Read at their types, the lines are the values,
unless there is a NaN among them. -/
theorem readValues_column {input : Input} {vs : List Value}
    (given : input = ofText (column vs) ∨ input = stream (encode (column vs)))
    (numbers : ∀ v ∈ vs, v.isNaN = false) :
    (∀ count, answers count input = (List.range count).map ((vs.map payload)[·]?)) ∧
      readValues (vs.map ty) input = vs := by
  have payloads := answers_column given
  refine ⟨payloads, ?_⟩
  calc readValues (vs.map ty) input
      = readValues (vs.map ty) (lines (vs.map payload)) := by
        rw [readValues_eq_zipWith, readValues_eq_zipWith, payloads, answers_lines]
    _ = vs := readValues_lines numbers

/-- The least integer, a negative zero, and strings with ends of lines, blanks around them and a
blank that no escape can name. -/
theorem readValues_column_special :
    let vs := [int Int64.minValue, float (Float.ofBits 0x8000000000000000), bool true,
      string " a\r\n#\\001\u3000", string ""]
    column vs =
      "-9223372036854775808\n-0.0\ntrue\n\\032a\\013\\010\\035\\092001\u3000\n\n" ∧
      readValues (vs.map ty) (ofText (column vs)) = vs := by
  intro vs
  exact ⟨by decide +kernel, (readValues_column (.inl rfl) (by decide)).2⟩

end Input

end Ippcode
