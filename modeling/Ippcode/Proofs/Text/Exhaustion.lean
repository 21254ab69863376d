import Ippcode.Proofs.Text.Stream

/-!
# Input that is exhausted

Requests take the lines of a stream one after the other, and a line that is not UTF-8 is answered
like the end of the input, by no line (`Input.answers_stream_bytes`). It is consumed, and the lines
behind it can still be read. So for lines that are known in advance, and for a stream that holds a
text, no line means that there is none from then on, and for other streams it does exactly if no
line that is UTF-8 stands behind one that is not (`Input.staysExhausted_iff`).
-/

namespace Ippcode.Text

/-! ## Lines of bytes -/

theorem length_cutLine_lt {bytes : List UInt8} (h : bytes ≠ []) :
    (cutLine bytes).2.length < bytes.length := by
  have taken := List.length_pos_iff.mpr (cutLine_fst_ne_nil h)
  have whole := congrArg List.length (cutLine_append bytes)
  rw [List.length_append] at whole
  omega

/-- The lines of a sequence of bytes, their ends included. -/
def byteLines : List UInt8 → List (List UInt8)
  | [] => []
  | b :: bs => (cutLine (b :: bs)).1 :: byteLines (cutLine (b :: bs)).2
termination_by bytes => bytes.length
decreasing_by exact length_cutLine_lt (List.cons_ne_nil b bs)

/-- The text of a line without its end, if the bytes hold a text. -/
def lineText? (line : List UInt8) : Option String :=
  (decode? line).map fun text => String.ofList (withoutEnd text.toList)

theorem byteLines_of_ne_nil {bytes : List UInt8} (h : bytes ≠ []) :
    byteLines bytes = (cutLine bytes).1 :: byteLines (cutLine bytes).2 := by
  cases bytes with
  | nil => exact absurd rfl h
  | cons b bs => rw [byteLines]

/-- No byte is lost. -/
theorem flatten_byteLines (bytes : List UInt8) : (byteLines bytes).flatten = bytes := by
  induction bytes using byteLines.induct with
  | case1 => rw [byteLines, List.flatten_nil]
  | case2 b bs ih => rw [byteLines, List.flatten_cons, ih, cutLine_append]

theorem lineText?_eq_none_iff {line : List UInt8} : lineText? line = none ↔ decode? line = none :=
  Option.map_eq_none_iff

end Ippcode.Text

namespace Ippcode.Input

open Ippcode.Text

/-! ## Answers -/

/-- A request takes the first line off a stream. -/
theorem next_stream_bytes (bytes : List UInt8) :
    (stream bytes).next.1 = (byteLines bytes)[0]?.bind lineText? ∧
      ∃ rest, (stream bytes).next.2 = stream rest ∧ byteLines rest = (byteLines bytes).tail := by
  cases bytes with
  | nil =>
    rw [byteLines]
    exact ⟨rfl, [], rfl, byteLines.eq_1⟩
  | cons b bs =>
    have taken := List.isEmpty_eq_false_iff.mpr (cutLine_fst_ne_nil (List.cons_ne_nil b bs))
    rw [byteLines_of_ne_nil (List.cons_ne_nil b bs)]
    refine ⟨?_, _, rfl, rfl⟩
    simp only [next, taken, Bool.false_eq_true, if_false, List.getElem?_cons_zero, Option.bind_some,
      lineText?]

theorem answers_stream_bytes : ∀ (count : Nat) (bytes : List UInt8),
    answers count (stream bytes) =
      (List.range count).map fun k => (byteLines bytes)[k]?.bind lineText?
  | 0, _ => rfl
  | count + 1, bytes => by
    obtain ⟨first, rest, behind, tail⟩ := next_stream_bytes bytes
    refine answers_succ first ?_
    rw [behind, answers_stream_bytes count rest, tail]
    simp only [List.getElem?_tail]

/-- Once a request has been answered by no line, all later ones are. -/
def StaysExhausted (input : Input) : Prop :=
  ∀ (count k j : Nat) (answer : Option String), k ≤ j → (input.answers count)[k]? = some none →
    (input.answers count)[j]? = some answer → answer = none

theorem staysExhausted_iff_of_answers {input : Input} {f : Nat → Option String}
    (h : ∀ count, input.answers count = (List.range count).map f) :
    input.StaysExhausted ↔ ∀ k j, k ≤ j → f k = none → f j = none := by
  have get (count k : Nat) (answer : Option String) :
      (input.answers count)[k]? = some answer ↔ k < count ∧ f k = answer := by
    rw [h, List.getElem?_map, Option.map_eq_some_iff]
    simp only [List.getElem?_eq_some_iff, List.length_range, List.getElem_range]
    constructor
    · rintro ⟨_, ⟨lt, rfl⟩, same⟩
      exact ⟨lt, same⟩
    · rintro ⟨lt, same⟩
      exact ⟨k, ⟨lt, rfl⟩, same⟩
  simp only [StaysExhausted, get]
  constructor
  · intro stays k j le none
    exact stays (j + 1) k j (f j) le ⟨by omega, none⟩ ⟨by omega, rfl⟩
  · rintro stays count k j _ le ⟨-, none⟩ ⟨-, rfl⟩
    exact stays k j le none

/-- Behind the end of a list there is nothing. -/
theorem staysExhausted_of_list {input : Input} {ls : List String}
    (h : ∀ count, input.answers count = (List.range count).map (ls[·]?)) :
    input.StaysExhausted := by
  refine (staysExhausted_iff_of_answers h).mpr fun k j le none => ?_
  rw [List.getElem?_eq_none_iff] at none ⊢
  omega

theorem staysExhausted_stream_iff {bytes : List UInt8} : (stream bytes).StaysExhausted ↔
    (byteLines bytes).Pairwise fun l l' => decode? l = none → decode? l' = none := by
  rw [staysExhausted_iff_of_answers fun count => answers_stream_bytes count bytes,
    List.pairwise_iff_getElem]
  generalize byteLines bytes = ls
  constructor
  · intro stays k j hk hj lt
    have later := stays k j lt.le
    simpa only [List.getElem?_eq_getElem, hk, hj, Option.bind_some, lineText?_eq_none_iff]
      using later
  · intro pairs k j le none
    by_cases hj : j < ls.length
    · have hk : k < ls.length := by omega
      rw [List.getElem?_eq_getElem hk, Option.bind_some] at none
      rw [List.getElem?_eq_getElem hj, Option.bind_some]
      rcases Nat.eq_or_lt_of_le le with rfl | lt
      · exact none
      · exact lineText?_eq_none_iff.mpr (pairs k j hk hj lt (lineText?_eq_none_iff.mp none))
    · rw [List.getElem?_eq_none (by omega), Option.bind_none]

/-- Lines that are known in advance stay exhausted. A stream gives its lines one after the other,
none of them twice and none left out, with no line in the place of each that is not UTF-8 and from
the last of them on. So it stays exhausted exactly if behind a line that is not UTF-8 there is none
that is, in particular if it holds a text. -/
theorem staysExhausted_iff (ls : List String) (bytes : List UInt8) (text : String) :
    (lines ls).StaysExhausted ∧
    (byteLines bytes).flatten = bytes ∧
    (∀ count, (stream bytes).answers count =
      (List.range count).map fun k => (byteLines bytes)[k]?.bind lineText?) ∧
    ((stream bytes).StaysExhausted ↔
      (byteLines bytes).Pairwise fun l l' => decode? l = none → decode? l' = none) ∧
    (stream (encode text)).StaysExhausted := by
  have preloaded := staysExhausted_of_list fun count => answers_lines count ls
  have written (count : Nat) := answers_stream count text.toList
  rw [String.ofList_toList] at written
  exact ⟨preloaded, flatten_byteLines bytes, fun count => answers_stream_bytes count bytes,
    staysExhausted_stream_iff, staysExhausted_of_list written⟩

/-- No line does not mean that nothing is left : the first line is not UTF-8, the second one is. -/
theorem not_staysExhausted : ¬ ∀ input : Input, input.StaysExhausted := by
  intro stays
  have first : ((stream [0xFF, 0x0A, 0x61, 0x0A]).answers 2)[0]? = some none := by decide
  have second : ((stream [0xFF, 0x0A, 0x61, 0x0A]).answers 2)[1]? = some (some "a") := by decide
  cases stays _ 2 0 1 _ (by decide) first second

end Ippcode.Input
