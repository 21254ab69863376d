import Ippcode.Machine.Console
import Ippcode.Proofs.Text.Token

/-!
# Lines of a stream

The bytes of a text, read line by line, give the lines of the text. A line feed is a byte that no
other character has in it (`not_mem_utf8EncodeChar`), so bytes are cut where the text is cut
(`cutLine_encode`), and each piece holds a text (`decode?_encode`). What is taken off the end of a
piece is what the lines of a text leave out there (`lines_append_lineFeed`).

`Input.answers` are the answers to so many requests for a line. Both kinds of input give the lines
one after the other, and nothing from then on (`answers_ofText`, `answers_stream`).
-/

namespace Ippcode.Text

/-! ## Bytes of characters -/

theorem encode_ofList (cs : List Char) :
    encode (String.ofList cs) = cs.flatMap String.utf8EncodeChar := by
  rw [encode, String.toUTF8_eq_toByteArray, String.toByteArray_ofList, List.utf8Encode]
  simp

theorem encode_append (s t : String) : encode (s ++ t) = encode s ++ encode t := by
  rw [String.congr_append, encode_ofList, List.flatMap_append, ← encode_ofList, ← encode_ofList,
    String.ofList_toList, String.ofList_toList]

theorem encode_ne_nil {cs : List Char} (h : cs ≠ []) : encode (String.ofList cs) ≠ [] := by
  obtain ⟨c, rest, rfl⟩ := List.exists_cons_of_ne_nil h
  rw [encode_ofList, List.flatMap_cons]
  exact List.append_ne_nil_of_left_ne_nil String.utf8EncodeChar_ne_nil _

theorem decode?_encode (text : String) : decode? (encode text) = some text := by
  have bytes : (encode text).toByteArray = text.toByteArray := by
    rw [encode, String.toUTF8_eq_toByteArray]
    exact ByteArray.ext (by simp)
  unfold decode? String.fromUTF8?
  rw [bytes, dif_pos text.isValidUTF8]
  rfl

theorem lineFeed_ne_ofNat {n : Nat} (small : n < 256) (other : n ≠ 10) :
    (0x0A : UInt8) ≠ UInt8.ofNat n := by
  intro same
  have values := congrArg UInt8.toNat same
  rw [UInt8.toNat_ofNat_of_lt' small] at values
  exact other values.symm

/-- A line feed is not a part of another character. -/
theorem not_mem_utf8EncodeChar {c : Char} (h : c ≠ '\n') :
    (0x0A : UInt8) ∉ String.utf8EncodeChar c := by
  have other : c.val.toNat ≠ 10 := fun same => h (Char.ext (UInt32.toNat_inj.mp same))
  have high (n : Nat) (least : 128 ≤ n) (small : n < 256) : (0x0A : UInt8) ≠ UInt8.ofNat n :=
    lineFeed_ne_ofNat small (by omega)
  unfold String.utf8EncodeChar
  simp only
  split
  · exact List.not_mem_cons_of_ne_of_not_mem (lineFeed_ne_ofNat (by omega) other) List.not_mem_nil
  · -- All bytes of a longer character are at least `0x80`.
    split_ifs <;>
    · simp only [List.mem_cons, List.not_mem_nil, or_false, not_or]
      and_intros <;> exact high _ (by omega) (by omega)

/-- Bytes without a line feed belong to the first line. -/
theorem cutLine_append_left : ∀ {bytes : List UInt8} (rest : List UInt8), 0x0A ∉ bytes →
    cutLine (bytes ++ rest) = (bytes ++ (cutLine rest).1, (cutLine rest).2)
  | [], _, _ => rfl
  | b :: bytes, rest, h => by
    have plain : b ≠ 0x0A := (List.ne_of_not_mem_cons h).symm
    have ih := cutLine_append_left rest (List.not_mem_of_not_mem_cons h)
    rw [List.cons_append, cutLine, if_neg plain, ih]
    rfl

/-- The bytes of a text without line feeds are no line feeds. -/
theorem not_mem_encode {l : List Char} (h : '\n' ∉ l) : 0x0A ∉ encode (String.ofList l) := by
  rw [encode_ofList]
  intro mem
  obtain ⟨c, hc, hb⟩ := List.mem_flatMap.mp mem
  exact not_mem_utf8EncodeChar (fun same => h (same ▸ hc)) hb

/-- The first line of a text in bytes. -/
theorem cutLine_encode {l : List Char} (rest : List Char) (h : '\n' ∉ l) :
    cutLine (encode (String.ofList (l ++ '\n' :: rest))) =
      (encode (String.ofList (l ++ ['\n'])), encode (String.ofList rest)) := by
  have split (k : List Char) : encode (String.ofList (l ++ '\n' :: k)) =
      encode (String.ofList l) ++ 0x0A :: encode (String.ofList k) := by
    simp only [encode_ofList, List.flatMap_append, List.flatMap_cons]
    rfl
  rw [split, split, cutLine_append_left _ (not_mem_encode h), cutLine, if_pos rfl]
  rfl

/-- A text without line feeds is one line. -/
theorem cutLine_encode_last {l : List Char} (h : '\n' ∉ l) :
    cutLine (encode (String.ofList l)) = (encode (String.ofList l), []) := by
  have whole := cutLine_append_left [] (not_mem_encode h)
  simpa [cutLine] using whole

/-! ## Lines of a text -/

theorem withoutEnd_of_plain {l : List Char} (h : '\n' ∉ l) : withoutEnd l = l := by
  unfold withoutEnd
  split
  · next cs e => exact absurd (List.mem_reverse.mp (e ▸ List.mem_cons_self)) h
  · next cs e => exact absurd (List.mem_reverse.mp (e ▸ List.mem_cons_self)) h
  · rfl

theorem withoutEnd_concat (k : List Char) (c : Char) :
    withoutEnd (k ++ [c] ++ ['\n']) = if c = '\r' then k else k ++ [c] := by
  unfold withoutEnd
  rw [List.reverse_append, List.reverse_append]
  split_ifs with h
  · simp [h]
  · simp only [List.reverse_singleton, List.cons_append, List.nil_append]
    split
    · next e => simp_all
    · next e => simp_all
    · next e => simp_all

/-- What is taken off the end does not depend on the beginning. -/
theorem withoutEnd_cons (c : Char) {l : List Char} (h : l ≠ []) :
    withoutEnd (c :: (l ++ ['\n'])) = c :: withoutEnd (l ++ ['\n']) := by
  obtain ⟨k, d, rfl⟩ := (List.eq_nil_or_concat' l).resolve_left h
  have shorter := withoutEnd_concat k d
  have longer := withoutEnd_concat (c :: k) d
  rw [List.cons_append, List.cons_append] at longer
  rw [longer, shorter]
  split_ifs <;> rfl

/-- A character that does not end a line belongs to the first one. -/
theorem lines_cons_of_plain {c : Char} {cs l : List Char} {ls : List (List Char)} (hn : c ≠ '\n')
    (hr : c = '\r' → ∀ rest, cs ≠ '\n' :: rest) (rest : lines cs = l :: ls) :
    lines (c :: cs) = (c :: l) :: ls := by
  rw [lines.eq_4 c cs (fun k h e => hr h k e) hn, rest]

theorem lines_of_plain {l : List Char} (plain : '\n' ∉ l) (some : l ≠ []) : lines l = [l] := by
  induction l with
  | nil => exact absurd rfl some
  | cons c l ih =>
    obtain ⟨hc, others⟩ := List.ne_and_not_mem_of_not_mem_cons plain
    cases l with
    | nil => exact lines.eq_4 c [] (fun rest _ e => List.cons_ne_nil _ rest e.symm) hc.symm
    | cons d l =>
      have hd := List.ne_of_not_mem_cons others
      exact lines_cons_of_plain hc.symm (fun _ rest e => hd (List.cons.inj e).1.symm)
        (ih others (List.cons_ne_nil d l))

/-- A line ends where a line feed follows, and without the carriage return before it. -/
theorem lines_append_lineFeed : ∀ {l : List Char} (rest : List Char), '\n' ∉ l →
    lines (l ++ '\n' :: rest) = withoutEnd (l ++ ['\n']) :: lines rest
  | [], _, _ => rfl
  | [c], rest, h => by
    have hc := (List.ne_of_not_mem_cons h).symm
    by_cases hr : c = '\r'
    · subst hr
      rfl
    · have bare : withoutEnd [c, '\n'] = [c] := (withoutEnd_concat [] c).trans (if_neg hr)
      change lines (c :: '\n' :: rest) = withoutEnd [c, '\n'] :: lines rest
      rw [bare]
      exact lines_cons_of_plain hc (fun same => absurd same hr) rfl
  | c :: d :: l, rest, h => by
    obtain ⟨hc, others⟩ := List.ne_and_not_mem_of_not_mem_cons h
    have hd := List.ne_of_not_mem_cons others
    have ih := lines_append_lineFeed rest others
    have longer := withoutEnd_cons c (List.cons_ne_nil d l)
    change lines (c :: (d :: l ++ '\n' :: rest)) =
      withoutEnd (c :: (d :: l ++ ['\n'])) :: lines rest
    rw [longer]
    exact lines_cons_of_plain hc.symm (fun _ k e => hd (List.cons.inj e).1.symm) ih

end Ippcode.Text

namespace Ippcode.Input

open Ippcode.Text

/-! ## Answers -/

/-- The answers to so many requests for a line. -/
def answers : Nat → Input → List (Option String)
  | 0, _ => []
  | count + 1, input => input.next.1 :: answers count input.next.2

/-- The first answer and all others. -/
theorem answers_succ {count : Nat} {input : Input} {f : Nat → Option String}
    (first : input.next.1 = f 0)
    (rest : answers count input.next.2 = (List.range count).map fun k => f (k + 1)) :
    answers (count + 1) input = (List.range (count + 1)).map f := by
  rw [answers, first, rest, List.range_succ_eq_map, List.map_cons, List.map_map]
  rfl

theorem answers_lines : ∀ (count : Nat) (ls : List String),
    answers count (lines ls) = (List.range count).map (ls[·]?)
  | 0, _ => rfl
  | count + 1, [] => answers_succ rfl (answers_lines count [])
  | count + 1, _ :: ls => answers_succ rfl (answers_lines count ls)

/-- If the bytes of a first line are those of a text, then this is the line. -/
theorem next_stream {bytes rest : List UInt8} {l : List Char} (h : l ≠ [])
    (cut : cutLine bytes = (encode (String.ofList l), rest)) :
    (stream bytes).next = (some (String.ofList (withoutEnd l)), stream rest) := by
  have some_bytes : (encode (String.ofList l)).isEmpty = false :=
    List.isEmpty_eq_false_iff.mpr (encode_ne_nil h)
  simp only [next, cut, some_bytes, decode?_encode, Bool.false_eq_true, if_false, Option.map_some,
    String.toList_ofList]

/-- A request for a line takes the first line of a text off its bytes. -/
theorem next_stream_encode (cs : List Char) :
    ∃ rest, Text.lines rest = (Text.lines cs).tail ∧
      (stream (encode (String.ofList cs))).next =
        ((Text.lines cs).head?.map String.ofList, stream (encode (String.ofList rest))) := by
  by_cases ends : '\n' ∈ cs
  · obtain ⟨l, rest, rfl, plain⟩ := List.eq_append_cons_of_mem ends
    rw [lines_append_lineFeed rest plain]
    exact ⟨rest, rfl, next_stream (List.append_ne_nil_of_right_ne_nil l (List.cons_ne_nil _ _))
      (cutLine_encode rest plain)⟩
  · refine ⟨[], ?_⟩
    by_cases empty : cs = []
    · subst empty
      exact ⟨rfl, rfl⟩
    · rw [lines_of_plain ends empty]
      have taken := next_stream empty (cutLine_encode_last ends)
      rw [withoutEnd_of_plain ends] at taken
      exact ⟨rfl, taken⟩

theorem answers_stream : ∀ (count : Nat) (cs : List Char),
    answers count (stream (encode (String.ofList cs))) =
      (List.range count).map (((Text.lines cs).map String.ofList)[·]?)
  | 0, _ => rfl
  | count + 1, cs => by
    obtain ⟨rest, tail, taken⟩ := next_stream_encode cs
    refine answers_succ ?_ ?_
    · rw [taken, List.getElem?_map, List.head?_eq_getElem?]
    · rw [taken, answers_stream count rest, tail, List.map_tail]
      simp only [List.getElem?_tail]

end Ippcode.Input
