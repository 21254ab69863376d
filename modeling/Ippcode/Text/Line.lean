/-!
# Lines

A line ends at a line feed. A carriage return directly before that line feed belongs to
the end of the line, any other carriage return is an ordinary character, and the text after
the last line feed is a line only if there is some.

`lines` cuts a whole text. `cutLine` takes the first line off a sequence of bytes, its end
included, for a source that is read as it arrives; `withoutEnd` then removes the end. A
line taken off is never longer than what was there, and something is taken whenever there
is something (`cutLine_append`, `cutLine_fst_ne_nil`).
-/

namespace Ippcode.Text

/-! ## A whole text -/

/-- The lines of a text, without their ends. -/
def lines : List Char → List (List Char)
  | [] => []
  | '\r' :: '\n' :: cs => [] :: lines cs
  | '\n' :: cs => [] :: lines cs
  | c :: cs =>
    match lines cs with
    | [] => [[c]]
    | l :: ls => (c :: l) :: ls

/-- The line without the line feed that ends it, and without the carriage return before it. -/
def withoutEnd (line : List Char) : List Char :=
  match line.reverse with
  | '\n' :: '\r' :: rest => rest.reverse
  | '\n' :: rest => rest.reverse
  | _ => line

/-! ## A sequence of bytes -/

/-- The first line of a sequence of bytes, its end included, and the bytes after it. -/
def cutLine : List UInt8 → List UInt8 × List UInt8
  | [] => ([], [])
  | b :: bs => if b = 0x0A then ([b], bs) else (b :: (cutLine bs).1, (cutLine bs).2)

theorem cutLine_append : ∀ bs : List UInt8, (cutLine bs).1 ++ (cutLine bs).2 = bs
  | [] => rfl
  | b :: bs => by
    unfold cutLine
    split
    · rfl
    · simp [cutLine_append bs]

theorem cutLine_fst_ne_nil {bs : List UInt8} (h : bs ≠ []) : (cutLine bs).1 ≠ [] := by
  cases bs with
  | nil => exact absurd rfl h
  | cons b bs => unfold cutLine; split <;> simp

end Ippcode.Text
