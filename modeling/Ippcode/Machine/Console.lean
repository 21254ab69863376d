import Ippcode.Machine.Fault
import Ippcode.Text.Line
import Ippcode.Text.Utf8

/-!
# Streams

A running program reads lines from one stream, prints to a second and shows its state on a
third.

Input is either cut into lines before the program starts, or taken off a stream of bytes line
by line. On such a stream a line that is not UTF-8 is consumed and cannot be read; the lines
behind it can.

An output stream may have room for only so many bytes. It takes what fits of a text that is too
long, and refuses what does not; it never refuses the empty text.
-/

namespace Ippcode

/-! ## Input -/

/-- Where a program reads its lines. -/
inductive Input where
  /-- Lines that are known in advance. -/
  | lines (rest : List String)
  /-- Bytes that are read as they are asked for. -/
  | stream (rest : List UInt8)
  deriving DecidableEq

namespace Input

/-- The lines of a text. -/
def ofText (text : String) : Input := lines ((Text.lines text.toList).map String.ofList)

/-- The next line without its end, if it can be read, and the input behind it. -/
def next : Input → Option String × Input
  | lines [] => (none, lines [])
  | lines (l :: ls) => (some l, lines ls)
  | stream rest =>
    let (line, rest) := Text.cutLine rest
    let line := if line.isEmpty then none else Text.decode? line
    (line.map fun text => String.ofList (Text.withoutEnd text.toList), stream rest)

end Input

/-! ## Output -/

/-- What an output stream has taken, and what it can still do. -/
structure Output where
  /-- The bytes that the stream has taken, the latest first. -/
  latest : List UInt8
  /-- How many more bytes the stream takes, if that is limited. -/
  room : Option Nat
  canFlush : Bool
  deriving DecidableEq

namespace Output

/-- A stream that takes everything. -/
def unlimited : Output := ⟨[], none, true⟩

/-- The bytes that a stream has taken. -/
def accepted (o : Output) : List UInt8 := o.latest.reverse

/-- The text that a stream has taken. A last character that was cut short is replaced. -/
def text (o : Output) : String := Text.decodeReplacing o.accepted

/-- The bytes of which a stream has room. -/
def fitting (o : Output) (bytes : List UInt8) : List UInt8 :=
  match o.room with
  | none => bytes
  | some room => bytes.take room

/-- Sends bytes to a stream. -/
def write (o : Output) (bytes : List UInt8) : Except StreamError Unit × Output :=
  let taken := o.fitting bytes
  (if taken.length = bytes.length then .ok () else .error .closed,
    { o with latest := taken.reverse ++ o.latest, room := o.room.map (· - taken.length) })

/-- Waits until a stream has passed on what it has taken. -/
def flush (o : Output) : Except StreamError Unit :=
  if o.canFlush then .ok () else .error .flushFailed

theorem accepted_write (o : Output) (bytes : List UInt8) :
    (o.write bytes).2.accepted = o.accepted ++ o.fitting bytes := by
  simp [write, accepted]

theorem write_nil (o : Output) : o.write [] = (.ok (), o) := by
  obtain ⟨latest, room, canFlush⟩ := o
  cases room <;> simp [write, fitting]

end Output

/-! ## All streams -/

/-- The streams of a running program. -/
structure Console where
  input : Input
  output : Output
  diagnostic : Output
  deriving DecidableEq

/-! ## Lines as values -/

/-- The value that a line of input stands for at a type : `nil` if it does not stand for one. A
string is taken as it is written, anything else without the blanks around it. A line is true if
it says so in letters of any case, and false otherwise. -/
def Value.ofLine (ty : Ty) (line : String) : Value :=
  let trimmed := Text.trim line.toList
  match ty with
  | .int => ((Numeral.ofLine? trimmed).map Value.int).getD .nil
  | .float => ((Numeral.float? trimmed).map Value.float).getD .nil
  | .bool => .bool (Text.sameIgnoringCase trimmed "true".toList)
  | .string =>
    ((Text.Escape.decode? line.toList).map fun cs => Value.string (String.ofList cs)).getD .nil
  | .nil => .nil

end Ippcode
