/-!
# Text as bytes

Texts are stored in files and sent to streams in UTF-8. `decode?` reads bytes that hold a
text and `encode` writes a text.

`decodeReplacing` reads any bytes, such as those behind a stream that stopped in the middle of a
character : each part that begins like a character and is not continued as one becomes U+FFFD.
-/

namespace Ippcode.Text

/-- The bytes of a text. -/
def encode (text : String) : List UInt8 := text.toUTF8.data.toList

/-- The text of which these are the bytes, if there is one. -/
def decode? (bytes : List UInt8) : Option String := String.fromUTF8? bytes.toByteArray

/-! ## Ill-formed text -/

/-- How a character goes on after its first byte. -/
structure Continuation where
  /-- How many bytes follow. -/
  count : Nat
  /-- The least second byte. -/
  least : UInt8
  /-- The greatest second byte. -/
  greatest : UInt8

/-- How a character with this first byte goes on, if there is such a character. -/
def continuation? (lead : UInt8) : Option Continuation :=
  if lead < 0x80 then some ⟨0, 0x80, 0xBF⟩
  else if lead < 0xC2 then none
  else if lead < 0xE0 then some ⟨1, 0x80, 0xBF⟩
  else if lead = 0xE0 then some ⟨2, 0xA0, 0xBF⟩
  else if lead = 0xED then some ⟨2, 0x80, 0x9F⟩
  else if lead < 0xF0 then some ⟨2, 0x80, 0xBF⟩
  else if lead = 0xF0 then some ⟨3, 0x90, 0xBF⟩
  else if lead < 0xF4 then some ⟨3, 0x80, 0xBF⟩
  else if lead = 0xF4 then some ⟨3, 0x80, 0x8F⟩
  else none

/-- The bytes that go on with a character, and the bytes behind them. -/
def takeContinuation : Continuation → List UInt8 → List UInt8 × List UInt8
  | ⟨count + 1, least, greatest⟩, b :: bs =>
    if least ≤ b ∧ b ≤ greatest then
      let (taken, rest) := takeContinuation ⟨count, 0x80, 0xBF⟩ bs
      (b :: taken, rest)
    else ([], b :: bs)
  | _, bs => ([], bs)

theorem length_takeContinuation_le : ∀ (c : Continuation) (bs : List UInt8),
    (takeContinuation c bs).2.length ≤ bs.length
  | ⟨0, _, _⟩, bs => by simp [takeContinuation]
  | ⟨_ + 1, _, _⟩, [] => by simp [takeContinuation]
  | ⟨count + 1, least, greatest⟩, b :: bs => by
    have h := length_takeContinuation_le ⟨count, 0x80, 0xBF⟩ bs
    unfold takeContinuation
    split <;> simp; omega

/-- The character with these bytes after its first. -/
def charOfBytes (lead : UInt8) (rest : List UInt8) : Char :=
  let high := if rest.isEmpty then lead.toNat else lead.toNat % (1 <<< (6 - rest.length))
  Char.ofNat (rest.foldl (fun n b => n * 64 + b.toNat % 64) high)

/-- The characters of bytes, with U+FFFD for each part that is none. -/
def charsReplacing : List UInt8 → List Char
  | [] => []
  | b :: bs =>
    match continuation? b with
    | none => '\uFFFD' :: charsReplacing bs
    | some c =>
      let taken := takeContinuation c bs
      have : (takeContinuation c bs).2.length < bs.length + 1 :=
        Nat.lt_succ_of_le (length_takeContinuation_le c bs)
      (if taken.1.length = c.count then charOfBytes b taken.1 else '\uFFFD')
        :: charsReplacing taken.2
termination_by bs => bs.length

/-- The text of bytes, with U+FFFD for each part that is no character. -/
def decodeReplacing (bytes : List UInt8) : String := String.ofList (charsReplacing bytes)

end Ippcode.Text
