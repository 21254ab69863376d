/-!
# Characters of XML documents

Which characters a document may hold at all, which ones separate its parts, and which ones
names are made of. The names follow the fifth edition of XML 1.0, given by ranges of codes.
-/

namespace Ippcode.Xml

/-- Whether a code lies in one of the ranges, both ends included. -/
def inRanges (ranges : List (Nat × Nat)) (c : Char) : Bool :=
  ranges.any fun range => range.1 ≤ c.toNat && c.toNat ≤ range.2

/-- White space : space, tab, line feed and carriage return. -/
def isSpace (c : Char) : Bool := c == ' ' || c == '\t' || c == '\n' || c == '\r'

/-- Whether a document may hold this character. -/
def isAllowed (c : Char) : Bool :=
  if c.toNat < 0x20 then isSpace c else c.toNat != 0xFFFE && c.toNat != 0xFFFF

/-- The byte order mark, which a document may begin with. -/
def byteOrderMark : Char := '\uFEFF'

/-- The characters beyond ASCII that a name may begin with. -/
def nameStartRanges : List (Nat × Nat) :=
  [(0xC0, 0xD6), (0xD8, 0xF6), (0xF8, 0x2FF), (0x370, 0x37D), (0x37F, 0x1FFF), (0x200C, 0x200D),
    (0x2070, 0x218F), (0x2C00, 0x2FEF), (0x3001, 0xD7FF), (0xF900, 0xFDCF), (0xFDF0, 0xFFFD),
    (0x10000, 0xEFFFF)]

/-- The further characters beyond ASCII that a name may go on with. -/
def nameRanges : List (Nat × Nat) := [(0xB7, 0xB7), (0x300, 0x36F), (0x203F, 0x2040)]

/-- Whether a name may begin with this character. -/
def isNameStart (c : Char) : Bool :=
  c.isAlpha || c == '_' || c == ':' || inRanges nameStartRanges c

/-- Whether a name may go on with this character. -/
def isNameChar (c : Char) : Bool :=
  isNameStart c || c.isDigit || c == '-' || c == '.' || inRanges nameRanges c

end Ippcode.Xml
