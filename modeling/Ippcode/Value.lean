import Ippcode.Numeral.FloatText

/-!
# Values and their types

A value has one of five types. `nil` is the only value of its type, and stands for what
is missing : a line that could not be read, a conversion of input that failed.

`Value.text` is what a program prints for a value. Two values are the same number or the same
text exactly if `Value.same` says so, which differs from equality on doubles : a NaN is not the
same as itself, and the two zeros are the same.
-/

namespace Ippcode

/-! ## Types -/

/-- The type of a value. -/
inductive Ty where
  | int
  | float
  | bool
  | string
  | nil
  deriving DecidableEq, Repr

namespace Ty

/-- All types. -/
def all : List Ty := [int, float, bool, string, nil]

/-- The name of a type in a source text, and what a program gets when it asks for a type. -/
def name : Ty → String
  | int => "int"
  | float => "float"
  | bool => "bool"
  | string => "string"
  | nil => "nil"

/-- The type with this name, in lower case. -/
def ofName? (text : String) : Option Ty := all.find? fun ty => ty.name == text

/-- Whether input can be read at this type : there is nothing to read for `nil`. -/
def isReadable (ty : Ty) : Bool := ty != nil

theorem ofName?_name (ty : Ty) : ofName? ty.name = some ty := by cases ty <;> decide

theorem name_of_ofName? {text : String} {ty : Ty} (h : ofName? text = some ty) :
    ty.name = text := by
  simpa using List.find?_some h

end Ty

/-! ## Values -/

/-- A value of a running program. Strings are sequences of Unicode scalar values. -/
inductive Value where
  | int (n : Int64)
  | float (x : Float)
  | bool (b : Bool)
  | string (s : String)
  | nil
  deriving DecidableEq

namespace Value

/-- The type of a value. -/
def ty : Value → Ty
  | int _ => .int
  | float _ => .float
  | bool _ => .bool
  | string _ => .string
  | nil => .nil

/-- What a program prints for a value : nothing for `nil`. -/
def text : Value → String
  | int n => String.ofList (Numeral.ofInt n.toInt)
  | float x => Numeral.floatText .source x
  | bool b => if b then "true" else "false"
  | string s => s
  | nil => ""

/-- Whether two values have one type and are the same there. -/
def same : Value → Value → Bool
  | int m, int n => m == n
  | float x, float y => Binary64.equal x y
  | bool a, bool b => a == b
  | string s, string t => s == t
  | nil, nil => true
  | _, _ => false

end Value

end Ippcode
