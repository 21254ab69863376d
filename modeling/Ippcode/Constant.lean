import Ippcode.Numeral.HexFloat
import Ippcode.Text.Escape
import Ippcode.Value

/-!
# Constants

A constant of a source text is a type, an at sign and a payload. `Value.ofPayload` reads the
payload at its type and says what is wrong with one that cannot be read; `Value.payload` writes
it, and `Value.constant` writes the whole constant.
-/

namespace Ippcode

/-! ## What can be wrong with a constant -/

/-- Why a text is not a constant. Each cause holds the offending text. -/
inductive ConstantError where
  | int (text : String)
  | float (text : String)
  | bool (text : String)
  | nil (text : String)
  | escape (text : String)
  | unknownType (name : String)
  deriving DecidableEq, Repr

/-- The text of the error. -/
def ConstantError.message : ConstantError → String
  | int text => s!"invalid int literal '{text}'"
  | float text => s!"invalid float literal '{text}'"
  | bool text => s!"invalid bool literal '{text}'"
  | nil text => s!"invalid nil literal '{text}'"
  | escape text => s!"invalid escape sequence in '{text}'"
  | unknownType name => s!"unknown type name '{name}'"

/-! ## Reading -/

/-- The value that a payload writes at a type. -/
def Value.ofPayload (ty : Ty) (payload : String) : Except ConstantError Value :=
  match ty with
  | .int =>
    match Numeral.ofLiteral? payload.toList with
    | some n => .ok (.int n)
    | none => .error (.int payload)
  | .float =>
    match Numeral.float? payload.toList with
    | some x => .ok (.float x)
    | none => .error (.float payload)
  | .bool =>
    if payload = "true" then .ok (.bool true)
    else if payload = "false" then .ok (.bool false)
    else .error (.bool payload)
  | .string =>
    match Text.Escape.decode? payload.toList with
    | some cs => .ok (.string (String.ofList cs))
    | none => .error (.escape payload)
  | .nil => if payload = "nil" then .ok .nil else .error (.nil payload)

/-- The type with this name. -/
def Ty.ofName (text : String) : Except ConstantError Ty :=
  match Ty.ofName? text with
  | some ty => .ok ty
  | none => .error (.unknownType text)

/-- The value that a type name and a payload write. An unknown type comes before a bad
payload. -/
def Value.ofConstant (typeName payload : String) : Except ConstantError Value :=
  match Ty.ofName typeName with
  | .ok ty => Value.ofPayload ty payload
  | .error e => .error e

theorem Value.ty_of_ofPayload {ty : Ty} {payload : String} {v : Value}
    (h : Value.ofPayload ty payload = .ok v) : v.ty = ty := by
  unfold ofPayload at h
  split at h <;> split at h <;> (try split at h) <;> cases h <;> rfl

/-! ## Writing -/

/-- The payload of a value. -/
def Value.payload : Value → String
  | .string s => String.ofList (Text.Escape.encode s.toList)
  | .nil => "nil"
  | v => v.text

/-- A value as a constant. -/
def Value.constant (v : Value) : String := v.ty.name ++ "@" ++ v.payload

end Ippcode
