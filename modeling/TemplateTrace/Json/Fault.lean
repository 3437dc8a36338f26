import TemplateTrace.Json.NumberText
import TemplateTrace.Json.SyntaxFault
import TemplateTrace.Text.Quoted
set_option autoImplicit false

/-!
# Faults of decoding

Why a text does not decode as a value of some type: it is not JSON, or it is JSON of another shape.
Faults are causes; `Fault.message` words them.
-/

namespace TemplateTrace.Json

open TemplateTrace.Decimal

/-- What was found where something else was wanted. -/
inductive Found where
  | null
  | bool (b : Bool)
  | number (n : Number)
  | string (s : String)
  | sequence
  | map
  deriving DecidableEq, Repr, Inhabited

/-- How a message names what was found. -/
def Found.describe : Found → String
  | .null => "null"
  | .bool b => s!"boolean `{b}`"
  | .number (.integer n) => s!"integer `{n}`"
  | .number (.float x) => "floating point `" ++ NumberText.render (.float x) ++ "`"
  | .string s => "string " ++ Text.quote s
  | .sequence => "sequence"
  | .map => "map"

/-- Why a text or a value does not decode. -/
inductive Fault where
  | malformed (fault : SyntaxFault)
  | missingField (name : String)
  | duplicateField (name : String)
  /-- a name that is none of the known ones -/
  | unknownVariant (name : String) (known : List String)
  /-- a value of another type than the wanted one -/
  | invalidType (found : Found) (wanted : String)
  /-- a value of the wanted type that is out of range -/
  | invalidValue (found : Found) (wanted : String)
  /-- too few or too many items -/
  | invalidLength (length : Nat) (wanted : String)
  deriving DecidableEq, Repr, Inhabited

/-- The known names, as a message lists them. -/
def listNames (names : List String) : String :=
  match names.map fun n => s!"`{n}`" with
  | [] => "nothing"
  | [a] => a
  | [a, b] => a ++ " or " ++ b
  | many => "one of " ++ ", ".intercalate many

/-- The wording of a fault. -/
def Fault.message : Fault → String
  | .malformed fault => fault.message
  | .missingField name => s!"missing field `{name}`"
  | .duplicateField name => s!"duplicate field `{name}`"
  | .unknownVariant name known => s!"unknown variant `{name}`, expected " ++ listNames known
  | .invalidType found wanted => "invalid type: " ++ found.describe ++ ", expected " ++ wanted
  | .invalidValue found wanted => "invalid value: " ++ found.describe ++ ", expected " ++ wanted
  | .invalidLength length wanted => s!"invalid length {length}, expected {wanted}"

end TemplateTrace.Json
