import TemplateTrace.Decimal.Reading
set_option autoImplicit false

/-!
# JSON values

A value keeps the members of an object in the order in which they were written, repeated names
included.  Numbers are integers of at most 64 bits or floats.
-/

namespace TemplateTrace

open Decimal (Number)

/-- A JSON value. -/
inductive Json where
  | null
  | bool (b : Bool)
  | number (n : Number)
  | string (s : String)
  | array (items : List Json)
  | object (members : List (String × Json))
  deriving Repr, Inhabited

namespace Json

/-- An integer as a value. -/
def int (n : Int) : Json := .number (.integer n)

/-- A natural number as a value. -/
def nat (n : Nat) : Json := .number (.integer n)

/-- A float as a value. -/
def float (x : Float) : Json := .number (.float x)

/-- A value that may be absent, which is written `null`. -/
def ofOption {α : Type} (encode : α → Json) : Option α → Json
  | none => .null
  | some a => encode a

/-- The value of the first member of that name. -/
def member? (name : String) : Json → Option Json
  | .object members => members.lookup name
  | _ => none

end Json

end TemplateTrace
