import TemplateTrace.Json.Basic
import TemplateTrace.Json.NumberText
import TemplateTrace.Json.StringText
set_option autoImplicit false

/-!
# Writing JSON values

A value is written in compact form, without blanks, or laid out over lines with two blanks for each
level.  Empty arrays and objects stay on one line in both.
-/

namespace TemplateTrace.Json

/-- A written string. -/
def quoted (s : String) : String :=
  String.ofList (StringText.escape s.toList)

/-! ## Compact form -/

mutual

/-- The compact text of a value. -/
def compact : Json → String
  | .null => "null"
  | .bool b => toString b
  | .number n => NumberText.render n
  | .string s => quoted s
  | .array values => "[" ++ compactItems true values ++ "]"
  | .object fields => "\x7b" ++ compactMembers true fields ++ "\x7d"
termination_by structural j => j

/-- The compact text of the items of an array, a comma before each but the first. -/
def compactItems : Bool → List Json → String
  | _, [] => ""
  | first, j :: rest => (if first then "" else ",") ++ j.compact ++ compactItems false rest
termination_by structural _ values => values

/-- The compact text of the members of an object, a comma before each but the first. -/
def compactMembers : Bool → List (String × Json) → String
  | _, [] => ""
  | first, m :: rest => (if first then "" else ",") ++ compactMember m ++ compactMembers false rest
termination_by structural _ fields => fields

/-- The compact text of a member. -/
def compactMember : String × Json → String
  | (name, j) => quoted name ++ ":" ++ j.compact
termination_by structural m => m

end

/-! ## Laid out over lines -/

/-- A new line at some level. -/
def newLine (level : Nat) : String :=
  String.ofList ('\n' :: List.replicate (2 * level) ' ')

mutual

/-- The text of a value that starts within a line of some level. -/
def prettyAt : Nat → Json → String
  | _, .null => "null"
  | _, .bool b => toString b
  | _, .number n => NumberText.render n
  | _, .string s => quoted s
  | _, .array [] => "[]"
  | level, .array (j :: rest) =>
      "[" ++ newLine (level + 1) ++ prettyAt (level + 1) j ++ prettyItems (level + 1) rest
        ++ newLine level ++ "]"
  | _, .object [] => "\x7b\x7d"
  | level, .object (m :: rest) =>
      "\x7b" ++ newLine (level + 1) ++ prettyMember (level + 1) m ++ prettyMembers (level + 1) rest
        ++ newLine level ++ "\x7d"
termination_by structural _ j => j

/-- The items after the first one, each on a line of the level. -/
def prettyItems : Nat → List Json → String
  | _, [] => ""
  | level, j :: rest => "," ++ newLine level ++ prettyAt level j ++ prettyItems level rest
termination_by structural _ values => values

/-- The members after the first one, each on a line of the level. -/
def prettyMembers : Nat → List (String × Json) → String
  | _, [] => ""
  | level, m :: rest => "," ++ newLine level ++ prettyMember level m ++ prettyMembers level rest
termination_by structural _ fields => fields

/-- A member within a line of the level. -/
def prettyMember : Nat → String × Json → String
  | level, (name, j) => quoted name ++ ": " ++ prettyAt level j
termination_by structural _ m => m

end

/-- The text of a value laid out over lines. -/
def pretty (j : Json) : String :=
  prettyAt 0 j

end TemplateTrace.Json
