set_option autoImplicit false

/-!
# Faults of JSON text

What can be wrong with a text as JSON, before any question of what it should hold.
-/

namespace TemplateTrace.Json

/-- Why a text is not JSON. -/
inductive SyntaxFault where
  /-- the text ends where a value should start, or inside a number or a word -/
  | endInValue
  /-- the text ends inside an array -/
  | endInArray
  /-- the text ends inside a string -/
  | endInString
  /-- the text ends inside an object -/
  | endInObject
  /-- something stands where a value should start -/
  | noValue
  /-- a word that starts like `true`, `false` or `null` goes on otherwise -/
  | misspeltWord
  /-- no colon follows a member name -/
  | noColon
  /-- neither a comma nor the closing brace follows a member -/
  | noCommaOrBrace
  /-- neither a comma nor the closing bracket follows an item -/
  | noCommaOrBracket
  /-- a member name is not a string -/
  | nameNotString
  /-- a comma stands right before a closing bracket or brace -/
  | trailingComma
  /-- something follows the value -/
  | trailingText
  /-- the digits of a number are incomplete or badly placed -/
  | badNumber
  /-- a number is beyond all floats -/
  | numberOutOfRange
  /-- an unknown escape, or one with characters that are no hexadecimal digits -/
  | badEscape
  /-- an escaped surrogate without its partner -/
  | loneSurrogate
  /-- an escaped leading surrogate followed by something other than an escape of its kind -/
  | brokenPair
  /-- a control character stands unescaped in a string -/
  | controlCharacter
  /-- more arrays and objects lie inside one another than are read -/
  | tooDeep
  deriving DecidableEq, Repr, Inhabited

/-- The wording of a fault. -/
def SyntaxFault.message : SyntaxFault → String
  | .endInValue => "EOF while parsing a value"
  | .endInArray => "EOF while parsing a list"
  | .endInString => "EOF while parsing a string"
  | .endInObject => "EOF while parsing an object"
  | .noValue => "expected value"
  | .misspeltWord => "expected ident"
  | .noColon => "expected `:`"
  | .noCommaOrBrace => "expected `,` or `\x7d`"
  | .noCommaOrBracket => "expected `,` or `]`"
  | .nameNotString => "key must be a string"
  | .trailingComma => "trailing comma"
  | .trailingText => "trailing characters"
  | .badNumber => "invalid number"
  | .numberOutOfRange => "number out of range"
  | .badEscape => "invalid escape"
  | .loneSurrogate => "lone leading surrogate in hex escape"
  | .brokenPair => "unexpected end of hex escape"
  | .controlCharacter => "control character (\\u0000-\\u001F) found while parsing a string"
  | .tooDeep => "recursion limit exceeded"

end TemplateTrace.Json
