import TemplateTrace.Json.NumberText
import TemplateTrace.Json.StringText
set_option autoImplicit false

/-!
# JSON tokens

A text falls into tokens; blanks between them are dropped.  Whether a number or a string is faulty
depends on whether its content is wanted, so these tokens carry both answers: what they hold when
it is kept, and whether they can be passed over.  A token that cannot be passed over is the last
one, since what comes after it has no meaning; the end of the list is the end of the text
otherwise.
-/

namespace TemplateTrace.Json

open TemplateTrace.Decimal

/-- The two kinds of brackets. -/
inductive Bracket where
  | square
  | curly
  deriving DecidableEq, Repr, Inhabited

/-- A number or a string as it was written: its content, and whether it can be passed over. -/
structure Lexeme (α : Type) where
  kept : Except SyntaxFault α
  skipped : Except SyntaxFault Unit
  deriving Repr

/-- A token of a JSON text. -/
inductive Token where
  | opening (b : Bracket)
  | closing (b : Bracket)
  | colon
  | comma
  | null
  | bool (b : Bool)
  | number (l : Lexeme Number)
  | string (l : Lexeme String)
  /-- a word that starts with this letter and breaks off or goes wrong -/
  | badWord (first : Char) (fault : SyntaxFault)
  /-- a character that starts no token -/
  | stray
  deriving Repr

namespace Token

/-- The four blanks that JSON allows between tokens. -/
def isSpace (c : Char) : Bool :=
  c == ' ' || c == '\n' || c == '\t' || c == '\r'

/-- The characters after an expected word, of which the first letter is read already. -/
def word : List Char → List Char → Except SyntaxFault (List Char)
  | [], rest => .ok rest
  | _ :: _, [] => .error .endInValue
  | e :: expected, c :: rest => if c = e then word expected rest else .error .misspeltWord

theorem word_rest_length {expected cs rest : List Char} (h : word expected cs = .ok rest) :
    rest.length ≤ cs.length := by
  induction expected generalizing cs with
  | nil => simp only [word, Except.ok.injEq] at h; simp [h]
  | cons e expected ih =>
    cases cs with
    | nil => simp [word] at h
    | cons c cs =>
      simp only [word] at h
      split at h
      · have := ih h
        simp only [List.length_cons]
        omega
      · simp at h

/-- The content of a written number: none when it is beyond all floats. -/
def numberLexeme (t : Numeral) : Lexeme Number :=
  { kept := match t.value? with
      | some n => .ok n
      | none => .error .numberOutOfRange
    skipped := .ok () }

/-- A number that breaks off before the given characters. -/
def brokenNumber (rest : List Char) : Lexeme Number :=
  { kept := .error (if rest.isEmpty then .endInValue else .badNumber)
    skipped := .error .badNumber }

/-- The content of a string whose opening mark is read already. -/
def stringContent (cs : List Char) : Except SyntaxFault String :=
  (StringText.read cs).map fun (content, _) => String.ofList content

/-- The tokens of a text. -/
def tokens : List Char → List Token
  | [] => []
  | c :: cs =>
      if isSpace c then tokens cs
      else if c = '\x7b' then .opening .curly :: tokens cs
      else if c = '\x7d' then .closing .curly :: tokens cs
      else if c = '[' then .opening .square :: tokens cs
      else if c = ']' then .closing .square :: tokens cs
      else if c = ':' then .colon :: tokens cs
      else if c = ',' then .comma :: tokens cs
      else if c = '"' then
        match _skipped : StringText.skipBody cs with
        | .ok rest => .string ⟨stringContent cs, .ok ()⟩ :: tokens rest
        | .error fault => [.string ⟨stringContent cs, .error fault⟩]
      else if c = 'n' then
        match _read : word ['u', 'l', 'l'] cs with
        | .ok rest => .null :: tokens rest
        | .error fault => [.badWord c fault]
      else if c = 't' then
        match _read : word ['r', 'u', 'e'] cs with
        | .ok rest => .bool true :: tokens rest
        | .error fault => [.badWord c fault]
      else if c = 'f' then
        match _read : word ['a', 'l', 's', 'e'] cs with
        | .ok rest => .bool false :: tokens rest
        | .error fault => [.badWord c fault]
      else if c = '-' ∨ c.isDigit then
        match _read : NumberText.numeral (c :: cs) with
        | .ok (t, rest) => .number (numberLexeme t) :: tokens rest
        | .error rest => [.number (brokenNumber rest)]
      else [.stray]
termination_by cs => cs.length
decreasing_by
  all_goals first
    | exact Nat.lt_succ_self _
    | exact Nat.lt_succ_of_lt (StringText.skipBody_rest_length _skipped)
    | exact Nat.lt_succ_of_le (word_rest_length _read)
    | exact NumberText.numeral_rest_length _read

/-- The tokens of a string. -/
def ofText (text : String) : List Token :=
  tokens text.toList

/-! ## Tokens of written text -/

theorem tokens_space {c : Char} (h : isSpace c = true) (cs : List Char) :
    tokens (c :: cs) = tokens cs := by
  rw [tokens]
  simp [h]

end Token

end TemplateTrace.Json
