import TemplateTrace.Json.Basic
import TemplateTrace.Json.Fault
import TemplateTrace.Json.Token
set_option autoImplicit false

/-!
# Reading JSON values off a token list

A reader takes a value off the front of a token list and gives back the tokens after it.  Values
are *kept* (`Json.read`) or *passed over* (`skip`).  Keeping is bounded in depth and checks the
content of numbers and strings; passing over is neither, and words two faults differently, because
it never looks past a comma for a closing bracket.

The walks over the items of an array and the members of an object are separate, so that decoders of
other types share them.
-/

namespace TemplateTrace.Json

/-- Takes a value off the front of a token list. -/
abbrev Reader (α : Type) : Type := List Token → Except Fault (α × List Token)

/-- How many arrays and objects may lie inside one another. -/
def roomAtStart : Nat := 127

/-- The room inside one more array or object. -/
def enter : Nat → Except Fault Nat
  | 0 => .error (.malformed .tooDeep)
  | room + 1 => .ok room

/-- What a kept number or string holds. -/
def Lexeme.content {α : Type} (l : Lexeme α) : Except Fault α :=
  l.kept.mapError .malformed

/-! ## Arrays -/

/-- The tokens of the next item of an open array, or `none` at the closing bracket, which stays. -/
def nextItem (first : Bool) : List Token → Except Fault (Option (List Token))
  | [] => .error (.malformed .endInArray)
  | .closing .square :: _ => .ok none
  | t :: ts =>
      if first then .ok (some (t :: ts))
      else
        match t, ts with
        | .comma, [] => .error (.malformed .endInValue)
        | .comma, .closing .square :: _ => .error (.malformed .trailingComma)
        | .comma, ts => .ok (some ts)
        | _, _ => .error (.malformed .noCommaOrBracket)

/-- The tokens after the closing bracket of an array that should have no further item. -/
def closeArray : List Token → Except Fault (List Token)
  | [] => .error (.malformed .endInArray)
  | .closing .square :: ts => .ok ts
  | .comma :: .closing .square :: _ => .error (.malformed .trailingComma)
  | _ => .error (.malformed .trailingText)

/-- The remaining items of an open array and the tokens after its closing bracket.  `done` holds
the items before them, last one first; the bound need only be as large as the token count. -/
def items {α : Type} (item : Reader α) : Nat → Bool → List α → Reader (List α)
  | 0, _, _, _ => .error (.malformed .endInArray)
  | bound + 1, first, done, ts => do
      match ← nextItem first ts with
      | none => return (done.reverse, ts.tail)
      | some ts =>
          let (a, ts) ← item ts
          items item bound false (a :: done) ts

/-- All items of an array whose bracket is open. -/
def allItems {α : Type} (item : Reader α) : Reader (List α) := fun ts =>
  items item ts.length true [] ts

/-! ## Objects -/

/-- The name of a member and the tokens after it. -/
def memberName : List Token → Except Fault (String × List Token)
  | .string l :: ts => do return (← l.content, ts)
  | _ => .error (.malformed .nameNotString)

/-- The name of the next member of an open object with the tokens after the name, or `none` at the
closing brace, which stays. -/
def nextMember (first : Bool) : List Token → Except Fault (Option (String × List Token))
  | [] => .error (.malformed .endInObject)
  | .closing .curly :: _ => .ok none
  | t :: ts =>
      if first then (memberName (t :: ts)).map some
      else
        match t, ts with
        | .comma, [] => .error (.malformed .endInValue)
        | .comma, .closing .curly :: _ => .error (.malformed .trailingComma)
        | .comma, ts => (memberName ts).map some
        | _, _ => .error (.malformed .noCommaOrBrace)

/-- The tokens after the colon of a member. -/
def colon : List Token → Except Fault (List Token)
  | [] => .error (.malformed .endInObject)
  | .colon :: ts => .ok ts
  | _ => .error (.malformed .noColon)

/-- Hands the members of an open object one after the other to `step`, which gets the name and
reads on from the colon.  The bound need only be as large as the token count. -/
def members {σ : Type} (step : σ → String → Reader σ) : Nat → Bool → σ → Reader σ
  | 0, _, _, _ => .error (.malformed .endInObject)
  | bound + 1, first, state, ts => do
      match ← nextMember first ts with
      | none => return (state, ts.tail)
      | some (name, ts) =>
          let (state, ts) ← step state name ts
          members step bound false state ts

/-- Hands all members of an object whose brace is open to `step`. -/
def allMembers {σ : Type} (step : σ → String → Reader σ) (state : σ) : Reader σ := fun ts =>
  members step ts.length true state ts

/-! ## Keeping a value -/

/-- Appends a member whose value is read next to those read before, last one first. -/
def keepMember {α : Type} (value : Reader α) (done : List (String × α)) (name : String) :
    Reader (List (String × α)) := fun ts => do
  let ts ← colon ts
  let (a, ts) ← value ts
  return ((name, a) :: done, ts)

/-- Reads a value to be kept, with room for so many arrays and objects inside one another. -/
def read : Nat → Reader Json
  | _, [] => .error (.malformed .endInValue)
  | _, .null :: ts => .ok (.null, ts)
  | _, .bool b :: ts => .ok (.bool b, ts)
  | _, .number l :: ts => do return (.number (← l.content), ts)
  | _, .string l :: ts => do return (.string (← l.content), ts)
  | _, .badWord _ fault :: _ => .error (.malformed fault)
  | 0, .opening _ :: _ => .error (.malformed .tooDeep)
  | room + 1, .opening .square :: ts => do
      let (values, ts) ← allItems (read room) ts
      return (.array values, ts)
  | room + 1, .opening .curly :: ts => do
      let (done, ts) ← allMembers (keepMember (read room)) [] ts
      return (.object done.reverse, ts)
  | _, .closing _ :: _ | _, .colon :: _ | _, .comma :: _ | _, .stray :: _ =>
      .error (.malformed .noValue)

/-! ## Passing over a value -/

/-- What may stand next while a value is passed over; all but the first speak of the innermost open
array or object. -/
inductive Await where
  /-- a value -/
  | value
  /-- the first item or member, or the end -/
  | first
  /-- a comma or the end -/
  | next
  /-- a member name -/
  | name
  /-- the colon after a member name -/
  | colon
  deriving DecidableEq, Repr, Inhabited

/-- What a token starts as a value: an array or object, or a whole value. -/
def startValue : Token → Except Fault (Option Bracket)
  | .opening b => .ok (some b)
  | .null | .bool _ => .ok none
  | .number l => (l.skipped.mapError .malformed).map fun _ => none
  | .string l => (l.skipped.mapError .malformed).map fun _ => none
  | .badWord _ fault => .error (.malformed fault)
  | .closing _ | .colon | .comma | .stray => .error (.malformed .noValue)

/-- Where a walk stands: the open arrays and objects, innermost first, and what may come next. -/
abbrev Walk : Type := List Bracket × Await

/-- After a whole value the walk is over, or the innermost open bracket goes on. -/
def afterValue : List Bracket → Option Walk
  | [] => none
  | stack => some (stack, .next)

/-- One token of a value that is passed over; `none` when the value is complete with it. -/
def advance (stack : List Bracket) (await : Await) (t : Token) : Except Fault (Option Walk) :=
  let asValue : Except Fault (Option Walk) :=
    (startValue t).map fun
      | some b => some (b :: stack, .first)
      | none => afterValue stack
  let asName : Except Fault (Option Walk) :=
    match t with
    | .string l => (l.skipped.mapError .malformed).map fun _ => some (stack, .colon)
    | _ => .error (.malformed .nameNotString)
  match await, stack with
  | .value, _ => asValue
  | .name, _ => asName
  | .colon, _ =>
      match t with
      | .colon => .ok (some (stack, .value))
      | _ => .error (.malformed .noColon)
  | .first, .square :: outer =>
      match t with
      | .closing .square => .ok (afterValue outer)
      | _ => asValue
  | .first, .curly :: outer =>
      match t with
      | .closing .curly => .ok (afterValue outer)
      | _ => asName
  | .next, .square :: outer =>
      match t with
      | .closing .square => .ok (afterValue outer)
      | .comma => .ok (some (stack, .value))
      | _ => .error (.malformed .noCommaOrBracket)
  | .next, .curly :: outer =>
      match t with
      | .closing .curly => .ok (afterValue outer)
      | .comma => .ok (some (stack, .name))
      | _ => .error (.malformed .noCommaOrBrace)
  | .first, [] | .next, [] => asValue

/-- The fault of a text that ends while a value is passed over. -/
def Await.atEnd : Await → List Bracket → SyntaxFault
  | .value, _ | .first, [] | .next, [] => .endInValue
  | .first, .square :: _ | .next, .square :: _ => .endInArray
  | .first, .curly :: _ | .next, .curly :: _ | .name, _ | .colon, _ => .endInObject

/-- Passes over the rest of a value. -/
def skipFrom (stack : List Bracket) (await : Await) : List Token → Except Fault (List Token)
  | [] => .error (.malformed (await.atEnd stack))
  | t :: ts =>
      match advance stack await t with
      | .error fault => .error fault
      | .ok none => .ok ts
      | .ok (some (stack, await)) => skipFrom stack await ts

/-- Passes over a value. -/
def skip (ts : List Token) : Except Fault (List Token) :=
  skipFrom [] .value ts

/-! ## Whole texts -/

/-- The value of a whole text for some reader of its tokens. -/
def wholeText {α : Type} (reader : Reader α) (text : String) : Except Fault α := do
  let (a, rest) ← reader (Token.ofText text)
  if rest.isEmpty then return a else throw (.malformed .trailingText)

/-- The value of a text. -/
def ofText (text : String) : Except Fault Json :=
  wholeText (read roomAtStart) text

end TemplateTrace.Json
