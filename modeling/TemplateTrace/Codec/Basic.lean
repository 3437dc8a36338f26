import TemplateTrace.Json.Printer
import TemplateTrace.Json.Reader
set_option autoImplicit false

/-!
# Codecs

A codec writes the values of a type as JSON and decodes them in two ways: straight from a text,
where the first fault from left to right is reported, and from a JSON value that was kept.  The two
ways word some faults differently, and the second one never meets a syntax fault.

This module holds the codecs of single values, of optional values and of lists.
-/

namespace TemplateTrace

open Decimal (Number)
open Json (Fault Found Reader Token)

/-- How the values of a type are written as JSON and decoded. -/
structure Codec (α : Type) where
  /-- the JSON value that is written -/
  encode : α → Json
  /-- takes a value off a token list, with room for so many arrays and objects inside one another -/
  read : Nat → Reader α
  /-- decodes a value that was kept -/
  ofJson : Json → Except Fault α

namespace Codec

/-! ## Refusing a value -/

/-- What stands at the front of a token list; an array or object is not looked into. -/
def foundIn : List Token → Except Fault Found
  | [] => .error (.malformed .endInValue)
  | .null :: _ => .ok .null
  | .bool b :: _ => .ok (.bool b)
  | .number l :: _ => l.content.map .number
  | .string l :: _ => l.content.map .string
  | .badWord _ fault :: _ => .error (.malformed fault)
  | .opening .square :: _ => .ok .sequence
  | .opening .curly :: _ => .ok .map
  | .closing _ :: _ | .colon :: _ | .comma :: _ | .stray :: _ => .error (.malformed .noValue)

/-- The fault of a text in which something else than the wanted stands next. -/
def refuse {β : Type} (wanted : String) (ts : List Token) : Except Fault β := do
  throw (.invalidType (← foundIn ts) wanted)

/-- What a kept value is, for a message. -/
def foundValue : Json → Found
  | .null => .null
  | .bool b => .bool b
  | .number n => .number n
  | .string s => .string s
  | .array _ => .sequence
  | .object _ => .map

/-- The fault of a kept value that is something else than the wanted. -/
def refuseValue {β : Type} (wanted : String) (j : Json) : Except Fault β :=
  .error (.invalidType (foundValue j) wanted)

/-! ## Single values -/

/-- Strings. -/
def string : Codec String where
  encode := .string
  read
    | _, .string l :: ts => do return (← l.content, ts)
    | _, ts => refuse "a string" ts
  ofJson
    | .string s => .ok s
    | j => refuseValue "a string" j

/-- Truth values. -/
def bool : Codec Bool where
  encode := .bool
  read
    | _, .bool b :: ts => .ok (b, ts)
    | _, ts => refuse "a boolean" ts
  ofJson
    | .bool b => .ok b
    | j => refuseValue "a boolean" j

/-- The codec of numbers that are `wanted`; `ofNumber` decides which numbers are. -/
def numeric {α : Type} (wanted : String) (encode : α → Json)
    (ofNumber : Number → Except Fault α) : Codec α where
  encode := encode
  read
    | _, .number l :: ts => do return (← ofNumber (← l.content), ts)
    | _, ts => refuse wanted ts
  ofJson
    | .number n => ofNumber n
    | j => refuseValue wanted j

/-- Floats; an integer stands for the float nearest to it. -/
def float : Codec Float :=
  numeric "f64" Json.float fun
    | .integer n => .ok (Decimal.floatOfInt n)
    | .float x => .ok x

/-- A number as a natural number below a limit. -/
def naturalBelow (limit : Nat) (wanted : String) : Number → Except Fault Nat
  | .integer n =>
      if 0 ≤ n ∧ n < limit then .ok n.toNat
      else .error (.invalidValue (.number (.integer n)) wanted)
  | .float x => .error (.invalidType (.number (.float x)) wanted)

/-- Natural numbers of 32 bits. -/
def uint32 : Codec UInt32 :=
  numeric "u32" (fun n => .nat n.toNat) fun n =>
    (naturalBelow UInt32.size "u32" n).map UInt32.ofNat

/-- Natural numbers of 64 bits. -/
def uint64 : Codec UInt64 :=
  numeric "usize" (fun n => .nat n.toNat) fun n =>
    (naturalBelow UInt64.size "usize" n).map UInt64.ofNat

/-! ## Optional values and lists -/

/-- Values that may be absent, which is written `null`. -/
def option {α : Type} (c : Codec α) : Codec (Option α) where
  encode := Json.ofOption c.encode
  read
    | _, .null :: ts => .ok (none, ts)
    | _, .badWord 'n' fault :: _ => .error (.malformed fault)
    | room, ts => do
        let (a, ts) ← c.read room ts
        return (some a, ts)
  ofJson
    | .null => .ok none
    | j => (c.ofJson j).map some

/-- Lists, as arrays. -/
def list {α : Type} (c : Codec α) : Codec (List α) where
  encode := fun as => .array (as.map c.encode)
  read
    | room, .opening .square :: ts => do Json.allItems (c.read (← Json.enter room)) ts
    | _, ts => refuse "a sequence" ts
  ofJson
    | .array values => values.mapM c.ofJson
    | j => refuseValue "a sequence" j

/-- The same values under another type. -/
def map {α β : Type} (c : Codec α) (build : α → β) (split : β → α) : Codec β where
  encode := fun b => c.encode (split b)
  read := fun room ts => do
    let (a, ts) ← c.read room ts
    return (build a, ts)
  ofJson := fun j => (c.ofJson j).map build

/-! ## Whole texts -/

/-- Decodes a whole text. -/
def decode {α : Type} (c : Codec α) (text : String) : Except Fault α :=
  Json.wholeText (c.read Json.roomAtStart) text

/-- The compact text of a value. -/
def render {α : Type} (c : Codec α) (a : α) : String :=
  (c.encode a).compact

end Codec

end TemplateTrace
