import TemplateTrace.Codec.Basic
set_option autoImplicit false

/-!
# Codecs of named values

A type with finitely many named values is written as the name.  Decoding also takes an object whose
only member has the name and the value `null`.

As the first item of an array a named value is *bare*: there it must be the name, and if the array
was kept, the place of the value in the list of all does as well.
-/

namespace TemplateTrace

open Json (Fault Reader Token)

/-- The named values of a type, in the order in which messages list them. -/
structure Choice (α : Type) where
  all : List α
  name : α → String

namespace Choice

variable {α : Type}

/-- The value of that name. -/
def named (c : Choice α) (name : String) : Except Fault α :=
  match c.all.find? fun a => c.name a == name with
  | some a => .ok a
  | none => .error (.unknownVariant name (c.all.map c.name))

/-- The name of the only member of an object whose brace is open. -/
def soleName : Reader String
  | [] => .error (.malformed .endInObject)
  | .closing .curly :: _ => .error (.malformed .noValue)
  | ts => Json.memberName ts

/-- A name that stands next in a text. -/
def identifier : Reader String
  | .string l :: ts => do return (← l.content, ts)
  | ts => Codec.refuse "variant identifier" ts

/-- A name that was kept. -/
def identifierValue : Json → Except Fault String
  | .string s => .ok s
  | j => Codec.refuseValue "variant identifier" j

/-- The value at that place in the list, counted from zero. -/
def atIndex (c : Choice α) (n : Nat) : Except Fault α :=
  match c.all[n]? with
  | some a => .ok a
  | none =>
      .error (.invalidValue (.number (.integer n))
        s!"variant index 0 <= i < {c.all.length}")

/-- Reads a named value by its bare name. -/
def readBare (c : Choice α) : Reader α := fun ts => do
  let (name, ts) ← identifier ts
  return (← c.named name, ts)

/-- Decodes a named value that was kept as its bare name, or as its place in the list. -/
def ofBare (c : Choice α) : Json → Except Fault α
  | .number (.integer (.ofNat n)) => c.atIndex n
  | j => do c.named (← identifierValue j)

/-- The tokens after a `null`. -/
def unit : List Token → Except Fault (List Token)
  | .null :: ts => .ok ts
  | ts => Codec.refuse "unit" ts

/-- Reads a named value. -/
def read (c : Choice α) (room : Nat) : Reader α
  | [] => .error (.malformed .endInValue)
  | .string l :: ts => do return (← c.named (← l.content), ts)
  | .opening .curly :: ts => do
      let _ ← Json.enter room
      let (name, ts) ← soleName ts
      let a ← c.named name
      let ts ← unit (← Json.colon ts)
      match ts with
      | [] => throw (.malformed .endInObject)
      | .closing .curly :: ts => return (a, ts)
      | _ => throw (.malformed .noValue)
  | _ => .error (.malformed .noValue)

/-- Decodes a named value that was kept; an empty object is as good as `null`. -/
def ofJson (c : Choice α) : Json → Except Fault α
  | .string s => c.named s
  | .object [(name, j)] => do
      let a ← c.named name
      match j with
      | .null | .object [] => return a
      | _ => Codec.refuseValue "unit" j
  | .object _ => .error (.invalidValue .map "map with a single key")
  | j => Codec.refuseValue "string or map" j

/-- The codec of named values. -/
def codec (c : Choice α) : Codec α where
  encode := fun a => .string (c.name a)
  read := c.read
  ofJson := c.ofJson

end Choice

end TemplateTrace
