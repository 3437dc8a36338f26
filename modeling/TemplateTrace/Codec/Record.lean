import TemplateTrace.Codec.Basic
set_option autoImplicit false

/-!
# Codecs of records

A record is a list of named fields, each with a codec of its own.  It is written as an object with
the fields in order.  It is decoded from an object, with the members in any order and unknown
members passed over, or from an array of the field values in order.

`Fields ρ δ` describes fields whose values make up the nested pair `ρ`; `δ` holds the values that
were met so far.
-/

namespace TemplateTrace

open Json (Fault Reader Token)

/-- What the absence of a field means. -/
inductive Absence (α : Type) where
  /-- a fault -/
  | refused
  /-- the value, in an object; a fault in an array -/
  | inObject (value : α)
  /-- the value, in objects and at the end of arrays -/
  | always (value : α)
  deriving Repr, Inhabited

/-- A named field of a record. -/
structure Field (α : Type) where
  name : String
  codec : Codec α
  absence : Absence α
  /-- whether the field is left out when this value is written -/
  hides : α → Bool

namespace Field

variable {α : Type}

/-- A field that must be there. -/
def required (name : String) (codec : Codec α) : Field α :=
  ⟨name, codec, .refused, fun _ => false⟩

/-- A field that has a value when it is left out. -/
def withDefault (name : String) (codec : Codec α) (value : α) : Field α :=
  ⟨name, codec, .always value, fun _ => false⟩

/-- A field that may be `null`, and may be left out of objects then. -/
def optional (name : String) (codec : Codec α) : Field (Option α) :=
  ⟨name, codec.option, .inObject none, fun _ => false⟩

/-- The value of a field that an object does not have. -/
def inObject (f : Field α) : Except Fault α :=
  match f.absence with
  | .refused => .error (.missingField f.name)
  | .inObject value | .always value => .ok value

/-- The value of a field before which an array ends; `index` counts the items. -/
def inArray (f : Field α) (index : Nat) (wanted : String) : Except Fault α :=
  match f.absence with
  | .refused | .inObject _ => .error (.invalidLength index wanted)
  | .always value => .ok value

end Field

/-- The fields of a record, in order. -/
inductive Fields : Type → Type → Type 1 where
  | nil : Fields Unit Unit
  | cons {α ρ δ : Type} (field : Field α) (rest : Fields ρ δ) : Fields (α × ρ) (Option α × δ)

namespace Fields

/-- How many fields there are. -/
def count : {ρ δ : Type} → Fields ρ δ → Nat
  | _, _, .nil => 0
  | _, _, .cons _ rest => rest.count + 1

/-! ## Writing -/

/-- The members that are written. -/
def members : {ρ δ : Type} → Fields ρ δ → ρ → List (String × Json)
  | _, _, .nil, _ => []
  | _, _, .cons f rest, (a, values) =>
      if f.hides a then rest.members values
      else (f.name, f.codec.encode a) :: rest.members values

/-! ## Decoding an object -/

/-- No field was met yet. -/
def none : {ρ δ : Type} → Fields ρ δ → δ
  | _, _, .nil => ()
  | _, _, .cons _ rest => (Option.none, rest.none)

/-- Reads the value of a member on from its colon, into the field of that name. -/
def readMember (room : Nat) : {ρ δ : Type} → Fields ρ δ → δ → String → Reader δ
  | _, _, .nil, _, _, ts => do
      let ts ← Json.skip (← Json.colon ts)
      return ((), ts)
  | _, _, .cons f rest, (met, others), name, ts =>
      if name = f.name then
        if met.isSome then .error (.duplicateField f.name)
        else do
          let (a, ts) ← f.codec.read room (← Json.colon ts)
          return ((some a, others), ts)
      else do
        let (others, ts) ← readMember room rest others name ts
        return ((met, others), ts)

/-- Decodes a kept member into the field of that name. -/
def putMember : {ρ δ : Type} → Fields ρ δ → δ → String → Json → Except Fault δ
  | _, _, .nil, _, _, _ => .ok ()
  | _, _, .cons f rest, (met, others), name, j =>
      if name = f.name then
        if met.isSome then .error (.duplicateField f.name)
        else do return (some (← f.codec.ofJson j), others)
      else do return (met, ← putMember rest others name j)

/-- The values of all fields, once all members were met. -/
def close : {ρ δ : Type} → Fields ρ δ → δ → Except Fault ρ
  | _, _, .nil, _ => .ok ()
  | _, _, .cons f rest, (met, others) => do
      let a ← match met with
        | some a => pure a
        | Option.none => f.inObject
      return (a, ← rest.close others)

/-- The values of the fields in an object whose brace is open. -/
def readObject {ρ δ : Type} (fields : Fields ρ δ) (room : Nat) : Reader ρ := fun ts => do
  let (met, ts) ← Json.allMembers (fields.readMember room) fields.none ts
  return (← fields.close met, ts)

/-- The values of the fields among kept members. -/
def ofMembers {ρ δ : Type} (fields : Fields ρ δ) (ms : List (String × Json)) : Except Fault ρ := do
  let met ← ms.foldlM (fun met (name, j) => fields.putMember met name j) fields.none
  fields.close met

/-! ## Decoding an array -/

/-- Reads the fields from the items of an open array, which has `index` items before them; the
closing bracket stays. -/
def readItems (room : Nat) (wanted : String) :
    {ρ δ : Type} → Fields ρ δ → Nat → Reader ρ
  | _, _, .nil, _, ts => .ok ((), ts)
  | _, _, .cons f rest, index, ts => do
      match ← Json.nextItem (index == 0) ts with
      | Option.none =>
          let a ← f.inArray index wanted
          let (values, ts) ← readItems room wanted rest (index + 1) ts
          return ((a, values), ts)
      | some ts =>
          let (a, ts) ← f.codec.read room ts
          let (values, ts) ← readItems room wanted rest (index + 1) ts
          return ((a, values), ts)

/-- Reads the fields from an array whose bracket is open. -/
def readArray {ρ δ : Type} (fields : Fields ρ δ) (room : Nat) (wanted : String) : Reader ρ :=
  fun ts => do
    let (values, ts) ← fields.readItems room wanted 0 ts
    return (values, ← Json.closeArray ts)

/-- Decodes the fields from kept items, of which `index` were taken before; gives the items left
over. -/
def takeItems (wanted : String) :
    {ρ δ : Type} → Fields ρ δ → Nat → List Json → Except Fault (ρ × List Json)
  | _, _, .nil, _, js => .ok ((), js)
  | _, _, .cons f rest, index, [] => do
      let a ← f.inArray index wanted
      let (values, js) ← takeItems wanted rest (index + 1) []
      return ((a, values), js)
  | _, _, .cons f rest, index, j :: js => do
      let a ← f.codec.ofJson j
      let (values, js) ← takeItems wanted rest (index + 1) js
      return ((a, values), js)

end Fields

namespace Codec

/-- A number of array items, in words. -/
def elementCount (n : Nat) : String :=
  if n = 1 then "1 element" else s!"{n} elements"

/-- The fault of a kept array with more items than are wanted. -/
def tooLong {β : Type} (length wanted : Nat) : Except Fault β :=
  .error (.invalidLength length (elementCount wanted ++ " in sequence"))

end Codec

namespace Fields

/-- The values of the fields in a kept array. -/
def ofItems {ρ δ : Type} (fields : Fields ρ δ) (title : String) (js : List Json) :
    Except Fault ρ := do
  let wanted := title ++ " with " ++ Codec.elementCount fields.count
  let (values, left) ← fields.takeItems wanted 0 js
  if left.isEmpty then return values else Codec.tooLong js.length fields.count

end Fields

/-- A record type: what messages call it, its fields, and how their values make up a record. -/
structure Record (α : Type) where
  title : String
  {parts draft : Type}
  fields : Fields parts draft
  build : parts → α
  split : α → parts

/-- The codec of a record type. -/
def Record.codec {α : Type} (r : Record α) : Codec α where
  encode := fun a => .object (r.fields.members (r.split a))
  read
    | room, .opening .square :: ts => do
        let wanted := r.title ++ " with " ++ Codec.elementCount r.fields.count
        let (values, ts) ← r.fields.readArray (← Json.enter room) wanted ts
        return (r.build values, ts)
    | room, .opening .curly :: ts => do
        let (values, ts) ← r.fields.readObject (← Json.enter room) ts
        return (r.build values, ts)
    | _, ts => Codec.refuse r.title ts
  ofJson
    | .array js => (r.fields.ofItems r.title js).map r.build
    | .object ms => (r.fields.ofMembers ms).map r.build
    | j => Codec.refuseValue r.title j

end TemplateTrace
