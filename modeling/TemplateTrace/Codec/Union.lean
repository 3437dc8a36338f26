import TemplateTrace.Codec.Choice
import TemplateTrace.Codec.Record
set_option autoImplicit false

/-!
# Codecs of unions

A union is one of several records, told apart by a tag.

*Tag inside* (`Union`): the tag is a member among the fields.  The object is read as a whole
first, since the tag may come after the fields; only the tag itself is checked when it is met.
An array form has the tag as its first item.

*Tag beside* (`TaggedPair`): the object has two members, tag and content, in either order, and the
array form has the two as items, the tag bare.
-/

namespace TemplateTrace

open Json (Fault Reader Token)

/-! ## Tag inside -/

/-- One kind of record of a union. -/
structure Variant (α : Type) where
  tag : String
  title : String
  {parts draft : Type}
  fields : Fields parts draft
  build : parts → α
  split : α → Option parts

namespace Variant

variable {α : Type}

/-- The value with these members beside the tag. -/
def ofMembers (v : Variant α) (ms : List (String × Json)) : Except Fault α :=
  (v.fields.ofMembers ms).map v.build

/-- The value with these items after the tag. -/
def ofItems (v : Variant α) (js : List Json) : Except Fault α :=
  (v.fields.ofItems v.title js).map v.build

end Variant

/-- A union with its tag inside. -/
structure Union (α : Type) where
  title : String
  tagName : String
  variants : List (Variant α)

namespace Union

variable {α : Type}

/-- The kind of record of that tag. -/
def variant? (u : Union α) (tag : String) : Option (Variant α) :=
  u.variants.find? fun v => v.tag == tag

/-- The fault of a tag that no kind of record has. -/
def unknown {β : Type} (u : Union α) (tag : String) : Except Fault β :=
  .error (.unknownVariant tag (u.variants.map Variant.tag))

/-- Accepts the tags of the kinds of records. -/
def check (u : Union α) (tag : String) : Except Fault String :=
  if (u.variant? tag).isSome then .ok tag else u.unknown tag

/-- What was met of an object: the tag, and the other members, last one first. -/
structure Draft where
  tag : Option String
  others : List (String × Json)

/-- Nothing was met. -/
def Draft.empty : Draft := ⟨none, []⟩

/-- Reads a member on from its colon. -/
def readMember (u : Union α) (room : Nat) (met : Draft) (name : String) : Reader Draft :=
  fun ts =>
    if name = u.tagName then
      if met.tag.isSome then .error (.duplicateField u.tagName)
      else do
        let (tag, ts) ← Choice.identifier (← Json.colon ts)
        return ({ met with tag := some (← u.check tag) }, ts)
    else do
      let (others, ts) ← Json.keepMember (Json.read room) met.others name ts
      return ({ met with others }, ts)

/-- Takes in a kept member. -/
def putMember (u : Union α) (met : Draft) (name : String) (j : Json) : Except Fault Draft :=
  if name = u.tagName then
    if met.tag.isSome then .error (.duplicateField u.tagName)
    else do
      let tag ← Choice.identifierValue j
      return { met with tag := some (← u.check tag) }
  else .ok { met with others := (name, j) :: met.others }

/-- The value of that tag with these members beside it. -/
def ofMembers (u : Union α) (tag : String) (ms : List (String × Json)) : Except Fault α :=
  match u.variant? tag with
  | none => u.unknown tag
  | some v => v.ofMembers ms

/-- The value of that tag with these items after it. -/
def ofItems (u : Union α) (tag : String) (js : List Json) : Except Fault α :=
  match u.variant? tag with
  | none => u.unknown tag
  | some v => v.ofItems js

/-- The value of an object of which all members were met. -/
def close (u : Union α) (met : Draft) : Except Fault α :=
  match met.tag with
  | none => .error (.missingField u.tagName)
  | some tag => u.ofMembers tag met.others.reverse

/-- The members that are written: the tag and the fields of its kind. -/
def members (u : Union α) (a : α) : List (String × Json) :=
  (u.variants.findSome? fun v =>
    (v.split a).map fun values => (u.tagName, .string v.tag) :: v.fields.members values).getD []

/-- The codec of a union. -/
def codec (u : Union α) : Codec α where
  encode := fun a => .object (u.members a)
  read
    | room, .opening .curly :: ts => do
        let room ← Json.enter room
        let (met, ts) ← Json.allMembers (u.readMember room) Draft.empty ts
        return (← u.close met, ts)
    | room, .opening .square :: ts => do
        let room ← Json.enter room
        match ← Json.nextItem true ts with
        | none => throw (.missingField u.tagName)
        | some ts =>
            let (tag, ts) ← Choice.identifier ts
            let tag ← u.check tag
            let (js, ts) ← Json.items (Json.read room) ts.length false [] ts
            return (← u.ofItems tag js, ts)
    | _, ts => Codec.refuse u.title ts
  ofJson
    | .object ms => do
        u.close (← ms.foldlM (fun met (name, j) => u.putMember met name j) Draft.empty)
    | .array [] => .error (.missingField u.tagName)
    | .array (j :: js) => do
        u.ofItems (← u.check (← Choice.identifierValue j)) js
    | j => Codec.refuseValue u.title j

end Union

/-! ## Tag beside -/

/-- A union with its tag beside its content; every tag has the same type of content. -/
structure TaggedPair (τ γ α : Type) where
  title : String
  tagName : String
  contentName : String
  tag : Choice τ
  content : Codec γ
  build : τ → γ → α
  split : α → τ × γ

namespace TaggedPair

variable {τ γ α : Type}

/-- What was met of an object.  Content before the tag is kept undecoded. -/
structure Draft (τ γ : Type) where
  tag : Option τ
  kept : Option Json
  content : Option γ

/-- Nothing was met. -/
def Draft.empty : Draft τ γ := ⟨none, none, none⟩

/-- Whether the content was met. -/
def Draft.hasContent (met : Draft τ γ) : Bool :=
  met.kept.isSome || met.content.isSome

/-- Takes in the tag, and decodes the content if it was kept before. -/
def putTag (u : TaggedPair τ γ α) (met : Draft τ γ) (tag : τ) : Except Fault (Draft τ γ) := do
  match met.kept with
  | none => return { met with tag := some tag }
  | some j => return { met with tag := some tag, content := some (← u.content.ofJson j) }

/-- Reads a member on from its colon. -/
def readMember (u : TaggedPair τ γ α) (room : Nat) (met : Draft τ γ) (name : String) :
    Reader (Draft τ γ) := fun ts =>
  if name = u.tagName then
    if met.tag.isSome then .error (.duplicateField u.tagName)
    else do
      let (tag, ts) ← u.tag.read room (← Json.colon ts)
      return (← u.putTag met tag, ts)
  else if name = u.contentName then
    if met.hasContent then .error (.duplicateField u.contentName)
    else if met.tag.isSome then do
      let (content, ts) ← u.content.read room (← Json.colon ts)
      return ({ met with content := some content }, ts)
    else do
      let (j, ts) ← Json.read room (← Json.colon ts)
      return ({ met with kept := some j }, ts)
  else do
    return (met, ← Json.skip (← Json.colon ts))

/-- Takes in a kept member. -/
def putMember (u : TaggedPair τ γ α) (met : Draft τ γ) (name : String) (j : Json) :
    Except Fault (Draft τ γ) :=
  if name = u.tagName then
    if met.tag.isSome then .error (.duplicateField u.tagName)
    else do u.putTag met (← u.tag.ofJson j)
  else if name = u.contentName then
    if met.hasContent then .error (.duplicateField u.contentName)
    else if met.tag.isSome then do return { met with content := some (← u.content.ofJson j) }
    else .ok { met with kept := some j }
  else .ok met

/-- The value of an object of which all members were met. -/
def close (u : TaggedPair τ γ α) (met : Draft τ γ) : Except Fault α :=
  match met.tag, met.content with
  | none, _ => .error (.missingField u.tagName)
  | some _, none => .error (.missingField u.contentName)
  | some tag, some content => .ok (u.build tag content)

/-- The codec of such a union. -/
def codec (u : TaggedPair τ γ α) : Codec α where
  encode := fun a =>
    let (tag, content) := u.split a
    .object [(u.tagName, u.tag.codec.encode tag), (u.contentName, u.content.encode content)]
  read
    | room, .opening .curly :: ts => do
        let (met, ts) ← Json.allMembers (u.readMember (← Json.enter room)) Draft.empty ts
        return (← u.close met, ts)
    | room, .opening .square :: ts => do
        let room ← Json.enter room
        match ← Json.nextItem true ts with
        | none => throw (.invalidLength 0 u.title)
        | some ts =>
            let (tag, ts) ← u.tag.readBare ts
            match ← Json.nextItem false ts with
            | none => throw (.invalidLength 1 u.title)
            | some ts =>
                let (content, ts) ← u.content.read room ts
                return (u.build tag content, ← Json.closeArray ts)
    | _, ts => Codec.refuse u.title ts
  ofJson
    | .object ms => do
        u.close (← ms.foldlM (fun met (name, j) => u.putMember met name j) Draft.empty)
    | .array [] => .error (.invalidLength 0 u.title)
    | .array [tag] => do
        let _ ← u.tag.ofBare tag
        throw (.invalidLength 1 u.title)
    | .array (tag :: content :: more) => do
        let tag ← u.tag.ofBare tag
        let content ← u.content.ofJson content
        if more.isEmpty then return u.build tag content
        else Codec.tooLong (more.length + 2) 2
    | j => Codec.refuseValue u.title j

end TaggedPair

end TemplateTrace
