import TemplateTrace.Digest.Sha256
import TemplateTrace.Frame
import TemplateTrace.Text.Hex
set_option autoImplicit false

/-!
# Frame ids

A frame has an id that depends on its node and the location of its definition alone: the first
eight bytes of a digest over an encoding of the two.  The encoding gives the length of each text
before the text, so that no two different pairs have the same one.
-/

namespace TemplateTrace

namespace Identity

open Digest (littleEndian)

/-- A text after its length in bytes. -/
def text (s : String) : List UInt8 :=
  littleEndian 8 s.utf8ByteSize ++ s.toUTF8.toList

/-- A truth value. -/
def truth (b : Bool) : UInt8 :=
  if b then 1 else 0

/-- An argument list: whether there is one, and then its length and its texts. -/
def arguments : Option (List String) → List UInt8
  | none => [0]
  | some args => 1 :: littleEndian 8 args.length ++ args.flatMap text

/-- A node: the name of its variant and its fields. -/
def node : Node → List UInt8
  | .typeName name => text "type" ++ text name
  | .code code => text "code" ++ text code
  | .token category value => text "token" ++ text category ++ text value
  | .inclusion path system => text "include" ++ text path ++ [truth system]
  | .expansion name args => text "macro" ++ text name ++ arguments args
  | .definition name args body => text "define" ++ text name ++ arguments args ++ text body
  | .message message => text "message" ++ text message

/-- A location. -/
def location (l : Location) : List UInt8 :=
  text l.name ++ littleEndian 4 l.row.toNat ++ littleEndian 4 l.column.toNat

/-- The bytes that an id is the digest of. -/
def encode (n : Node) (l : Location) : List UInt8 :=
  node n ++ location l

/-- The id of a node at a location. -/
def id (n : Node) (l : Location) : String :=
  Text.Hex.ofBytes ((Digest.Sha256.digest (encode n l)).take 8)

end Identity

/-- The id of a frame. -/
def Frame.id (f : Frame) : String :=
  Identity.id f.node f.location

end TemplateTrace
