import TemplateTrace.Codec.Union
set_option autoImplicit false

/-!
# Nodes

What is evaluated at a step of a compile-time evaluation.  Nodes are ordered by their variant and
then by their fields, an absent argument list before any other.
-/

namespace TemplateTrace

/-- What is evaluated. -/
inductive Node where
  /-- a type, template arguments included -/
  | typeName (name : String)
  /-- a piece of code -/
  | code (text : String)
  /-- a token of some category -/
  | token (category value : String)
  /-- an included file, from the system's directories or not -/
  | inclusion (path : String) (system : Bool)
  /-- the use of a macro, with arguments if it takes any -/
  | expansion (name : String) (args : Option (List String))
  /-- the definition of a macro, with parameters if it takes any -/
  | definition (name : String) (args : Option (List String)) (body : String)
  /-- the message of an error directive -/
  | message (text : String)
  deriving DecidableEq, Repr, Inhabited, Ord

namespace Node

/-- The text of an argument list. -/
def argumentText : Option (List String) → String
  | none => ""
  | some args => "(" ++ ", ".intercalate args ++ ")"

/-- The text of a node. -/
def text : Node → String
  | .typeName name => name
  | .code text => text
  | .token _ value => value
  | .inclusion path true => "<" ++ path ++ ">"
  | .inclusion path false => "\"" ++ path ++ "\""
  | .expansion name args => name ++ argumentText args
  | .definition name args body =>
      "#define " ++ name ++ argumentText args ++ (if body.isEmpty then "" else " " ++ body)
  | .message text => "#error " ++ text

/-! ## JSON -/

/-- The title of a kind of node in messages. -/
def variantTitle (name : String) : String :=
  "struct variant MetaprogramNode::" ++ name

/-- A field with an argument list, absent when it is left out. -/
def argumentField : Field (Option (List String)) :=
  .withDefault "args" (.option (.list .string)) none

/-- Nodes as a union. -/
def union : Union Node where
  title := "internally tagged enum MetaprogramNode"
  tagName := "type"
  variants :=
    [{ tag := "type", title := variantTitle "Type"
       fields := .cons (.required "name" .string) .nil
       build := fun (name, _) => .typeName name
       split := fun | .typeName name => some (name, ()) | _ => none },
     { tag := "code", title := variantTitle "Code"
       fields := .cons (.required "code" .string) .nil
       build := fun (text, _) => .code text
       split := fun | .code text => some (text, ()) | _ => none },
     { tag := "token", title := variantTitle "Token"
       fields := .cons (.required "category" .string) (.cons (.required "value" .string) .nil)
       build := fun (category, value, _) => .token category value
       split := fun | .token category value => some (category, value, ()) | _ => none },
     { tag := "include", title := variantTitle "Include"
       fields := .cons (.required "path" .string) (.cons (.required "system" .bool) .nil)
       build := fun (path, system, _) => .inclusion path system
       split := fun | .inclusion path system => some (path, system, ()) | _ => none },
     { tag := "macro", title := variantTitle "Macro"
       fields := .cons (.required "name" .string) (.cons argumentField .nil)
       build := fun (name, args, _) => .expansion name args
       split := fun | .expansion name args => some (name, args, ()) | _ => none },
     { tag := "define", title := variantTitle "Define"
       fields := .cons (.required "name" .string) (.cons argumentField
         (.cons (.required "body" .string) .nil))
       build := fun (name, args, body, _) => .definition name args body
       split := fun | .definition name args body => some (name, args, body, ()) | _ => none },
     { tag := "message", title := variantTitle "Message"
       fields := .cons (.required "text" .string) .nil
       build := fun (text, _) => .message text
       split := fun | .message text => some (text, ()) | _ => none }]

/-- The codec of nodes. -/
def codec : Codec Node := union.codec

end Node

end TemplateTrace
