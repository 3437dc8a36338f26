import TemplateTrace.Trace
set_option autoImplicit false

/-!
# Files of a directory

Which file of a directory a path leads to.  Nothing is known of the world outside of the directory
but that it has directories; a path that goes there finds no file.
-/

namespace TemplateTrace

open Trace (Content)

/-- The files of a directory by name. -/
structure Files where
  entries : List (String × List UInt8)
  deriving Repr, Inhabited

namespace Files

/-- How many bytes a path may have. -/
def pathLimit : Nat := 4095

/-- How many bytes the name of a file may have. -/
def nameLimit : Nat := 255

/-- Where the beginning of a path leads. -/
inductive Place where
  /-- the directory itself -/
  | inside
  /-- another directory -/
  | outside
  | file (bytes : List UInt8)
  deriving DecidableEq, Repr, Inhabited

/-- Where a name leads from a place. -/
def enter (files : Files) (name : String) : Place → Except FileFault Place
  | .file _ => .error .notADirectory
  | .outside =>
      if name.isEmpty || name == "." || name == ".." then .ok .outside
      else if nameLimit < name.utf8ByteSize then .error .nameTooLong
      else .error .notFound
  | .inside =>
      if name.isEmpty || name == "." then .ok .inside
      else if name == ".." then .ok .outside
      else if nameLimit < name.utf8ByteSize then .error .nameTooLong
      else match files.entries.lookup name with
        | some bytes => .ok (.file bytes)
        | none => .error .notFound

/-- Where a path leads. -/
def resolve (files : Files) (path : String) : Except FileFault Place :=
  if path.contains '\x00' then .error .nameWithNul
  else if path.isEmpty then .error .notFound
  else if pathLimit < path.utf8ByteSize then .error .nameTooLong
  else
    let start := if path.startsWith "/" then Place.outside else .inside
    (path.splitOn "/").foldlM (fun place name => files.enter name place) start

/-- What is behind a path; a directory opens, but cannot be read. -/
def fetch (files : Files) (path : String) : Except FileFault Content := do
  match ← files.resolve path with
  | .file bytes => return .readable bytes
  | .inside | .outside => return .unreadable .isADirectory

end Files

end TemplateTrace
