import TemplateTrace.Codec.Record
import TemplateTrace.Graph.Basic
set_option autoImplicit false

/-!
# Configuration

How one evaluation is recorded and walked.  Every setting may be left out.
-/

namespace TemplateTrace

/-- How one evaluation is recorded and walked. -/
structure Config where
  mode : Mode
  /-- whether frames of macros, includes and directives are shown -/
  preprocessor : Bool
  /-- how many frames are recorded at most -/
  capacity : Option UInt64
  /-- the text of the root frame -/
  rootName : String
  deriving DecidableEq, Repr

namespace Config

/-- The settings that hold when nothing is said. -/
def default : Config := ⟨.minimized, false, none, "<root>"⟩

instance : Inhabited Config := ⟨default⟩

/-- The codec of configurations. -/
def codec : Codec Config :=
  Record.codec {
    title := "struct SessionConfig"
    fields := .cons (.withDefault "mode" Mode.codec default.mode)
      (.cons (.withDefault "preprocessor_mode" .bool default.preprocessor)
      (.cons (.withDefault "trace_capacity" (.option .uint64) default.capacity)
      (.cons (.withDefault "root_name" .string default.rootName) .nil)))
    build := fun (mode, preprocessor, capacity, rootName, _) =>
      ⟨mode, preprocessor, capacity, rootName⟩
    split := fun c => (c.mode, c.preprocessor, c.capacity, c.rootName, ()) }

end Config

end TemplateTrace
