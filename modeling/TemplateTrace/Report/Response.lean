import TemplateTrace.Failure
import TemplateTrace.FrameId
import TemplateTrace.Graph.CallTree
import TemplateTrace.Outcome
set_option autoImplicit false

/-!
# Responses

What commands answer in JSON.  An envelope around each answer tells the version of its schema and
which run it comes from, so that a reader can notice changes and match runs.
-/

namespace TemplateTrace.Report

/-! ## Answers that can be read back -/

/-- The outcome of an evaluation. -/
structure Evaluation where
  /-- absent while the evaluation has not ended -/
  result : Option Outcome
  isError : Bool
  deriving DecidableEq, Repr, Inhabited

namespace Evaluation

/-- The answer about an outcome. -/
def ofOutcome (outcome : Option Outcome) : Evaluation :=
  ⟨outcome, outcome.any Outcome.isError⟩

/-- The codec of these answers. -/
def codec : Codec Evaluation :=
  Record.codec {
    title := "struct EvaluateResponse"
    fields := .cons (.optional "result" Outcome.codec) (.cons (.required "is_error" .bool) .nil)
    build := fun (result, isError, _) => ⟨result, isError⟩
    split := fun e => (e.result, e.isError, ()) }

end Evaluation

/-- The size and the outcome of a call graph. -/
structure Status where
  mode : Mode
  vertices : UInt64
  edges : UInt64
  /-- how many edges are shown -/
  enabledEdges : UInt64
  result : Option Outcome
  deriving DecidableEq, Repr, Inhabited

namespace Status

/-- The status of a call graph. -/
def ofGraph (g : CallGraph) : Status where
  mode := g.mode
  vertices := .ofNat g.vertices.size
  edges := .ofNat g.edges.size
  enabledEdges := .ofNat g.enabledEdges.length
  result := g.outcome

/-- The codec of a status, which leaves out an absent outcome. -/
def codec : Codec Status :=
  Record.codec {
    title := "struct StatusResponse"
    fields := .cons (.required "mode" Mode.codec) (.cons (.required "vertices" .uint64)
      (.cons (.required "edges" .uint64) (.cons (.required "enabled_edges" .uint64)
      (.cons { Field.optional "result" Outcome.codec with hides := Option.isNone } .nil))))
    build := fun (mode, vertices, edges, enabledEdges, result, _) =>
      ⟨mode, vertices, edges, enabledEdges, result⟩
    split := fun s => (s.mode, s.vertices, s.edges, s.enabledEdges, s.result, ()) }

end Status

/-- A failure as an answer. -/
structure Complaint where
  category : String
  code : String
  message : String
  deriving DecidableEq, Repr, Inhabited

namespace Complaint

/-- The answer about a failure. -/
def ofFailure (f : Failure) : Complaint :=
  ⟨f.category.name, f.code, f.message⟩

/-- The codec of these answers. -/
def codec : Codec Complaint :=
  Record.codec {
    title := "struct ErrorResponse"
    fields := .cons (.required "error" .string)
      (.cons (.required "code" .string) (.cons (.required "message" .string) .nil))
    build := fun (category, code, message, _) => ⟨category, code, message⟩
    split := fun c => (c.category, c.code, c.message, ()) }

end Complaint

/-! ## Answers about frames -/

/-- A node of a call tree with the identity of its step. -/
def nodeJson (node : CallNode) : Json :=
  .object [("frame_id", .string node.frame.id), ("frame", Frame.codec.encode node.frame),
    ("depth", .nat node.depth), ("children", .nat node.children)]

/-- The answer about a call tree below the position after some steps. -/
def callTreeJson (mode : Mode) (maxDepth : Option Nat) (steps : Nat) (nodes : List CallNode)
    (cycleDetected : Bool) : Json :=
  .object <|
    [("mode", Mode.codec.encode mode)]
    ++ (maxDepth.map fun depth => ("max_depth", Json.nat depth)).toList
    ++ [("steps", .nat steps), ("nodes", .array (nodes.map nodeJson)),
      ("cycle_detected", .bool cycleDetected)]

/-- The answer about the backtrace after some steps. -/
def backtraceJson (steps : Nat) (finished : Bool) (frames : List Frame) : Json :=
  .object [("steps", .nat steps), ("finished", .bool finished),
    ("frames", .array (frames.map Frame.codec.encode))]

/-! ## The envelope -/

/-- What tells one run of a command from another. -/
structure Stamp where
  executionId : String
  timestamp : String
  deriving DecidableEq, Repr, Inhabited

/-- The version of the schema of all answers. -/
def schemaVersion : String := "1.0.0"

/-- An answer in its envelope. -/
def envelope (stamp : Stamp) (data : Json) : Json :=
  .object [("schema_version", .string schemaVersion), ("execution_id", .string stamp.executionId),
    ("tool", .string "metatrace"), ("timestamp", .string stamp.timestamp), ("data", data)]

end TemplateTrace.Report
