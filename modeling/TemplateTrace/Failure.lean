import TemplateTrace.Command.Arguments
import TemplateTrace.Recorder
import TemplateTrace.Trace
set_option autoImplicit false

/-!
# Failures

Why a command fails: a cause, and what was going on, the outermost first.  The cause alone decides
the category and the code of a failure, which stay the same whatever the wording.
-/

namespace TemplateTrace

/-- What was going on when something failed. -/
inductive Context where
  /-- the event of that number was recorded -/
  | event (number : Nat) (name : String)
  /-- a session was finished that had been abandoned -/
  | abandoned
  | readingTrace
  | replaying (path : String)
  /-- the cursor was moved, and came only so far -/
  | stepping (taken wanted : Nat)
  deriving DecidableEq, Repr, Inhabited

/-- The wording of what was going on. -/
def Context.message : Context → String
  | .event number name => s!"event #{number} ({name})"
  | .abandoned => "session abandoned"
  | .readingTrace => "failed to read trace"
  | .replaying path => s!"failed to replay trace {path}"
  | .stepping taken wanted => s!"metaprogram finished after {taken} of {wanted} steps"

/-- What failed. -/
inductive Cause where
  | record (fault : RecordFault)
  | step (fault : StepFault)
  | trace (fault : TraceFault)
  /-- an event was offered to a session that had been abandoned -/
  | abandoned (fault : RecordFault)
  | argument (fault : ArgumentFault)
  deriving DecidableEq, Repr, Inhabited

/-- The wordings of a cause and of what lies behind it. -/
def Cause.messages : Cause → List String
  | .record fault => [fault.message]
  | .step fault => [fault.message]
  | .trace fault => [fault.message, fault.sourceMessage]
  | .abandoned fault => ["session abandoned after structural fault: " ++ fault.message]
  | .argument fault => [fault.message]

/-- Why a command fails. -/
structure Failure where
  contexts : List Context
  cause : Cause
  deriving DecidableEq, Repr, Inhabited

namespace Failure

/-- A failure with nothing to say about what was going on. -/
def ofCause (cause : Cause) : Failure := ⟨[], cause⟩

/-- A failure during something else. -/
def during (f : Failure) (context : Context) : Failure :=
  { f with contexts := context :: f.contexts }

/-- All wordings of a failure, the outermost first. -/
def chain (f : Failure) : List String :=
  f.contexts.map Context.message ++ f.cause.messages

/-- The wording of a failure on one line. -/
def message (f : Failure) : String :=
  ": ".intercalate f.chain

end Failure

/-! ## Categories and codes -/

/-- The areas in which commands fail. -/
inductive Category where
  | build
  | step
  | ingest
  | io
  | args
  deriving DecidableEq, Repr, Inhabited

/-- The name of an area. -/
def Category.name : Category → String
  | .build => "build"
  | .step => "step"
  | .ingest => "ingest"
  | .io => "io"
  | .args => "args"

/-- The code of a fault of recording. -/
def RecordFault.code : RecordFault → String
  | .unbalancedEnd _ => "MTR-BLD-001"
  | .mismatchedEnd _ _ => "MTR-BLD-002"
  | .openEdgesAtEnd _ => "MTR-BLD-003"
  | .frozen => "MTR-BLD-004"
  | .capacityExceeded _ => "MTR-BLD-005"
  | .missingEvaluationEnd _ => "MTR-BLD-006"
  | .notATemplateKind _ => "MTR-BLD-007"

/-- The code of a fault of stepping. -/
def StepFault.code : StepFault → String
  | .finished => "MTR-STP-001"
  | .atStart => "MTR-STP-002"

/-- The code of a fault of a file. -/
def FileFault.code : FileFault → String
  | .notFound => "MTR-IO-001"
  | .permissionDenied | .notPermitted => "MTR-IO-002"
  | _ => "MTR-IO-003"

/-- The area and the code of a cause. -/
def Cause.classify : Cause → Category × String
  | .record fault => (.build, fault.code)
  | .step fault => (.step, fault.code)
  | .trace (.malformed _ _) => (.ingest, "MTR-ING-001")
  | .trace (.unopened _ source) | .trace (.unreadable _ source) => (.io, source.code)
  | .abandoned _ | .argument _ => (.args, "MTR-QRY-001")

namespace Failure

/-- The area in which a command failed. -/
def category (f : Failure) : Category := f.cause.classify.1

/-- The code of a failure. -/
def code (f : Failure) : String := f.cause.classify.2

end Failure

end TemplateTrace
