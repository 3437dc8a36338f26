import TemplateTrace.Command.Arguments
import TemplateTrace.Command.Usage
import TemplateTrace.Report.Response
import TemplateTrace.Report.Tree
import TemplateTrace.Session
set_option autoImplicit false

/-!
# Answers of commands

What the program prints and how it exits, for given arguments.  A command reads one trace at most:
`Source` tells where that is, and what became of opening it is given to `Program.run`.
-/

namespace TemplateTrace

/-- Where a trace comes from. -/
inductive Source where
  | standardInput
  | file (path : String)
  deriving DecidableEq, Repr, Inhabited

namespace Source

/-- Where the trace at a path comes from.  The path `-`, also with separators and dots after it,
stands for the standard input. -/
def ofPath (path : String) : Source :=
  match path.splitOn "/" with
  | "-" :: rest =>
      if rest.all fun name => name.isEmpty || name == "." then .standardInput else .file path
  | _ => .file path

end Source

/-- What a run of the program prints, and the code it exits with. -/
structure Printout where
  exitCode : UInt32
  output : String
  errors : String
  deriving DecidableEq, Repr, Inhabited

namespace Printout

/-- The text of some lines. -/
def linesText (lines : List String) : String :=
  String.join (lines.map (· ++ "\n"))

/-- The lines of a run that does what it was asked to. -/
def success (output errors : List String) : Printout :=
  ⟨0, linesText output, linesText errors⟩

/-- The lines of a run that fails. -/
def failure (output errors : List String) : Printout :=
  ⟨1, linesText output, linesText errors⟩

end Printout

namespace Stepper

/-- Takes so many steps exactly; also gives the stepper after those that could be taken. -/
def stepExactly (n : Nat) (s : Stepper) : Stepper × Option Failure :=
  let (taken, after) := s.stepMany n
  if taken < n then
    (after, some ((Failure.ofCause (.step .finished)).during (.stepping taken n)))
  else (after, none)

/-- The stepper after so many steps exactly, unless there are fewer. -/
def afterSteps (n : Nat) (s : Stepper) : Except Failure Stepper :=
  match s.stepExactly n with
  | (after, none) => .ok after
  | (_, some failure) => .error failure

end Stepper

namespace Command

/-- The lines on the output and on the errors. -/
abbrev Lines := List String × List String

/-- A JSON value as a line in a format. -/
def jsonLine (format : Format) (j : Json) : String :=
  match format with
  | .pretty => j.pretty
  | .json | .human => j.compact

/-- The answer in JSON. -/
def enveloped (format : Format) (stamp : Report.Stamp) (data : Json) : Lines :=
  ([jsonLine format (Report.envelope stamp data)], [])

/-- The line in place of frames when there are none. -/
def finishedLine : String := "Metaprogram finished"

/-- Warns of a call tree in which some frames were not expanded. -/
def cycleWarning : String :=
  "warning: recursion cycle detected, repeated frames were not expanded"

/-- The outcome of an evaluation. -/
def answerEvaluate (format : Format) (stamp : Report.Stamp) (g : CallGraph) : Lines :=
  if format.isJson then
    enveloped format stamp (Report.Evaluation.codec.encode (.ofOutcome g.outcome))
  else ([Outcome.describe g.outcome], [])

/-- The call tree after some steps. -/
def answerForwardTrace (format : Format) (stamp : Report.Stamp) (maxDepth : Option Nat)
    (steps : Nat) (s : Stepper) : Lines :=
  let (nodes, walk) := s.callTree maxDepth
  if format.isJson then
    enveloped format stamp
      (Report.callTreeJson s.graph.mode maxDepth steps nodes walk.cycleDetected)
  else if nodes.isEmpty then ([finishedLine], [])
  else (Report.draw nodes, if walk.cycleDetected then [cycleWarning] else [])

/-- The backtrace after some steps. -/
def answerBacktrace (format : Format) (stamp : Report.Stamp) (steps : Nat) (s : Stepper) : Lines :=
  let frames := s.backtrace
  if format.isJson then
    enveloped format stamp (Report.backtraceJson steps s.cursor.isFinished frames)
  else if frames.isEmpty then ([finishedLine], [])
  else (Report.numberFrames frames, [])

/-- The size and the outcome of a graph. -/
def answerStatus (format : Format) (stamp : Report.Stamp) (g : CallGraph) : Lines :=
  let status := Report.Status.ofGraph g
  if format.isJson then enveloped format stamp (Report.Status.codec.encode status)
  else
    ([s!"mode: " ++ status.mode.name, s!"vertices: {status.vertices}", s!"edges: {status.edges}",
      s!"enabled_edges: {status.enabledEdges}", "result: " ++ Outcome.describe status.result], [])

/-- The answer of a command, given what became of opening its trace. -/
def answer (opened : Except FileFault Trace.Content) (stamp : Report.Stamp) :
    Command → Except Failure Lines
  | .evaluate o => do
      let s ← Session.load o.config o.trace opened
      return answerEvaluate o.format stamp s
  | .forwardTrace o maxDepth steps => do
      let s ← Session.load o.config o.trace opened
      let s ← s.afterSteps steps.toNat
      return answerForwardTrace o.format stamp (maxDepth.map UInt64.toNat) steps.toNat s
  | .backtrace o steps => do
      let s ← Session.load o.config o.trace opened
      let s ← s.afterSteps steps.toNat
      return answerBacktrace o.format stamp steps.toNat s
  | .status o => do
      let s ← Session.load o.config o.trace opened
      return answerStatus o.format stamp s
  | .help => .ok ([], usageLines)
  | .version => .ok ([versionLine], [])

/-- Where the trace of a command comes from. -/
def source? (c : Command) : Option Source :=
  c.options?.map fun o => .ofPath o.trace

end Command

namespace Program

/-- The lines that report a failure. -/
def report (format : Format) (f : Failure) : Command.Lines :=
  if format.isJson then
    ([Command.jsonLine format (Report.Complaint.codec.encode (.ofFailure f))], [])
  else ([], [s!"Error [" ++ f.code ++ "]: " ++ f.message])

/-- Where the trace comes from that the program reads for some arguments, if it reads any. -/
def source? (arguments : List String) : Option Source :=
  match Command.ofArguments arguments with
  | .error _ => none
  | .ok command => command.source?

/-- What the program prints for some arguments, given what became of opening the trace.  Arguments
that ask for nothing are answered with the usage, and so are those that cannot be understood. -/
def run (arguments : List String) (opened : Except FileFault Trace.Content)
    (stamp : Report.Stamp) : Printout :=
  if arguments.isEmpty then .failure [] Command.usageLines
  else
    let format := Command.reportFormat arguments
    match Command.ofArguments arguments with
    | .error fault =>
        let (output, errors) := report format (.ofCause (.argument fault))
        .failure output (if format.isJson then errors else errors ++ "" :: Command.usageLines)
    | .ok command =>
        match command.answer opened stamp with
        | .ok (output, errors) => .success output errors
        | .error failure =>
            let (output, errors) := report format failure
            .failure output errors

end Program

end TemplateTrace
