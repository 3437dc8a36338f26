import TemplateTrace.Failure
set_option autoImplicit false

/-!
# Sessions

A session records one evaluation.  The first refused event abandons it: every later event is
refused, and no graph comes of it.  `Session.replay` runs a whole trace through a session and stops
at the first item that gives no event or is refused.
-/

namespace TemplateTrace

/-- The recording of one evaluation. -/
structure Session where
  recorder : Recorder
  /-- how many events were recorded -/
  events : Nat
  /-- the fault that abandoned the session -/
  fault : Option RecordFault

namespace Session

/-- A session before the first event. -/
def start (config : Config) : Session :=
  ⟨.start config .unknown, 0, none⟩

/-- The graph recorded so far. -/
def graph (s : Session) : CallGraph := s.recorder.graph

/-- The session after an event, and why the event was refused if it was. -/
def apply (s : Session) (event : Event) : Session × Option Failure :=
  match s.fault with
  | some fault => (s, some (.ofCause (.abandoned fault)))
  | none =>
      match s.recorder.record event with
      | (recorder, none) => ({ s with recorder, events := s.events + 1 }, none)
      | (recorder, some fault) =>
          ({ s with recorder, fault := some fault },
            some ((Failure.ofCause (.record fault)).during (.event (s.events + 1) event.name)))

/-- The graph of an evaluation that has ended, with its cursor. -/
def finish (s : Session) : Except Failure Stepper :=
  match s.fault with
  | some fault => .error ((Failure.ofCause (.record fault)).during .abandoned)
  | none =>
      if s.graph.isFrozen then .ok s.recorder.toStepper
      else
        .error (.ofCause (.record (.missingEvaluationEnd s.recorder.openEdges.length)))

/-- The graph after what is left of a trace. -/
def replayFrom (s : Session) : List TraceItem → Except Failure Stepper
  | [] => s.finish
  | .error fault :: _ => .error ((Failure.ofCause (.trace fault)).during .readingTrace)
  | .ok event :: rest =>
      match s.apply event with
      | (after, none) => after.replayFrom rest
      | (_, some failure) => .error failure

/-- The graph of a whole trace. -/
def replay (config : Config) (items : List TraceItem) : Except Failure Stepper :=
  (start config).replayFrom items

/-- The graph of the trace at a path, given what became of opening it. -/
def load (config : Config) (path : String) (opened : Except FileFault Trace.Content) :
    Except Failure Stepper :=
  match opened with
  | .error fault => .error (.ofCause (.trace (.unopened path fault)))
  | .ok content => (replay config content.items).mapError (·.during (.replaying path))

end Session

end TemplateTrace
