import Std.Data.TreeMap
import TemplateTrace.Config
import TemplateTrace.Event.Action
import TemplateTrace.Graph.Cursor
set_option autoImplicit false

/-!
# The recorder

A recorder takes the events of a trace one at a time and grows a call graph from them.  The open
steps tell who called whom: a step is reached from the innermost one that is open.  The template
keys met so far tell which template steps are the same: these share a vertex, and every other step
has a vertex of its own.  The graph grows under its cursor, which gets a blank mark and a blank
parent for each new vertex.

A refused event leaves the recorder as it was, except that the last vertex stays when there is no
room left for an edge (`record_refused`).
-/

namespace TemplateTrace

/-! ## Faults -/

/-- Why an event, or the end of a trace, is refused. -/
inductive RecordFault where
  /-- nothing is open that could be closed -/
  | unbalancedEnd (closing : Closing)
  /-- what is open is of a kind that is closed in another way -/
  | mismatchedEnd (closing : Closing) (opened : Kind)
  /-- the evaluation ended with so many steps open -/
  | openEdgesAtEnd (count : Nat)
  /-- the evaluation has ended before -/
  | frozen
  /-- there is room for so many steps only -/
  | capacityExceeded (capacity : Nat)
  /-- a template step has a kind that belongs to preprocessing -/
  | notATemplateKind (kind : Kind)
  /-- the trace ended before the evaluation, with so many steps open -/
  | missingEvaluationEnd (count : Nat)
  deriving DecidableEq, Repr, Inhabited

/-- The wording of a fault. -/
def RecordFault.message : RecordFault → String
  | .unbalancedEnd closing =>
      "unbalanced trace: `" ++ closing.text ++ "` without a matching begin event"
  | .mismatchedEnd closing opened =>
      "mismatched trace: `" ++ closing.text ++ "` closes an edge opened by " ++ opened.text
  | .openEdgesAtEnd count => s!"evaluation ended with {count} open edge(s)"
  | .frozen => "metaprogram is frozen: evaluation already ended"
  | .capacityExceeded capacity => s!"trace capacity of {capacity} events exceeded"
  | .notATemplateKind kind => "`" ++ kind.text ++ "` is not a template evaluation kind"
  | .missingEvaluationEnd count =>
      s!"trace ended without an evaluation_end event ({count} open edge(s))"

/-! ## Recorders -/

/-- A call graph that grows, with its cursor. -/
structure Recorder extends Stepper where
  /-- the edges of the open steps, innermost first -/
  openEdges : List EdgeId
  /-- the vertices of the template steps met so far -/
  elements : Std.TreeMap TemplateKey VertexId
  /-- whether edges of preprocessing are enabled as they are added -/
  preprocessor : Bool
  /-- how many edges are added at most -/
  capacity : Option UInt64

namespace Recorder

/-- A recorder before the first event. -/
def start (config : Config) (rootLocation : Location) : Recorder where
  graph := .start config.mode config.rootName rootLocation
  cursor := (Cursor.start 0).addVertex
  history := []
  openEdges := []
  elements := ∅
  preprocessor := config.preprocessor
  capacity := config.capacity

/-! ## Arriving at a step -/

/-- The fault of adding an edge when the recorder has added as many as it may. -/
def overflow? (r : Recorder) : Option RecordFault :=
  match r.capacity with
  | some capacity =>
      if capacity.toNat ≤ r.graph.edges.size then some (.capacityExceeded capacity.toNat) else none
  | none => none

/-- Why an arrival is refused, whatever room there is in the graph.  Template steps must have a kind
of templates. -/
def refusal? (r : Recorder) (a : Arrival) : Option RecordFault :=
  if r.graph.isFrozen then some .frozen
  else
    r.overflow?.or
      (if a.key?.isSome && !a.kind.isTemplate then some (.notATemplateKind a.kind) else none)

/-- The vertex of a template step that was met before. -/
def known? (r : Recorder) (a : Arrival) : Option VertexId :=
  a.key?.bind fun key => r.elements.get? key

/-- The vertex that an arrival is at, if there is room for it. -/
def target? (r : Recorder) (a : Arrival) : Option VertexId :=
  (r.known? a).or r.graph.nextVertex?

/-- The recorder with a vertex for an arrival. -/
def withVertex (r : Recorder) (a : Arrival) (v : VertexId) : Recorder :=
  match r.known? a with
  | some _ => r
  | none =>
      { r with
        toStepper := r.toStepper.addVertex ⟨a.node, a.location⟩
        elements := match a.key? with
          | some key => r.elements.insert key v
          | none => r.elements }

/-- The vertex from which a step is reached: that of the innermost open step, or the root. -/
def caller (r : Recorder) : VertexId :=
  match r.openEdges with
  | [] => CallGraph.root
  | e :: _ => (r.graph.edge e).target

/-- The edge of an arrival at a vertex. -/
def edgeFor (r : Recorder) (a : Arrival) (target : VertexId) : Edge where
  source := r.caller
  target := target
  kind := a.kind
  pointOfEvent := a.pointOfEvent
  began := a.timestamp
  ended := if a.opens then none else some a.timestamp
  condition := none
  enabled := a.kind.isTemplate || r.preprocessor

/-- The recorder with the edge of an arrival at a vertex, which takes the place `e`. -/
def withEdge (r : Recorder) (a : Arrival) (target : VertexId) (e : EdgeId) : Recorder :=
  { r with
    graph := r.graph.addEdge (r.edgeFor a target)
    openEdges := if a.opens then e :: r.openEdges else r.openEdges }

/-- The recorder after an arrival, and why the arrival was refused if it was. -/
def arrive (r : Recorder) (a : Arrival) : Recorder × Option RecordFault :=
  match r.refusal? a with
  | some fault => (r, some fault)
  | none =>
      match r.target? a with
      | none => (r, some (.capacityExceeded CallGraph.arenaLimit))
      | some target =>
          let placed := r.withVertex a target
          match placed.graph.nextEdge? with
          | none => (placed, some (.capacityExceeded CallGraph.arenaLimit))
          | some e => (placed.withEdge a target e, none)

/-! ## Closing a step and finishing -/

/-- An edge that ends. -/
def closeEdge (timestamp : Float) (condition : Option Bool) (e : Edge) : Edge :=
  { e with ended := some timestamp, condition }

/-- The recorder after the innermost step is closed, and why that was refused if it was. -/
def close (r : Recorder) (closing : Closing) (timestamp : Float) (condition : Option Bool) :
    Recorder × Option RecordFault :=
  if r.graph.isFrozen then (r, some .frozen)
  else match r.openEdges with
    | [] => (r, some (.unbalancedEnd closing))
    | e :: outer =>
        let opened := (r.graph.edge e).kind
        if closing.closes opened then
          ({ r with
             graph := r.graph.modifyEdge e (closeEdge timestamp condition)
             openEdges := outer }, none)
        else (r, some (.mismatchedEnd closing opened))

/-- The recorder after the evaluation ends, and why that was refused if it was. -/
def finish (r : Recorder) (outcome : Outcome) : Recorder × Option RecordFault :=
  if r.graph.isFrozen then (r, some .frozen)
  else if r.openEdges.isEmpty then
    ({ r with graph := { r.graph with outcome := some outcome } }, none)
  else (r, some (.openEdgesAtEnd r.openEdges.length))

/-! ## Events -/

/-- The recorder after an event, and why the event was refused if it was. -/
def record (r : Recorder) (event : Event) : Recorder × Option RecordFault :=
  match event.action with
  | .arrive a => r.arrive a
  | .close closing timestamp condition => r.close closing timestamp condition
  | .finish outcome => r.finish outcome

/-- The recorder after some events, and the first fault if there is one; the events after it are
not looked at. -/
def recordAll (r : Recorder) : List Event → Recorder × Option RecordFault
  | [] => (r, none)
  | event :: rest =>
      match r.record event with
      | (after, none) => after.recordAll rest
      | refused => refused

/-! ## Refused events -/

@[simp] theorem withVertex_edges (r : Recorder) (a : Arrival) (v : VertexId) :
    (r.withVertex a v).graph.edges = r.graph.edges := by
  unfold withVertex
  split <;> rfl

theorem arrive_refused (r : Recorder) (a : Arrival)
    (room : r.graph.edges.size < CallGraph.arenaLimit) (h : (r.arrive a).2 ≠ none) :
    (r.arrive a).1 = r := by
  unfold arrive at h ⊢
  cases refused : r.refusal? a with
  | some fault => rfl
  | none =>
    cases found : r.target? a with
    | none => rfl
    | some target => simp [refused, found, CallGraph.nextEdge?, room] at h

theorem close_refused (r : Recorder) (closing : Closing) (timestamp : Float)
    (condition : Option Bool) (h : (r.close closing timestamp condition).2 ≠ none) :
    (r.close closing timestamp condition).1 = r := by
  unfold close at h ⊢
  by_cases frozen : r.graph.isFrozen = true
  · simp [frozen]
  · cases openEdges : r.openEdges with
    | nil => simp [frozen]
    | cons e outer =>
      by_cases closes : closing.closes (r.graph.edge e).kind = true
      · simp [frozen, openEdges, closes] at h
      · simp [frozen, closes]

theorem finish_refused (r : Recorder) (outcome : Outcome) (h : (r.finish outcome).2 ≠ none) :
    (r.finish outcome).1 = r := by
  unfold finish at h ⊢
  by_cases frozen : r.graph.isFrozen = true
  · simp [frozen]
  · by_cases openEdges : r.openEdges.isEmpty = true
    · simp [frozen, openEdges] at h
    · simp [frozen, openEdges]

/-- A refused event leaves the recorder as it was while there is room for an edge. -/
theorem record_refused (r : Recorder) (event : Event)
    (room : r.graph.edges.size < CallGraph.arenaLimit) (h : (r.record event).2 ≠ none) :
    (r.record event).1 = r := by
  unfold record at h ⊢
  cases action : event.action with
  | arrive a => exact r.arrive_refused a room (by simpa [action] using h)
  | close closing timestamp condition =>
    exact r.close_refused closing timestamp condition (by simpa [action] using h)
  | finish outcome => exact r.finish_refused outcome (by simpa [action] using h)

end Recorder

end TemplateTrace
