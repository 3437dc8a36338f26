import TemplateTrace.Codec.Choice
import TemplateTrace.Frame
import TemplateTrace.Outcome
set_option autoImplicit false

/-!
# Call graphs

The steps of one compile-time evaluation as a graph: a vertex for each thing that is evaluated, an
edge for each time one is reached.  Vertices and edges are only ever added, so a place that was
given out stays valid.  The first vertex is the root, which stands for the evaluation itself.  The
cursor that goes over a graph is kept beside it, in a stepper.

A call graph is walked in one of two modes.  The full mode enters a shared vertex each time it is
reached and so shows the exact shape of the calls; the minimized mode enters each vertex once.
-/

namespace TemplateTrace

/-! ## Modes -/

/-- How a call graph is walked. -/
inductive Mode where
  | full
  | minimized
  deriving DecidableEq, Repr

namespace Mode

instance : Inhabited Mode := ⟨.minimized⟩

/-- The name of a mode. -/
def name : Mode → String
  | .full => "full"
  | .minimized => "minimized"

/-- The mode a user asks for, in letters of either case; the minimized mode has two short names. -/
def ofWord? (word : String) : Option Mode :=
  let lower := word.toLower
  if lower == "full" then some .full
  else if lower == "minimized" || lower == "min" || lower == "normal" then some .minimized
  else none

/-- The modes by name. -/
def choice : Choice Mode := ⟨[.full, .minimized], name⟩

theorem named_name (m : Mode) : choice.named m.name = .ok m := by
  cases m <;> rfl

/-- The codec of modes. -/
def codec : Codec Mode := choice.codec

end Mode

/-! ## Graphs -/

/-- The steps of one compile-time evaluation. -/
structure CallGraph where
  mode : Mode
  vertices : Array Vertex
  edges : Array Edge
  /-- the edges that leave each vertex, in the order in which they were added -/
  outgoing : Array (Array EdgeId)
  /-- what the evaluation came to; the graph is frozen once this is known -/
  outcome : Option Outcome
  deriving DecidableEq, Repr, Inhabited

namespace CallGraph

/-- How many vertices, and how many edges, a graph holds at most. -/
def arenaLimit : Nat := 4294967295

/-- The graph of an evaluation that has just begun. -/
def start (mode : Mode) (rootName : String) (rootLocation : Location) : CallGraph where
  mode := mode
  vertices := #[⟨.code rootName, rootLocation⟩]
  edges := #[]
  outgoing := #[#[]]
  outcome := none

/-- The vertex that stands for the evaluation itself. -/
def root : VertexId := ⟨0⟩

/-- The vertex at a place. -/
def vertex (g : CallGraph) (v : VertexId) : Vertex :=
  g.vertices.getD v.index default

/-- The edge at a place. -/
def edge (g : CallGraph) (e : EdgeId) : Edge :=
  g.edges.getD e.index default

/-- Whether the evaluation has ended. -/
def isFrozen (g : CallGraph) : Bool := g.outcome.isSome

/-! ## Growing -/

/-- The graph with one more vertex, which no edge leaves yet; `Stepper.addVertex` gives the vertex a
mark and a parent as well. -/
def addVertex (g : CallGraph) (v : Vertex) : CallGraph :=
  { g with vertices := g.vertices.push v, outgoing := g.outgoing.push #[] }

/-- The graph with one more edge. -/
def addEdge (g : CallGraph) (e : Edge) : CallGraph :=
  { g with
    edges := g.edges.push e
    outgoing := g.outgoing.modify e.source.index (·.push ⟨UInt32.ofNat g.edges.size⟩) }

/-- The place that the next vertex takes, if there is room for one. -/
def nextVertex? (g : CallGraph) : Option VertexId :=
  if g.vertices.size < arenaLimit then some ⟨UInt32.ofNat g.vertices.size⟩ else none

/-- The place that the next edge takes, if there is room for one. -/
def nextEdge? (g : CallGraph) : Option EdgeId :=
  if g.edges.size < arenaLimit then some ⟨UInt32.ofNat g.edges.size⟩ else none

/-- The graph with an edge changed. -/
def modifyEdge (g : CallGraph) (e : EdgeId) (change : Edge → Edge) : CallGraph :=
  { g with edges := g.edges.modify e.index change }

/-! ## Looking around -/

/-- The edges that leave a vertex, in the order in which they were added. -/
def outEdges (g : CallGraph) (v : VertexId) : List EdgeId :=
  (g.outgoing.getD v.index #[]).toList

/-- The enabled edges that leave a vertex, in the order in which they were added. -/
def enabledOut (g : CallGraph) (v : VertexId) : List EdgeId :=
  (g.outEdges v).filter fun e => (g.edge e).enabled

/-- How many enabled edges leave a vertex. -/
def enabledDegree (g : CallGraph) (v : VertexId) : Nat :=
  (g.enabledOut v).length

/-- All vertex places. -/
def vertexIds (g : CallGraph) : List VertexId :=
  (List.range g.vertices.size).map fun i => ⟨UInt32.ofNat i⟩

/-- All edge places. -/
def edgeIds (g : CallGraph) : List EdgeId :=
  (List.range g.edges.size).map fun i => ⟨UInt32.ofNat i⟩

/-- All enabled edges. -/
def enabledEdges (g : CallGraph) : List EdgeId :=
  g.edgeIds.filter fun e => (g.edge e).enabled

/-! ## Enabling and disabling -/

/-- Enables or disables an edge. -/
def setEdgeEnabled (g : CallGraph) (e : EdgeId) (enabled : Bool) : CallGraph :=
  g.modifyEdge e fun edge => { edge with enabled }

/-- Enables or disables all edges of some kinds; also gives how many edges were changed by that. -/
def setKindEnabled (g : CallGraph) (kinds : Kind → Bool) (enabled : Bool) : CallGraph × Nat :=
  let changed := g.edges.countP fun e => kinds e.kind && e.enabled != enabled
  let edges := g.edges.map fun e => if kinds e.kind then { e with enabled } else e
  ({ g with edges }, changed)

/-- Shows or hides the frames of preprocessing. -/
def setPreprocessorEnabled (g : CallGraph) (enabled : Bool) : CallGraph × Nat :=
  g.setKindEnabled Kind.isPreprocessor enabled

end CallGraph

/-! ## Positions -/

/-- Where one may stand in a call graph: at the root, or at the end of an edge. -/
inductive Position where
  | root
  | edge (e : EdgeId)
  deriving DecidableEq, Repr, Inhabited

namespace CallGraph

/-- The vertex of a position. -/
def vertexAt (g : CallGraph) : Position → VertexId
  | .root => root
  | .edge e => (g.edge e).target

/-- The frame of a position. -/
def frameAt (g : CallGraph) : Position → Frame
  | .root => Frame.root (g.vertex root)
  | .edge e => Frame.ofEdge (g.edge e) (g.vertex (g.edge e).target)

/-- The frame of the evaluation itself. -/
def rootFrame (g : CallGraph) : Frame := g.frameAt .root

end CallGraph

end TemplateTrace
