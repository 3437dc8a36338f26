import TemplateTrace.Graph.Basic
set_option autoImplicit false

/-!
# The stepping cursor

A cursor goes over a call graph one frame at a time, depth first, as the `step` command of a
debugger does.  It marks the vertices it has entered and remembers the edge by which each was
entered last.  A stepper keeps the earlier cursors, so that every step can be taken back.

A backtrace gives the frames from the current position back to the root, innermost first, along the
edges by which the vertices were entered.  More edges than the graph has cannot be on such a way, so
it is cut off then; `Cursor.backtrace` is total without looking for loops.
-/

namespace TemplateTrace

/-- How far a walk over a call graph has come. -/
structure Cursor where
  /-- which vertices were entered -/
  discovered : Array Bool
  /-- the edge by which each vertex was entered last -/
  parents : Array (Option EdgeId)
  /-- the positions that wait to be entered, the next one first -/
  pending : List Position
  deriving DecidableEq, Repr, Inhabited

namespace Cursor

/-- The cursor before the first step over so many vertices. -/
def start (vertexCount : Nat) : Cursor :=
  ⟨Array.replicate vertexCount false, Array.replicate vertexCount none, [.root]⟩

/-- The cursor when there is one more vertex, which it has not entered. -/
def addVertex (c : Cursor) : Cursor :=
  { c with discovered := c.discovered.push false, parents := c.parents.push none }

/-- A cursor with blank entries for further vertices, so that it has those of so many. -/
def grownTo (c : Cursor) (vertexCount : Nat) : Cursor :=
  if c.discovered.size < vertexCount then
    { c with
      discovered := c.discovered ++ Array.replicate (vertexCount - c.discovered.size) false
      parents := c.parents ++ Array.replicate (vertexCount - c.parents.size) none }
  else c

/-- The position that the next step enters. -/
def current (c : Cursor) : Option Position := c.pending.head?

/-- Whether no position is left. -/
def isFinished (c : Cursor) : Bool := c.pending.isEmpty

/-- Whether a vertex was entered. -/
def isDiscovered (c : Cursor) (v : VertexId) : Bool :=
  c.discovered.getD v.index false

/-- The edge by which a vertex was entered last, as a position; the root has none. -/
def parent (c : Cursor) (v : VertexId) : Position :=
  match c.parents.getD v.index none with
  | none => .root
  | some e => .edge e

end Cursor

/-- The edge of a position, if it has one. -/
def Position.edge? : Position → Option EdgeId
  | .root => none
  | .edge e => some e

/-- Why a step could not be taken. -/
inductive StepFault where
  | finished
  | atStart
  deriving DecidableEq, Repr, Inhabited

/-- The wording of a fault. -/
def StepFault.message : StepFault → String
  | .finished => "metaprogram finished: no more frames to step into"
  | .atStart => "metaprogram at start: cannot step back"

/-- A call graph with a cursor and the cursors before it, the last one first. -/
structure Stepper where
  graph : CallGraph
  cursor : Cursor
  history : List Cursor
  deriving DecidableEq, Repr, Inhabited

/-- A stepper stands for its graph where one is asked for. -/
instance : Coe Stepper CallGraph := ⟨Stepper.graph⟩

namespace Stepper

/-- A graph of which no step was taken. -/
def start (g : CallGraph) : Stepper :=
  ⟨g, Cursor.start g.vertices.size, []⟩

/-- The stepper when there is one more vertex, which no edge leaves yet and which the cursor has not
entered. -/
def addVertex (s : Stepper) (v : Vertex) : Stepper :=
  { s with graph := s.graph.addVertex v, cursor := s.cursor.addVertex }

@[simp] theorem addVertex_graph (s : Stepper) (v : Vertex) :
    (s.addVertex v).graph = s.graph.addVertex v := rfl

/-! ## Steps -/

/-- Whether the vertex of the current position is entered: always in full mode, and the first time
in minimized mode. -/
def enters (s : Stepper) (v : VertexId) : Bool :=
  s.graph.mode == .full || !s.cursor.isDiscovered v

/-- The edges that wait to be entered after a vertex: all enabled ones that leave it in full mode,
and those to vertices not entered before in minimized mode. -/
def children (s : Stepper) (v : VertexId) : List EdgeId :=
  (s.graph.enabledOut v).filter fun e => s.enters (s.graph.edge e).target

/-- The cursor after entering a position, `later` positions being left. -/
def cursorAfter (s : Stepper) (here : Position) (later : List Position) : Cursor :=
  let v := s.graph.vertexAt here
  if s.enters v then
    { discovered := s.cursor.discovered.setIfInBounds v.index true
      parents := s.cursor.parents.setIfInBounds v.index here.edge?
      pending := (s.children v).map Position.edge ++ later }
  else { s.cursor with pending := later }

/-- The stepper after a step, and why the step was refused if it was. -/
def advance (s : Stepper) : Stepper × Option StepFault :=
  match s.cursor.pending with
  | [] => (s, some .finished)
  | here :: later =>
      ({ s with cursor := s.cursorAfter here later, history := s.cursor :: s.history }, none)

/-- The stepper after the last step is taken back, and why that was refused if it was. -/
def retreat (s : Stepper) : Stepper × Option StepFault :=
  match s.history with
  | [] => (s, some .atStart)
  | before :: history =>
      ({ s with cursor := before.grownTo s.graph.vertices.size, history }, none)

/-- What a move comes to that may be refused. -/
def unlessRefused : Stepper × Option StepFault → Except StepFault Stepper
  | (after, none) => .ok after
  | (_, some fault) => .error fault

/-- The stepper after a step, unless that is refused. -/
def step (s : Stepper) : Except StepFault Stepper := unlessRefused s.advance

/-- The stepper after the last step is taken back, unless that is refused. -/
def stepBack (s : Stepper) : Except StepFault Stepper := unlessRefused s.retreat

/-- The stepper after so many steps, or fewer if there are no more. -/
def stepUpTo (s : Stepper) : Nat → Stepper
  | 0 => s
  | n + 1 =>
      match s.advance with
      | (next, none) => next.stepUpTo n
      | (same, some _) => same

/-- How many steps were taken and not taken back. -/
def stepsTaken (s : Stepper) : Nat := s.history.length

/-- Takes so many steps, or fewer if there are no more; also gives how many were taken. -/
def stepMany (n : Nat) (s : Stepper) : Nat × Stepper :=
  let after := s.stepUpTo n
  (after.stepsTaken - s.stepsTaken, after)

/-- Takes all steps back at once. -/
def reset (s : Stepper) : Stepper := start s.graph

/-- Whether no step is there to take back. -/
def isAtStart (s : Stepper) : Bool := s.history.isEmpty

/-! ## The current position -/

/-- The edge of the current position. -/
def currentEdge (s : Stepper) : Option EdgeId :=
  s.cursor.current.bind Position.edge?

/-- The frame of the current position. -/
def currentFrame (s : Stepper) : Option Frame :=
  s.cursor.current.map s.graph.frameAt

/-- Changes the graph under the cursor, which keeps its place. -/
def onGraph (s : Stepper) (change : CallGraph → CallGraph) : Stepper :=
  { s with graph := change s.graph }

end Stepper

/-! ## Backtraces -/

namespace Cursor

/-- The frames from a position back to the root, over at most so many edges. -/
def framesFrom (c : Cursor) (g : CallGraph) : Nat → Position → List Frame
  | _, .root => [g.rootFrame]
  | 0, .edge _ => [g.rootFrame]
  | n + 1, .edge e => g.frameAt (.edge e) :: c.framesFrom g n (c.parent (g.edge e).source)

/-- The frames from the current position back to the root; none when the cursor has finished. -/
def backtrace (c : Cursor) (g : CallGraph) : List Frame :=
  match c.current with
  | none => []
  | some here => c.framesFrom g (g.edges.size + 1) here

end Cursor

/-- The frames from the current position back to the root. -/
def Stepper.backtrace (s : Stepper) : List Frame :=
  s.cursor.backtrace s.graph

end TemplateTrace
