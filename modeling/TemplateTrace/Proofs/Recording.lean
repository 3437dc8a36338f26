import TemplateTrace.Proofs.Graph.WellFormed
import TemplateTrace.Recorder
import Mathlib.Data.List.Induction
set_option autoImplicit false

/-!
# What recording keeps

`Recorder.WellFormed` says what holds of every recorder: its graph is well formed, the open edges
are edges of it, the vertex of a template key carries that key, and the cursor stands before the
first step over the vertices that there are.  `Recorder.Arrived` says what an arrival changes that
is not refused; what comes of the other events is in `exists_of_close_eq` and `exists_of_finish_eq`.
-/

namespace TemplateTrace

theorem Arrival.key?_eq_some {a : Arrival} {key : TemplateKey} (h : a.key? = some key) :
    a.node = .typeName key.name ∧ a.location = key.location := by
  obtain ⟨kind, node, location, point, timestamp, opens⟩ := a
  cases node with
  | typeName name =>
    simp only [Arrival.key?, Option.some.injEq] at h
    subst h
    exact ⟨rfl, rfl⟩
  | _ => simp [Arrival.key?] at h

/-! ## The cursor -/

/-- The cursor before the first step over one more vertex has one more vertex that was not
entered. -/
theorem Cursor.start_succ (n : Nat) : start (n + 1) = (start n).addVertex := by
  simp only [start, addVertex, Array.replicate_succ]

/-- Before the first step a new vertex comes to the same as having had it all the time. -/
theorem Stepper.addVertex_start (g : CallGraph) (v : Vertex) :
    (start g).addVertex v = start (g.addVertex v) := by
  simp only [start, addVertex, CallGraph.addVertex, Array.size_push, Cursor.start_succ]

/-- Before the first step the cursor depends on the number of vertices alone. -/
theorem Stepper.withGraph_start {g other : CallGraph}
    (same : other.vertices.size = g.vertices.size) :
    { start g with graph := other } = start other := by
  simp only [start, same]

namespace Recorder

/-- The graph is well formed, the open edges are edges of it, the vertex of a template key carries
that key, and the cursor is the one before the first step. -/
structure WellFormed (r : Recorder) : Prop where
  graph : r.graph.WellFormed
  opened : ∀ e ∈ r.openEdges, e.index < r.graph.edges.size
  elements : ∀ key v, r.elements.get? key = some v →
    r.graph.vertices[v.index]? = some ⟨.typeName key.name, key.location⟩
  unmoved : r.toStepper = .start r.graph

theorem start_wellFormed (config : Config) (rootLocation : Location) :
    (start config rootLocation).WellFormed where
  graph := .start config.mode config.rootName rootLocation
  opened := by simp [start]
  elements := by simp [start]
  unmoved := rfl

/-- The cursor has an entry for every vertex. -/
theorem WellFormed.fits {r : Recorder} (wf : r.WellFormed) : r.cursor.Fits r.graph := by
  have cursor : r.cursor = Cursor.start r.graph.vertices.size := congrArg (·.cursor) wf.unmoved
  rw [cursor]
  exact Cursor.fits_start r.graph

/-- The cursor does not look at edges. -/
theorem WellFormed.unmoved_withGraph {r : Recorder} (wf : r.WellFormed) {other : CallGraph}
    (same : other.vertices.size = r.graph.vertices.size) :
    { r.toStepper with graph := other } = Stepper.start other := by
  rw [wf.unmoved]
  exact Stepper.withGraph_start same

/-! ## Vertices of arrivals -/

/-- An arrival at a step met before leaves the recorder as it is, and any other adds a vertex. -/
theorem withVertex_cases {r : Recorder} {a : Arrival} {target : VertexId}
    (h : r.target? a = some target) :
    (∃ key, a.key? = some key ∧ r.elements.get? key = some target ∧ r.withVertex a target = r)
      ∨ (r.graph.vertices.size < CallGraph.arenaLimit
        ∧ target = ⟨UInt32.ofNat r.graph.vertices.size⟩
        ∧ (r.withVertex a target).toStepper = r.toStepper.addVertex ⟨a.node, a.location⟩
        ∧ (r.withVertex a target).elements = match a.key? with
          | some key => r.elements.insert key target
          | none => r.elements) := by
  unfold target? at h
  cases known : r.known? a with
  | some v =>
    obtain ⟨key, hkey, found⟩ := Option.bind_eq_some_iff.1 known
    have same : v = target := by simpa [known] using h
    refine .inl ⟨key, hkey, same ▸ found, ?_⟩
    simp [withVertex, known]
  | none =>
    have fresh : r.graph.nextVertex? = some target := by simpa [known] using h
    unfold CallGraph.nextVertex? at fresh
    obtain ⟨room, same⟩ := Option.ite_none_right_eq_some.1 fresh
    refine .inr ⟨room, (Option.some.inj same).symm, ?_, ?_⟩
    · simp [withVertex, known]
    · cases keyed : a.key? <;> simp [withVertex, known, keyed]

@[simp] theorem withVertex_openEdges (r : Recorder) (a : Arrival) (v : VertexId) :
    (r.withVertex a v).openEdges = r.openEdges := by
  unfold withVertex
  split <;> rfl

@[simp] theorem withVertex_capacity (r : Recorder) (a : Arrival) (v : VertexId) :
    (r.withVertex a v).capacity = r.capacity := by
  unfold withVertex
  split <;> rfl

@[simp] theorem withVertex_preprocessor (r : Recorder) (a : Arrival) (v : VertexId) :
    (r.withVertex a v).preprocessor = r.preprocessor := by
  unfold withVertex
  split <;> rfl

@[simp] theorem withVertex_outcome (r : Recorder) (a : Arrival) (v : VertexId) :
    (r.withVertex a v).graph.outcome = r.graph.outcome := by
  unfold withVertex
  split <;> rfl

theorem withVertex_edgeFor (r : Recorder) (a : Arrival) (v target : VertexId) :
    (r.withVertex a v).edgeFor a target = r.edgeFor a target := by
  simp [edgeFor, caller, CallGraph.edge]

/-- A new vertex takes the place that is given out for it. -/
theorem addVertex_getElem?_last {g : CallGraph} (wf : g.WellFormed) (v : Vertex) :
    (g.addVertex v).vertices[(⟨UInt32.ofNat g.vertices.size⟩ : VertexId).index]? = some v := by
  rw [VertexId.index_ofNat wf.vertexRoom]
  simp [CallGraph.addVertex]

theorem addVertex_getElem?_of_some {g : CallGraph} (v : Vertex) {i : Nat} {old : Vertex}
    (h : g.vertices[i]? = some old) : (g.addVertex v).vertices[i]? = some old := by
  have within : i < g.vertices.size := (Array.getElem?_eq_some_iff.1 h).1
  rw [CallGraph.addVertex, Array.getElem?_push, if_neg (Nat.ne_of_lt within), h]

/-- The vertices of a graph stay where they are. -/
theorem withVertex_getElem?_of_some {r : Recorder} {a : Arrival} {target : VertexId}
    (h : r.target? a = some target) {i : Nat} {old : Vertex}
    (found : r.graph.vertices[i]? = some old) :
    (r.withVertex a target).graph.vertices[i]? = some old := by
  rcases withVertex_cases h with ⟨-, -, -, same⟩ | ⟨-, -, stepper, -⟩
  · rw [same, found]
  · rw [stepper, Stepper.addVertex_graph, addVertex_getElem?_of_some _ found]

/-- The vertex of an arrival carries what the arrival is at. -/
theorem withVertex_getElem?_target {r : Recorder} (wf : r.WellFormed) {a : Arrival}
    {target : VertexId} (h : r.target? a = some target) :
    (r.withVertex a target).graph.vertices[target.index]? = some ⟨a.node, a.location⟩ := by
  rcases withVertex_cases h with ⟨key, hkey, found, same⟩ | ⟨-, rfl, stepper, -⟩
  · obtain ⟨node, location⟩ := Arrival.key?_eq_some hkey
    rw [same, wf.elements key target found, node, location]
  · rw [stepper, Stepper.addVertex_graph, addVertex_getElem?_last wf.graph]

theorem withVertex_wellFormed {r : Recorder} (wf : r.WellFormed) {a : Arrival} {target : VertexId}
    (h : r.target? a = some target) : (r.withVertex a target).WellFormed := by
  rcases withVertex_cases h with ⟨-, -, -, same⟩ | ⟨room, last, stepper, elements⟩
  · rw [same]
    exact wf
  · have graph : (r.withVertex a target).graph = r.graph.addVertex ⟨a.node, a.location⟩ :=
      congrArg Stepper.graph stepper
    refine ⟨graph ▸ wf.graph.addVertex _ room, ?_, ?_, ?_⟩
    · simpa using wf.opened
    · intro key v found
      cases hkey : a.key? with
      | none =>
        rw [elements, hkey] at found
        exact withVertex_getElem?_of_some h (wf.elements key v found)
      | some new =>
        rw [elements, hkey] at found
        simp only [Std.TreeMap.get?_eq_getElem?, Std.TreeMap.getElem?_insert] at found
        split at found
        · next same =>
          -- the new key leads to the vertex of the arrival
          have same := Std.LawfulEqOrd.eq_of_compare same
          obtain rfl : target = v := Option.some.inj found
          obtain ⟨node, location⟩ := Arrival.key?_eq_some hkey
          rw [withVertex_getElem?_target wf h, node, location, same]
        · exact withVertex_getElem?_of_some h (wf.elements key v found)
    · rw [stepper, wf.unmoved]
      exact Stepper.addVertex_start r.graph ⟨a.node, a.location⟩

/-! ## Arrivals -/

theorem caller_lt {r : Recorder} (wf : r.WellFormed) : r.caller.index < r.graph.vertices.size := by
  unfold caller
  cases opened : r.openEdges with
  | nil => exact wf.graph.rooted
  | cons e outer => exact wf.graph.target_lt e (wf.opened e (by simp [opened]))

/-- What an arrival at a vertex changes. -/
structure Arrived (r : Recorder) (a : Arrival) (target : VertexId) (after : Recorder) : Prop where
  allowed : r.refusal? a = none
  room : r.graph.edges.size < CallGraph.arenaLimit
  edges : after.graph.edges = r.graph.edges.push (r.edgeFor a target)
  openEdges : after.openEdges
    = if a.opens then ⟨UInt32.ofNat r.graph.edges.size⟩ :: r.openEdges else r.openEdges
  vertex : after.graph.vertices[target.index]? = some ⟨a.node, a.location⟩
  vertices : ∀ (i : Nat) (old : Vertex), r.graph.vertices[i]? = some old →
    after.graph.vertices[i]? = some old
  vertices_size : after.graph.vertices.size ≤ r.graph.vertices.size + 1
  outcome : after.graph.outcome = r.graph.outcome
  capacity : after.capacity = r.capacity
  preprocessor : after.preprocessor = r.preprocessor

/-- An arrival that is not refused finds a vertex and adds an edge to it. -/
theorem exists_of_arrive_eq {r after : Recorder} {a : Arrival} (h : r.arrive a = (after, none)) :
    r.refusal? a = none ∧ r.graph.edges.size < CallGraph.arenaLimit
      ∧ ∃ target, r.target? a = some target
        ∧ after = (r.withVertex a target).withEdge a target ⟨UInt32.ofNat r.graph.edges.size⟩ := by
  unfold arrive at h
  cases refused : r.refusal? a with
  | some fault => simp [refused] at h
  | none =>
    cases found : r.target? a with
    | none => simp [refused, found] at h
    | some target =>
      by_cases room : r.graph.edges.size < CallGraph.arenaLimit
      · simp only [refused, found, CallGraph.nextEdge?, withVertex_edges, room, if_true,
          Prod.mk.injEq, and_true] at h
        exact ⟨rfl, room, target, rfl, h.symm⟩
      · simp [refused, found, CallGraph.nextEdge?, room] at h

theorem arrived_withEdge {r : Recorder} (wf : r.WellFormed) {a : Arrival} {target : VertexId}
    (allowed : r.refusal? a = none) (room : r.graph.edges.size < CallGraph.arenaLimit)
    (found : r.target? a = some target) :
    r.Arrived a target
      ((r.withVertex a target).withEdge a target ⟨UInt32.ofNat r.graph.edges.size⟩) where
  allowed
  room
  edges := by simp [withEdge, CallGraph.addEdge, withVertex_edgeFor]
  openEdges := by simp [withEdge]
  vertex := withVertex_getElem?_target wf found
  vertices := fun i old atPlace => withVertex_getElem?_of_some found atPlace
  vertices_size := by
    rcases withVertex_cases found with ⟨-, -, -, same⟩ | ⟨-, -, stepper, -⟩
    · simp [withEdge, CallGraph.addEdge, same]
    · simp [withEdge, CallGraph.addEdge, stepper, CallGraph.addVertex]
  outcome := by simp [withEdge, CallGraph.addEdge]
  capacity := by simp [withEdge]
  preprocessor := by simp [withEdge]

theorem exists_arrived {r after : Recorder} (wf : r.WellFormed) {a : Arrival}
    (h : r.arrive a = (after, none)) : ∃ target, r.Arrived a target after := by
  obtain ⟨allowed, room, target, found, rfl⟩ := exists_of_arrive_eq h
  exact ⟨target, arrived_withEdge wf allowed room found⟩

theorem withEdge_wellFormed {r : Recorder} (wf : r.WellFormed) (a : Arrival) {target : VertexId}
    (room : r.graph.edges.size < CallGraph.arenaLimit)
    (within : target.index < r.graph.vertices.size) :
    (r.withEdge a target ⟨UInt32.ofNat r.graph.edges.size⟩).WellFormed := by
  have size : (r.withEdge a target ⟨UInt32.ofNat r.graph.edges.size⟩).graph.edges.size
      = r.graph.edges.size + 1 := by simp [withEdge, CallGraph.addEdge]
  have last := EdgeId.index_ofNat wf.graph.edgeRoom
  refine ⟨wf.graph.addEdge _ room (caller_lt wf) within, ?_, wf.elements,
    wf.unmoved_withGraph rfl⟩
  intro e mem
  rw [size]
  have old : e ∈ r.openEdges → e.index < r.graph.edges.size + 1 := fun mem =>
    Nat.lt_succ_of_lt (wf.opened e mem)
  simp only [withEdge] at mem
  split at mem
  · rcases List.mem_cons.1 mem with rfl | mem
    · rw [last]
      exact Nat.lt_succ_self _
    · exact old mem
  · exact old mem

theorem arrive_wellFormed {r : Recorder} (wf : r.WellFormed) (a : Arrival) :
    (r.arrive a).1.WellFormed := by
  unfold arrive
  cases refused : r.refusal? a with
  | some fault => exact wf
  | none =>
    cases found : r.target? a with
    | none => exact wf
    | some target =>
      have placed := withVertex_wellFormed wf found
      by_cases room : r.graph.edges.size < CallGraph.arenaLimit
      · have within : target.index < (r.withVertex a target).graph.vertices.size :=
          (Array.getElem?_eq_some_iff.1 (withVertex_getElem?_target wf found)).1
        have wfEdge := withEdge_wellFormed placed a (by simpa using room) within
        simpa [CallGraph.nextEdge?, room] using wfEdge
      · simpa [CallGraph.nextEdge?, room] using placed

/-! ## Closing and finishing -/

/-- A step is closed when it is open, innermost, and closed in the right way. -/
theorem exists_of_close_eq {r after : Recorder} {closing : Closing} {timestamp : Float}
    {condition : Option Bool} (h : r.close closing timestamp condition = (after, none)) :
    r.graph.isFrozen = false ∧ ∃ e outer, r.openEdges = e :: outer
      ∧ closing.closes (r.graph.edge e).kind = true
      ∧ after = { r with
          graph := r.graph.modifyEdge e (closeEdge timestamp condition), openEdges := outer } := by
  unfold close at h
  by_cases frozen : r.graph.isFrozen = true
  · simp [frozen] at h
  · cases opened : r.openEdges with
    | nil => simp [frozen, opened] at h
    | cons e outer =>
      by_cases closes : closing.closes (r.graph.edge e).kind = true
      · simp only [frozen, opened, closes, Bool.false_eq_true, if_false, if_true, Prod.mk.injEq,
          and_true] at h
        exact ⟨by simpa using frozen, e, outer, rfl, closes, h.symm⟩
      · simp [frozen, opened, closes] at h

theorem close_wellFormed {r : Recorder} (wf : r.WellFormed) (closing : Closing) (timestamp : Float)
    (condition : Option Bool) : (r.close closing timestamp condition).1.WellFormed := by
  by_cases refused : (r.close closing timestamp condition).2 ≠ none
  · rw [r.close_refused closing timestamp condition refused]
    exact wf
  · have step : r.close closing timestamp condition
        = ((r.close closing timestamp condition).1, none) :=
      Prod.ext rfl (not_not.1 refused)
    obtain ⟨-, e, outer, opened, -, same⟩ := exists_of_close_eq step
    rw [same]
    refine ⟨wf.graph.modifyEdge e _ fun edge => ⟨rfl, rfl⟩, ?_, wf.elements,
      wf.unmoved_withGraph rfl⟩
    intro open_ mem
    simpa using wf.opened open_ (by rw [opened]; exact List.mem_cons_of_mem _ mem)

/-- The evaluation ends when nothing is open. -/
theorem exists_of_finish_eq {r after : Recorder} {outcome : Outcome}
    (h : r.finish outcome = (after, none)) :
    r.graph.isFrozen = false ∧ r.openEdges = []
      ∧ after = { r with graph := { r.graph with outcome := some outcome } } := by
  unfold finish at h
  by_cases frozen : r.graph.isFrozen = true
  · simp [frozen] at h
  · by_cases opened : r.openEdges.isEmpty = true
    · simp only [frozen, opened, Bool.false_eq_true, if_false, if_true, Prod.mk.injEq,
        and_true] at h
      exact ⟨by simpa using frozen, List.isEmpty_iff.1 opened, h.symm⟩
    · simp [frozen, opened] at h

theorem finish_wellFormed {r : Recorder} (wf : r.WellFormed) (outcome : Outcome) :
    (r.finish outcome).1.WellFormed := by
  by_cases refused : (r.finish outcome).2 ≠ none
  · rw [r.finish_refused outcome refused]
    exact wf
  · have step : r.finish outcome = ((r.finish outcome).1, none) :=
      Prod.ext rfl (not_not.1 refused)
    obtain ⟨-, -, same⟩ := exists_of_finish_eq step
    rw [same]
    exact ⟨wf.graph.congr rfl rfl rfl fun _ _ => ⟨rfl, rfl⟩, wf.opened, wf.elements,
      wf.unmoved_withGraph rfl⟩

/-! ## Events -/

/-- An event keeps a recorder well formed, refused or not. -/
theorem record_wellFormed {r : Recorder} (wf : r.WellFormed) (event : Event) :
    (r.record event).1.WellFormed := by
  unfold record
  cases event.action with
  | arrive a => exact arrive_wellFormed wf a
  | close closing timestamp condition => exact close_wellFormed wf closing timestamp condition
  | finish outcome => exact finish_wellFormed wf outcome

theorem WellFormed.of_record {r after : Recorder} {event : Event} (wf : r.WellFormed)
    (recorded : r.record event = (after, none)) : after.WellFormed := by
  have kept := record_wellFormed wf event
  rwa [recorded] at kept

theorem recordAll_append (r : Recorder) (p q : List Event) :
    r.recordAll (p ++ q)
      = match r.recordAll p with
        | (after, none) => after.recordAll q
        | refused => refused := by
  induction p generalizing r with
  | nil => rfl
  | cons event p ih =>
    simp only [List.cons_append, recordAll]
    cases step : r.record event with
    | mk after fault =>
      cases fault with
      | none => exact ih after
      | some fault => rfl

/-- A trace is recorded if the part before its last event is and the event is not refused then. -/
theorem recordAll_snoc_iff (r after : Recorder) (p : List Event) (event : Event) :
    r.recordAll (p ++ [event]) = (after, none)
      ↔ ∃ before, r.recordAll p = (before, none) ∧ before.record event = (after, none) := by
  rw [recordAll_append]
  cases all : r.recordAll p with
  | mk before fault =>
    cases fault with
    | some fault => simp
    | none =>
      cases step : before.record event with
      | mk next fault => cases fault <;> simp [recordAll, step]

theorem recordAll_wellFormed {r : Recorder} (wf : r.WellFormed) (events : List Event) :
    (r.recordAll events).1.WellFormed := by
  induction events generalizing r with
  | nil => exact wf
  | cons event rest ih =>
    have next := record_wellFormed wf event
    cases step : r.record event with
    | mk after fault =>
      rw [step] at next
      cases fault with
      | none => simpa [recordAll, step] using ih next
      | some fault => simpa [recordAll, step] using next

theorem WellFormed.of_recordAll {r after : Recorder} {events : List Event} (wf : r.WellFormed)
    (recorded : r.recordAll events = (after, none)) : after.WellFormed := by
  have kept := recordAll_wellFormed wf events
  rwa [recorded] at kept

/-- The trace of a template step that reaches itself once and then a macro. -/
def recursion : List Event :=
  [.templateBegin .memoization "a" .unknown .unknown 0,
    .templateBegin .memoization "a" .unknown .unknown 1, .templateEnd 2,
    .macroExpansionBegin "A" none .unknown .unknown 3, .macroExpansionEnd 4, .templateEnd 5]

/-- The trace of a template step that reaches another one twice, first by a third one. -/
def sharing : List Event :=
  [.templateBegin .templateInstantiation "a" .unknown .unknown 0,
    .templateBegin .templateInstantiation "b" .unknown .unknown 1,
    .templateBegin .templateInstantiation "c" .unknown .unknown 2,
    .templateBegin .templateInstantiation "d" .unknown .unknown 3, .templateEnd 4, .templateEnd 5,
    .templateEnd 6, .templateBegin .memoization "c" .unknown .unknown 7, .templateEnd 8,
    .templateEnd 9]

end Recorder

end TemplateTrace
