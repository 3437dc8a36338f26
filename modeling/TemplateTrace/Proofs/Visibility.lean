import TemplateTrace.Proofs.Graph.Backtracing
import TemplateTrace.Proofs.Growth
import TemplateTrace.Session
set_option autoImplicit false

/-!
# Showing and hiding preprocessing

Whether steps of preprocessing are shown has no part in what is recorded.  A recorder that shows
them and one that hides them refuse the same events for the same reasons, and their graphs differ in
the flags of the edges of preprocessing and in nothing else (`Recorder.hiding_changes_flags`).

To show or to hide is an operation on recorders, and so on the graphs in them.  All of it rests on
the fact that this operation commutes with every event (`Recorder.record_showing`), wherever it
stands in a trace: an edge gets the flag that it would be given later by its kind alone.
-/

namespace TemplateTrace

/-! ## Edges -/

namespace Edge

/-- An edge when the steps of preprocessing are shown or hidden. -/
def showing (e : Edge) (shown : Bool) : Edge :=
  if e.kind.isPreprocessor then { e with enabled := shown } else e

variable (e : Edge) (shown : Bool)

theorem showing_eq : e.showing shown
    = { e with enabled := if e.kind.isPreprocessor then shown else e.enabled } := by
  unfold showing
  split <;> rfl

@[simp] theorem showing_source : (e.showing shown).source = e.source := by rw [showing_eq]

@[simp] theorem showing_target : (e.showing shown).target = e.target := by rw [showing_eq]

@[simp] theorem showing_kind : (e.showing shown).kind = e.kind := by rw [showing_eq]

theorem showing_of_isTemplate {e : Edge} {shown : Bool} (template : e.kind.isTemplate = true) :
    e.showing shown = e := by
  rw [showing, Kind.isPreprocessor, template, Bool.not_true, if_neg Bool.false_ne_true]

theorem unflagged_showing : (e.showing shown).unflagged = e.unflagged := by
  rw [showing_eq]
  rfl

@[simp] theorem showing_showing (later : Bool) :
    (e.showing shown).showing later = e.showing later := by
  unfold showing
  split <;> simp_all

/-- An edge of preprocessing is changed just when its flag is another one. -/
theorem showing_changes (later : Bool) :
    ((e.showing shown).kind.isPreprocessor && (e.showing shown).enabled != later)
      = (e.kind.isPreprocessor && shown != later) := by
  rw [showing_kind]
  cases preprocessing : e.kind.isPreprocessor with
  | false => rfl
  | true => rw [showing, if_pos preprocessing]

end Edge

/-! ## Graphs -/

namespace CallGraph

/-- A graph when the steps of preprocessing are shown or hidden. -/
def showing (g : CallGraph) (shown : Bool) : CallGraph := (g.setPreprocessorEnabled shown).1

/-- How many edges of a graph are edges of preprocessing. -/
def preprocessorCount (g : CallGraph) : Nat := g.edges.countP fun e => e.kind.isPreprocessor

variable (g : CallGraph) (shown : Bool)

theorem showing_eq : g.showing shown = { g with edges := g.edges.map (·.showing shown) } := rfl

theorem showing_edges : (g.showing shown).edges = g.edges.map (·.showing shown) := rfl

theorem showing_size : (g.showing shown).edges.size = g.edges.size := by
  rw [showing_edges, Array.size_map]

theorem showing_edge (e : EdgeId) : (g.showing shown).edge e = (g.edge e).showing shown := by
  simp only [edge, showing_edges, Array.getD_eq_getD_getElem?, Array.getElem?_map]
  cases g.edges[e.index]? <;> rfl

theorem showing_showing (later : Bool) : (g.showing shown).showing later = g.showing later := by
  simp only [showing_eq, Array.map_map, Function.comp_def, Edge.showing_showing]

theorem showing_preprocessorCount : (g.showing shown).preprocessorCount = g.preprocessorCount := by
  simp only [preprocessorCount, showing_edges, Array.countP_map, Function.comp_def,
    Edge.showing_kind]

/-- Showing or hiding changes all edges of preprocessing if these were hidden or shown before, and
no edge if they were not. -/
theorem setPreprocessorEnabled_showing (later : Bool) :
    (g.showing shown).setPreprocessorEnabled later
      = (g.showing later, if shown = later then 0 else g.preprocessorCount) := by
  refine Prod.ext (g.showing_showing shown later) ?_
  simp only [setPreprocessorEnabled, setKindEnabled, showing_edges, Array.countP_map,
    Function.comp_def, Edge.showing_changes]
  by_cases same : shown = later
  · simp [same]
  · simp [same, bne_iff_ne.2 same, preprocessorCount]

theorem addEdge_showing (e : Edge) :
    (g.showing shown).addEdge (e.showing shown) = (g.addEdge e).showing shown := by
  simp only [addEdge, showing_eq, Edge.showing_source, Array.size_map, Array.map_push]

theorem modifyEdge_showing (e : EdgeId) {change : Edge → Edge}
    (commutes : ∀ edge, change (edge.showing shown) = (change edge).showing shown) :
    (g.showing shown).modifyEdge e change = (g.modifyEdge e change).showing shown := by
  have edges : (g.edges.map (·.showing shown)).modify e.index change
      = (g.edges.modify e.index change).map (·.showing shown) := by
    refine Array.ext (by simp) ?_
    intro i _ _
    simp only [Array.getElem_modify, Array.getElem_map]
    split
    · exact commutes _
    · rfl
  simp only [modifyEdge, showing_eq, edges]

end CallGraph

/-! ## Recorders -/

namespace Recorder

/-- A recorder when the steps of preprocessing are shown or hidden. -/
def showing (r : Recorder) (shown : Bool) : Recorder :=
  { r with graph := r.graph.showing shown, preprocessor := shown }

/-- Why each of some events is refused, if it is; the events that are refused are passed over. -/
def refusals (r : Recorder) : List Event → List (Option RecordFault)
  | [] => []
  | event :: rest => (r.record event).2 :: (r.record event).1.refusals rest

variable (r : Recorder) (shown : Bool)

@[simp] theorem showing_preprocessor : (r.showing shown).preprocessor = shown := rfl

@[simp] theorem showing_graph : (r.showing shown).graph = r.graph.showing shown := rfl

theorem caller_showing : (r.showing shown).caller = r.caller := by
  unfold caller
  have opened : (r.showing shown).openEdges = r.openEdges := rfl
  rw [opened]
  cases r.openEdges with
  | nil => rfl
  | cons e outer => exact (congrArg Edge.target (r.graph.showing_edge shown e)).trans (by simp)

/-- An edge is enabled by its kind: those of templates always, those of preprocessing when they are
shown. -/
theorem edgeFor_showing (a : Arrival) (target : VertexId) :
    (r.showing shown).edgeFor a target = (r.edgeFor a target).showing shown := by
  rw [Edge.showing_eq]
  have enabled : (a.kind.isTemplate || shown)
      = if a.kind.isPreprocessor then shown else a.kind.isTemplate || r.preprocessor := by
    rw [Kind.isPreprocessor]
    cases a.kind.isTemplate <;> rfl
  simp only [edgeFor, caller_showing, showing_preprocessor, enabled]
  rfl

theorem withVertex_showing (a : Arrival) (v : VertexId) :
    (r.showing shown).withVertex a v = (r.withVertex a v).showing shown := by
  have known : (r.showing shown).known? a = r.known? a := rfl
  unfold withVertex
  rw [known]
  cases r.known? a <;> rfl

theorem withEdge_showing (a : Arrival) (target : VertexId) (e : EdgeId) :
    (r.showing shown).withEdge a target e = (r.withEdge a target e).showing shown := by
  have edge := r.graph.addEdge_showing shown (r.edgeFor a target)
  rw [← edgeFor_showing] at edge
  simp only [withEdge, showing] at edge ⊢
  rw [edge]

theorem refusal?_showing (a : Arrival) : (r.showing shown).refusal? a = r.refusal? a := by
  have overflow : (r.showing shown).overflow? = r.overflow? := by
    unfold overflow?
    have size : (r.showing shown).graph.edges.size = r.graph.edges.size :=
      r.graph.showing_size shown
    rw [size]
    rfl
  unfold refusal?
  rw [overflow]
  rfl

theorem arrive_showing (a : Arrival) :
    (r.showing shown).arrive a = ((r.arrive a).1.showing shown, (r.arrive a).2) := by
  have target : (r.showing shown).target? a = r.target? a := rfl
  unfold arrive
  rw [refusal?_showing, target]
  cases r.refusal? a with
  | some fault => rfl
  | none =>
    cases r.target? a with
    | none => rfl
    | some v =>
      have room : ((r.withVertex a v).showing shown).graph.nextEdge?
          = (r.withVertex a v).graph.nextEdge? := by
        simp only [CallGraph.nextEdge?, showing, CallGraph.showing_size]
      simp only [withVertex_showing, room]
      cases (r.withVertex a v).graph.nextEdge? with
      | none => rfl
      | some e => simp only [withEdge_showing]

theorem closeEdge_showing (timestamp : Float) (condition : Option Bool) (e : Edge) :
    closeEdge timestamp condition (e.showing shown)
      = (closeEdge timestamp condition e).showing shown := by
  simp only [closeEdge, Edge.showing_eq]

theorem close_showing (closing : Closing) (timestamp : Float) (condition : Option Bool) :
    (r.showing shown).close closing timestamp condition
      = ((r.close closing timestamp condition).1.showing shown,
        (r.close closing timestamp condition).2) := by
  have frozen : (r.showing shown).graph.isFrozen = r.graph.isFrozen := rfl
  have opened : (r.showing shown).openEdges = r.openEdges := rfl
  unfold close
  rw [frozen, opened]
  split
  · rfl
  · cases r.openEdges with
    | nil => rfl
    | cons e outer =>
      have kind : ((r.showing shown).graph.edge e).kind = (r.graph.edge e).kind := by
        simp only [showing, CallGraph.showing_edge, Edge.showing_kind]
      have closed :=
        r.graph.modifyEdge_showing shown e (closeEdge_showing shown timestamp condition)
      simp only [kind]
      split
      · simp only [showing, closed]
      · rfl

theorem finish_showing (outcome : Outcome) :
    (r.showing shown).finish outcome
      = ((r.finish outcome).1.showing shown, (r.finish outcome).2) := by
  have frozen : (r.showing shown).graph.isFrozen = r.graph.isFrozen := rfl
  have opened : (r.showing shown).openEdges = r.openEdges := rfl
  unfold finish
  rw [frozen, opened]
  split
  · rfl
  · split <;> rfl

/-- What an event does, and why it is refused, is the same whether preprocessing is shown or not. -/
theorem record_showing (event : Event) :
    (r.showing shown).record event = ((r.record event).1.showing shown, (r.record event).2) := by
  unfold record
  cases event.action with
  | arrive a => exact r.arrive_showing shown a
  | close closing timestamp condition => exact r.close_showing shown closing timestamp condition
  | finish outcome => exact r.finish_showing shown outcome

theorem recordEach_showing (events : List Event) :
    (r.showing shown).recordEach events = (r.recordEach events).showing shown := by
  unfold recordEach
  refine List.foldl_hom (fun r : Recorder => r.showing shown) ?_
  intro r event
  rw [record_showing]

theorem refusals_showing (events : List Event) :
    (r.showing shown).refusals events = r.refusals events := by
  induction events generalizing r with
  | nil => rfl
  | cons event rest ih => rw [refusals, refusals, record_showing, ih]

theorem start_showing (config : Config) (rootLocation : Location) :
    start { config with preprocessor := shown } rootLocation
      = (start config rootLocation).showing shown := by
  simp only [start, showing, CallGraph.showing_eq, CallGraph.start, Array.map_empty]

end Recorder

/-! ## Sessions -/

namespace Session

/-- A session when the steps of preprocessing are shown or hidden. -/
def showing (s : Session) (shown : Bool) : Session :=
  { s with recorder := s.recorder.showing shown }

variable (s : Session) (shown : Bool)

theorem apply_showing (event : Event) :
    (s.showing shown).apply event = ((s.apply event).1.showing shown, (s.apply event).2) := by
  obtain ⟨r, count, fault⟩ := s
  cases fault with
  | some fault => rfl
  | none =>
    simp only [apply, showing, Recorder.record_showing]
    cases r.record event with
    | mk after refused => cases refused <;> rfl

theorem finish_showing :
    (s.showing shown).finish = s.finish.map (·.onGraph (·.showing shown)) := by
  obtain ⟨r, count, fault⟩ := s
  cases fault with
  | some fault => rfl
  | none =>
    have same : (r.showing shown).graph.isFrozen = r.graph.isFrozen := rfl
    by_cases ended : r.graph.isFrozen = true
    · simp only [finish, showing, graph, same, ended, if_true]
      rfl
    · simp only [finish, showing, graph, same, ended]
      rfl

theorem replayFrom_showing (items : List TraceItem) :
    (s.showing shown).replayFrom items
      = (s.replayFrom items).map (·.onGraph (·.showing shown)) := by
  induction items generalizing s with
  | nil => exact s.finish_showing shown
  | cons item rest ih =>
    cases item with
    | error fault => rfl
    | ok event =>
      simp only [replayFrom, apply_showing]
      cases s.apply event with
      | mk after refused =>
        cases refused with
        | some failure => rfl
        | none => exact ih after

/-- A replay that shows preprocessing, or hides it, does what any other does, and the flags can be
turned after it. -/
theorem replay_turned (config : Config) (before after : Bool) (items : List TraceItem) :
    replay { config with preprocessor := after } items
      = (replay { config with preprocessor := before } items).map
          (·.onGraph (·.showing after)) := by
  have begun (shown : Bool) : start { config with preprocessor := shown }
      = (start config).showing shown :=
    congrArg (fun r => Session.mk r 0 none) (Recorder.start_showing shown config .unknown)
  rw [replay, replay, begun after, begun before, replayFrom_showing, replayFrom_showing]
  cases (start config).replayFrom items with
  | error failure => rfl
  | ok stepper =>
    simp only [Except.map, Stepper.onGraph, stepper.graph.showing_showing before after]

end Session

/-! ## Two graphs of one trace -/

/-- To show or to hide preprocessing before the first step of one graph, and to make any moves after
that, comes to the same as to make these moves over another graph. -/
def Stepper.TurnsInto (before : CallGraph) (shown : Bool) (after : CallGraph) : Prop :=
  ∀ moves maxDepth,
    let turned := (start before).performAll (.toggle (.kinds Kind.isPreprocessor shown) :: moves)
    let direct := (start after).performAll moves
    turned = direct ∧ turned.backtrace = direct.backtrace
      ∧ turned.callTree maxDepth = direct.callTree maxDepth

/-- One graph shows the steps of preprocessing, another one hides them, and there is no other
difference between the two: to hide these steps in the one gives the other, and to show them in the
other gives the one. -/
structure ShowsAndHides (shown hidden : CallGraph) : Prop where
  sameButFlags : hidden.SameButFlags shown
  templates : ∀ e : EdgeId, (hidden.edge e).kind.isTemplate = true →
    (shown.edge e).enabled = (hidden.edge e).enabled
  preprocessing : ∀ e : EdgeId, (hidden.edge e).kind.isPreprocessor = true →
    (shown.edge e).enabled = true ∧ (hidden.edge e).enabled = false
  show_eq : hidden.setPreprocessorEnabled true = (shown, hidden.preprocessorCount)
  hide_eq : shown.setPreprocessorEnabled false = (hidden, shown.preprocessorCount)
  count_eq : shown.preprocessorCount = hidden.preprocessorCount
  /-- to show or to hide again changes nothing -/
  again : shown.setPreprocessorEnabled true = (shown, 0)
    ∧ hidden.setPreprocessorEnabled false = (hidden, 0)
  turnsShown : Stepper.TurnsInto hidden true shown
  turnsHidden : Stepper.TurnsInto shown false hidden

theorem turnsInto_showing (g : CallGraph) (before after : Bool) :
    Stepper.TurnsInto (g.showing before) after (g.showing after) := by
  intro moves maxDepth
  have turned : (Stepper.start (g.showing before)).perform
      (.toggle (.kinds Kind.isPreprocessor after)) = Stepper.start (g.showing after) := by
    have graph : (g.showing before).toggle (.kinds Kind.isPreprocessor after) = g.showing after :=
      g.showing_showing before after
    simp only [Stepper.perform, Stepper.onGraph, Stepper.start, graph]
    rfl
  have same : (Stepper.start (g.showing before)).performAll
        (.toggle (.kinds Kind.isPreprocessor after) :: moves)
      = (Stepper.start (g.showing after)).performAll moves := by
    rw [Stepper.performAll, List.foldl_cons, turned]
    rfl
  simp only [same, and_self]

theorem showsAndHides_showing (g : CallGraph) :
    ShowsAndHides (g.showing true) (g.showing false) where
  sameButFlags := by
    refine ⟨?_, rfl⟩
    simp only [CallGraph.showing_edges, Array.map_map, Function.comp_def, Edge.unflagged_showing]
  templates e template := by
    rw [CallGraph.showing_edge, Edge.showing_kind] at template
    rw [CallGraph.showing_edge, CallGraph.showing_edge,
      Edge.showing_of_isTemplate template, Edge.showing_of_isTemplate template]
  preprocessing e preprocessing := by
    rw [CallGraph.showing_edge, Edge.showing_kind] at preprocessing
    simp only [CallGraph.showing_edge, Edge.showing, if_pos preprocessing, and_self]
  show_eq := by
    rw [g.setPreprocessorEnabled_showing, g.showing_preprocessorCount, if_neg Bool.false_ne_true]
  hide_eq := by
    rw [g.setPreprocessorEnabled_showing, g.showing_preprocessorCount,
      if_neg Bool.false_ne_true.symm]
  count_eq := by rw [g.showing_preprocessorCount, g.showing_preprocessorCount]
  again := by
    rw [g.setPreprocessorEnabled_showing, g.setPreprocessorEnabled_showing, if_pos rfl, if_pos rfl]
    exact ⟨rfl, rfl⟩
  turnsShown := turnsInto_showing g false true
  turnsHidden := turnsInto_showing g true false

/-- Whether the steps of preprocessing are shown has no part in recording.  Of any events the same
ones are refused for the same reasons, and the graphs that come of them differ in the flags of the
edges of preprocessing only, so that each can be turned into the other.  A session fails in the same
way too, or comes to the same graph with these flags turned. -/
theorem Recorder.hiding_changes_flags (config : Config) (rootLocation : Location)
    (events : List Event) (items : List TraceItem) :
    let shown := Recorder.start { config with preprocessor := true } rootLocation
    let hidden := Recorder.start { config with preprocessor := false } rootLocation
    shown.refusals events = hidden.refusals events
      ∧ ShowsAndHides (shown.recordEach events).graph (hidden.recordEach events).graph
      ∧ Session.replay { config with preprocessor := true } items
        = (Session.replay { config with preprocessor := false } items).map
          (·.onGraph fun g => (g.setPreprocessorEnabled true).1)
      ∧ Session.replay { config with preprocessor := false } items
        = (Session.replay { config with preprocessor := true } items).map
          (·.onGraph fun g => (g.setPreprocessorEnabled false).1) := by
  intro shown hidden
  have shows : shown = (Recorder.start config rootLocation).showing true :=
    Recorder.start_showing true config rootLocation
  have hides : hidden = (Recorder.start config rootLocation).showing false :=
    Recorder.start_showing false config rootLocation
  refine ⟨?_, ?_, ?_, ?_⟩
  · rw [shows, hides, Recorder.refusals_showing, Recorder.refusals_showing]
  · rw [shows, hides, Recorder.recordEach_showing, Recorder.recordEach_showing]
    exact showsAndHides_showing _
  · exact Session.replay_turned config false true items
  · exact Session.replay_turned config true false items

end TemplateTrace
