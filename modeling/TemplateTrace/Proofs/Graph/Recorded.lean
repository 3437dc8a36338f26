import TemplateTrace.Proofs.Recording
set_option autoImplicit false

/-!
# Recorded graphs

`CallGraph.Recorded` says that a graph came of a trace of which no event was refused, some edges of
it being enabled or disabled after that.  Such a graph is well formed.  The mode of the graph has no
part in recording: with another mode the same trace gives the same graph but for the mode.
-/

namespace TemplateTrace

/-- A change of enabled flags: of one edge, or of all edges of some kinds. -/
inductive Toggle where
  | edge (e : EdgeId) (enabled : Bool)
  | kinds (kinds : Kind → Bool) (enabled : Bool)

/-- An edge whose flag is of no account. -/
def Edge.unflagged (e : Edge) : Edge := { e with enabled := false }

theorem Edge.eq_of_unflagged_eq {a b : Edge} (same : a.unflagged = b.unflagged)
    (enabled : a.enabled = b.enabled) : a = b := by
  cases a
  cases b
  simp only [Edge.unflagged, Edge.mk.injEq] at same enabled ⊢
  exact ⟨same.1, same.2.1, same.2.2.1, same.2.2.2.1, same.2.2.2.2.1, same.2.2.2.2.2.1,
    same.2.2.2.2.2.2.1, enabled⟩

namespace CallGraph

/-- The graph with the flags changed. -/
def toggle (g : CallGraph) : Toggle → CallGraph
  | .edge e enabled => g.setEdgeEnabled e enabled
  | .kinds kinds enabled => (g.setKindEnabled kinds enabled).1

/-- The graph with the flags changed time and again. -/
def toggleAll (g : CallGraph) (changes : List Toggle) : CallGraph :=
  changes.foldl toggle g

theorem toggleAll_append (g : CallGraph) (a b : List Toggle) :
    g.toggleAll (a ++ b) = (g.toggleAll a).toggleAll b :=
  List.foldl_append

/-- The graph of a trace of which no event was refused, with some edges enabled or disabled. -/
def Recorded (g : CallGraph) : Prop :=
  ∃ config location events recorder changes,
    (Recorder.start config location).recordAll events = (recorder, none)
      ∧ g = recorder.graph.toggleAll changes

/-! ## Flags -/

theorem WellFormed.toggle {g : CallGraph} (wf : g.WellFormed) (change : Toggle) :
    (g.toggle change).WellFormed := by
  cases change with
  | edge e enabled => exact wf.modifyEdge e _ fun edge => ⟨rfl, rfl⟩
  | kinds kinds enabled => exact wf.setKindEnabled kinds enabled

theorem WellFormed.toggleAll {g : CallGraph} (wf : g.WellFormed) (changes : List Toggle) :
    (g.toggleAll changes).WellFormed := by
  unfold CallGraph.toggleAll
  induction changes generalizing g with
  | nil => exact wf
  | cons change rest ih => exact ih (wf.toggle change)

theorem Recorded.wellFormed {g : CallGraph} (recorded : g.Recorded) : g.WellFormed := by
  obtain ⟨config, location, events, recorder, changes, all, rfl⟩ := recorded
  exact ((Recorder.start_wellFormed config location).of_recordAll all).graph.toggleAll changes

/-- The graph of a trace of which no event was refused, as it was recorded. -/
theorem recorded_of_recordAll {config : Config} {location : Location} {events : List Event}
    (all : ((Recorder.start config location).recordAll events).2 = none) :
    ((Recorder.start config location).recordAll events).1.graph.Recorded :=
  ⟨config, location, events, _, [], Prod.ext rfl all, rfl⟩

/-- Two graphs that differ in the flags of their edges at most. -/
def SameButFlags (g other : CallGraph) : Prop :=
  other.edges.map Edge.unflagged = g.edges.map Edge.unflagged
    ∧ other = { g with edges := other.edges }

theorem sameButFlags_toggle (g : CallGraph) (change : Toggle) :
    g.SameButFlags (g.toggle change) := by
  cases change with
  | edge e enabled =>
    refine ⟨?_, rfl⟩
    refine Array.ext (by simp [toggle, setEdgeEnabled]) ?_
    intro i _ _
    simp only [toggle, setEdgeEnabled, modifyEdge, Array.getElem_map, Array.getElem_modify]
    split <;> rfl
  | kinds kinds enabled =>
    refine ⟨?_, rfl⟩
    refine Array.ext (by simp [toggle]) ?_
    intro i _ _
    simp only [toggle, setKindEnabled, Array.getElem_map]
    split <;> rfl

theorem sameButFlags_toggleAll (g : CallGraph) (changes : List Toggle) :
    g.SameButFlags (g.toggleAll changes) := by
  unfold toggleAll
  induction changes generalizing g with
  | nil => exact ⟨rfl, rfl⟩
  | cons change rest ih =>
    obtain ⟨edges, same⟩ := g.sameButFlags_toggle change
    obtain ⟨edgesLater, sameLater⟩ := ih (g.toggle change)
    refine ⟨edgesLater.trans edges, ?_⟩
    rw [List.foldl_cons, sameLater, same]

theorem toggleAll_mode (g : CallGraph) (changes : List Toggle) :
    (g.toggleAll changes).mode = g.mode := by
  rw [(g.sameButFlags_toggleAll changes).2]

/-- Changes that leave the same edges enabled leave the same graph. -/
theorem toggleAll_eq_of_enabled_eq {g : CallGraph} {a b : List Toggle}
    (enabled : ∀ e, ((g.toggleAll a).edge e).enabled = ((g.toggleAll b).edge e).enabled)
    (room : g.edges.size ≤ arenaLimit) : g.toggleAll a = g.toggleAll b := by
  obtain ⟨edgesA, sameA⟩ := g.sameButFlags_toggleAll a
  obtain ⟨edgesB, sameB⟩ := g.sameButFlags_toggleAll b
  have sizeA : (g.toggleAll a).edges.size = g.edges.size := by
    simpa using congrArg Array.size edgesA
  have sizeB : (g.toggleAll b).edges.size = g.edges.size := by
    simpa using congrArg Array.size edgesB
  have edges : (g.toggleAll a).edges = (g.toggleAll b).edges := by
    refine Array.ext (sizeA.trans sizeB.symm) ?_
    intro i withinA withinB
    refine Edge.eq_of_unflagged_eq ?_ ?_
    · have same := edgesA.trans edgesB.symm
      simpa [withinA, withinB] using congrArg (fun edges => edges[i]?) same
    · have index : (⟨UInt32.ofNat i⟩ : EdgeId).index = i :=
        EdgeId.index_ofNat (by omega)
      simpa [edge, index, withinA, withinB] using enabled ⟨UInt32.ofNat i⟩
  rw [sameA, sameB, edges]

/-! ## The mode -/

/-- The graph in another mode. -/
def inMode (g : CallGraph) (mode : Mode) : CallGraph := { g with mode }

theorem toggleAll_inMode (g : CallGraph) (mode : Mode) (changes : List Toggle) :
    (g.inMode mode).toggleAll changes = (g.toggleAll changes).inMode mode := by
  unfold toggleAll
  induction changes generalizing g with
  | nil => rfl
  | cons change rest ih =>
    have step : (g.inMode mode).toggle change = (g.toggle change).inMode mode := by
      cases change <;> rfl
    rw [List.foldl_cons, List.foldl_cons, step, ih]

end CallGraph

namespace Recorder

/-- The recorder of a graph in another mode. -/
def inMode (r : Recorder) (mode : Mode) : Recorder := { r with graph := r.graph.inMode mode }

theorem withVertex_inMode (r : Recorder) (mode : Mode) (a : Arrival) (v : VertexId) :
    (r.inMode mode).withVertex a v = (r.withVertex a v).inMode mode := by
  have known : (r.inMode mode).known? a = r.known? a := rfl
  unfold withVertex
  rw [known]
  cases r.known? a <;> rfl

theorem arrive_inMode (r : Recorder) (mode : Mode) (a : Arrival) :
    (r.inMode mode).arrive a = ((r.arrive a).1.inMode mode, (r.arrive a).2) := by
  have refusal : (r.inMode mode).refusal? a = r.refusal? a := rfl
  have target : (r.inMode mode).target? a = r.target? a := rfl
  unfold arrive
  rw [refusal, target]
  cases r.refusal? a with
  | some fault => rfl
  | none =>
    cases r.target? a with
    | none => rfl
    | some v =>
      have room : ((r.withVertex a v).inMode mode).graph.nextEdge?
          = (r.withVertex a v).graph.nextEdge? := rfl
      simp only [withVertex_inMode, room]
      cases (r.withVertex a v).graph.nextEdge? <;> rfl

theorem close_inMode (r : Recorder) (mode : Mode) (closing : Closing) (timestamp : Float)
    (condition : Option Bool) :
    (r.inMode mode).close closing timestamp condition
      = ((r.close closing timestamp condition).1.inMode mode,
        (r.close closing timestamp condition).2) := by
  have frozen : (r.inMode mode).graph.isFrozen = r.graph.isFrozen := rfl
  have opened : (r.inMode mode).openEdges = r.openEdges := rfl
  unfold close
  rw [frozen, opened]
  split
  · rfl
  · cases r.openEdges with
    | nil => rfl
    | cons e outer =>
      have kind : ((r.inMode mode).graph.edge e).kind = (r.graph.edge e).kind := rfl
      simp only [kind]
      split <;> rfl

theorem finish_inMode (r : Recorder) (mode : Mode) (outcome : Outcome) :
    (r.inMode mode).finish outcome = ((r.finish outcome).1.inMode mode, (r.finish outcome).2) := by
  have frozen : (r.inMode mode).graph.isFrozen = r.graph.isFrozen := rfl
  have opened : (r.inMode mode).openEdges = r.openEdges := rfl
  unfold finish
  rw [frozen, opened]
  split
  · rfl
  · split <;> rfl

theorem record_inMode (r : Recorder) (mode : Mode) (event : Event) :
    (r.inMode mode).record event = ((r.record event).1.inMode mode, (r.record event).2) := by
  unfold record
  cases event.action with
  | arrive a => exact r.arrive_inMode mode a
  | close closing timestamp condition => exact r.close_inMode mode closing timestamp condition
  | finish outcome => exact r.finish_inMode mode outcome

/-- The mode has no part in recording. -/
theorem recordAll_inMode (r : Recorder) (mode : Mode) (events : List Event) :
    (r.inMode mode).recordAll events
      = ((r.recordAll events).1.inMode mode, (r.recordAll events).2) := by
  induction events generalizing r with
  | nil => rfl
  | cons event rest ih =>
    simp only [recordAll, record_inMode]
    cases r.record event with
    | mk after fault =>
      cases fault with
      | none => exact ih after
      | some fault => rfl

theorem recordAll_mode (r : Recorder) (events : List Event) :
    (r.recordAll events).1.graph.mode = r.graph.mode := by
  have same := r.recordAll_inMode r.graph.mode events
  exact congrArg (fun recorded => recorded.1.graph.mode) same

/-- The graph of a template step that reaches itself once and then a macro, all edges enabled. -/
def recursionGraph (mode : Mode) : CallGraph :=
  ((start { Config.default with mode, preprocessor := true } .unknown).recordAll
    recursion).1.graph

theorem recursionGraph_recorded (mode : Mode) : (recursionGraph mode).Recorded := by
  refine CallGraph.recorded_of_recordAll ?_
  cases mode <;> rfl

/-- The graph of a template step that reaches another one twice. -/
def sharingGraph (mode : Mode) : CallGraph :=
  ((start { Config.default with mode } .unknown).recordAll sharing).1.graph

theorem sharingGraph_recorded (mode : Mode) : (sharingGraph mode).Recorded := by
  refine CallGraph.recorded_of_recordAll ?_
  cases mode <;> rfl

end Recorder

end TemplateTrace
