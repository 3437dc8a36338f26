import TemplateTrace.Proofs.Calls
set_option autoImplicit false

/-!
# Growth

What an event that is not refused does to a recorder, said once: `Recorder.Records` has a case for
each action, and an arrival finds its vertex in one of two ways (`Recorder.Found`).

What holds at first and is kept by every such event holds after a trace that was recorded
(`recordAll_induct`), and after any trace if the events that are refused are passed over, as long as
there is room for edges (`recordEach_induct`).
-/

namespace TemplateTrace

/-! ## Graphs that extend others -/

namespace CallGraph

variable {g later : CallGraph}

/-- An edge of the smaller graph has changed at most in how it ended. -/
theorem Extends.exists_edge_eq (grown : g.Extends later) {e : EdgeId}
    (within : e.index < g.edges.size) :
    ∃ ended condition, later.edge e = { g.edge e with ended, condition } := by
  obtain ⟨ended, condition, found⟩ := grown.edges e.index (g.edge e) (getElem?_edge within)
  exact ⟨ended, condition, by rw [edge, Array.getD_eq_getD_getElem?, found, Option.getD_some]⟩

theorem Extends.source_eq (grown : g.Extends later) {e : EdgeId}
    (within : e.index < g.edges.size) : (later.edge e).source = (g.edge e).source := by
  obtain ⟨ended, condition, same⟩ := grown.exists_edge_eq within
  rw [same]

theorem Extends.target_eq (grown : g.Extends later) {e : EdgeId}
    (within : e.index < g.edges.size) : (later.edge e).target = (g.edge e).target := by
  obtain ⟨ended, condition, same⟩ := grown.exists_edge_eq within
  rw [same]

theorem Extends.kind_eq (grown : g.Extends later) {e : EdgeId}
    (within : e.index < g.edges.size) : (later.edge e).kind = (g.edge e).kind := by
  obtain ⟨ended, condition, same⟩ := grown.exists_edge_eq within
  rw [same]

theorem Extends.edge_lt (grown : g.Extends later) {e : EdgeId} (within : e.index < g.edges.size) :
    e.index < later.edges.size := by
  obtain ⟨ended, condition, found⟩ := grown.edges e.index (g.edge e) (getElem?_edge within)
  exact (Array.getElem?_eq_some_iff.1 found).1

theorem Extends.vertex_eq (grown : g.Extends later) {v : VertexId}
    (within : v.index < g.vertices.size) : later.vertex v = g.vertex v := by
  have found : g.vertices[v.index]? = some (g.vertex v) := by simp [vertex, within]
  rw [vertex, Array.getD_eq_getD_getElem?, grown.vertices _ _ found, Option.getD_some]

/-- The same vertices and edges are an extension. -/
theorem extends_of_eq (vertices : later.vertices = g.vertices) (edges : later.edges = g.edges) :
    g.Extends later :=
  ⟨fun _ _ found => vertices ▸ found,
    fun _ edge found => ⟨edge.ended, edge.condition, edges ▸ found⟩⟩

end CallGraph

namespace Recorder

variable {r after : Recorder} {a : Arrival} {target : VertexId} {event : Event}

/-! ## Arrivals -/

/-- How an arrival comes by its vertex. -/
inductive Found (r : Recorder) (a : Arrival) (target : VertexId) (after : Recorder) : Prop where
  /-- the vertex is that of a template step which was met before -/
  | before (key : TemplateKey) (keyed : a.key? = some key)
      (known : r.elements.get? key = some target)
      (vertices : after.graph.vertices = r.graph.vertices)
      (elements : after.elements = r.elements)
  /-- the vertex is added -/
  | new (unknown : r.known? a = none) (index : target.index = r.graph.vertices.size)
      (vertices : after.graph.vertices = r.graph.vertices.push ⟨a.node, a.location⟩)
      (elements : after.elements = match a.key? with
        | some key => r.elements.insert key target
        | none => r.elements)

theorem found_withEdge (wf : r.WellFormed) (found : r.target? a = some target) :
    r.Found a target
      ((r.withVertex a target).withEdge a target ⟨UInt32.ofNat r.graph.edges.size⟩) := by
  unfold target? at found
  cases known : r.known? a with
  | some v =>
    obtain ⟨key, keyed, atKey⟩ := Option.bind_eq_some_iff.1 known
    obtain rfl : v = target := by simpa [known] using found
    exact .before key keyed atKey (by simp [withEdge, withVertex, known, CallGraph.addEdge])
      (by simp [withEdge, withVertex, known])
  | none =>
    have fresh : r.graph.nextVertex? = some target := by simpa [known] using found
    obtain ⟨room, rfl⟩ : _ ∧ (⟨UInt32.ofNat r.graph.vertices.size⟩ : VertexId) = target := by
      simpa [CallGraph.nextVertex?] using fresh
    refine .new known (VertexId.index_ofNat wf.graph.vertexRoom) ?_ ?_
    · simp [withEdge, withVertex, known, CallGraph.addEdge, CallGraph.addVertex]
    · cases keyed : a.key? <;> simp [withEdge, withVertex, known, keyed]

theorem Found.size_le (found : r.Found a target after) :
    r.graph.vertices.size ≤ after.graph.vertices.size := by
  cases found with
  | before _ _ _ vertices _ => exact Nat.le_of_eq (congrArg Array.size vertices).symm
  | new _ _ vertices _ => simp [vertices]

/-- The vertices after an arrival are those before it and that of the arrival. -/
theorem Found.lt_or_eq (found : r.Found a target after) {v : VertexId}
    (within : v.index < after.graph.vertices.size) :
    v.index < r.graph.vertices.size ∨ v = target := by
  cases found with
  | before _ _ _ vertices _ => exact .inl (vertices ▸ within)
  | new _ index vertices _ =>
    rw [vertices, Array.size_push] at within
    rcases Nat.lt_succ_iff_lt_or_eq.1 within with old | last
    · exact .inl old
    · exact .inr (VertexId.eq_of_index_eq (last.trans index.symm))

theorem get?_of_unknown {key : TemplateKey} (unknown : r.known? a = none)
    (keyed : a.key? = some key) : r.elements.get? key = none := by
  simpa [known?, keyed] using unknown

/-- The key of an arrival leads to its vertex, and all others lead where they did. -/
theorem Found.get?_iff (found : r.Found a target after) (key : TemplateKey) (v : VertexId) :
    after.elements.get? key = some v
      ↔ r.elements.get? key = some v ∨ a.key? = some key ∧ v = target := by
  cases found with
  | before key' keyed known _ elements =>
    rw [elements]
    refine (or_iff_left_of_imp ?_).symm
    rintro ⟨same, rfl⟩
    obtain rfl : key' = key := Option.some.inj (keyed.symm.trans same)
    exact known
  | new unknown _ _ elements =>
    rw [elements]
    cases keyed : a.key? with
    | none => simp
    | some key' =>
      have unknown := get?_of_unknown unknown keyed
      simp only [Std.TreeMap.get?_eq_getElem?, Std.TreeMap.getElem?_insert] at unknown ⊢
      by_cases same : key' = key
      · subst same
        simp [unknown, eq_comm]
      · simp [same]

namespace Arrived

theorem edges_size (arrived : r.Arrived a target after) :
    after.graph.edges.size = r.graph.edges.size + 1 := by
  rw [arrived.edges, Array.size_push]

theorem edge_of_lt (arrived : r.Arrived a target after) {e : EdgeId}
    (within : e.index < r.graph.edges.size) : after.graph.edge e = r.graph.edge e := by
  simp [CallGraph.edge, arrived.edges, Array.getElem?_push, Nat.ne_of_lt within]

theorem edge_of_eq (arrived : r.Arrived a target after) {e : EdgeId}
    (last : e.index = r.graph.edges.size) : after.graph.edge e = r.edgeFor a target := by
  simp [CallGraph.edge, arrived.edges, last]

theorem target_of_eq (arrived : r.Arrived a target after) {e : EdgeId}
    (last : e.index = r.graph.edges.size) : (after.graph.edge e).target = target := by
  rw [arrived.edge_of_eq last, edgeFor]

/-- The edges after an arrival are those before it and that of the arrival. -/
theorem lt_or_eq (arrived : r.Arrived a target after) {e : EdgeId}
    (within : e.index < after.graph.edges.size) :
    e.index < r.graph.edges.size ∨ e.index = r.graph.edges.size := by
  rw [arrived.edges_size] at within
  exact Nat.lt_succ_iff_lt_or_eq.1 within

theorem vertex_target (arrived : r.Arrived a target after) :
    after.graph.vertex target = ⟨a.node, a.location⟩ := by
  rw [CallGraph.vertex, Array.getD_eq_getD_getElem?, arrived.vertex, Option.getD_some]

theorem target_lt (arrived : r.Arrived a target after) :
    target.index < after.graph.vertices.size :=
  (Array.getElem?_eq_some_iff.1 arrived.vertex).1

theorem not_frozen (arrived : r.Arrived a target after) : after.graph.isFrozen = false := by
  have allowed := arrived.allowed
  unfold refusal? at allowed
  have same : after.graph.isFrozen = r.graph.isFrozen := congrArg Option.isSome arrived.outcome
  rw [same]
  by_contra frozen
  rw [Bool.not_eq_false] at frozen
  simp [frozen] at allowed

end Arrived

/-- A template step that is not refused has a kind of templates, all other steps have not; and a
condition is never a step as a whole. -/
theorem Arrived.kind_iff (arrived : r.Arrived a target after) (action : event.action = .arrive a) :
    (a.kind.isTemplate = true ↔ ∃ name, a.node = .typeName name)
      ∧ (a.kind = .preprocessingCondition → a.opens = true) := by
  have allowed := arrived.allowed
  have fits : (a.key?.isSome && !a.kind.isTemplate) = false := by
    by_contra misfit
    unfold refusal? at allowed
    split at allowed
    · cases allowed
    · rw [Bool.not_eq_false] at misfit
      simp [misfit] at allowed
  cases event with
  | templateBegin kind name point location timestamp =>
    obtain rfl := Action.arrive.inj action
    have template : kind.isTemplate = true := by simpa [Arrival.key?] using fits
    exact ⟨iff_of_true template ⟨name, rfl⟩, fun _ => rfl⟩
  | includeBegin path system point timestamp =>
    obtain rfl := Action.arrive.inj action
    cases system <;> simp [Kind.isTemplate]
  | _ => first
    | (obtain rfl := Action.arrive.inj action; simp [Kind.isTemplate])
    | simp [Event.action] at action

/-! ## Events -/

/-- What an event does that is not refused. -/
inductive Records (r : Recorder) (event : Event) : Recorder → Prop where
  | arrives {a : Arrival} {target : VertexId} {after : Recorder}
      (action : event.action = .arrive a) (arrived : r.Arrived a target after)
      (found : r.Found a target after) : Records r event after
  | closes {closing : Closing} {e : EdgeId} {outer : List EdgeId}
      (role : event.role = .closes closing) (goes : r.graph.isFrozen = false)
      (opened : r.openEdges = e :: outer) (closes : closing.closes (r.graph.edge e).kind = true) :
      Records r event { r with
        graph := r.graph.modifyEdge e (closeEdge event.timestamp event.conditionResult)
        openEdges := outer }
  | ends {outcome : Outcome} (last : event = .evaluationEnd outcome)
      (goes : r.graph.isFrozen = false) (opened : r.openEdges = []) :
      Records r event { r with graph := { r.graph with outcome := some outcome } }

theorem role_of_close {closing : Closing} {timestamp : Float} {condition : Option Bool}
    (action : event.action = .close closing timestamp condition) :
    event.role = .closes closing := by
  cases event <;> first
    | (obtain ⟨rfl, -, -⟩ := Action.close.inj action; rfl)
    | simp [Event.action] at action

theorem eq_of_finish {outcome : Outcome} (action : event.action = .finish outcome) :
    event = .evaluationEnd outcome := by
  cases event <;> first
    | (obtain rfl := Action.finish.inj action; rfl)
    | simp [Event.action] at action

theorem record_cases (wf : r.WellFormed) (h : r.record event = (after, none)) :
    r.Records event after := by
  unfold record at h
  cases action : event.action with
  | arrive a =>
    simp only [action] at h
    obtain ⟨allowed, room, target, found, rfl⟩ := exists_of_arrive_eq h
    exact .arrives action (arrived_withEdge wf allowed room found) (found_withEdge wf found)
  | close closing timestamp condition =>
    simp only [action] at h
    obtain ⟨goes, e, outer, opened, closes, rfl⟩ := exists_of_close_eq h
    obtain ⟨rfl, rfl⟩ := timestamp_of_close action
    exact .closes (role_of_close action) goes opened closes
  | finish outcome =>
    simp only [action] at h
    obtain ⟨goes, opened, rfl⟩ := exists_of_finish_eq h
    exact .ends (eq_of_finish action) goes opened

/-- What an event does that is not refused extends the graph. -/
theorem Records.extends (records : r.Records event after) : r.graph.Extends after.graph := by
  cases records with
  | arrives _ arrived _ => exact arrived.extends
  | closes => exact modifyEdge_extends r.graph _ _ _
  | ends => exact CallGraph.extends_of_eq rfl rfl

/-! ## Traces -/

/-- What holds at first and is kept by every event that is not refused holds after a trace that is
recorded. -/
theorem recordAll_induct {motive : List Event → Recorder → Prop} (wf : r.WellFormed)
    (first : motive [] r)
    (keeps : ∀ p r event after, r.WellFormed → after.WellFormed → r.Records event after →
      motive p r → motive (p ++ [event]) after)
    {events : List Event} (recorded : r.recordAll events = (after, none)) :
    motive events after := by
  induction events using List.reverseRecOn generalizing after with
  | nil =>
    obtain rfl : r = after := by simpa [recordAll] using recorded
    exact first
  | append_singleton p event ih =>
    obtain ⟨before, earlier, last⟩ := (recordAll_snoc_iff _ _ _ _).1 recorded
    have wfBefore := wf.of_recordAll earlier
    exact keeps p before event after wfBefore (wfBefore.of_record last) (record_cases wfBefore last)
      (ih earlier)

/-- The recorder after some events, those that are refused being passed over. -/
def recordEach (r : Recorder) (events : List Event) : Recorder :=
  events.foldl (fun r event => (r.record event).1) r

theorem arrive_edges_le (r : Recorder) (a : Arrival) :
    r.graph.edges.size ≤ (r.arrive a).1.graph.edges.size := by
  unfold arrive
  cases refused : r.refusal? a with
  | some fault => exact Nat.le_refl _
  | none =>
    cases found : r.target? a with
    | none => exact Nat.le_refl _
    | some target =>
      by_cases room : r.graph.edges.size < CallGraph.arenaLimit
      · simp [CallGraph.nextEdge?, room, withEdge, CallGraph.addEdge]
      · simp [CallGraph.nextEdge?, room]

theorem close_edges_size (r : Recorder) (closing : Closing) (timestamp : Float)
    (condition : Option Bool) :
    (r.close closing timestamp condition).1.graph.edges.size = r.graph.edges.size := by
  by_cases refused : (r.close closing timestamp condition).2 ≠ none
  · rw [r.close_refused closing timestamp condition refused]
  · have step : r.close closing timestamp condition
        = ((r.close closing timestamp condition).1, none) :=
      Prod.ext rfl (not_not.1 refused)
    obtain ⟨-, e, outer, -, -, same⟩ := exists_of_close_eq step
    rw [same, CallGraph.modifyEdge_size]

theorem finish_edges_size (r : Recorder) (outcome : Outcome) :
    (r.finish outcome).1.graph.edges.size = r.graph.edges.size := by
  by_cases refused : (r.finish outcome).2 ≠ none
  · rw [r.finish_refused outcome refused]
  · have step : r.finish outcome = ((r.finish outcome).1, none) :=
      Prod.ext rfl (not_not.1 refused)
    obtain ⟨-, -, same⟩ := exists_of_finish_eq step
    rw [same]

/-- No event takes edges away, refused or not. -/
theorem record_edges_le (r : Recorder) (event : Event) :
    r.graph.edges.size ≤ (r.record event).1.graph.edges.size := by
  unfold record
  cases event.action with
  | arrive a => exact r.arrive_edges_le a
  | close closing timestamp condition =>
    exact Nat.le_of_eq (r.close_edges_size closing timestamp condition).symm
  | finish outcome => exact Nat.le_of_eq (r.finish_edges_size outcome).symm

theorem recordEach_edges_le (r : Recorder) (events : List Event) :
    r.graph.edges.size ≤ (r.recordEach events).graph.edges.size := by
  induction events generalizing r with
  | nil => exact Nat.le_refl _
  | cons event rest ih => exact Nat.le_trans (r.record_edges_le event) (ih _)

/-- What holds at first and is kept by every event that is not refused holds after any events, those
that are refused being passed over, while there is room for an edge. -/
theorem recordEach_induct {motive : Recorder → Prop} (wf : r.WellFormed) (first : motive r)
    (keeps : ∀ r event after, r.WellFormed → after.WellFormed → r.Records event after → motive r →
      motive after)
    {events : List Event}
    (room : (r.recordEach events).graph.edges.size < CallGraph.arenaLimit) :
    (r.recordEach events).WellFormed ∧ motive (r.recordEach events) := by
  induction events generalizing r with
  | nil => exact ⟨wf, first⟩
  | cons event rest ih =>
    have next : motive (r.record event).1 := by
      by_cases refused : (r.record event).2 ≠ none
      · have roomBefore : r.graph.edges.size < CallGraph.arenaLimit :=
          Nat.lt_of_le_of_lt (r.recordEach_edges_le (event :: rest)) room
        rwa [r.record_refused event roomBefore refused]
      · exact keeps r event _ wf (record_wellFormed wf event)
          (record_cases wf (Prod.ext rfl (not_not.1 refused))) first
    exact ih (record_wellFormed wf event) next room

end Recorder

end TemplateTrace
