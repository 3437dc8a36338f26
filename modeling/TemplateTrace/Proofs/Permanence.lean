import TemplateTrace.Proofs.Refusal
import TemplateTrace.Proofs.Representation
set_option autoImplicit false

/-!
# What is recorded stays

Whatever events come, refused or not, vertices and edges stay in their places, edges end at most
once, and the vertex of a template key never changes (`Recorder.recordEach_grows`).  One invariant
is behind this: only the edges on the stack are closed, and these have not ended
(`Recorder.Settled`).
-/

namespace TemplateTrace

/-- Whether an edge may have become another: all that can be added is how it ended. -/
structure Edge.Becomes (before after : Edge) : Prop where
  rest : after = { before with ended := after.ended, condition := after.condition }
  ended : ∀ time, before.ended = some time → after.ended = some time
  condition : ∀ outcome, before.condition = some outcome → after.condition = some outcome

namespace CallGraph

variable {g later last : CallGraph}

theorem Extends.trans (first : g.Extends later) (second : later.Extends last) :
    g.Extends last where
  vertices i v found := second.vertices i v (first.vertices i v found)
  edges k edge found := by
    obtain ⟨_, _, between⟩ := first.edges k edge found
    obtain ⟨ended, condition, after⟩ := second.edges k _ between
    exact ⟨ended, condition, after⟩

theorem Extends.isPrefix_vertices (grown : g.Extends later) :
    g.vertices.toList <+: later.vertices.toList := by
  rw [List.prefix_iff_getElem?]
  intro i within
  rw [Array.getElem?_toList]
  exact grown.vertices i _ (by simp)

/-- The places of all vertices are counted from zero without a gap. -/
theorem WellFormed.vertexIds_index (wf : g.WellFormed) :
    g.vertexIds.map VertexId.index = List.range g.vertices.size := by
  rw [vertexIds, List.map_map]
  refine (List.map_congr_left fun i within => ?_).trans (List.map_id _)
  exact VertexId.index_ofNat (Nat.le_trans (Nat.le_of_lt (List.mem_range.1 within)) wf.vertexRoom)

/-- The places of all edges are counted from zero without a gap. -/
theorem WellFormed.edgeIds_index (wf : g.WellFormed) :
    g.edgeIds.map EdgeId.index = List.range g.edges.size := by
  rw [edgeIds, List.map_map]
  refine (List.map_congr_left fun i within => ?_).trans (List.map_id _)
  exact EdgeId.index_ofNat (Nat.le_trans (Nat.le_of_lt (List.mem_range.1 within)) wf.edgeRoom)

theorem Extends.size_le (grown : g.Extends later) : g.edges.size ≤ later.edges.size := by
  by_contra more
  obtain ⟨ended, condition, found⟩ := grown.edges later.edges.size _
    (Array.getElem?_eq_getElem (Nat.lt_of_not_le more))
  simp at found

/-- The edges that leave a vertex are listed as they were, with new ones after them. -/
theorem Extends.isPrefix_outEdges (grown : g.Extends later) (wf : g.WellFormed)
    (wfLater : later.WellFormed) (v : VertexId) : g.outEdges v <+: later.outEdges v := by
  have ids : g.edgeIds <+: later.edgeIds := by
    obtain ⟨more, size⟩ := Nat.exists_eq_add_of_le grown.size_le
    refine List.IsPrefix.map _ ?_
    rw [size, List.range_add]
    exact List.prefix_append _ _
  have sources : g.outEdges v = g.edgeIds.filter fun e => (later.edge e).source = v := by
    rw [wf.outEdges_eq v]
    refine List.filter_congr fun e known => ?_
    rw [grown.source_eq ((mem_edgeIds wf.edgeRoom e).1 known)]
  rw [sources, wfLater.outEdges_eq v]
  exact ids.filter _

end CallGraph

namespace Recorder

variable {r later last after : Recorder} {a : Arrival} {event : Event}

/-! ## Vertices that are left behind -/

theorem LeavesVertex.edges (left : r.LeavesVertex a after) :
    after.graph.edges = r.graph.edges := by
  rw [left.only]

theorem LeavesVertex.edge (left : r.LeavesVertex a after) (e : EdgeId) :
    after.graph.edge e = r.graph.edge e := by
  rw [CallGraph.edge, left.edges, CallGraph.edge]

/-- The vertex that is left behind was added as that of any other arrival. -/
theorem LeavesVertex.found (left : r.LeavesVertex a after) :
    r.Found a ⟨UInt32.ofNat r.graph.vertices.size⟩ after := by
  refine .new ?_ (VertexId.index_ofNat (Nat.le_of_lt left.room)) ?_ ?_
  · rw [known?, Option.bind_eq_none_iff]
    exact left.unknown
  · rw [left.only]
  · exact congrArg Recorder.elements left.only

theorem LeavesVertex.extends (left : r.LeavesVertex a after) : r.graph.Extends after.graph := by
  rw [left.only]
  exact ⟨fun _ _ found => addVertex_getElem?_of_some ⟨a.node, a.location⟩ found,
    fun _ edge found => ⟨edge.ended, edge.condition, found⟩⟩

theorem Stacked.leavesVertex (stacked : r.Stacked) (wf : r.WellFormed)
    (wfAfter : after.WellFormed) (left : r.LeavesVertex a after) : after.Stacked := by
  have lineage := stacked.chain.extends wf.graph left.extends wfAfter.graph
  obtain rfl := left.only
  exact ⟨stacked.sorted, chain_of_lineage lineage, stacked.mem_iff, stacked.frozen⟩

theorem labelled_leavesVertex (labelled : r.graph.Labelled) (wf : r.WellFormed)
    (left : r.LeavesVertex a after) : after.graph.Labelled := by
  constructor
  · intro e within
    rw [left.edges] at within
    rw [left.edge]
    exact labelled.condition e within
  · intro e within
    rw [left.edges] at within
    rw [left.edge, left.extends.vertex_eq (wf.graph.target_lt e within)]
    exact labelled.template e within

/-! ## Edges that have ended -/

theorem Reached.settled (reached : r.Reached) : r.Settled :=
  (reached.induct (motive := Settled) settled_start
    (fun _ _ _ wf wfAfter records settled => settled.records wf wfAfter records)
    fun _ _ _ wf wfAfter left settled =>
      ⟨settled.stacked.leavesVertex wf wfAfter left,
        labelled_leavesVertex settled.labelled wf left⟩).2

/-! ## What events keep -/

/-- What a recorder has of an earlier one. -/
structure Keeps (r later : Recorder) : Prop where
  graph : r.graph.Extends later.graph
  ended : ∀ e : EdgeId, e.index < r.graph.edges.size → (r.graph.edge e).ended.isSome = true →
    later.graph.edge e = r.graph.edge e
  elements : ∀ key v, r.elements.get? key = some v → later.elements.get? key = some v

theorem Keeps.refl (r : Recorder) : r.Keeps r :=
  ⟨CallGraph.extends_of_eq rfl rfl, fun _ _ _ => rfl, fun _ _ found => found⟩

theorem Keeps.trans (first : r.Keeps later) (second : later.Keeps last) : r.Keeps last where
  graph := first.graph.trans second.graph
  ended e within ended := by
    have same := first.ended e within ended
    rw [second.ended e (first.graph.edge_lt within) (same ▸ ended), same]
  elements key v found := second.elements key v (first.elements key v found)

/-- An event that is not refused ends an edge only if that has not ended before. -/
theorem Settled.keeps_of_records (settled : r.Settled) (records : r.Records event after) :
    r.Keeps after := by
  refine ⟨records.extends, fun e within ended => ?_, fun key v known => ?_⟩
  · cases records with
    | arrives _ arrived _ => exact arrived.edge_of_lt within
    | @closes _ open_ _ _ _ opened _ =>
      have unended := ((settled.stacked.mem_iff open_).1 (by simp [opened])).2
      rw [CallGraph.modifyEdge_edge _ _ _ within, if_neg]
      rintro rfl
      simp [unended] at ended
    | ends => rfl
  · cases records with
    | arrives _ _ found => exact (found.get?_iff key v).2 (.inl known)
    | closes => exact known
    | ends => exact known

theorem LeavesVertex.keeps (left : r.LeavesVertex a after) : r.Keeps after :=
  ⟨left.extends, fun e _ _ => left.edge e,
    fun key v known => (left.found.get?_iff key v).2 (.inl known)⟩

/-! ## What stays for good -/

theorem Reached.keeps_record (reached : r.Reached) (event : Event) :
    r.Keeps (r.record event).1 := by
  rcases record_cases_of_any reached.wellFormed event with records | same | ⟨a, left⟩
  · exact reached.settled.keeps_of_records records
  · rw [same]
    exact .refl r
  · exact left.keeps

theorem Reached.keeps_recordEach (reached : r.Reached) (events : List Event) :
    r.Keeps (r.recordEach events) := by
  induction events using List.reverseRecOn with
  | nil => exact .refl r
  | append_singleton p event ih =>
    rw [recordEach_snoc]
    exact ih.trans ((reached.recordEach p).keeps_record event)

/-- Whether a recorder has grown into another: all vertices and edges are where they were, and the
lists of edges go on as they were; edges that had ended are as they were and never open again, and
all that the others may have come by is how they ended; keys have the vertices they had.  The
places of the later recorder are those that can be counted. -/
structure GrowsInto (r later : Recorder) : Prop where
  vertices : r.graph.vertices.toList <+: later.graph.vertices.toList
  outEdges : ∀ v, r.graph.outEdges v <+: later.graph.outEdges v
  edges : ∀ e : EdgeId, e.index < r.graph.edges.size →
    e.index < later.graph.edges.size ∧ (r.graph.edge e).Becomes (later.graph.edge e)
  closed : ∀ e : EdgeId, e.index < r.graph.edges.size → (r.graph.edge e).ended.isSome = true →
    later.graph.edge e = r.graph.edge e ∧ e ∉ later.openEdges
  elements : ∀ key v, r.elements.get? key = some v → later.elements.get? key = some v
  vertexRoom : later.graph.vertices.size ≤ CallGraph.arenaLimit
  edgeRoom : later.graph.edges.size ≤ CallGraph.arenaLimit
  vertexPlaces : later.graph.vertexIds.map VertexId.index = List.range later.graph.vertices.size
  edgePlaces : later.graph.edgeIds.map EdgeId.index = List.range later.graph.edges.size

theorem Keeps.becomes (keeps : r.Keeps later) (settled : r.Settled) {e : EdgeId}
    (within : e.index < r.graph.edges.size) : (r.graph.edge e).Becomes (later.graph.edge e) where
  rest := by
    obtain ⟨ended, condition, same⟩ := keeps.graph.exists_edge_eq within
    rw [same]
  ended time ended := by
    rw [keeps.ended e within (by simp [ended]), ended]
  condition outcome known := by
    -- a condition with an outcome has ended
    have ended := ((settled.labelled.condition e within).1 (by simp [known])).2
    rw [keeps.ended e within ended, known]

theorem Keeps.growsInto (keeps : r.Keeps later) (reached : r.Reached)
    (reachedLater : later.Reached) : r.GrowsInto later where
  vertices := keeps.graph.isPrefix_vertices
  outEdges := keeps.graph.isPrefix_outEdges reached.wellFormed.graph reachedLater.wellFormed.graph
  edges _ within := ⟨keeps.graph.edge_lt within, keeps.becomes reached.settled within⟩
  closed e within ended := by
    have same := keeps.ended e within ended
    refine ⟨same, fun isOpen => ?_⟩
    have unended := ((reachedLater.settled.stacked.mem_iff e).1 isOpen).2
    rw [← same, unended] at ended
    cases ended
  elements := keeps.elements
  vertexRoom := reachedLater.wellFormed.graph.vertexRoom
  edgeRoom := reachedLater.wellFormed.graph.edgeRoom
  vertexPlaces := reachedLater.wellFormed.graph.vertexIds_index
  edgePlaces := reachedLater.wellFormed.graph.edgeIds_index

/-- Whatever events a recorder has met, it grows by those that come after, refused or not: nothing
is taken away, moved or changed but that an open edge ends. -/
theorem recordEach_grows (config : Config) (rootLocation : Location) (events later : List Event) :
    ((start config rootLocation).recordEach events).GrowsInto
      ((start config rootLocation).recordEach (events ++ later)) := by
  have reached : ((start config rootLocation).recordEach events).Reached :=
    ⟨config, rootLocation, events, rfl⟩
  rw [recordEach_append]
  exact (reached.keeps_recordEach later).growsInto reached (reached.recordEach later)

end Recorder

end TemplateTrace
