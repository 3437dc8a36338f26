import TemplateTrace.Proofs.Growth
import TemplateTrace.Proofs.Graph.DepthFirst
import TemplateTrace.Proofs.Graph.Unmarked
set_option autoImplicit false

/-!
# What holds of recorders

Whatever events were recorded or refused, the lists, the stack and the cursor of a recorder fit its
graph (`Recorder.represented_recordEach`).  Three invariants carry this, each with a lemma for every
action: the open edges are a chain from the root and just those that have not ended
(`Recorder.Stacked`), every vertex is reached from the root and the root from nowhere
(`CallGraph.Rooted`), and kinds tell what an edge leads to and whether it has the outcome of a
condition (`CallGraph.Labelled`).
-/

namespace TemplateTrace

namespace CallGraph

/-- Every vertex is reached from the root, a piece of code to which no edge leads. -/
structure Rooted (g : CallGraph) : Prop where
  code : ∃ text, (g.vertex root).node = .code text
  untargeted : ∀ e : EdgeId, e.index < g.edges.size → (g.edge e).target ≠ root
  reached : ∀ v : VertexId, v.index < g.vertices.size → ∃ es, g.Lineage v es

/-- Edges of conditions have an outcome once they have ended, and no other edge has one; edges of
template kinds lead to vertices of types, and no other edge does. -/
structure Labelled (g : CallGraph) : Prop where
  condition : ∀ e : EdgeId, e.index < g.edges.size →
    ((g.edge e).condition.isSome = true
      ↔ (g.edge e).kind = .preprocessingCondition ∧ (g.edge e).ended.isSome = true)
  template : ∀ e : EdgeId, e.index < g.edges.size →
    ((g.edge e).kind.isTemplate = true ↔ ∃ name, (g.vertex (g.edge e).target).node = .typeName name)

variable {g later : CallGraph} {v : VertexId} {es : List EdgeId}

/-- A chain of edges stays one while the graph grows. -/
theorem Lineage.extends (lineage : g.Lineage v es) (wf : g.WellFormed) (grown : g.Extends later)
    (wfLater : later.WellFormed) : later.Lineage v es := by
  induction es generalizing v with
  | nil => exact lineage
  | cons e outer ih =>
    obtain ⟨known, target, rest⟩ := lineage
    have within := (mem_edgeIds wf.edgeRoom e).1 known
    refine ⟨(mem_edgeIds wfLater.edgeRoom e).2 (grown.edge_lt within), ?_, ?_⟩
    · rw [grown.target_eq within, target]
    · rw [grown.source_eq within]
      exact ih rest

/-- A graph that has grown by nothing is rooted as it was. -/
theorem Rooted.extends (rooted : g.Rooted) (wf : g.WellFormed) (grown : g.Extends later)
    (wfLater : later.WellFormed) (vertices : later.vertices.size = g.vertices.size)
    (edges : later.edges.size = g.edges.size) : later.Rooted where
  code := by
    rw [grown.vertex_eq wf.root_lt]
    exact rooted.code
  untargeted e within := by
    rw [edges] at within
    rw [grown.target_eq within]
    exact rooted.untargeted e within
  reached v within := by
    obtain ⟨es, lineage⟩ := rooted.reached v (vertices ▸ within)
    exact ⟨es, lineage.extends wf grown wfLater⟩

end CallGraph

namespace Recorder

/-- The open edges are a chain from the root, inner ones later than outer ones, and just those edges
that have not ended; a frozen graph has none. -/
structure Stacked (r : Recorder) : Prop where
  sorted : r.openEdges.Pairwise fun inner outer => outer.index < inner.index
  chain : r.graph.Lineage r.caller r.openEdges
  mem_iff : ∀ e, e ∈ r.openEdges ↔ e.index < r.graph.edges.size ∧ (r.graph.edge e).ended = none
  frozen : r.graph.isFrozen = true → r.openEdges = []

variable {r after : Recorder} {a : Arrival} {target : VertexId} {event : Event} {e : EdgeId}
  {outer : List EdgeId}

theorem caller_eq_of_lineage {v : VertexId} (lineage : r.graph.Lineage v r.openEdges) :
    r.caller = v := by
  unfold caller
  cases opened : r.openEdges with
  | nil =>
    rw [opened] at lineage
    exact lineage.symm
  | cons e outer =>
    rw [opened] at lineage
    exact lineage.2.1

theorem chain_of_lineage {v : VertexId} (lineage : r.graph.Lineage v r.openEdges) :
    r.graph.Lineage r.caller r.openEdges := by
  rwa [caller_eq_of_lineage lineage]

/-! ## The stack -/

theorem stacked_start (config : Config) (rootLocation : Location) :
    (start config rootLocation).Stacked where
  sorted := .nil
  chain := rfl
  mem_iff e := by simp [start, CallGraph.start]
  frozen _ := rfl

theorem Arrived.mem_openEdges_iff (arrived : r.Arrived a target after) (wf : r.WellFormed)
    (e : EdgeId) : e ∈ after.openEdges
      ↔ e ∈ r.openEdges ∨ a.opens = true ∧ e.index = r.graph.edges.size := by
  rw [arrived.openEdges]
  cases a.opens with
  | true =>
    rw [if_pos rfl, List.mem_cons, EdgeId.eq_ofNat_iff wf.graph.edgeRoom, or_comm,
      and_iff_right rfl]
  | false => simp

/-- The edge of an arrival leads to its vertex from the innermost open step. -/
theorem Arrived.lineage_target (arrived : r.Arrived a target after) (wf : r.WellFormed)
    (wfAfter : after.WellFormed) (stacked : r.Stacked) :
    after.graph.Lineage target (⟨UInt32.ofNat r.graph.edges.size⟩ :: r.openEdges) := by
  have last := EdgeId.index_ofNat wf.graph.edgeRoom
  refine ⟨?_, ?_, ?_⟩
  · rw [CallGraph.mem_edgeIds wfAfter.graph.edgeRoom, last, arrived.edges_size]
    exact Nat.lt_succ_self _
  · rw [arrived.edge_of_eq last, edgeFor]
  · rw [arrived.edge_of_eq last, edgeFor]
    exact stacked.chain.extends wf.graph arrived.extends wfAfter.graph

theorem Stacked.arrives (stacked : r.Stacked) (wf : r.WellFormed) (wfAfter : after.WellFormed)
    (arrived : r.Arrived a target after) : after.Stacked where
  sorted := by
    rw [arrived.openEdges]
    split
    · refine List.pairwise_cons.2 ⟨fun outer mem => ?_, stacked.sorted⟩
      rw [EdgeId.index_ofNat wf.graph.edgeRoom]
      exact wf.opened outer mem
    · exact stacked.sorted
  chain := by
    cases opens : a.opens with
    | true =>
      have lineage := arrived.lineage_target wf wfAfter stacked
      refine chain_of_lineage (v := target) ?_
      rwa [arrived.openEdges, opens, if_pos rfl]
    | false =>
      have lineage := stacked.chain.extends wf.graph arrived.extends wfAfter.graph
      refine chain_of_lineage (v := r.caller) ?_
      rwa [arrived.openEdges, opens, if_neg Bool.false_ne_true]
  mem_iff e := by
    rw [arrived.mem_openEdges_iff wf, stacked.mem_iff]
    constructor
    · rintro (⟨old, unended⟩ | ⟨opens, last⟩)
      · rw [arrived.edge_of_lt old]
        exact ⟨arrived.extends.edge_lt old, unended⟩
      · rw [arrived.edge_of_eq last, edgeFor, if_pos opens, arrived.edges_size, last]
        exact ⟨Nat.lt_succ_self _, rfl⟩
    · rintro ⟨within, unended⟩
      rcases arrived.lt_or_eq within with old | last
      · rw [arrived.edge_of_lt old] at unended
        exact .inl ⟨old, unended⟩
      · rw [arrived.edge_of_eq last, edgeFor] at unended
        refine .inr ⟨?_, last⟩
        by_contra leaf
        simp [leaf] at unended
  frozen frozen := by
    rw [arrived.not_frozen] at frozen
    cases frozen

/-- Ending the innermost open edge leaves the chain of the others. -/
theorem Stacked.closes (stacked : r.Stacked) (wf : r.WellFormed) {timestamp : Float}
    {condition : Option Bool} (goes : r.graph.isFrozen = false)
    (opened : r.openEdges = e :: outer)
    (wfAfter : (r.graph.modifyEdge e (closeEdge timestamp condition)).WellFormed) :
    Stacked { r with
      graph := r.graph.modifyEdge e (closeEdge timestamp condition), openEdges := outer } where
  sorted := by
    have sorted := stacked.sorted
    rw [opened] at sorted
    exact sorted.tail
  chain := by
    have chain := stacked.chain
    rw [opened] at chain
    exact chain_of_lineage (r := { r with
      graph := r.graph.modifyEdge e (closeEdge timestamp condition), openEdges := outer })
      (chain.2.2.extends wf.graph (modifyEdge_extends r.graph e timestamp condition) wfAfter)
  mem_iff f := by
    have sorted := stacked.sorted
    have before := stacked.mem_iff f
    rw [opened] at sorted before
    rw [List.mem_cons] at before
    simp only [CallGraph.modifyEdge_size]
    by_cases within : f.index < r.graph.edges.size
    · rw [CallGraph.modifyEdge_edge _ _ _ within]
      by_cases same : e = f
      · subst same
        have inner : e ∉ outer := fun mem =>
          Nat.lt_irrefl _ ((List.pairwise_cons.1 sorted).1 e mem)
        simp [inner, closeEdge]
      · rw [if_neg same, ← before, or_iff_right (Ne.symm same)]
    · refine iff_of_false (fun mem => within ?_) fun known => within known.1
      exact (before.1 (.inr mem)).1
  frozen frozen := by
    have same : r.graph.isFrozen = true := frozen
    rw [goes] at same
    cases same

theorem Stacked.ends (stacked : r.Stacked) (opened : r.openEdges = []) (outcome : Outcome) :
    Stacked { r with graph := { r.graph with outcome := some outcome } } where
  sorted := stacked.sorted
  chain := chain_of_lineage (r := { r with graph := { r.graph with outcome := some outcome } })
    (v := CallGraph.root) (by simp only [opened]; rfl)
  mem_iff := stacked.mem_iff
  frozen _ := opened

/-! ## The vertices -/

theorem rooted_start (config : Config) (rootLocation : Location) :
    (start config rootLocation).graph.Rooted where
  code := ⟨_, rfl⟩
  untargeted e within := absurd within (Nat.not_lt_zero _)
  reached v within := by
    refine ⟨[], VertexId.eq_of_index_eq ?_⟩
    exact Nat.lt_one_iff.1 within

/-- No arrival is at the root. -/
theorem Found.target_ne_root (found : r.Found a target after) (wf : r.WellFormed)
    (rooted : r.graph.Rooted) : target ≠ CallGraph.root := by
  rintro rfl
  cases found with
  | before key _ known _ _ =>
    obtain ⟨text, code⟩ := rooted.code
    rw [CallGraph.vertex, Array.getD_eq_getD_getElem?, wf.elements key _ known] at code
    cases code
  | new _ index _ _ => exact Nat.ne_of_gt wf.graph.rooted index.symm

theorem rooted_arrives (rooted : r.graph.Rooted) (stacked : r.Stacked) (wf : r.WellFormed)
    (wfAfter : after.WellFormed) (arrived : r.Arrived a target after)
    (found : r.Found a target after) : after.graph.Rooted where
  code := by
    rw [arrived.extends.vertex_eq wf.graph.root_lt]
    exact rooted.code
  untargeted e within := by
    rcases arrived.lt_or_eq within with old | last
    · rw [arrived.edge_of_lt old]
      exact rooted.untargeted e old
    · rw [arrived.edge_of_eq last]
      exact found.target_ne_root wf rooted
  reached v within := by
    rcases found.lt_or_eq within with old | rfl
    · obtain ⟨es, lineage⟩ := rooted.reached v old
      exact ⟨es, lineage.extends wf.graph arrived.extends wfAfter.graph⟩
    · exact ⟨_, arrived.lineage_target wf wfAfter stacked⟩

/-! ## The labels -/

theorem labelled_start (config : Config) (rootLocation : Location) :
    (start config rootLocation).graph.Labelled where
  condition _ within := absurd within (Nat.not_lt_zero _)
  template _ within := absurd within (Nat.not_lt_zero _)

theorem labelled_arrives (labelled : r.graph.Labelled) (wf : r.WellFormed)
    (arrived : r.Arrived a target after) (action : event.action = .arrive a) :
    after.graph.Labelled where
  condition e within := by
    rcases arrived.lt_or_eq within with old | last
    · rw [arrived.edge_of_lt old]
      exact labelled.condition e old
    · rw [arrived.edge_of_eq last]
      refine iff_of_false Bool.false_ne_true ?_
      rintro ⟨kind, ended⟩
      simp [edgeFor, (arrived.kind_iff action).2 kind] at ended
  template e within := by
    rcases arrived.lt_or_eq within with old | last
    · rw [arrived.edge_of_lt old, arrived.extends.vertex_eq (wf.graph.target_lt e old)]
      exact labelled.template e old
    · rw [arrived.edge_of_eq last, edgeFor, arrived.vertex_target]
      exact (arrived.kind_iff action).1

/-- Just the events that close a condition have an outcome of it. -/
theorem conditionResult_isSome_iff {closing : Closing} (role : event.role = .closes closing)
    {kind : Kind} (closes : closing.closes kind = true) :
    event.conditionResult.isSome = true ↔ kind = .preprocessingCondition := by
  cases event <;> simp only [Event.role, reduceCtorEq, Event.Role.closes.injEq] at role <;>
    subst role <;> cases kind <;> simp_all [Closing.closes, Kind.isTemplate, Event.conditionResult]

theorem labelled_closes (labelled : r.graph.Labelled) {closing : Closing}
    (role : event.role = .closes closing) (closes : closing.closes (r.graph.edge e).kind = true) :
    (r.graph.modifyEdge e (closeEdge event.timestamp event.conditionResult)).Labelled where
  condition f within := by
    rw [CallGraph.modifyEdge_size] at within
    rw [CallGraph.modifyEdge_edge _ _ _ within]
    by_cases same : e = f
    · subst same
      rw [if_pos rfl, closeEdge, conditionResult_isSome_iff role closes]
      exact (and_iff_left rfl).symm
    · rw [if_neg same]
      exact labelled.condition f within
  template f within := by
    rw [CallGraph.modifyEdge_size] at within
    have grown := modifyEdge_extends r.graph e event.timestamp event.conditionResult
    rw [grown.kind_eq within, grown.target_eq within]
    exact labelled.template f within

/-! ## All of them -/

/-- The open edges are just those that have not ended, and only conditions that have ended have an
outcome. -/
structure Settled (r : Recorder) : Prop where
  stacked : r.Stacked
  labelled : r.graph.Labelled

theorem settled_start (config : Config) (rootLocation : Location) :
    (start config rootLocation).Settled :=
  ⟨stacked_start config rootLocation, labelled_start config rootLocation⟩

theorem Settled.records (settled : r.Settled) (wf : r.WellFormed) (wfAfter : after.WellFormed)
    (records : r.Records event after) : after.Settled := by
  obtain ⟨stacked, labelled⟩ := settled
  cases records with
  | arrives action arrived found =>
    exact ⟨stacked.arrives wf wfAfter arrived, labelled_arrives labelled wf arrived action⟩
  | closes role goes opened closes =>
    exact ⟨stacked.closes wf goes opened wfAfter.graph, labelled_closes labelled role closes⟩
  | ends _ _ opened =>
    exact ⟨stacked.ends opened _, ⟨labelled.condition, labelled.template⟩⟩

/-- What recording keeps. -/
structure Consistent (r : Recorder) : Prop where
  stacked : r.Stacked
  rooted : r.graph.Rooted
  labelled : r.graph.Labelled

theorem consistent_start (config : Config) (rootLocation : Location) :
    (start config rootLocation).Consistent :=
  ⟨stacked_start config rootLocation, rooted_start config rootLocation,
    labelled_start config rootLocation⟩

/-- An event that is not refused keeps a recorder consistent. -/
theorem Consistent.records (consistent : r.Consistent) (wf : r.WellFormed)
    (wfAfter : after.WellFormed) (records : r.Records event after) : after.Consistent := by
  have grown := records.extends
  obtain ⟨stacked, rooted, labelled⟩ := consistent
  have settled := Settled.records ⟨stacked, labelled⟩ wf wfAfter records
  refine ⟨settled.stacked, ?_, settled.labelled⟩
  cases records with
  | arrives _ arrived found => exact rooted_arrives rooted stacked wf wfAfter arrived found
  | closes => exact rooted.extends wf.graph grown wfAfter.graph rfl (CallGraph.modifyEdge_size ..)
  | ends => exact rooted.extends wf.graph grown wfAfter.graph rfl rfl

end Recorder

/-! ## What follows -/

namespace CallGraph

variable {g : CallGraph}

/-- An edge is listed at the vertex it leaves and nowhere else. -/
theorem WellFormed.existsUnique_outEdges (wf : g.WellFormed) {e : EdgeId}
    (within : e.index < g.edges.size) :
    ∃! v : VertexId, v.index < g.vertices.size ∧ e ∈ g.outEdges v := by
  refine ⟨(g.edge e).source, ⟨wf.source_lt e within, (wf.mem_outEdges _ e).2 ⟨within, rfl⟩⟩, ?_⟩
  rintro v ⟨-, listed⟩
  exact ((wf.mem_outEdges v e).1 listed).2.symm

/-- The calls of all vertices are all enabled edges. -/
theorem WellFormed.sum_enabledDegree (wf : g.WellFormed) :
    (g.vertexIds.map g.enabledDegree).sum = g.enabledEdges.length := by
  have edges : (g.enabledEdges.map Position.edge).Nodup :=
    ((nodup_of_sorted (edgeIds_sorted wf.edgeRoom)).filter _).map fun _ _ => Position.edge.inj
  have calls : (g.vertexIds.flatMap g.callees).Perm (g.enabledEdges.map .edge) := by
    refine (List.perm_ext_iff_of_nodup (nodup_flatMap_callees wf (vertexIds_nodup wf.vertexRoom))
      edges).2 fun p => ?_
    rw [mem_flatMap_callees_iff wf, List.mem_map]
    constructor
    · rintro ⟨e, rfl, enabled, -⟩
      exact ⟨e, enabled, rfl⟩
    · rintro ⟨e, enabled, rfl⟩
      refine ⟨e, rfl, enabled, mem_vertexIds wf.vertexRoom (wf.source_lt e ?_)⟩
      exact (mem_edgeIds wf.edgeRoom e).1 (List.mem_filter.1 enabled).1
  have lengths := calls.length_eq
  rw [List.length_flatMap, List.length_map] at lengths
  rw [← lengths]
  refine congrArg List.sum (List.map_congr_left fun v _ => ?_)
  rw [callees, List.length_map, List.length_reverse, enabledDegree]

/-- The vertices of types are those to which edges of template kinds lead. -/
theorem Rooted.typeName_iff (rooted : g.Rooted) (labelled : g.Labelled) (wf : g.WellFormed)
    {v : VertexId} (within : v.index < g.vertices.size) :
    (∃ name, (g.vertex v).node = .typeName name)
      ↔ ∃ e : EdgeId, e.index < g.edges.size ∧ (g.edge e).target = v
        ∧ (g.edge e).kind.isTemplate = true := by
  constructor
  · rintro ⟨name, typed⟩
    obtain ⟨es, lineage⟩ := rooted.reached v within
    cases es with
    | nil =>
      -- the root is no type
      obtain ⟨text, code⟩ := rooted.code
      obtain rfl : v = root := lineage
      rw [typed] at code
      cases code
    | cons e outer =>
      obtain ⟨known, rfl, -⟩ := lineage
      have edge := (mem_edgeIds wf.edgeRoom e).1 known
      exact ⟨e, edge, rfl, (labelled.template e edge).2 ⟨name, typed⟩⟩
  · rintro ⟨e, edge, rfl, template⟩
    exact (labelled.template e edge).1 template

end CallGraph

namespace Recorder

/-- What holds of a recorder at all times: its graph, its open edges and its cursor fit together,
and so do the graph and the cursors after any moves. -/
structure Represented (r : Recorder) : Prop where
  source_lt : ∀ e : EdgeId, e.index < r.graph.edges.size →
    (r.graph.edge e).source.index < r.graph.vertices.size
  target_lt : ∀ e : EdgeId, e.index < r.graph.edges.size →
    (r.graph.edge e).target.index < r.graph.vertices.size
  outgoing_size : r.graph.outgoing.size = r.graph.vertices.size
  outEdges_eq : ∀ v, r.graph.outEdges v
    = r.graph.edgeIds.filter fun e => (r.graph.edge e).source = v
  outEdges_sorted : ∀ v, (r.graph.outEdges v).Pairwise fun a b => a.index < b.index
  listed_once : ∀ e : EdgeId, e.index < r.graph.edges.size →
    ∃! v : VertexId, v.index < r.graph.vertices.size ∧ e ∈ r.graph.outEdges v
  degrees : (r.graph.vertexIds.map r.graph.enabledDegree).sum = r.graph.enabledEdges.length
  cursor : r.cursor.Fits r.graph
  unmoved : r.toStepper = .start r.graph
  moved : ∀ moves, (r.toStepper.performAll moves).MovedOver r.graph
  rooted : r.graph.Rooted
  stacked : r.Stacked
  condition : ∀ e : EdgeId, e.index < r.graph.edges.size →
    ((r.graph.edge e).condition.isSome = true
      ↔ (r.graph.edge e).kind = .preprocessingCondition
        ∧ (r.graph.edge e).ended.isSome = true)
  typed : ∀ v : VertexId, v.index < r.graph.vertices.size →
    ((∃ name, (r.graph.vertex v).node = .typeName name)
      ↔ ∃ e : EdgeId, e.index < r.graph.edges.size ∧ (r.graph.edge e).target = v
        ∧ (r.graph.edge e).kind.isTemplate = true)

variable {r : Recorder}

theorem Consistent.represented (consistent : r.Consistent) (wf : r.WellFormed) :
    r.Represented where
  source_lt := wf.graph.source_lt
  target_lt := wf.graph.target_lt
  outgoing_size := wf.graph.outgoing_size
  outEdges_eq := wf.graph.outEdges_eq
  outEdges_sorted := wf.graph.outEdges_sorted
  listed_once _ within := wf.graph.existsUnique_outEdges within
  degrees := wf.graph.sum_enabledDegree
  cursor := wf.fits
  unmoved := wf.unmoved
  moved moves := by
    rw [wf.unmoved]
    exact Stepper.movedOver_performAll r.graph moves
  rooted := consistent.rooted
  stacked := consistent.stacked
  condition := consistent.labelled.condition
  typed _ within := consistent.rooted.typeName_iff consistent.labelled wf.graph within

/-- Whatever events came, those that are refused being passed over, the parts of a recorder fit
together while there is room for an edge. -/
theorem represented_recordEach (config : Config) (rootLocation : Location) (events : List Event)
    (room : ((start config rootLocation).recordEach events).graph.edges.size
      < CallGraph.arenaLimit) :
    ((start config rootLocation).recordEach events).Represented := by
  obtain ⟨wf, consistent⟩ := recordEach_induct (motive := Consistent)
    (start_wellFormed config rootLocation) (consistent_start config rootLocation)
    (fun r event after wf wfAfter records kept => kept.records wf wfAfter records) room
  exact consistent.represented wf

/-- A trace in which a closing comes too early, another does not match, and a step has a kind that
does not fit; the condition and the template step that were begun are open in the end. -/
def interrupted : List Event :=
  [.templateEnd 0, .templateBegin .memoization "a" .unknown .unknown 1, .macroExpansionEnd 2,
    .templateBegin .rescanning "b" .unknown .unknown 3, .conditionBegin "A" .unknown 4,
    .evaluationEnd default]

theorem represented_recordEach_refused :
    ((start .default .unknown).recordEach interrupted).graph.edges.size < CallGraph.arenaLimit
      ∧ ((start .default .unknown).recordEach interrupted).Represented :=
  ⟨by decide +kernel, represented_recordEach .default .unknown interrupted (by decide +kernel)⟩

end Recorder

end TemplateTrace
