import TemplateTrace.Graph.Cursor
import Mathlib.Data.List.Basic
set_option autoImplicit false

/-!
# Well-formed graphs

`CallGraph.WellFormed` says what holds of every graph that recording has grown: edges lead from
vertex to vertex, and every vertex lists the edges that leave it in the order of their places.  Each
way in which a graph changes has a lemma on what the edges and the lists are afterwards, and one
that the graph stays well formed.  A cursor fits a graph (`Cursor.Fits`) if it has an entry for
every vertex.
-/

namespace TemplateTrace

/-! ## Places -/

theorem EdgeId.index_ofNat {n : Nat} (h : n ≤ CallGraph.arenaLimit) :
    (⟨UInt32.ofNat n⟩ : EdgeId).index = n :=
  UInt32.toNat_ofNat_of_lt' (Nat.lt_succ_of_le h)

theorem VertexId.index_ofNat {n : Nat} (h : n ≤ CallGraph.arenaLimit) :
    (⟨UInt32.ofNat n⟩ : VertexId).index = n :=
  UInt32.toNat_ofNat_of_lt' (Nat.lt_succ_of_le h)

theorem EdgeId.eq_ofNat_iff {n : Nat} (h : n ≤ CallGraph.arenaLimit) (e : EdgeId) :
    e = ⟨UInt32.ofNat n⟩ ↔ e.index = n := by
  constructor
  · rintro rfl
    exact EdgeId.index_ofNat h
  · exact fun same => EdgeId.eq_of_index_eq (same.trans (EdgeId.index_ofNat h).symm)

namespace CallGraph

theorem mem_edgeIds {g : CallGraph} (room : g.edges.size ≤ arenaLimit) (e : EdgeId) :
    e ∈ g.edgeIds ↔ e.index < g.edges.size := by
  unfold edgeIds
  simp only [List.mem_map, List.mem_range]
  constructor
  · rintro ⟨n, within, rfl⟩
    rwa [EdgeId.index_ofNat (Nat.le_trans (Nat.le_of_lt within) room)]
  · intro within
    refine ⟨e.index, within, EdgeId.eq_of_index_eq ?_⟩
    exact EdgeId.index_ofNat (Nat.le_trans (Nat.le_of_lt within) room)

/-- The places of edges are listed in order. -/
theorem edgeIds_sorted {g : CallGraph} (room : g.edges.size ≤ arenaLimit) :
    g.edgeIds.Pairwise fun a b => a.index < b.index := by
  unfold edgeIds
  rw [List.pairwise_map]
  refine List.Pairwise.imp_of_mem ?_ List.pairwise_lt_range
  intro a b memA memB less
  rw [List.mem_range] at memA memB
  rwa [EdgeId.index_ofNat (by omega), EdgeId.index_ofNat (by omega)]

/-- Edges in order are different. -/
theorem nodup_of_sorted {es : List EdgeId} (sorted : es.Pairwise fun a b => a.index < b.index) :
    es.Nodup := by
  refine sorted.imp ?_
  rintro e _ less rfl
  exact Nat.lt_irrefl _ less

theorem edgeIds_eq_of_size_eq {g other : CallGraph} (h : other.edges.size = g.edges.size) :
    other.edgeIds = g.edgeIds := by
  unfold edgeIds
  rw [h]

theorem getElem?_edge {g : CallGraph} {e : EdgeId} (h : e.index < g.edges.size) :
    g.edges[e.index]? = some (g.edge e) := by
  simp [edge, h]

/-! ## Single changes -/

@[simp] theorem addVertex_edge (g : CallGraph) (v : Vertex) (e : EdgeId) :
    (g.addVertex v).edge e = g.edge e := rfl

@[simp] theorem addVertex_outEdges (g : CallGraph) (v : Vertex) (u : VertexId) :
    (g.addVertex v).outEdges u = g.outEdges u := by
  unfold outEdges addVertex
  simp only [Array.getD_eq_getD_getElem?, Array.getElem?_push]
  split
  · next last => simp [last]
  · rfl

theorem addEdge_edge_of_lt (g : CallGraph) (new : Edge) {e : EdgeId}
    (h : e.index < g.edges.size) : (g.addEdge new).edge e = g.edge e := by
  simp [addEdge, edge, Array.getElem?_push, Nat.ne_of_lt h]

theorem addEdge_edge_of_eq (g : CallGraph) (new : Edge) {e : EdgeId}
    (h : e.index = g.edges.size) : (g.addEdge new).edge e = new := by
  simp [addEdge, edge, h]

theorem addEdge_outEdges (g : CallGraph) (new : Edge) (v : VertexId)
    (h : new.source.index < g.outgoing.size) :
    (g.addEdge new).outEdges v
      = if new.source = v then g.outEdges v ++ [⟨UInt32.ofNat g.edges.size⟩]
        else g.outEdges v := by
  unfold outEdges addEdge
  simp only [Array.getD_eq_getD_getElem?, Array.getElem?_modify]
  by_cases same : new.source = v
  · subst same
    simp [h]
  · have differs : new.source.index ≠ v.index := fun eq =>
      same (VertexId.eq_of_index_eq eq)
    simp [same, differs]

theorem modifyEdge_edge (g : CallGraph) (changed : EdgeId) (change : Edge → Edge) {e : EdgeId}
    (h : e.index < g.edges.size) :
    (g.modifyEdge changed change).edge e = if changed = e then change (g.edge e) else g.edge e := by
  unfold modifyEdge edge
  simp only [Array.getD_eq_getD_getElem?, Array.getElem?_modify]
  by_cases same : changed = e
  · subst same
    simp [h]
  · have differs : changed.index ≠ e.index := fun eq => same (EdgeId.eq_of_index_eq eq)
    simp [same, differs]

@[simp] theorem modifyEdge_size (g : CallGraph) (e : EdgeId) (change : Edge → Edge) :
    (g.modifyEdge e change).edges.size = g.edges.size := by
  simp [modifyEdge]

theorem setKindEnabled_edge (g : CallGraph) (kinds : Kind → Bool) (enabled : Bool) {e : EdgeId}
    (h : e.index < g.edges.size) :
    (g.setKindEnabled kinds enabled).1.edge e
      = if kinds (g.edge e).kind then { g.edge e with enabled } else g.edge e := by
  simp [setKindEnabled, edge, h]

@[simp] theorem setKindEnabled_size (g : CallGraph) (kinds : Kind → Bool) (enabled : Bool) :
    (g.setKindEnabled kinds enabled).1.edges.size = g.edges.size := by
  simp [setKindEnabled]

/-! ## Well-formed graphs -/

/-- Edges lead from vertex to vertex, and every vertex lists the edges that leave it. -/
structure WellFormed (g : CallGraph) : Prop where
  rooted : 0 < g.vertices.size
  vertexRoom : g.vertices.size ≤ arenaLimit
  edgeRoom : g.edges.size ≤ arenaLimit
  outgoing_size : g.outgoing.size = g.vertices.size
  source_lt : ∀ e : EdgeId, e.index < g.edges.size →
    (g.edge e).source.index < g.vertices.size
  target_lt : ∀ e : EdgeId, e.index < g.edges.size →
    (g.edge e).target.index < g.vertices.size
  outEdges_eq : ∀ v, g.outEdges v = g.edgeIds.filter fun e => (g.edge e).source = v

namespace WellFormed

variable {g : CallGraph}

theorem start (mode : Mode) (rootName : String) (rootLocation : Location) :
    (CallGraph.start mode rootName rootLocation).WellFormed where
  rooted := Nat.one_pos
  vertexRoom := Nat.succ_le_of_lt (by decide)
  edgeRoom := Nat.zero_le _
  outgoing_size := rfl
  source_lt e h := absurd h (Nat.not_lt_zero _)
  target_lt e h := absurd h (Nat.not_lt_zero _)
  outEdges_eq v := by
    have index : (#[#[]] : Array (Array EdgeId)).getD v.index #[] = #[] := by
      cases v.index <;> rfl
    simp [outEdges, CallGraph.start, edgeIds, index]

/-- Nothing but the edges matters, and of these only where they lead. -/
theorem congr (wf : g.WellFormed) {other : CallGraph} (vertices : other.vertices = g.vertices)
    (outgoing : other.outgoing = g.outgoing) (size : other.edges.size = g.edges.size)
    (ends : ∀ e : EdgeId, e.index < g.edges.size →
      (other.edge e).source = (g.edge e).source ∧ (other.edge e).target = (g.edge e).target) :
    other.WellFormed where
  rooted := vertices ▸ wf.rooted
  vertexRoom := vertices ▸ wf.vertexRoom
  edgeRoom := size ▸ wf.edgeRoom
  outgoing_size := by rw [outgoing, vertices, wf.outgoing_size]
  source_lt e h := by
    rw [size] at h
    rw [(ends e h).1, vertices]
    exact wf.source_lt e h
  target_lt e h := by
    rw [size] at h
    rw [(ends e h).2, vertices]
    exact wf.target_lt e h
  outEdges_eq v := by
    have same : other.outEdges v = g.outEdges v := by
      unfold outEdges
      rw [outgoing]
    rw [same, wf.outEdges_eq v, edgeIds_eq_of_size_eq size]
    refine List.filter_congr ?_
    intro e mem
    rw [(ends e ((mem_edgeIds wf.edgeRoom e).1 mem)).1]

theorem addVertex (wf : g.WellFormed) (v : Vertex) (room : g.vertices.size < arenaLimit) :
    (g.addVertex v).WellFormed where
  rooted := by simp [CallGraph.addVertex]
  vertexRoom := by simpa [CallGraph.addVertex] using Nat.succ_le_of_lt room
  edgeRoom := wf.edgeRoom
  outgoing_size := by simp [CallGraph.addVertex, wf.outgoing_size]
  source_lt e h := by
    have := wf.source_lt e h
    simp only [CallGraph.addVertex, Array.size_push]
    exact Nat.lt_succ_of_lt this
  target_lt e h := by
    have := wf.target_lt e h
    simp only [CallGraph.addVertex, Array.size_push]
    exact Nat.lt_succ_of_lt this
  outEdges_eq u := by
    rw [addVertex_outEdges, wf.outEdges_eq u]
    rfl

theorem addEdge (wf : g.WellFormed) (new : Edge) (room : g.edges.size < arenaLimit)
    (source : new.source.index < g.vertices.size) (target : new.target.index < g.vertices.size) :
    (g.addEdge new).WellFormed := by
  have size : (g.addEdge new).edges.size = g.edges.size + 1 := by simp [CallGraph.addEdge]
  have lastIndex : (⟨UInt32.ofNat g.edges.size⟩ : EdgeId).index = g.edges.size :=
    EdgeId.index_ofNat wf.edgeRoom
  -- an edge of the new graph is an old one or the new one
  have cases : ∀ e : EdgeId, e.index < (g.addEdge new).edges.size →
      (e.index < g.edges.size ∧ (g.addEdge new).edge e = g.edge e)
        ∨ (g.addEdge new).edge e = new := by
    intro e h
    rw [size] at h
    rcases Nat.lt_succ_iff_lt_or_eq.1 h with old | last
    · exact .inl ⟨old, g.addEdge_edge_of_lt new old⟩
    · exact .inr (g.addEdge_edge_of_eq new last)
  refine ⟨wf.rooted, wf.vertexRoom, by rw [size]; exact room, ?_, ?_, ?_, ?_⟩
  · simp [CallGraph.addEdge, wf.outgoing_size]
  · intro e h
    rcases cases e h with ⟨old, same⟩ | same <;> rw [same]
    · exact wf.source_lt e old
    · exact source
  · intro e h
    rcases cases e h with ⟨old, same⟩ | same <;> rw [same]
    · exact wf.target_lt e old
    · exact target
  · intro v
    have ids : (g.addEdge new).edgeIds = g.edgeIds ++ [⟨UInt32.ofNat g.edges.size⟩] := by
      simp [edgeIds, size, List.range_succ]
    have old : g.edgeIds.filter (fun e => ((g.addEdge new).edge e).source = v)
        = g.edgeIds.filter fun e => (g.edge e).source = v := by
      refine List.filter_congr ?_
      intro e mem
      rw [g.addEdge_edge_of_lt new ((mem_edgeIds wf.edgeRoom e).1 mem)]
    rw [g.addEdge_outEdges new v (wf.outgoing_size ▸ source), ids, List.filter_append, old,
      wf.outEdges_eq v, List.filter_cons, List.filter_nil, g.addEdge_edge_of_eq new lastIndex]
    by_cases same : new.source = v <;> simp [same]

theorem modifyEdge (wf : g.WellFormed) (e : EdgeId) (change : Edge → Edge)
    (keeps : ∀ edge, (change edge).source = edge.source ∧ (change edge).target = edge.target) :
    (g.modifyEdge e change).WellFormed := by
  refine wf.congr rfl rfl (g.modifyEdge_size e change) ?_
  intro other h
  rw [g.modifyEdge_edge e change h]
  split
  · exact keeps _
  · exact ⟨rfl, rfl⟩

theorem setKindEnabled (wf : g.WellFormed) (kinds : Kind → Bool) (enabled : Bool) :
    (g.setKindEnabled kinds enabled).1.WellFormed := by
  refine wf.congr rfl rfl (g.setKindEnabled_size kinds enabled) ?_
  intro other h
  rw [g.setKindEnabled_edge kinds enabled h]
  split <;> exact ⟨rfl, rfl⟩

theorem mem_outEdges (wf : g.WellFormed) (v : VertexId) (e : EdgeId) :
    e ∈ g.outEdges v ↔ e.index < g.edges.size ∧ (g.edge e).source = v := by
  rw [wf.outEdges_eq v, List.mem_filter, mem_edgeIds wf.edgeRoom, decide_eq_true_iff]

theorem outEdges_sorted (wf : g.WellFormed) (v : VertexId) :
    (g.outEdges v).Pairwise fun a b => a.index < b.index := by
  rw [wf.outEdges_eq v]
  exact (edgeIds_sorted wf.edgeRoom).sublist List.filter_sublist

end WellFormed

end CallGraph

/-! ## Cursors -/

/-- A cursor has a mark and a parent for every vertex of a graph. -/
structure Cursor.Fits (c : Cursor) (g : CallGraph) : Prop where
  discovered : c.discovered.size = g.vertices.size
  parents : c.parents.size = g.vertices.size

theorem Cursor.fits_start (g : CallGraph) : (Cursor.start g.vertices.size).Fits g where
  discovered := Array.size_replicate
  parents := Array.size_replicate

theorem Cursor.Fits.of_size_eq {c : Cursor} {g other : CallGraph} (fits : c.Fits g)
    (same : other.vertices.size = g.vertices.size) : c.Fits other :=
  ⟨fits.discovered.trans same.symm, fits.parents.trans same.symm⟩

/-- What has entries for all vertices does not grow. -/
theorem Cursor.Fits.grownTo_eq {c : Cursor} {g : CallGraph} (fits : c.Fits g) :
    c.grownTo g.vertices.size = c := by
  rw [grownTo, fits.discovered, if_neg (Nat.lt_irrefl _)]

end TemplateTrace
