import TemplateTrace.Graph.CallTree
import TemplateTrace.Proofs.Graph.WellFormed
import Mathlib.Data.List.Nodup
import Mathlib.Data.List.Perm.Subperm
set_option autoImplicit false

/-!
# Exploration

The recursive account of a call tree, beside the walk that yields its nodes one at a time.
`CallGraph.Explores` relates some positions that are explored one after the other below the same
ancestors, and the marks before that, to the forest of what is found and the marks after that.

Without a limit exploration never goes deeper than there are vertices (`Ancestry.length_lt`), so
that every exploration comes to an end (`exists_explores`).
-/

namespace TemplateTrace

@[simp] theorem CallGraph.vertexAt_edge (g : CallGraph) (e : EdgeId) :
    g.vertexAt (.edge e) = (g.edge e).target := rfl

/-! ## Forests -/

/-- An ordered forest: the root of its first tree, what is below that, and the trees beside it. -/
inductive Forest where
  | nil
  | node (here : Position) (below beside : Forest)
  deriving DecidableEq, Repr

namespace Forest

/-- How many trees there are. -/
def count : Forest → Nat
  | nil => 0
  | node _ _ beside => beside.count + 1

/-- The nodes in preorder, each with its position, the roots of the trees being at some depth. -/
def stations (g : CallGraph) (depth : Nat) : Forest → List (Position × CallNode)
  | nil => []
  | node here below beside =>
      (here, ⟨g.frameAt here, depth, below.count⟩)
        :: (below.stations g (depth + 1) ++ beside.stations g depth)

theorem stations_singleton (g : CallGraph) (here : Position) (below : Forest) :
    (node here below nil).stations g 0
      = (here, ⟨g.frameAt here, 0, below.count⟩) :: below.stations g 1 := by
  simp [stations]

/-- The positions of the nodes in preorder. -/
def positions : Forest → List Position
  | nil => []
  | node here below beside => here :: (below.positions ++ beside.positions)

theorem stations_map_fst (g : CallGraph) (depth : Nat) (forest : Forest) :
    (forest.stations g depth).map Prod.fst = forest.positions := by
  induction forest generalizing depth with
  | nil => rfl
  | node here below beside ihBelow ihBeside =>
    rw [stations, positions, List.map_cons, List.map_append, ihBelow, ihBeside]

/-- A node has the frame of its position. -/
theorem frame_of_mem_stations {g : CallGraph} {depth : Nat} {forest : Forest}
    {station : Position × CallNode} (mem : station ∈ forest.stations g depth) :
    station.2.frame = g.frameAt station.1 := by
  induction forest generalizing depth with
  | nil => simp [stations] at mem
  | node here below beside ihBelow ihBeside =>
    rw [stations, List.mem_cons, List.mem_append] at mem
    rcases mem with rfl | mem | mem
    · rfl
    · exact ihBelow mem
    · exact ihBeside mem

/-- Whether the vertex of some node is the vertex of an ancestor of it, those of `above` being
ancestors of all. -/
def Closes (g : CallGraph) (above : List VertexId) : Forest → Prop
  | nil => False
  | node here below beside =>
      g.vertexAt here ∈ above ∨ below.Closes g (g.vertexAt here :: above) ∨ beside.Closes g above

end Forest

/-! ## Marks -/

/-- Whether a vertex is marked. -/
def Marked (seen : Array Bool) (v : VertexId) : Prop := seen.getD v.index false = true

instance (seen : Array Bool) (v : VertexId) : Decidable (Marked seen v) :=
  inferInstanceAs (Decidable (_ = true))

/-- The marks after a vertex is opened: only minimized mode marks it. -/
def CallGraph.mark (g : CallGraph) (seen : Array Bool) (v : VertexId) : Array Bool :=
  if g.mode = .full then seen else seen.setIfInBounds v.index true

@[simp] theorem CallGraph.mark_size (g : CallGraph) (seen : Array Bool) (v : VertexId) :
    (g.mark seen v).size = seen.size := by
  unfold CallGraph.mark
  split <;> simp

theorem CallGraph.mark_of_full {g : CallGraph} (full : g.mode = .full) (seen : Array Bool)
    (v : VertexId) : g.mark seen v = seen := if_pos full

theorem CallGraph.marked_mark_iff {g : CallGraph} (minimized : g.mode ≠ .full) {seen : Array Bool}
    {v : VertexId} (within : v.index < seen.size) (u : VertexId) :
    Marked (g.mark seen v) u ↔ u = v ∨ Marked seen u := by
  unfold Marked CallGraph.mark
  rw [if_neg minimized, VertexId.getD_setIfInBounds]
  by_cases same : u = v <;> simp [same, within]

theorem Marked.mark {g : CallGraph} {seen : Array Bool} {u : VertexId}
    (marked : Marked seen u) (v : VertexId) : Marked (g.mark seen v) u := by
  by_cases full : g.mode = .full
  · rwa [CallGraph.mark_of_full full]
  · by_cases within : v.index < seen.size
    · exact (CallGraph.marked_mark_iff full within u).2 (.inr marked)
    · simpa [CallGraph.mark, full, Array.setIfInBounds, within] using marked

theorem Marked.of_mark {g : CallGraph} {seen : Array Bool} {u v : VertexId}
    (marked : Marked (g.mark seen v) u) : Marked seen u ∨ v = u := by
  unfold Marked CallGraph.mark at marked
  split at marked
  · exact .inl marked
  · rw [VertexId.getD_setIfInBounds] at marked
    split at marked
    · next same => exact .inr same.1.symm
    · exact .inl marked

/-! ## Exploring -/

namespace CallGraph

/-- Whether exploration looks for cycles: in full mode and without a limit. -/
def Guards (g : CallGraph) (maxDepth : Option Nat) : Prop := g.mode = .full ∧ maxDepth = none

/-- Whether a vertex is found to be an ancestor of its own. -/
def Repeats (g : CallGraph) (maxDepth : Option Nat) (above : List VertexId) (v : VertexId) : Prop :=
  g.Guards maxDepth ∧ v ∈ above

/-- Whether a vertex is opened below some ancestors. -/
structure Opens (g : CallGraph) (maxDepth : Option Nat) (above : List VertexId) (seen : Array Bool)
    (v : VertexId) : Prop where
  unmarked : ¬Marked seen v
  unrepeated : ¬g.Repeats maxDepth above v

/-- Whether nodes of some depth may have nodes below them. -/
def HasRoom (maxDepth : Option Nat) (depth : Nat) : Prop :=
  ∀ limit, maxDepth = some limit → depth < limit

theorem hasRoom_none (depth : Nat) : HasRoom none depth := by
  intro limit limited
  cases limited

theorem not_hasRoom_iff {maxDepth : Option Nat} {depth : Nat} :
    ¬HasRoom maxDepth depth ↔ ∃ limit, maxDepth = some limit ∧ limit ≤ depth := by
  simp [HasRoom]

/-- What is called from a vertex, the last call first. -/
def callees (g : CallGraph) (v : VertexId) : List Position :=
  (g.enabledOut v).reverse.map .edge

/-- Exploring some positions one after the other, below some ancestors and with some marks, gives
a forest and more marks. -/
inductive Explores (g : CallGraph) (maxDepth : Option Nat) :
    List VertexId → Array Bool → List Position → Forest → Array Bool → Prop
  | done (above : List VertexId) (seen : Array Bool) : Explores g maxDepth above seen [] .nil seen
  | closed {above : List VertexId} {seen after : Array Bool} {here : Position}
      {rest : List Position} {beside : Forest}
      (shut : ¬g.Opens maxDepth above seen (g.vertexAt here))
      (more : Explores g maxDepth above seen rest beside after) :
      Explores g maxDepth above seen (here :: rest) (.node here .nil beside) after
  | cut {above : List VertexId} {seen after : Array Bool} {here : Position}
      {rest : List Position} {beside : Forest}
      (opens : g.Opens maxDepth above seen (g.vertexAt here))
      (full : ¬HasRoom maxDepth above.length)
      (more : Explores g maxDepth above (g.mark seen (g.vertexAt here)) rest beside after) :
      Explores g maxDepth above seen (here :: rest) (.node here .nil beside) after
  | expanded {above : List VertexId} {seen between after : Array Bool} {here : Position}
      {rest : List Position} {below beside : Forest}
      (opens : g.Opens maxDepth above seen (g.vertexAt here))
      (room : HasRoom maxDepth above.length)
      (inner : Explores g maxDepth (g.vertexAt here :: above) (g.mark seen (g.vertexAt here))
        (g.callees (g.vertexAt here)) below between)
      (more : Explores g maxDepth above between rest beside after) :
      Explores g maxDepth above seen (here :: rest) (.node here below beside) after

namespace Explores

variable {g : CallGraph} {maxDepth : Option Nat} {above : List VertexId}
  {seen after : Array Bool} {here : List Position} {forest : Forest}

/-- Every position becomes the root of a tree. -/
theorem count_eq (explores : g.Explores maxDepth above seen here forest after) :
    forest.count = here.length := by
  induction explores with
  | done => rfl
  | closed _ _ ih => rw [Forest.count, ih, List.length_cons]
  | cut _ _ _ ih => rw [Forest.count, ih, List.length_cons]
  | expanded _ _ _ _ _ ih => rw [Forest.count, ih, List.length_cons]

theorem size_eq (explores : g.Explores maxDepth above seen here forest after) :
    after.size = seen.size := by
  induction explores with
  | done => rfl
  | closed _ _ ih => exact ih
  | cut _ _ _ ih => rw [ih, mark_size]
  | expanded _ _ _ _ ihBelow ihBeside => rw [ihBeside, ihBelow, mark_size]

/-- Marks stay. -/
theorem marked (explores : g.Explores maxDepth above seen here forest after) {v : VertexId}
    (before : Marked seen v) : Marked after v := by
  induction explores with
  | done => exact before
  | closed _ _ ih => exact ih before
  | cut _ _ _ ih => exact ih (before.mark _)
  | expanded _ _ _ _ ihBelow ihBeside => exact ihBeside (ihBelow (before.mark _))

/-- Full mode marks nothing. -/
theorem eq_of_full (explores : g.Explores maxDepth above seen here forest after)
    (full : g.mode = .full) : after = seen := by
  induction explores with
  | done => rfl
  | closed _ _ ih => exact ih
  | cut _ _ _ ih => rw [ih, mark_of_full full]
  | expanded _ _ _ _ ihBelow ihBeside => rw [ihBeside, ihBelow, mark_of_full full]

end Explores

/-! ## How deep exploration goes -/

/-- What holds of the ancestors at every place of an exploration: without a limit they differ, and
in minimized mode they are marked. -/
structure Ancestry (g : CallGraph) (maxDepth : Option Nat) (above : List VertexId)
    (seen : Array Bool) : Prop where
  size : seen.size = g.vertices.size
  within : ∀ v ∈ above, v.index < g.vertices.size
  nodup : maxDepth = none → above.Nodup
  marked : maxDepth = none → g.mode ≠ .full → ∀ v ∈ above, Marked seen v

namespace Ancestry

variable {g : CallGraph} {maxDepth : Option Nat} {above : List VertexId} {seen : Array Bool}

theorem root (size : seen.size = g.vertices.size) : g.Ancestry maxDepth [] seen where
  size
  within := by simp
  nodup _ := .nil
  marked _ _ := by simp

/-- A vertex that is opened is none of the ancestors. -/
theorem notMem_of_opens (ancestry : g.Ancestry maxDepth above seen) (unlimited : maxDepth = none)
    {v : VertexId} (opens : g.Opens maxDepth above seen v) : v ∉ above := by
  by_cases full : g.mode = .full
  · exact fun mem => opens.unrepeated ⟨⟨full, unlimited⟩, mem⟩
  · exact fun mem => opens.unmarked (ancestry.marked unlimited full v mem)

theorem push (ancestry : g.Ancestry maxDepth above seen) {v : VertexId}
    (opens : g.Opens maxDepth above seen v) (within : v.index < g.vertices.size) :
    g.Ancestry maxDepth (v :: above) (g.mark seen v) where
  size := by rw [mark_size, ancestry.size]
  within := List.forall_mem_cons.2 ⟨within, ancestry.within⟩
  nodup unlimited :=
    List.nodup_cons.2 ⟨ancestry.notMem_of_opens unlimited opens, ancestry.nodup unlimited⟩
  marked unlimited minimized := by
    have within : v.index < seen.size := ancestry.size ▸ within
    refine List.forall_mem_cons.2 ⟨(marked_mark_iff minimized within v).2 (.inl rfl), ?_⟩
    exact fun u mem => (ancestry.marked unlimited minimized u mem).mark v

/-- More marks do no harm. -/
theorem mono (ancestry : g.Ancestry maxDepth above seen) {after : Array Bool}
    (size : after.size = seen.size) (marks : ∀ v, Marked seen v → Marked after v) :
    g.Ancestry maxDepth above after where
  size := size.trans ancestry.size
  within := ancestry.within
  nodup := ancestry.nodup
  marked unlimited minimized v mem := marks v (ancestry.marked unlimited minimized v mem)

theorem mark (ancestry : g.Ancestry maxDepth above seen) (v : VertexId) :
    g.Ancestry maxDepth above (g.mark seen v) :=
  ancestry.mono (g.mark_size seen v) fun _ marked => marked.mark v

/-- The ancestors of a vertex stay what they are while what lies below it is explored. -/
theorem afterBelow (ancestry : g.Ancestry maxDepth above seen) {v : VertexId}
    {here : List Position} {below : Forest} {between : Array Bool}
    (inner : g.Explores maxDepth (v :: above) (g.mark seen v) here below between) :
    g.Ancestry maxDepth above between := by
  refine ancestry.mono (inner.size_eq.trans (g.mark_size seen v)) ?_
  intro u marked
  exact inner.marked (marked.mark v)

/-- Without a limit there are fewer ancestors of a vertex that is opened than there are vertices. -/
theorem length_lt (ancestry : g.Ancestry maxDepth above seen) (unlimited : maxDepth = none)
    {v : VertexId} (opens : g.Opens maxDepth above seen v) (within : v.index < g.vertices.size) :
    above.length < g.vertices.size := by
  have chain := ancestry.push opens within
  have distinct : ((v :: above).map VertexId.index).Nodup :=
    List.Nodup.map (fun _ _ => VertexId.eq_of_index_eq) (chain.nodup unlimited)
  have places : (v :: above).map VertexId.index ⊆ List.range g.vertices.size := by
    intro i mem
    obtain ⟨u, inChain, rfl⟩ := List.mem_map.1 mem
    exact List.mem_range.2 (chain.within u inChain)
  have bound := (List.subperm_of_subset distinct places).length_le
  rw [List.length_map, List.length_range] at bound
  exact bound

/-- There are fewer ancestors of a vertex that is opened than the limit allows, or than there are
vertices. -/
theorem length_lt_limit (ancestry : g.Ancestry maxDepth above seen) {v : VertexId}
    (opens : g.Opens maxDepth above seen v) (within : v.index < g.vertices.size)
    (room : HasRoom maxDepth above.length) : above.length < maxDepth.getD g.vertices.size := by
  cases limit : maxDepth with
  | none => exact ancestry.length_lt limit opens within
  | some limit' => exact room limit' limit

end Ancestry

/-! ## Every exploration ends -/

theorem WellFormed.root_lt {g : CallGraph} (wf : g.WellFormed) : root.index < g.vertices.size :=
  wf.rooted

theorem WellFormed.callee_lt {g : CallGraph} (wf : g.WellFormed) {v : VertexId} {here : Position}
    (mem : here ∈ g.callees v) : (g.vertexAt here).index < g.vertices.size := by
  obtain ⟨e, enabled, rfl⟩ := List.mem_map.1 mem
  have leaves := (List.mem_filter.1 (List.mem_reverse.1 enabled)).1
  exact wf.target_lt e ((wf.mem_outEdges v e).1 leaves).1

theorem exists_explores {g : CallGraph} (wf : g.WellFormed) {maxDepth : Option Nat}
    {above : List VertexId} {seen : Array Bool} (ancestry : g.Ancestry maxDepth above seen)
    (here : List Position) (within : ∀ p ∈ here, (g.vertexAt p).index < g.vertices.size) :
    ∃ forest after, g.Explores maxDepth above seen here forest after := by
  match here with
  | [] => exact ⟨.nil, seen, .done above seen⟩
  | first :: rest =>
    obtain ⟨withinFirst, withinRest⟩ := List.forall_mem_cons.1 within
    by_cases opens : g.Opens maxDepth above seen (g.vertexAt first)
    · by_cases room : HasRoom maxDepth above.length
      · have deeper := ancestry.length_lt_limit opens withinFirst room
        obtain ⟨below, between, inner⟩ :=
          exists_explores wf (ancestry.push opens withinFirst) (g.callees (g.vertexAt first))
            fun p mem => wf.callee_lt mem
        obtain ⟨beside, after, more⟩ :=
          exists_explores wf (ancestry.afterBelow inner) rest withinRest
        exact ⟨_, after, .expanded opens room inner more⟩
      · obtain ⟨beside, after, more⟩ :=
          exists_explores wf (ancestry.mark (g.vertexAt first)) rest withinRest
        exact ⟨_, after, .cut opens room more⟩
    · obtain ⟨beside, after, more⟩ := exists_explores wf ancestry rest withinRest
      exact ⟨_, after, .closed opens more⟩
termination_by (maxDepth.getD g.vertices.size - above.length, here.length)
decreasing_by
  · exact Prod.Lex.left _ _ (by simp only [List.length_cons]; omega)
  · exact Prod.Lex.right _ (by simp)
  · exact Prod.Lex.right _ (by simp)
  · exact Prod.Lex.right _ (by simp)

end CallGraph

end TemplateTrace
