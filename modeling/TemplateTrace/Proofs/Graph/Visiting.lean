import TemplateTrace.Proofs.Graph.DepthFirst
import TemplateTrace.Proofs.Graph.Unmarked
set_option autoImplicit false

/-!
# Visiting

A call tree as a recursive function gives it: `CallGraph.visit` lists the node of a position and
then, unless the node is a leaf, what its calls give one after the other, each knowing what those
before it have marked.  Whatever moves were made over a recorded graph, and for every limit, the
walk yields just what the function lists at the current position (`Stepper.callTree_eq_visit`).

The number of children of each node says how many trees follow it one level deeper, so that depths
and numbers of children alone make up a tree (`CallNode.InPreorder`).
-/

namespace TemplateTrace

/-! ## The visitor -/

namespace CallGraph

instance (g : CallGraph) (maxDepth : Option Nat) (above : List VertexId) (v : VertexId) :
    Decidable (g.Repeats maxDepth above v) :=
  inferInstanceAs (Decidable ((g.mode = .full ∧ maxDepth = none) ∧ v ∈ above))

instance (maxDepth : Option Nat) (depth : Nat) : Decidable (HasRoom maxDepth depth) :=
  match maxDepth with
  | none => .isTrue (hasRoom_none depth)
  | some limit => decidable_of_iff (depth < limit) (by simp [HasRoom])

/-- A bound on how much deeper visiting goes below some ancestors: down to the limit or, without
one, while there are vertices that are no ancestors or that are not marked. -/
noncomputable def depthLeft (maxDepth : Option Nat) (above seen : List VertexId) : Nat :=
  match maxDepth with
  | some limit => limit - above.length
  | none => {v | v ∉ above}.ncard + {v | v ∉ seen}.ncard

theorem ncard_unvisited_le {visited after : List VertexId} (kept : visited ⊆ after) :
    {v | v ∉ after}.ncard ≤ {v | v ∉ visited}.ncard :=
  Set.ncard_le_ncard (fun _ fresh known => fresh (kept known)) (Set.toFinite _)

theorem depthLeft_append_le (maxDepth : Option Nat) (above seen more : List VertexId) :
    depthLeft maxDepth above (seen ++ more) ≤ depthLeft maxDepth above seen := by
  cases maxDepth with
  | some limit => exact Nat.le_refl _
  | none => exact Nat.add_le_add_left (ncard_unvisited_le (List.subset_append_left seen more)) _

/-- The marks that opening a vertex leaves: only minimized mode marks it. -/
def newMarks (g : CallGraph) (v : VertexId) : List VertexId :=
  if g.mode = .full then [] else [v]

/-- Opening a vertex makes it an ancestor that it was not, or marks it. -/
theorem depthLeft_open_lt {g : CallGraph} {maxDepth : Option Nat} {above seen : List VertexId}
    {v : VertexId} (unmarked : v ∉ seen) (unrepeated : ¬g.Repeats maxDepth above v)
    (room : HasRoom maxDepth above.length) :
    depthLeft maxDepth (v :: above) (seen ++ g.newMarks v) < depthLeft maxDepth above seen := by
  cases maxDepth with
  | some limit =>
    have deeper := room limit rfl
    simp only [depthLeft, List.length_cons]
    omega
  | none =>
    have marks : seen ⊆ seen ++ g.newMarks v := List.subset_append_left _ _
    have ancestors : above ⊆ v :: above := List.subset_cons_self v above
    by_cases full : g.mode = .full
    · have fresh : v ∉ above := fun mem => unrepeated ⟨⟨full, rfl⟩, mem⟩
      exact Nat.add_lt_add_of_lt_of_le
        (VertexId.ncard_unvisited_lt fresh List.mem_cons_self ancestors) (ncard_unvisited_le marks)
    · have now : v ∈ seen ++ g.newMarks v := by simp [newMarks, full]
      exact Nat.add_lt_add_of_le_of_lt (ncard_unvisited_le ancestors)
        (VertexId.ncard_unvisited_lt unmarked now marks)

mutual

/-- The node of a position below some ancestors and what lies below it, in preorder, and the
vertices that are marked by that, some being marked before.  The node is a leaf if its vertex is
marked, if it repeats an ancestor or if there is no room below it; in the last case its vertex is
marked like one that is expanded. -/
def visit (g : CallGraph) (maxDepth : Option Nat) (above seen : List VertexId) (here : Position) :
    List CallNode × List VertexId :=
  let v := g.vertexAt here
  if _shut : v ∈ seen ∨ g.Repeats maxDepth above v then ([⟨g.frameAt here, above.length, 0⟩], [])
  else if _room : HasRoom maxDepth above.length then
    let (below, marked) :=
      g.visitEach maxDepth (v :: above) (seen ++ g.newMarks v) (g.callees v)
    (⟨g.frameAt here, above.length, g.enabledDegree v⟩ :: below, g.newMarks v ++ marked)
  else ([⟨g.frameAt here, above.length, 0⟩], g.newMarks v)
termination_by (depthLeft maxDepth above seen, 0)
decreasing_by
  obtain ⟨unmarked, unrepeated⟩ := not_or.1 _shut
  exact Prod.Lex.left _ _ (depthLeft_open_lt unmarked unrepeated _room)

/-- What some positions that have the same ancestors give one after the other. -/
def visitEach (g : CallGraph) (maxDepth : Option Nat) (above seen : List VertexId) :
    List Position → List CallNode × List VertexId
  | [] => ([], [])
  | here :: rest =>
      let (nodes, marked) := g.visit maxDepth above seen here
      let (beside, more) := g.visitEach maxDepth above (seen ++ marked) rest
      (nodes ++ beside, marked ++ more)
termination_by waiting => (depthLeft maxDepth above seen, waiting.length)
decreasing_by
  · exact Prod.Lex.right _ (Nat.succ_pos _)
  · rcases Nat.lt_or_eq_of_le (depthLeft_append_le maxDepth above seen marked) with less | same
    · exact Prod.Lex.left _ _ less
    · rw [same]
      exact Prod.Lex.right _ (Nat.lt_succ_self _)

end

variable {g : CallGraph} {maxDepth : Option Nat} {above seen : List VertexId} {here : Position}

theorem visit_of_shut
    (shut : g.vertexAt here ∈ seen ∨ g.Repeats maxDepth above (g.vertexAt here)) :
    g.visit maxDepth above seen here = ([⟨g.frameAt here, above.length, 0⟩], []) := by
  rw [visit]
  exact dif_pos shut

theorem visit_of_not_hasRoom
    (opens : ¬(g.vertexAt here ∈ seen ∨ g.Repeats maxDepth above (g.vertexAt here)))
    (full : ¬HasRoom maxDepth above.length) :
    g.visit maxDepth above seen here
      = ([⟨g.frameAt here, above.length, 0⟩], g.newMarks (g.vertexAt here)) := by
  rw [visit]
  exact (dif_neg opens).trans (dif_neg full)

theorem visit_of_hasRoom {below : List CallNode} {marked : List VertexId}
    (opens : ¬(g.vertexAt here ∈ seen ∨ g.Repeats maxDepth above (g.vertexAt here)))
    (room : HasRoom maxDepth above.length)
    (inner : g.visitEach maxDepth (g.vertexAt here :: above)
      (seen ++ g.newMarks (g.vertexAt here)) (g.callees (g.vertexAt here)) = (below, marked)) :
    g.visit maxDepth above seen here
      = (⟨g.frameAt here, above.length, g.enabledDegree (g.vertexAt here)⟩ :: below,
          g.newMarks (g.vertexAt here) ++ marked) := by
  rw [visit]
  refine (dif_neg opens).trans ((dif_pos room).trans ?_)
  rw [inner]

theorem visitEach_nil (g : CallGraph) (maxDepth : Option Nat) (above seen : List VertexId) :
    g.visitEach maxDepth above seen [] = ([], []) := by
  rw [visitEach]

theorem visitEach_cons {rest : List Position} {nodes beside : List CallNode}
    {marked later : List VertexId} (first : g.visit maxDepth above seen here = (nodes, marked))
    (more : g.visitEach maxDepth above (seen ++ marked) rest = (beside, later)) :
    g.visitEach maxDepth above seen (here :: rest) = (nodes ++ beside, marked ++ later) := by
  rw [visitEach, first]
  dsimp only
  rw [more]

theorem visitEach_singleton (g : CallGraph) (maxDepth : Option Nat) (above seen : List VertexId)
    (here : Position) :
    g.visitEach maxDepth above seen [here] = g.visit maxDepth above seen here := by
  rw [visitEach_cons rfl (g.visitEach_nil maxDepth above _), List.append_nil, List.append_nil]

/-! ## Visiting and exploring -/

/-- A list of vertices holds those that are marked. -/
def Holds (known : List VertexId) (marks : Array Bool) : Prop :=
  ∀ v, v ∈ known ↔ Marked marks v

variable {known : List VertexId} {marks after : Array Bool}

theorem Holds.mark (holds : Holds known marks) {v : VertexId} (within : v.index < marks.size) :
    Holds (known ++ g.newMarks v) (g.mark marks v) := by
  intro u
  by_cases full : g.mode = .full
  · rw [newMarks, if_pos full, List.append_nil, mark_of_full full]
    exact holds u
  · rw [newMarks, if_neg full, marked_mark_iff full within, List.mem_append, List.mem_singleton,
      holds u]
    exact or_comm

theorem Holds.shut_iff (holds : Holds known marks) (v : VertexId) :
    (v ∈ known ∨ g.Repeats maxDepth above v) ↔ ¬g.Opens maxDepth above marks v := by
  rw [holds v]
  constructor
  · rintro (marked | repeats) opens
    · exact opens.unmarked marked
    · exact opens.unrepeated repeats
  · intro shut
    by_contra open'
    obtain ⟨unmarked, unrepeated⟩ := not_or.1 open'
    exact shut ⟨unmarked, unrepeated⟩

theorem length_callees (g : CallGraph) (v : VertexId) :
    (g.callees v).length = g.enabledDegree v := by
  rw [callees, List.length_map, List.length_reverse, enabledDegree]

/-- The visitor lists what exploration finds, and marks the same vertices. -/
theorem Explores.exists_visitEach_eq (wf : g.WellFormed) {positions : List Position}
    {forest : Forest} (explores : g.Explores maxDepth above marks positions forest after)
    (size : marks.size = g.vertices.size)
    (within : ∀ p ∈ positions, (g.vertexAt p).index < g.vertices.size)
    (holds : Holds known marks) :
    ∃ marked, g.visitEach maxDepth above known positions
        = ((forest.stations g above.length).map Prod.snd, marked)
      ∧ Holds (known ++ marked) after := by
  induction explores generalizing known with
  | done above seen => exact ⟨[], g.visitEach_nil _ _ _, (List.append_nil known).symm ▸ holds⟩
  | closed shut _ ih =>
    have leaf := visit_of_shut ((holds.shut_iff _).2 shut)
    have holdsNext := (List.append_nil known).symm ▸ holds
    obtain ⟨marked, more, holdsAfter⟩ := ih size (List.forall_mem_cons.1 within).2 holdsNext
    refine ⟨marked, visitEach_cons leaf more, ?_⟩
    rwa [List.append_nil] at holdsAfter
  | cut opens full _ ih =>
    obtain ⟨withinHere, withinRest⟩ := List.forall_mem_cons.1 within
    have leaf := visit_of_not_hasRoom (fun shut => (holds.shut_iff _).1 shut opens) full
    obtain ⟨marked, more, holdsAfter⟩ :=
      ih ((g.mark_size _ _).trans size) withinRest (holds.mark (size ▸ withinHere))
    refine ⟨_, visitEach_cons leaf more, ?_⟩
    rwa [List.append_assoc] at holdsAfter
  | expanded opens room inner _ ihBelow ihBeside =>
    obtain ⟨withinHere, withinRest⟩ := List.forall_mem_cons.1 within
    obtain ⟨found, below, holdsBetween⟩ :=
      ihBelow ((g.mark_size _ _).trans size) (fun p mem => wf.callee_lt mem)
        (holds.mark (size ▸ withinHere))
    rw [List.append_assoc] at holdsBetween
    obtain ⟨marked, more, holdsAfter⟩ :=
      ihBeside (inner.size_eq.trans ((g.mark_size _ _).trans size)) withinRest holdsBetween
    have first := visit_of_hasRoom (fun shut => (holds.shut_iff _).1 shut opens) room below
    refine ⟨_, (visitEach_cons first more).trans (Prod.ext ?_ rfl), ?_⟩
    · rw [Forest.stations, inner.count_eq, length_callees, List.map_cons, List.map_append]
      rfl
    · rwa [List.append_assoc] at holdsAfter

/-- Exploring one position gives one tree. -/
theorem Explores.exists_eq_node {forest : Forest}
    (explores : g.Explores maxDepth above marks [here] forest after) :
    ∃ below, forest = .node here below .nil := by
  cases explores with
  | closed _ more => cases more; exact ⟨_, rfl⟩
  | cut _ _ more => cases more; exact ⟨_, rfl⟩
  | expanded _ _ _ more => cases more; exact ⟨_, rfl⟩

end CallGraph

/-! ## The shape of the list -/

/-- Some nodes are so many ordered trees in preorder, one after the other, their roots at some
depth: each node is followed by as many trees one level deeper as it has children. -/
inductive CallNode.InPreorder : Nat → Nat → List CallNode → Prop
  | none (depth : Nat) : InPreorder depth 0 []
  | tree {depth count : Nat} {node : CallNode} {below beside : List CallNode}
      (level : node.depth = depth) (inner : InPreorder (depth + 1) node.children below)
      (more : InPreorder depth count beside) :
      InPreorder depth (count + 1) (node :: (below ++ beside))

/-- The nodes of a forest are its trees in preorder. -/
theorem Forest.inPreorder (forest : Forest) (g : CallGraph) (depth : Nat) :
    CallNode.InPreorder depth forest.count ((forest.stations g depth).map Prod.snd) := by
  induction forest generalizing depth with
  | nil => exact .none depth
  | node here below beside ihBelow ihBeside =>
    rw [stations, List.map_cons, List.map_append]
    exact .tree rfl (ihBelow (depth + 1)) (ihBeside depth)

/-- No node lies below the limit, and nothing lies below a node at the limit. -/
def CallNode.Within (limit : Nat) (node : CallNode) : Prop :=
  node.depth ≤ limit ∧ (node.depth = limit → node.children = 0)

theorem CallGraph.Explores.within {g : CallGraph} {limit : Nat} {above : List VertexId}
    {seen after : Array Bool} {here : List Position} {forest : Forest}
    (explores : g.Explores (some limit) above seen here forest after)
    (shallow : above.length ≤ limit) :
    ∀ station ∈ forest.stations g above.length, station.2.Within limit := by
  have leaf : ∀ frame, CallNode.Within limit ⟨frame, above.length, 0⟩ := by
    intro frame
    exact ⟨shallow, fun _ => rfl⟩
  induction explores with
  | done => simp [Forest.stations]
  | closed _ _ ih =>
    refine List.forall_mem_cons.2 ⟨leaf _, ?_⟩
    rw [Forest.stations, List.nil_append]
    exact ih shallow leaf
  | cut _ _ _ ih =>
    refine List.forall_mem_cons.2 ⟨leaf _, ?_⟩
    rw [Forest.stations, List.nil_append]
    exact ih shallow leaf
  | expanded _ room _ _ ihBelow ihBeside =>
    have deeper := room limit rfl
    refine List.forall_mem_cons.2 ⟨⟨shallow, fun atLimit => ?_⟩, ?_⟩
    · exact absurd atLimit (Nat.ne_of_lt deeper)
    · refine List.forall_mem_append.2 ⟨ihBelow deeper ?_, ihBeside shallow leaf⟩
      intro frame
      exact ⟨deeper, fun _ => rfl⟩

/-! ## Any cursor -/

/-- The vertices that a cursor over a graph has marked. -/
def Cursor.marks (c : Cursor) (g : CallGraph) : List VertexId :=
  g.vertexIds.filter c.isDiscovered

theorem Cursor.Fits.holds_marks {c : Cursor} {g : CallGraph} (fits : c.Fits g)
    (wf : g.WellFormed) : CallGraph.Holds (c.marks g) c.discovered := by
  intro v
  refine List.mem_filter.trans (and_iff_right_of_imp fun marked => ?_)
  exact CallGraph.mem_vertexIds wf.vertexRoom (fits.discovered ▸ Marked.lt_size marked)

/-- What holds of a cursor over a graph at all times, in every mode: it has a mark and a parent for
every vertex, and what waits are edges of the graph. -/
structure Cursor.Placed (c : Cursor) (g : CallGraph) : Prop where
  fits : c.Fits g
  known : ∀ e, .edge e ∈ c.pending → e ∈ g.edgeIds

theorem Cursor.placed_start (g : CallGraph) : (Cursor.start g.vertices.size).Placed g where
  fits := fits_start g
  known e mem := by simp [Cursor.start] at mem

theorem Cursor.Placed.vertexAt_lt {c : Cursor} {g : CallGraph} (placed : c.Placed g)
    (wf : g.WellFormed) {here : Position} (waits : here ∈ c.pending) :
    (g.vertexAt here).index < g.vertices.size := by
  cases here with
  | root => exact wf.root_lt
  | edge e => exact wf.target_lt e ((CallGraph.mem_edgeIds wf.edgeRoom e).1 (placed.known e waits))

/-- Enabling and disabling edges leaves a cursor in its place. -/
theorem Cursor.Placed.congr {c : Cursor} {g other : CallGraph} (placed : c.Placed g)
    (same : g.SameEnds other) : c.Placed other where
  fits := ⟨same.vertices.symm ▸ placed.fits.discovered, same.vertices.symm ▸ placed.fits.parents⟩
  known e mem := by
    rw [CallGraph.edgeIds_eq_of_size_eq same.edges]
    exact placed.known e mem

namespace Stepper

variable {s next : Stepper}

theorem placed_cursorAfter (wf : s.graph.WellFormed) (placed : s.cursor.Placed s.graph)
    {here : Position} {later : List Position} (waits : s.cursor.pending = here :: later) :
    (s.cursorAfter here later).Placed s.graph where
  fits := fits_cursorAfter placed.fits here later
  known e mem := by
    have waited : .edge e ∈ later → e ∈ s.graph.edgeIds :=
      fun mem => placed.known e (waits ▸ List.mem_cons_of_mem _ mem)
    cases entered : s.enters (s.graph.vertexAt here) with
    | true =>
      rw [pending_of_enters entered] at mem
      rcases List.mem_append.1 mem with mem | mem
      · obtain ⟨_, child, ⟨⟩⟩ := List.mem_map.1 mem
        exact (List.mem_filter.1 (leaves_of_mem_children wf child).1).1
      · exact waited mem
    | false =>
      rw [cursorAfter_of_not_enters entered] at mem
      exact waited mem

/-- What holds of a stepper at all times, in every mode: its graph is well formed, and its cursor
and all that it remembers are placed. -/
structure Placed (s : Stepper) : Prop where
  graph : s.graph.WellFormed
  cursor : s.cursor.Placed s.graph
  history : ∀ c ∈ s.history, c.Placed s.graph

theorem placed_start {g : CallGraph} (wf : g.WellFormed) : (start g).Placed where
  graph := wf
  cursor := Cursor.placed_start g
  history := by simp [start]

theorem Placed.step (placed : s.Placed) (taken : s.step = .ok next) : next.Placed := by
  obtain ⟨here, later, waits, rfl⟩ := step_cases taken
  exact ⟨placed.graph, placed_cursorAfter placed.graph placed.cursor waits,
    List.forall_mem_cons.2 ⟨placed.cursor, placed.history⟩⟩

theorem Placed.stepBack (placed : s.Placed) (taken : s.stepBack = .ok next) : next.Placed := by
  obtain ⟨c, history, past, rfl⟩ :=
    stepBack_cases_of_fits (fun c mem => (placed.history c mem).fits) taken
  have kept := placed.history
  rw [past, List.forall_mem_cons] at kept
  exact ⟨placed.graph, kept.1, kept.2⟩

theorem Placed.toggle (placed : s.Placed) (change : Toggle) :
    (s.onGraph (·.toggle change)).Placed := by
  have same := (s.graph.sameButFlags_toggle change).sameEnds
  exact ⟨placed.graph.toggle change, placed.cursor.congr same,
    fun c mem => (placed.history c mem).congr same⟩

theorem Placed.performAll (placed : s.Placed) (moves : List Move) : (s.performAll moves).Placed :=
  performAll_induct placed (fun _ _ kept taken => kept.step taken)
    (fun _ _ kept taken => kept.stepBack taken) (fun _ kept => placed_start kept.graph)
    (fun _ change kept => kept.toggle change) moves

theorem Placed.within (placed : s.Placed) {here : Position}
    (current : s.cursor.current = some here) :
    (s.graph.vertexAt here).index < s.graph.vertices.size := by
  obtain ⟨later, waits⟩ := Cursor.current_eq_some_iff.1 current
  exact placed.cursor.vertexAt_lt placed.graph (waits ▸ List.mem_cons_self)

/-! ## The walk and the visitor -/

/-- The walk from a position yields some nodes and ends: they are what the visitor lists there when
it knows the marks of the cursor, and one tree in preorder, with the frame of the position at its
root and no deeper than the limit.  The walk has marked what the visitor marks. -/
structure ShowsVisit (s : Stepper) (maxDepth : Option Nat) (here : Position)
    (nodes : List CallNode) (final : Walk) : Prop where
  tree : s.callTree maxDepth = (nodes, final)
  ends : (s.walk maxDepth).Ends s.graph nodes final
  visited : (s.graph.visit maxDepth [] (s.cursor.marks s.graph) here).1 = nodes
  marked : ∀ v, Marked final.discovered v ↔ Marked s.cursor.discovered v
    ∨ v ∈ (s.graph.visit maxDepth [] (s.cursor.marks s.graph) here).2
  head : ∃ children rest, nodes = ⟨s.graph.frameAt here, 0, children⟩ :: rest
  preorder : CallNode.InPreorder 0 1 nodes
  within : ∀ limit, maxDepth = some limit → ∀ node ∈ nodes, node.Within limit

/-- The walk from a placed cursor ends after what exploring its position gives. -/
theorem Placed.exists_explored (placed : s.Placed) {here : Position}
    (current : s.cursor.current = some here) (maxDepth : Option Nat) :
    ∃ forest final, s.graph.Explores maxDepth [] s.cursor.discovered [here] forest final.discovered
      ∧ (s.walk maxDepth).Ends s.graph ((forest.stations s.graph 0).map Prod.snd) final := by
  have size := placed.cursor.fits.discovered
  have inside := placed.within current
  have ancestry : s.graph.Ancestry maxDepth [] s.cursor.discovered := .root size
  obtain ⟨forest, after, explores⟩ :=
    CallGraph.exists_explores placed.graph ancestry [here] (by simpa using inside)
  obtain ⟨final, -, ends, rfl, -⟩ :=
    exists_walk_ends placed.graph size current inside explores
  exact ⟨forest, final, explores, ends⟩

theorem Placed.exists_showsVisit (placed : s.Placed) {here : Position}
    (current : s.cursor.current = some here) (maxDepth : Option Nat) :
    ∃ nodes final, s.ShowsVisit maxDepth here nodes final := by
  obtain ⟨forest, final, explores, ends⟩ := placed.exists_explored current maxDepth
  have holds := placed.cursor.fits.holds_marks placed.graph
  obtain ⟨marked, listed, holdsAfter⟩ :=
    explores.exists_visitEach_eq placed.graph placed.cursor.fits.discovered
      (by simpa using placed.within current) holds
  rw [CallGraph.visitEach_singleton] at listed
  have shape := forest.inPreorder s.graph 0
  rw [explores.count_eq] at shape
  obtain ⟨below, rfl⟩ := explores.exists_eq_node
  refine ⟨((Forest.node here below .nil).stations s.graph 0).map Prod.snd, final, ends.drain_eq,
    ends, congrArg Prod.fst listed, ?_, ⟨below.count, (below.stations s.graph 1).map Prod.snd, ?_⟩,
    shape, ?_⟩
  · intro v
    rw [← holdsAfter v, ← holds v, listed, List.mem_append]
  · rw [Forest.stations_singleton, List.map_cons]
  · rintro limit rfl node mem
    obtain ⟨station, found, rfl⟩ := List.mem_map.1 mem
    exact explores.within (Nat.zero_le limit) station found

/-- Nothing is left to walk over when the cursor has finished. -/
theorem walk_ends_of_finished {s : Stepper} (finished : s.cursor.isFinished = true)
    (maxDepth : Option Nat) : (s.walk maxDepth).Ends s.graph [] (s.walk maxDepth) := by
  have none : s.cursor.current = none := by
    rw [Cursor.current, Cursor.isFinished_iff.1 finished, List.head?_nil]
  have blank : s.walk maxDepth
      = { Walk.blank maxDepth s.cursor.discovered with finished := true } := by
    unfold walk Walk.start
    rw [none]
    rfl
  rw [blank]
  exact ⟨.stop _, Walk.next_of_noCurrent s.graph rfl, rfl⟩

/-- Whatever moves were made over a recorded graph, and for every limit, the walk over the call tree
ends.  It yields no nodes when the cursor has finished, and otherwise those that the visitor lists
at the current position from the marks of the cursor on: one tree in preorder. -/
theorem callTree_eq_visit {g : CallGraph} (recorded : g.Recorded) (moves : List Move)
    (maxDepth : Option Nat) :
    (((start g).performAll moves).cursor.isFinished = true →
        (((start g).performAll moves).callTree maxDepth).1 = []
          ∧ (((start g).performAll moves).walk maxDepth).Ends ((start g).performAll moves).graph []
            (((start g).performAll moves).callTree maxDepth).2)
      ∧ ∀ here, ((start g).performAll moves).cursor.current = some here →
        ∃ nodes final, ((start g).performAll moves).ShowsVisit maxDepth here nodes final := by
  constructor
  · intro finished
    have ends := walk_ends_of_finished finished maxDepth
    rw [callTree, ends.drain_eq]
    exact ⟨rfl, ends⟩
  · intro here current
    exact ((placed_start recorded.wellFormed).performAll moves).exists_showsVisit current maxDepth

/-- The cursor has gone on and come back, a call has been disabled in between, and the limit cuts
the tree. -/
theorem callTree_eq_visit_sharing :
    (Recorder.sharingGraph .minimized).Recorded
      ∧ ((start (Recorder.sharingGraph .minimized)).performAll
          [.stepMany 4, .stepBack, .toggle (.edge ⟨3⟩ false), .stepBack]).cursor.current
        = some (.edge ⟨1⟩)
      ∧ ∃ nodes final, ((start (Recorder.sharingGraph .minimized)).performAll
          [.stepMany 4, .stepBack, .toggle (.edge ⟨3⟩ false), .stepBack]).ShowsVisit (some 2)
            (.edge ⟨1⟩) nodes final :=
  ⟨Recorder.sharingGraph_recorded .minimized, rfl,
    (callTree_eq_visit (Recorder.sharingGraph_recorded .minimized) _ (some 2)).2 _ rfl⟩

end Stepper

end TemplateTrace
