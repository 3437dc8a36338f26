import TemplateTrace.Proofs.Graph.FullStepping
set_option autoImplicit false

/-!
# Graphs in which nothing is shared

In an unshared graph each edge leads to a vertex of its own, and the edges are numbered as the calls
came: what a call calls has the numbers that follow its own (`CallGraph.Unshared`).  Over such a
graph a cursor enters the vertices in the order of their numbers, whatever the mode
(`Stepper.entered_stepUpTo`), every way back is the one chain of edges from the root
(`Stepper.Entered.backtrace_eq`), and the call tree is the forest that the callers of the edges
make up, mirrored (`Stepper.exists_callTree_of_calledFrom`).
-/

namespace TemplateTrace

namespace CallGraph

/-- Whether every edge is enabled and leads to a vertex of its own, and the edges are numbered as
calls are that lie within one another: from the first call of a vertex to its last one only what
was called from later vertices has its number in between. -/
structure Unshared (g : CallGraph) : Prop where
  enabled : ∀ e : EdgeId, e.index < g.edges.size → (g.edge e).enabled = true
  vertices_size : g.vertices.size = g.edges.size + 1
  target : ∀ e : EdgeId, e.index < g.edges.size → (g.edge e).target.index = e.index + 1
  source_le : ∀ e : EdgeId, e.index < g.edges.size → (g.edge e).source.index ≤ e.index
  nested : ∀ e f : EdgeId, e.index < g.edges.size → f.index < e.index →
    (g.edge e).source.index ≤ f.index → (g.edge e).source.index ≤ (g.edge f).source.index

/-- The position at which the vertex with a number is entered. -/
def entry : Nat → Position
  | 0 => .root
  | k + 1 => .edge ⟨UInt32.ofNat k⟩

/-- The edges after the one to the vertex with a number that lead from one of the vertices before
it. -/
def later (g : CallGraph) (k : Nat) : List EdgeId :=
  g.edgeIds.filter fun e => k ≤ e.index ∧ (g.edge e).source.index < k

/-- The positions that wait when the vertices before one with a number were entered. -/
def waiting (g : CallGraph) (k : Nat) : List Position :=
  if k ≤ g.edges.size then entry k :: (g.later k).map .edge else []

variable {g : CallGraph} {v : VertexId} {es fs : List EdgeId}

/-- Lists of edges in order are the same if they have the same members. -/
theorem eq_of_sorted (first : es.Pairwise fun a b => a.index < b.index)
    (second : fs.Pairwise fun a b => a.index < b.index) (same : ∀ e, e ∈ es ↔ e ∈ fs) :
    es = fs := by
  have perm := (List.perm_ext_iff_of_nodup (nodup_of_sorted first) (nodup_of_sorted second)).2 same
  refine perm.eq_of_pairwise ?_ first second
  intro a b _ _ less more
  exact absurd (Nat.lt_trans less more) (Nat.lt_irrefl _)

theorem mem_later (wf : g.WellFormed) (k : Nat) (e : EdgeId) :
    e ∈ g.later k ↔ e.index < g.edges.size ∧ k ≤ e.index ∧ (g.edge e).source.index < k := by
  rw [later, List.mem_filter, mem_edgeIds wf.edgeRoom, decide_eq_true_iff]

theorem later_sorted (wf : g.WellFormed) (k : Nat) :
    (g.later k).Pairwise fun a b => a.index < b.index :=
  (edgeIds_sorted wf.edgeRoom).sublist List.filter_sublist

namespace Unshared

/-- All edges that leave a vertex are enabled. -/
theorem enabledOut_eq (unshared : g.Unshared) (wf : g.WellFormed) (v : VertexId) :
    g.enabledOut v = g.outEdges v := by
  unfold enabledOut
  rw [List.filter_eq_self]
  intro e listed
  exact unshared.enabled e ((wf.mem_outEdges v e).1 listed).1

theorem mem_enabledOut (unshared : g.Unshared) (wf : g.WellFormed) (v : VertexId) (e : EdgeId) :
    e ∈ g.enabledOut v ↔ e.index < g.edges.size ∧ (g.edge e).source = v := by
  rw [unshared.enabledOut_eq wf, wf.mem_outEdges]

theorem index_vertexAt_entry (unshared : g.Unshared) (wf : g.WellFormed) {k : Nat}
    (within : k ≤ g.edges.size) : (g.vertexAt (entry k)).index = k := by
  cases k with
  | zero => rfl
  | succ k =>
    have index : (⟨UInt32.ofNat k⟩ : EdgeId).index = k :=
      EdgeId.index_ofNat (Nat.le_trans (Nat.le_of_succ_le within) wf.edgeRoom)
    rw [entry, vertexAt_edge, unshared.target _ (index.symm ▸ within), index]

/-- What is called from a vertex has smaller numbers than what waits behind it. -/
theorem children_later_sorted (unshared : g.Unshared) (wf : g.WellFormed) (v : VertexId) :
    (g.enabledOut v ++ g.later v.index).Pairwise fun a b => a.index < b.index := by
  rw [List.pairwise_append]
  refine ⟨wf.enabledOut_sorted v, later_sorted wf v.index, ?_⟩
  intro e child f waits
  obtain ⟨within, rfl⟩ := (unshared.mem_enabledOut wf v e).1 child
  obtain ⟨-, beyond, outside⟩ := (mem_later wf _ f).1 waits
  by_contra more
  rcases Nat.lt_or_eq_of_le (Nat.le_of_not_lt more) with less | same
  · have inside := unshared.nested e f within less beyond
    omega
  · rw [EdgeId.eq_of_index_eq same] at outside
    exact Nat.lt_irrefl _ outside

/-- Entering the vertex with a number makes what it calls wait before the rest. -/
theorem waiting_succ (unshared : g.Unshared) (wf : g.WellFormed)
    (within : v.index ≤ g.edges.size) :
    g.waiting (v.index + 1) = (g.enabledOut v ++ g.later v.index).map .edge := by
  have members : ∀ e, e ∈ g.enabledOut v ++ g.later v.index
      ↔ e.index < g.edges.size ∧ v.index ≤ e.index ∧ (g.edge e).source.index ≤ v.index := by
    intro e
    rw [List.mem_append, unshared.mem_enabledOut wf, mem_later wf]
    constructor
    · rintro (⟨edge, rfl⟩ | ⟨edge, beyond, source⟩)
      · exact ⟨edge, unshared.source_le e edge, Nat.le_refl _⟩
      · exact ⟨edge, beyond, Nat.le_of_lt source⟩
    · rintro ⟨edge, beyond, source⟩
      rcases Nat.lt_or_eq_of_le source with less | same
      · exact .inr ⟨edge, beyond, less⟩
      · exact .inl ⟨edge, VertexId.eq_of_index_eq same⟩
  have sorted := unshared.children_later_sorted wf v
  unfold waiting
  split
  · next more =>
    -- the next edge is the first one of what waits
    have index : (⟨UInt32.ofNat v.index⟩ : EdgeId).index = v.index :=
      EdgeId.index_ofNat (Nat.le_trans within wf.edgeRoom)
    rw [entry, ← List.map_cons]
    refine congrArg (List.map Position.edge) (eq_of_sorted ?_ sorted ?_)
    · refine List.pairwise_cons.2 ⟨?_, later_sorted wf _⟩
      intro f waits
      rw [index]
      exact ((mem_later wf _ f).1 waits).2.1
    · intro e
      rw [List.mem_cons, EdgeId.eq_ofNat_iff (Nat.le_trans within wf.edgeRoom), members,
        mem_later wf]
      constructor
      · rintro (last | ⟨edge, beyond, source⟩)
        · have edge : e.index < g.edges.size := last.symm ▸ more
          exact ⟨edge, Nat.le_of_eq last.symm, last ▸ unshared.source_le e edge⟩
        · exact ⟨edge, Nat.le_of_succ_le beyond, Nat.le_of_lt_succ source⟩
      · rintro ⟨edge, beyond, source⟩
        rcases Nat.lt_or_eq_of_le beyond with less | same
        · exact .inr ⟨edge, less, Nat.lt_succ_of_le source⟩
        · exact .inl same.symm
  · next last =>
    have none : g.enabledOut v ++ g.later v.index = [] := by
      rw [List.eq_nil_iff_forall_not_mem]
      intro e mem
      have := (members e).1 mem
      omega
    rw [none, List.map_nil]

/-- The edges of a chain from the root have ever smaller numbers. -/
theorem length_le_of_lineage (unshared : g.Unshared) (wf : g.WellFormed)
    (lineage : g.Lineage v es) : es.length ≤ v.index := by
  induction es generalizing v with
  | nil => exact Nat.zero_le _
  | cons e outer ih =>
    obtain ⟨known, rfl, rest⟩ := lineage
    have within := (mem_edgeIds wf.edgeRoom e).1 known
    have shorter := ih rest
    have less := unshared.source_le e within
    rw [unshared.target e within, List.length_cons]
    omega

end Unshared

end CallGraph

/-! ## Stepping -/

namespace Stepper

/-- A stepper that has entered the first vertices of a graph in the order of their numbers. -/
structure Entered (s : Stepper) (g : CallGraph) (k : Nat) : Prop where
  graph : s.graph = g
  fits : s.cursor.Fits g
  discovered : ∀ v, s.cursor.isDiscovered v = true ↔ v.index < k
  parent : ∀ v : VertexId, v.index < k → s.cursor.parent v = CallGraph.entry v.index
  pending : s.cursor.pending = g.waiting k

variable {g : CallGraph} {s next : Stepper} {k : Nat} {v : VertexId} {e : EdgeId}
  {es : List EdgeId}

theorem entered_start (g : CallGraph) : (start g).Entered g 0 where
  graph := rfl
  fits := Cursor.fits_start g
  discovered v := by simp [start, Cursor.isDiscovered_start]
  parent v before := absurd before (Nat.not_lt_zero _)
  pending := by
    have none : g.later 0 = [] := by simp [CallGraph.later]
    rw [CallGraph.waiting, if_pos (Nat.zero_le _), none]
    rfl

namespace Entered

theorem pending_eq (entered : s.Entered g k) (within : k ≤ g.edges.size) :
    s.cursor.pending = CallGraph.entry k :: (g.later k).map .edge := by
  rw [entered.pending, CallGraph.waiting, if_pos within]

theorem exists_step (entered : s.Entered g k) (within : k ≤ g.edges.size) :
    ∃ next, s.step = .ok next :=
  ⟨_, step_of_pending (entered.pending_eq within)⟩

/-- A vertex that was not entered before is entered, whatever the mode, and so is all that it
calls. -/
theorem enters_of_le (entered : s.Entered g k) (later : k ≤ v.index) : s.enters v = true := by
  refine (s.enters_iff v).2 (.inr ?_)
  rw [← Bool.not_eq_true, entered.discovered]
  exact Nat.not_lt.2 later

theorem children_eq (entered : s.Entered g k) (unshared : g.Unshared) (wf : g.WellFormed)
    (index : v.index = k) : s.children v = g.enabledOut v := by
  unfold children
  rw [entered.graph, List.filter_eq_self]
  intro e child
  obtain ⟨within, rfl⟩ := (unshared.mem_enabledOut wf v e).1 child
  have less := unshared.source_le e within
  apply entered.enters_of_le
  rw [unshared.target e within]
  omega

/-- A step enters the vertex with the next number. -/
theorem step (entered : s.Entered g k) (unshared : g.Unshared) (wf : g.WellFormed)
    (within : k ≤ g.edges.size) (taken : s.step = .ok next) : next.Entered g (k + 1) := by
  rw [step_of_pending (entered.pending_eq within)] at taken
  obtain rfl := Except.ok.inj taken
  obtain rfl := entered.graph
  have index := unshared.index_vertexAt_entry wf within
  have inside : (s.graph.vertexAt (CallGraph.entry k)).index < s.graph.vertices.size := by
    rw [index, unshared.vertices_size]
    exact Nat.lt_succ_of_le within
  have entersHere := entered.enters_of_le (Nat.le_of_eq index.symm)
  have same : ∀ v : VertexId, v = s.graph.vertexAt (CallGraph.entry k) ↔ v.index = k := by
    intro v
    constructor
    · rintro rfl
      exact index
    · exact fun number => VertexId.eq_of_index_eq (number.trans index.symm)
  refine ⟨rfl, fits_cursorAfter entered.fits _ _, ?_, ?_, ?_⟩
  · intro v
    rw [isDiscovered_cursorAfter entered.fits inside, entered.discovered, same, or_comm]
    exact Nat.lt_succ_iff_lt_or_eq.symm
  · intro v before
    rw [parent_cursorAfter entered.fits inside entersHere]
    split
    · next here => rw [(same v).1 here]
    · next other =>
      rw [same] at other
      exact entered.parent v (by omega)
  · have succ := unshared.waiting_succ wf (v := s.graph.vertexAt (CallGraph.entry k))
      (index.symm ▸ within)
    rw [index] at succ
    rw [pending_of_enters entersHere, entered.children_eq unshared wf index, succ, List.map_append]

/-- The parents lead back along the chain of edges from the root. -/
theorem leadsBack (entered : s.Entered g k) (unshared : g.Unshared) (wf : g.WellFormed)
    (lineage : g.Lineage v es) (before : v.index < k) :
    s.cursor.LeadsBack g (s.cursor.parent v) es := by
  rw [entered.parent v before]
  induction es generalizing v with
  | nil =>
    obtain rfl : v = CallGraph.root := lineage
    exact .root
  | cons e outer ih =>
    obtain ⟨known, rfl, rest⟩ := lineage
    have within := (CallGraph.mem_edgeIds wf.edgeRoom e).1 known
    have target := unshared.target e within
    have less := unshared.source_le e within
    have earlier : (g.edge e).source.index < k := by omega
    rw [target, CallGraph.entry, EdgeId.ofNat_index]
    apply Cursor.LeadsBack.edge
    rw [entered.parent _ earlier]
    exact ih rest earlier

/-- The backtrace of the vertex with the next number shows its edge and the chain of edges to its
caller. -/
theorem backtrace_eq (entered : s.Entered g (e.index + 1)) (unshared : g.Unshared)
    (wf : g.WellFormed) (within : e.index < g.edges.size)
    (lineage : g.Lineage (g.edge e).source es) :
    s.cursor.current = some (.edge e)
      ∧ s.backtrace = (g.frameAt (.edge e) :: es.map fun e => g.frameAt (.edge e))
        ++ [g.rootFrame] := by
  have current : s.cursor.current = some (.edge e) := by
    rw [Cursor.current, entered.pending_eq within, CallGraph.entry, EdgeId.ofNat_index]
    rfl
  have less := unshared.source_le e within
  have back := entered.leadsBack unshared wf lineage (Nat.lt_succ_of_le less)
  have short := unshared.length_le_of_lineage wf lineage
  refine ⟨current, ?_⟩
  rw [backtrace_of_current current, entered.graph]
  refine ((Cursor.LeadsBack.edge back).framesFrom_eq ?_).1
  rw [List.length_cons]
  omega

end Entered

/-- So many steps enter so many vertices. -/
theorem entered_stepUpTo (unshared : g.Unshared) (wf : g.WellFormed)
    (within : k ≤ g.edges.size + 1) : ((start g).stepUpTo k).Entered g k := by
  induction k with
  | zero => exact entered_start g
  | succ k ih =>
    have earlier := ih (Nat.le_of_succ_le within)
    obtain ⟨next, taken⟩ := earlier.exists_step (Nat.le_of_succ_le_succ within)
    rw [stepUpTo_succ_eq _ k taken]
    exact earlier.step unshared wf (Nat.le_of_succ_le_succ within) taken

theorem stepsTaken_of_unshared (unshared : g.Unshared) (wf : g.WellFormed)
    (within : k ≤ g.edges.size + 1) : ((start g).stepUpTo k).stepsTaken = k := by
  apply stepsTaken_stepUpTo_start
  intro m less finished
  have entered := entered_stepUpTo unshared wf (Nat.le_trans (Nat.le_of_lt less) within)
  rw [Cursor.isFinished_iff, entered.pending_eq (by omega)] at finished
  cases finished

/-- The step after the last vertex was reached finishes. -/
theorem isFinished_of_unshared (unshared : g.Unshared) (wf : g.WellFormed) :
    ((start g).stepUpTo (g.edges.size + 1)).cursor.isFinished = true := by
  rw [Cursor.isFinished_iff, (entered_stepUpTo unshared wf (Nat.le_refl _)).pending,
    CallGraph.waiting, if_neg (Nat.not_succ_le_self _)]

end Stepper

/-! ## Exploring a forest -/

/-- The vertices of the nodes in preorder. -/
def Forest.vertices (g : CallGraph) (forest : Forest) : List VertexId :=
  forest.positions.map g.vertexAt

theorem Forest.vertices_edge (g : CallGraph) (e : EdgeId) (below beside : Forest) :
    (Forest.node (.edge e) below beside).vertices g
      = (g.edge e).target :: (below.vertices g ++ beside.vertices g) := by
  rw [vertices, positions, List.map_cons, List.map_append]
  rfl

/-- Whether some vertices are neither above nor marked. -/
def Unmet (above : List VertexId) (seen : Array Bool) (vs : List VertexId) : Prop :=
  ∀ v ∈ vs, v ∉ above ∧ ¬Marked seen v

section

variable {g : CallGraph} {above vs others : List VertexId} {seen between : Array Bool}
  {u : VertexId}

/-- What was marked elsewhere leaves vertices unmet. -/
theorem Unmet.explored (unmet : Unmet above seen vs)
    (marks : ∀ u, Marked between u → Marked seen u ∨ u ∈ others) (apart : ∀ v ∈ vs, v ∉ others) :
    Unmet above between vs := by
  intro v mem
  obtain ⟨off, unmarked⟩ := unmet v mem
  refine ⟨off, fun marked => ?_⟩
  rcases marks v marked with before | met
  · exact unmarked before
  · exact apart v mem met

/-- Below another vertex vertices stay unmet. -/
theorem Unmet.entered (unmet : Unmet above seen vs) (other : u ∉ vs) :
    Unmet (u :: above) (g.mark seen u) vs := by
  intro v mem
  obtain ⟨off, unmarked⟩ := unmet v mem
  have differs : v ≠ u := by
    rintro rfl
    exact other mem
  refine ⟨List.not_mem_cons_of_ne_of_not_mem differs off, fun marked => ?_⟩
  rcases marked.of_mark with before | same
  · exact unmarked before
  · exact differs same.symm

end

namespace CallGraph

/-- Whether each node of a forest has the calls of its vertex below it, in order. -/
def Lists (g : CallGraph) : Forest → Prop
  | .nil => True
  | .node .root _ _ => False
  | .node (.edge e) below beside =>
      g.outEdges (g.edge e).target = below.heads ∧ g.Lists below ∧ g.Lists beside

variable {g : CallGraph} {maxDepth : Option Nat} {above : List VertexId}
  {seen between after : Array Bool} {here there : List Position} {first second forest : Forest}

/-- Exploring some positions and then others is exploring all of them. -/
theorem Explores.append (before : g.Explores maxDepth above seen here first between)
    (next : g.Explores maxDepth above between there second after) :
    g.Explores maxDepth above seen (here ++ there) (first.append second) after := by
  induction before with
  | done => exact next
  | closed shut _ ih => exact .closed shut (ih next)
  | cut opens full _ ih => exact .cut opens full (ih next)
  | expanded opens room inner _ _ ih => exact .expanded opens room inner (ih next)

/-- Exploring goes over a forest in reverse order if no vertex of it was met before and none occurs
twice. -/
theorem Lists.exists_explores (lists : g.Lists forest) (unshared : g.Unshared) (wf : g.WellFormed)
    (unmet : Unmet above seen (forest.vertices g)) (distinct : (forest.vertices g).Nodup) :
    ∃ after, g.Explores none above seen (forest.heads.reverse.map .edge) forest.mirror after
      ∧ ∀ u, Marked after u → Marked seen u ∨ u ∈ forest.vertices g := by
  induction forest generalizing above seen with
  | nil => exact ⟨seen, .done above seen, fun u marked => .inl marked⟩
  | node here below beside ihBelow ihBeside =>
    cases here with
    | root => exact lists.elim
    | edge e =>
      obtain ⟨calls, listsBelow, listsBeside⟩ := lists
      rw [Forest.vertices_edge] at unmet distinct ⊢
      rw [List.nodup_cons, List.mem_append, not_or, List.nodup_append] at distinct
      obtain ⟨⟨onceBelow, onceBeside⟩, distinctBelow, distinctBeside, apart⟩ := distinct
      obtain ⟨unmetHere, unmetInside⟩ := List.forall_mem_cons.1 unmet
      obtain ⟨unmetBelow, unmetBeside⟩ := List.forall_mem_append.1 unmetInside
      obtain ⟨between, explored, marks⟩ := ihBeside listsBeside unmetBeside distinctBeside
      -- what was explored beside a node is not what lies below it
      have stillUnmet : Unmet above between (below.vertices g) :=
        Unmet.explored unmetBelow marks fun v mem met => apart v mem v met rfl
      obtain ⟨after, inner, marksInside⟩ :=
        ihBelow listsBelow (stillUnmet.entered onceBelow) distinctBelow
      have opens : g.Opens none above between (g.vertexAt (.edge e)) := by
        refine ⟨fun marked => ?_, fun known => unmetHere.1 known.2⟩
        rcases marks _ marked with before | met
        · exact unmetHere.2 before
        · exact onceBeside met
      have called : g.callees (g.vertexAt (.edge e)) = below.heads.reverse.map .edge := by
        rw [callees, vertexAt_edge, unshared.enabledOut_eq wf, calls]
      rw [← called] at inner
      refine ⟨after, ?_, ?_⟩
      · rw [Forest.heads, Position.edge?, Option.toList_some, List.singleton_append,
          List.reverse_cons, List.map_append, Forest.mirror]
        exact explored.append (.expanded opens (hasRoom_none _) inner (.done above after))
      · intro u marked
        rw [List.mem_cons, List.mem_append]
        rcases marksInside u marked with before | met
        · rcases before.of_mark with before | same
          · exact (marks u before).imp id fun met => .inr (.inr met)
          · exact .inr (.inl same.symm)
        · exact .inr (.inr (.inl met))

/-! ## Forests of calls -/

/-- Whether the trees of a forest are calls of a vertex, and the trees below each node calls of its
vertex. -/
def CalledFrom (g : CallGraph) : VertexId → Forest → Prop
  | _, .nil => True
  | _, .node .root _ _ => False
  | v, .node (.edge e) below beside =>
      (g.edge e).source = v ∧ g.CalledFrom (g.edge e).target below ∧ g.CalledFrom v beside

/-- The nodes of a forest that are calls of a vertex. -/
def callsIn (g : CallGraph) (v : VertexId) (forest : Forest) : List EdgeId :=
  (forest.positions.filterMap Position.edge?).filter fun e => (g.edge e).source = v

theorem callsIn_node (g : CallGraph) (v : VertexId) (e : EdgeId) (below beside : Forest) :
    g.callsIn v (.node (.edge e) below beside)
      = (if (g.edge e).source = v then [e] else [])
        ++ (g.callsIn v below ++ g.callsIn v beside) := by
  have edge : Position.edge? (.edge e) = some e := rfl
  unfold callsIn
  rw [Forest.positions, List.filterMap_cons_some edge, List.filter_cons, List.filterMap_append,
    List.filter_append]
  split
  · next caller => rw [if_pos (of_decide_eq_true caller), List.singleton_append]
  · next other =>
    rw [decide_eq_true_iff] at other
    rw [if_neg other, List.nil_append]

variable {u v : VertexId}

/-- All calls in a forest are of the vertex it is called from or of its own vertices. -/
theorem CalledFrom.callsIn_eq_nil (called : g.CalledFrom v forest) (other : u ≠ v)
    (off : u ∉ forest.vertices g) : g.callsIn u forest = [] := by
  induction forest generalizing v with
  | nil => rfl
  | node here below beside ihBelow ihBeside =>
    cases here with
    | root => exact called.elim
    | edge e =>
      obtain ⟨rfl, calledBelow, calledBeside⟩ := called
      rw [Forest.vertices_edge, List.mem_cons, List.mem_append, not_or, not_or] at off
      obtain ⟨here, offBelow, offBeside⟩ := off
      rw [callsIn_node, if_neg (Ne.symm other), ihBelow calledBelow here offBelow,
        ihBeside calledBeside other offBeside]
      rfl

/-- The calls of the vertex that a forest is called from are the roots of its trees. -/
theorem CalledFrom.callsIn_eq_heads (called : g.CalledFrom v forest)
    (off : v ∉ forest.vertices g) : g.callsIn v forest = forest.heads := by
  induction forest with
  | nil => rfl
  | node here below beside _ ihBeside =>
    cases here with
    | root => exact called.elim
    | edge e =>
      obtain ⟨source, calledBelow, calledBeside⟩ := called
      rw [Forest.vertices_edge, List.mem_cons, List.mem_append, not_or, not_or] at off
      obtain ⟨here, offBelow, offBeside⟩ := off
      rw [callsIn_node, if_pos source, calledBelow.callsIn_eq_nil here offBelow,
        ihBeside calledBeside offBeside, List.nil_append]
      rfl

/-- The vertices of a forest that is called list what lies below them if the forest holds all their
calls in order. -/
theorem CalledFrom.lists (called : g.CalledFrom v forest) (off : v ∉ forest.vertices g)
    (distinct : (forest.vertices g).Nodup)
    (all : ∀ u ∈ forest.vertices g, g.outEdges u = g.callsIn u forest) : g.Lists forest := by
  induction forest generalizing v with
  | nil => trivial
  | node here below beside ihBelow ihBeside =>
    cases here with
    | root => exact called.elim
    | edge e =>
      obtain ⟨source, calledBelow, calledBeside⟩ := called
      rw [Forest.vertices_edge] at off distinct all
      rw [List.mem_cons, List.mem_append, not_or, not_or] at off
      rw [List.nodup_cons, List.mem_append, not_or, List.nodup_append] at distinct
      rw [List.forall_mem_cons, List.forall_mem_append] at all
      obtain ⟨here, offBelow, offBeside⟩ := off
      obtain ⟨⟨onceBelow, onceBeside⟩, distinctBelow, distinctBeside, apart⟩ := distinct
      obtain ⟨allHere, allBelow, allBeside⟩ := all
      simp only [callsIn_node, source] at allHere allBelow allBeside
      refine ⟨?_, ihBelow calledBelow onceBelow distinctBelow ?_,
        ihBeside calledBeside offBeside distinctBeside ?_⟩
      · rw [allHere, if_neg here, calledBelow.callsIn_eq_heads onceBelow,
          calledBeside.callsIn_eq_nil (Ne.symm here) onceBeside, List.append_nil, List.nil_append]
      · intro u mem
        have other : v ≠ u := by
          rintro rfl
          exact offBelow mem
        rw [allBelow u mem, if_neg other,
          calledBeside.callsIn_eq_nil (Ne.symm other) fun both => apart u mem u both rfl,
          List.append_nil, List.nil_append]
      · intro u mem
        have other : v ≠ u := by
          rintro rfl
          exact offBeside mem
        have inner : u ≠ (g.edge e).target := by
          rintro rfl
          exact onceBeside mem
        rw [allBeside u mem, if_neg other,
          calledBelow.callsIn_eq_nil inner fun both => apart u both u mem rfl,
          List.nil_append, List.nil_append]

/-- A forest of all edges has all calls of every vertex. -/
theorem callsIn_eq_outEdges (wf : g.WellFormed) (all : forest.positions = g.edgeIds.map .edge)
    (u : VertexId) : g.callsIn u forest = g.outEdges u := by
  have edges : Position.edge? ∘ Position.edge = some := rfl
  rw [callsIn, all, List.filterMap_map, edges, List.filterMap_some, wf.outEdges_eq]

namespace Unshared

/-- Different edges lead to different vertices. -/
theorem nodup_vertices (unshared : g.Unshared) (wf : g.WellFormed)
    (all : forest.positions = g.edgeIds.map .edge) : (forest.vertices g).Nodup := by
  rw [Forest.vertices, all, List.map_map]
  refine (nodup_of_sorted (edgeIds_sorted wf.edgeRoom)).map_on ?_
  intro e memE f memF same
  have index := congrArg VertexId.index same
  simp only [Function.comp_apply, vertexAt_edge] at index
  rw [unshared.target e ((mem_edgeIds wf.edgeRoom e).1 memE),
    unshared.target f ((mem_edgeIds wf.edgeRoom f).1 memF)] at index
  exact EdgeId.eq_of_index_eq (Nat.succ.inj index)

/-- No edge leads to the root. -/
theorem root_not_mem_vertices (unshared : g.Unshared) (wf : g.WellFormed)
    (all : forest.positions = g.edgeIds.map .edge) : root ∉ forest.vertices g := by
  intro mem
  rw [Forest.vertices, all, List.map_map] at mem
  obtain ⟨e, known, same⟩ := List.mem_map.1 mem
  have target := unshared.target e ((mem_edgeIds wf.edgeRoom e).1 known)
  rw [Function.comp_apply, vertexAt_edge] at same
  rw [same] at target
  cases target

end Unshared

end CallGraph

namespace Stepper

/-- The call tree from the root is the forest of all calls in reverse order. -/
theorem exists_callTree_of_calledFrom {g : CallGraph} (unshared : g.Unshared) (wf : g.WellFormed)
    {forest : Forest} (called : g.CalledFrom CallGraph.root forest)
    (all : forest.positions = g.edgeIds.map .edge) :
    ∃ final : Walk, (start g).callTree none
      = (((Forest.node .root forest.mirror .nil).stations g 0).map Prod.snd, final) := by
  have distinct := unshared.nodup_vertices wf all
  have off := unshared.root_not_mem_vertices wf all
  have listed := CallGraph.callsIn_eq_outEdges wf all
  have lists := called.lists off distinct fun u _ => (listed u).symm
  have unmet : Unmet [] (start g).cursor.discovered (forest.vertices g) := fun v _ =>
    ⟨List.not_mem_nil, not_marked_replicate _ v⟩
  obtain ⟨after, inner, -⟩ := lists.exists_explores unshared wf (unmet.entered off) distinct
  have callees : g.callees CallGraph.root = forest.heads.reverse.map .edge := by
    rw [CallGraph.callees, unshared.enabledOut_eq wf, ← listed, called.callsIn_eq_heads off]
  rw [← callees] at inner
  obtain ⟨final, -, ends, -, -⟩ :=
    exists_walk_ends (s := start g) wf (ancestry_start g).size rfl wf.root_lt (explores_root inner)
  exact ⟨final, ends.drain_eq⟩

end Stepper

end TemplateTrace
