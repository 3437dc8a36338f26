import TemplateTrace.Proofs.Graph.Recorded
import TemplateTrace.Proofs.Graph.Stepping
import Mathlib.Data.Set.Card
set_option autoImplicit false

/-!
# Stepping in minimized mode

Stepping in minimized mode is depth-first search.  `CallGraph.search` tells the search by recursion:
a vertex that was visited before is skipped, and any other one is visited and then what is called
from it is searched.  The cursor marks the same vertices in the same order, whatever cycles there
are, and takes at most one step for the root and one for each edge that the search comes across.

Two facts carry the proof, both part of `Stepper.Searching`.  The vertices marked so far, followed
by those that a search from the waiting positions finds, are those of the whole search.  And no
position comes to wait twice, because the calls of a vertex come to wait when it is marked and never
after.
-/

namespace TemplateTrace

/-! ## Depth-first search -/

instance VertexId.finite : Finite VertexId := by
  refine Finite.of_injective (fun v => (⟨v.index, v.val.toNat_lt⟩ : Fin UInt32.size)) ?_
  intro a b same
  exact VertexId.eq_of_index_eq (Fin.mk.inj same)

/-- Visiting a new vertex leaves fewer to visit. -/
theorem VertexId.ncard_unvisited_lt {visited after : List VertexId} {v : VertexId}
    (new : v ∉ visited) (now : v ∈ after) (kept : visited ⊆ after) :
    {u | u ∉ after}.ncard < {u | u ∉ visited}.ncard := by
  have fewer : {u | u ∉ after} ⊂ {u | u ∉ visited} := by
    refine (Set.ssubset_iff_of_subset ?_).2 ⟨v, new, fun fresh => fresh now⟩
    intro u fresh known
    exact fresh (kept known)
  exact Set.ncard_lt_ncard fewer (Set.toFinite _)

namespace CallGraph

/-- The vertices that depth-first search from some vertices, one after the other, visits in preorder
when some were visited before. -/
def search (g : CallGraph) (visited : List VertexId) : List VertexId → List VertexId
  | [] => []
  | v :: rest =>
      if _known : v ∈ visited then g.search visited rest
      else
        let below := g.search (visited ++ [v]) ((g.enabledOut v).map fun e => (g.edge e).target)
        v :: (below ++ g.search (visited ++ v :: below) rest)
termination_by waiting => ({u | u ∉ visited}.ncard, waiting.length)
decreasing_by
  · exact Prod.Lex.right _ (Nat.lt_succ_self _)
  · exact Prod.Lex.left _ _ (VertexId.ncard_unvisited_lt _known (by simp) (by simp))
  · exact Prod.Lex.left _ _ (VertexId.ncard_unvisited_lt _known (by simp) (by simp))

/-- The vertices that depth-first search from the root visits, in preorder. -/
def depthFirst (g : CallGraph) : List VertexId := g.search [] [root]

/-- Whether enabled edges lead to a vertex from the root. -/
def Reachable (g : CallGraph) (v : VertexId) : Prop :=
  ∃ p, g.IsPath root p ∧ g.vertexAt (endOf .root p) = v

/-- The enabled edges that leave the vertices that can be reached. -/
def liveEdges (g : CallGraph) : Set EdgeId :=
  {e | e ∈ g.enabledEdges ∧ g.Reachable (g.edge e).source}

variable {g : CallGraph} {visited : List VertexId} {v : VertexId}

theorem search_nil (g : CallGraph) (visited : List VertexId) : g.search visited [] = [] := by
  rw [search]

theorem search_of_mem (known : v ∈ visited) (rest : List VertexId) :
    g.search visited (v :: rest) = g.search visited rest := by
  rw [search, dif_pos known]

theorem search_of_notMem (new : v ∉ visited) (rest : List VertexId) :
    g.search visited (v :: rest)
      = let below := g.search (visited ++ [v]) ((g.enabledOut v).map fun e => (g.edge e).target)
        v :: (below ++ g.search (visited ++ v :: below) rest) := by
  rw [search, dif_neg new]

/-- A search goes on after some vertices with what was visited by then. -/
theorem search_append (visited a b : List VertexId) :
    g.search visited (a ++ b)
      = g.search visited a ++ g.search (visited ++ g.search visited a) b := by
  induction a generalizing visited with
  | nil => rw [List.nil_append, search_nil, List.nil_append, List.append_nil]
  | cons v a ih =>
    by_cases known : v ∈ visited
    · rw [List.cons_append, search_of_mem known, search_of_mem known, ih]
    · rw [List.cons_append, search_of_notMem known, search_of_notMem known]
      dsimp only
      rw [ih, List.cons_append, List.append_assoc, List.append_assoc, List.cons_append]

/-- Vertices that were visited may as well be left out. -/
theorem search_filter {known : List VertexId} (kept : known ⊆ visited) (waiting : List VertexId) :
    g.search visited (waiting.filter fun v => decide (v ∉ known)) = g.search visited waiting := by
  induction waiting generalizing visited with
  | nil => rfl
  | cons v waiting ih =>
    by_cases visitedBefore : v ∈ visited
    · rw [search_of_mem visitedBefore, List.filter_cons]
      split
      · rw [search_of_mem visitedBefore, ih kept]
      · exact ih kept
    · have new : v ∉ known := fun mem => visitedBefore (kept mem)
      rw [List.filter_cons, if_pos (decide_eq_true new), search_of_notMem visitedBefore,
        search_of_notMem visitedBefore]
      dsimp only
      rw [ih (List.subset_append_of_subset_left _ kept)]

/-! ## Reachable vertices -/

theorem reachable_root (g : CallGraph) : g.Reachable root := ⟨[], trivial, rfl⟩

theorem Reachable.target {e : EdgeId} (reachable : g.Reachable (g.edge e).source)
    (enabled : e ∈ g.enabledEdges) : g.Reachable (g.edge e).target := by
  obtain ⟨p, path, source⟩ := reachable
  refine ⟨p ++ [e], (isPath_snoc_iff .root).2 ⟨path, enabled, source.symm⟩, ?_⟩
  rw [endOf_snoc, vertexAt_edge]

/-- What holds of the root, and of the target of an enabled edge when it holds of the source, holds
of all vertices that can be reached. -/
theorem Reachable.induct {motive : VertexId → Prop} (first : motive root)
    (goesOn : ∀ e ∈ g.enabledEdges, motive (g.edge e).source → motive (g.edge e).target)
    (reachable : g.Reachable v) : motive v := by
  obtain ⟨p, path, rfl⟩ := reachable
  induction p using List.reverseRecOn with
  | nil => exact first
  | append_singleton p e ih =>
    obtain ⟨before, enabled, source⟩ := (isPath_snoc_iff .root).1 path
    rw [endOf_snoc]
    exact goesOn e enabled (source ▸ ih before)

theorem vertexIds_nodup (room : g.vertices.size ≤ arenaLimit) : g.vertexIds.Nodup := by
  refine List.Nodup.map_on ?_ List.nodup_range
  intro i memI j memJ same
  rw [List.mem_range] at memI memJ
  have index := congrArg VertexId.index same
  rwa [VertexId.index_ofNat (by omega), VertexId.index_ofNat (by omega)] at index

theorem mem_vertexIds (room : g.vertices.size ≤ arenaLimit) (within : v.index < g.vertices.size) :
    v ∈ g.vertexIds := by
  refine List.mem_map.2 ⟨v.index, List.mem_range.2 within, VertexId.eq_of_index_eq ?_⟩
  exact VertexId.index_ofNat (Nat.le_trans (Nat.le_of_lt within) room)

end CallGraph

/-! ## Marks and positions -/

/-- The vertices that are marked and were not marked by an earlier cursor. -/
def Cursor.marksSince (c earlier : Cursor) (g : CallGraph) : List VertexId :=
  g.vertexIds.filter fun v => c.isDiscovered v && !earlier.isDiscovered v

theorem Cursor.marksSince_eq_nil {c earlier : Cursor} (g : CallGraph)
    (kept : ∀ v, c.isDiscovered v = true → earlier.isDiscovered v = true) :
    c.marksSince earlier g = [] := by
  apply List.filter_eq_nil_iff.2
  intro v _ marked
  simp only [Bool.and_eq_true, Bool.not_eq_true'] at marked
  rw [kept v marked.1] at marked
  exact Bool.noConfusion marked.2

theorem Cursor.marksSince_eq_singleton {c earlier : Cursor} {g : CallGraph} {v : VertexId}
    (wf : g.WellFormed) (within : v.index < g.vertices.size)
    (new : earlier.isDiscovered v = false)
    (marks : ∀ u, c.isDiscovered u = true ↔ u = v ∨ earlier.isDiscovered u = true) :
    c.marksSince earlier g = [v] := by
  have only : ∀ u, (c.isDiscovered u && !earlier.isDiscovered u) = (u == v) := by
    intro u
    rw [Bool.eq_iff_iff, Bool.and_eq_true, Bool.not_eq_true', beq_iff_eq, marks]
    constructor
    · rintro ⟨rfl | known, fresh⟩
      · rfl
      · rw [known] at fresh
        cases fresh
    · rintro rfl
      exact ⟨.inl rfl, new⟩
  have occurs : g.vertexIds.count v = 1 :=
    List.count_eq_one_of_mem (CallGraph.vertexIds_nodup wf.vertexRoom)
      (CallGraph.mem_vertexIds wf.vertexRoom within)
  rw [marksSince, List.filter_congr fun u _ => only u, List.filter_beq, occurs]
  rfl

namespace Stepper

/-- The vertices that some steps mark, in the order in which they do. -/
def marksIn (s : Stepper) (n : Nat) : List VertexId :=
  (List.range n).flatMap fun k =>
    (s.stepUpTo (k + 1)).cursor.marksSince (s.stepUpTo k).cursor s.graph

theorem marksIn_succ (s : Stepper) (n : Nat) :
    s.marksIn (n + 1)
      = s.marksIn n ++ (s.stepUpTo (n + 1)).cursor.marksSince (s.stepUpTo n).cursor s.graph := by
  rw [marksIn, List.range_succ, List.flatMap_append, List.flatMap_singleton]
  rfl

/-- The positions at which the steps that were taken began, the last one first. -/
def passed (s : Stepper) : List Position := s.history.filterMap Cursor.current

variable {s next : Stepper} {g : CallGraph} {here : Position} {later : List Position}
  {visited : List VertexId}

theorem passed_of_current (current : s.cursor.current = some here) (c : Cursor) :
    (⟨s.graph, c, s.cursor :: s.history⟩ : Stepper).passed = here :: s.passed :=
  List.filterMap_cons_some current

theorem passed_length_stepUpTo (g : CallGraph) (n : Nat) :
    ((start g).stepUpTo n).passed.length = ((start g).stepUpTo n).stepsTaken := by
  refine stepUpTo_induct (motive := fun t => t.passed.length = t.stepsTaken) rfl ?_ n
  intro t next counts taken
  obtain ⟨here, later, waits, rfl⟩ := step_cases taken
  rw [passed_of_current (Cursor.current_eq_some_iff.2 ⟨later, waits⟩)]
  exact congrArg Nat.succ counts

/-- A position that was passed stays so. -/
theorem mem_passed_of_current {i j : Nat} (less : i < j)
    (current : (s.stepUpTo i).cursor.current = some here) : here ∈ (s.stepUpTo j).passed := by
  obtain ⟨rest, rfl⟩ := Nat.exists_eq_add_of_lt less
  obtain ⟨later, waits⟩ := Cursor.current_eq_some_iff.1 current
  have taken := step_of_pending waits
  rw [Nat.add_right_comm, stepUpTo_add, stepUpTo_succ_eq s i taken]
  refine stepUpTo_induct (motive := fun t => here ∈ t.passed) ?_ ?_ rest
  · rw [passed_of_current current]
    exact List.mem_cons_self
  · intro t next mem taken
    obtain ⟨now, later, waits, rfl⟩ := step_cases taken
    rw [passed_of_current (Cursor.current_eq_some_iff.2 ⟨later, waits⟩)]
    exact List.mem_cons_of_mem _ mem

/-! ## The search in progress -/

/-- Whether the vertex of a position was visited, or else the position waits. -/
def Settles (s : Stepper) (visited : List VertexId) (here : Position) : Prop :=
  s.graph.vertexAt here ∈ visited ∨ here ∈ s.cursor.pending

/-- What holds of a stepper in minimized mode after steps from the root that have visited some
vertices. -/
structure Searching (s : Stepper) (visited : List VertexId) : Prop where
  fits : s.cursor.Fits s.graph
  marks : ∀ v, s.cursor.isDiscovered v = true ↔ v ∈ visited
  reached : ∀ v ∈ visited, s.graph.Reachable v
  called : ∀ e, .edge e ∈ s.passed ++ s.cursor.pending →
    e ∈ s.graph.enabledEdges ∧ (s.graph.edge e).source ∈ visited
  /-- no position comes to wait twice -/
  once : (s.passed ++ s.cursor.pending).Nodup
  root : s.Settles visited .root
  covers : ∀ v ∈ visited, ∀ e ∈ s.graph.enabledOut v, s.Settles visited (.edge e)
  goesOn : visited ++ s.graph.search visited (s.cursor.pending.map s.graph.vertexAt)
    = s.graph.depthFirst

theorem searching_start (g : CallGraph) : (start g).Searching [] where
  fits := Cursor.fits_start g
  marks v := by simp [start, Cursor.isDiscovered_start]
  reached v mem := absurd mem List.not_mem_nil
  called e mem := by simp [start, passed, Cursor.start] at mem
  once := List.nodup_singleton _
  root := .inr List.mem_cons_self
  covers v mem := absurd mem List.not_mem_nil
  goesOn := rfl

/-- A step moves the next position from those that wait to those that were passed. -/
theorem moved_of_pending (waits : s.cursor.pending = here :: later) :
    (here :: s.passed ++ later).Perm (s.passed ++ s.cursor.pending) := by
  rw [waits]
  exact List.perm_middle.symm

/-- A step that enters a vertex adds what is called from it. -/
theorem moved_of_enters (waits : s.cursor.pending = here :: later)
    (entered : s.enters (s.graph.vertexAt here) = true) :
    (here :: s.passed ++ (s.cursorAfter here later).pending).Perm
      ((s.children (s.graph.vertexAt here)).map .edge ++ (s.passed ++ s.cursor.pending)) := by
  rw [pending_of_enters entered]
  exact (List.perm_append_comm_assoc ..).trans ((moved_of_pending waits).append_left _)

/-- A settled position stays so while the vertex of the next position is visited. -/
theorem Settles.step {position : Position} (settles : s.Settles visited position)
    (waits : s.cursor.pending = here :: later) {after : List VertexId} {c : Cursor}
    {history : List Cursor} (kept : visited ⊆ after) (now : s.graph.vertexAt here ∈ after)
    (rest : later ⊆ c.pending) : Settles ⟨s.graph, c, history⟩ after position := by
  rcases settles with known | mem
  · exact .inl (kept known)
  · rw [waits] at mem
    rcases List.mem_cons.1 mem with rfl | mem
    · exact .inl now
    · exact .inr (rest mem)

namespace Searching

/-- The vertex of a position that waits can be reached. -/
theorem reachable (searching : s.Searching visited) (waits : here ∈ s.cursor.pending) :
    s.graph.Reachable (s.graph.vertexAt here) := by
  cases here with
  | root => exact s.graph.reachable_root
  | edge e =>
    obtain ⟨enabled, source⟩ := searching.called e (List.mem_append_right _ waits)
    exact (searching.reached _ source).target enabled

theorem vertexAt_lt (searching : s.Searching visited) (wf : s.graph.WellFormed)
    (waits : here ∈ s.cursor.pending) :
    (s.graph.vertexAt here).index < s.graph.vertices.size := by
  cases here with
  | root => exact wf.root_lt
  | edge e =>
    have enabled := (searching.called e (List.mem_append_right _ waits)).1
    exact wf.target_lt e ((CallGraph.mem_edgeIds wf.edgeRoom e).1 (List.mem_filter.1 enabled).1)

/-- In minimized mode the vertices that are entered are those that were not visited. -/
theorem enters_eq (searching : s.Searching visited) (minimized : s.graph.mode ≠ .full)
    (v : VertexId) : s.enters v = decide (v ∉ visited) := by
  rw [Bool.eq_iff_iff, enters_iff, or_iff_right minimized, decide_eq_true_iff, ← searching.marks,
    Bool.not_eq_true]

theorem enters_of_notMem (searching : s.Searching visited) (minimized : s.graph.mode ≠ .full)
    {v : VertexId} (new : v ∉ visited) : s.enters v = true :=
  (searching.enters_eq minimized v).trans (decide_eq_true new)

/-- A position whose vertex was visited is passed. -/
theorem skip (searching : s.Searching visited) (waits : s.cursor.pending = here :: later)
    (known : s.graph.vertexAt here ∈ visited) :
    Searching ⟨s.graph, { s.cursor with pending := later }, s.cursor :: s.history⟩ visited := by
  have moved := moved_of_pending waits
  have passed := passed_of_current (Cursor.current_eq_some_iff.2 ⟨later, waits⟩)
    { s.cursor with pending := later }
  have goesOn := searching.goesOn
  rw [waits, List.map_cons, CallGraph.search_of_mem known] at goesOn
  refine ⟨⟨searching.fits.discovered, searching.fits.parents⟩, searching.marks, searching.reached,
    ?_, ?_, ?_, ?_, goesOn⟩
  · intro e mem
    rw [passed] at mem
    exact searching.called e (moved.subset mem)
  · rw [passed]
    exact moved.nodup_iff.2 searching.once
  · exact searching.root.step waits (List.Subset.refl _) known (List.Subset.refl _)
  · intro v mem e called
    exact (searching.covers v mem e called).step waits (List.Subset.refl _) known
      (List.Subset.refl _)

/-- Searching what is called from a new vertex, those called that were visited being left out, is
what the search does next. -/
theorem goesOn_enter (searching : s.Searching visited) (minimized : s.graph.mode ≠ .full)
    (waits : s.cursor.pending = here :: later) (new : s.graph.vertexAt here ∉ visited) :
    (visited ++ [s.graph.vertexAt here])
        ++ s.graph.search (visited ++ [s.graph.vertexAt here])
          (((s.children (s.graph.vertexAt here)).map Position.edge ++ later).map s.graph.vertexAt)
      = s.graph.depthFirst := by
  have targets : ((s.children (s.graph.vertexAt here)).map Position.edge).map s.graph.vertexAt
      = ((s.graph.enabledOut (s.graph.vertexAt here)).map fun e => (s.graph.edge e).target).filter
          fun v => decide (v ∉ visited) := by
    rw [List.filter_map, List.map_map, children]
    refine congrArg _ (List.filter_congr ?_)
    intro e _
    exact searching.enters_eq minimized _
  have goesOn := searching.goesOn
  rw [waits, List.map_cons, CallGraph.search_of_notMem new] at goesOn
  rw [List.map_append, targets, CallGraph.search_append,
    CallGraph.search_filter (List.subset_append_left _ _), ← goesOn]
  simp only [List.append_assoc, List.cons_append, List.nil_append]

/-- Entering a vertex visits it, and then what waits leaves vertices that were visited. -/
theorem called_enter (searching : s.Searching visited) (wf : s.graph.WellFormed)
    (waits : s.cursor.pending = here :: later)
    (entered : s.enters (s.graph.vertexAt here) = true) {e : EdgeId}
    (mem : .edge e ∈ here :: s.passed ++ (s.cursorAfter here later).pending) :
    e ∈ s.graph.enabledEdges
      ∧ (s.graph.edge e).source ∈ visited ++ [s.graph.vertexAt here] := by
  rcases List.mem_append.1 ((moved_of_enters waits entered).subset mem) with mem | mem
  · obtain ⟨_, child, ⟨⟩⟩ := List.mem_map.1 mem
    obtain ⟨enabled, source⟩ := leaves_of_mem_children wf child
    exact ⟨enabled, List.mem_append_right _ (List.mem_singleton.2 source)⟩
  · obtain ⟨enabled, source⟩ := searching.called e mem
    exact ⟨enabled, List.mem_append_left _ source⟩

/-- What comes to wait when a new vertex is entered leaves that vertex, and nothing did before. -/
theorem once_enter (searching : s.Searching visited) (wf : s.graph.WellFormed)
    (waits : s.cursor.pending = here :: later)
    (entered : s.enters (s.graph.vertexAt here) = true)
    (new : s.graph.vertexAt here ∉ visited) :
    (here :: s.passed ++ (s.cursorAfter here later).pending).Nodup := by
  rw [(moved_of_enters waits entered).nodup_iff, List.nodup_append]
  refine ⟨(s.nodup_children wf _).map fun _ _ => Position.edge.inj, searching.once, ?_⟩
  rintro _ memNow other before rfl
  obtain ⟨e, child, rfl⟩ := List.mem_map.1 memNow
  have source := (searching.called e before).2
  rw [(leaves_of_mem_children wf child).2] at source
  exact new source

/-- What is called from the vertex that is entered was visited or comes to wait. -/
theorem settles_of_called (searching : s.Searching visited) (minimized : s.graph.mode ≠ .full)
    (entered : s.enters (s.graph.vertexAt here) = true) {e : EdgeId}
    (called : e ∈ s.graph.enabledOut (s.graph.vertexAt here)) (history : List Cursor) :
    Settles ⟨s.graph, s.cursorAfter here later, history⟩ (visited ++ [s.graph.vertexAt here])
      (.edge e) := by
  by_cases known : (s.graph.edge e).target ∈ visited
  · exact .inl (List.mem_append_left _ known)
  · have child := (s.mem_children_iff _ e).2 ⟨called, searching.enters_of_notMem minimized known⟩
    refine .inr ?_
    rw [pending_of_enters entered]
    exact List.mem_append_left _ (List.mem_map_of_mem child)

/-- A position whose vertex was not visited is passed, and what is called from the vertex waits. -/
theorem enter (searching : s.Searching visited) (wf : s.graph.WellFormed)
    (minimized : s.graph.mode ≠ .full) (waits : s.cursor.pending = here :: later)
    (new : s.graph.vertexAt here ∉ visited) :
    Searching ⟨s.graph, s.cursorAfter here later, s.cursor :: s.history⟩
      (visited ++ [s.graph.vertexAt here]) := by
  have now : here ∈ s.cursor.pending := waits ▸ List.mem_cons_self
  have passed := passed_of_current (Cursor.current_eq_some_iff.2 ⟨later, waits⟩)
    (s.cursorAfter here later)
  have entered := searching.enters_of_notMem minimized new
  have kept : visited ⊆ visited ++ [s.graph.vertexAt here] := List.subset_append_left _ _
  have last : s.graph.vertexAt here ∈ visited ++ [s.graph.vertexAt here] :=
    List.mem_append_right _ List.mem_cons_self
  have rest : later ⊆ (s.cursorAfter here later).pending := by
    rw [pending_of_enters entered]
    exact List.subset_append_right _ _
  refine ⟨fits_cursorAfter searching.fits here later, ?_, ?_, ?_, ?_, ?_, ?_, ?_⟩
  · intro v
    rw [isDiscovered_cursorAfter searching.fits (searching.vertexAt_lt wf now), searching.marks,
      List.mem_append, List.mem_singleton, or_comm]
  · intro v mem
    rcases List.mem_append.1 mem with mem | mem
    · exact searching.reached v mem
    · rw [List.mem_singleton.1 mem]
      exact searching.reachable now
  · intro e mem
    rw [passed] at mem
    exact searching.called_enter wf waits entered mem
  · rw [passed]
    exact searching.once_enter wf waits entered new
  · exact searching.root.step waits kept last rest
  · intro v mem e called
    rcases List.mem_append.1 mem with mem | mem
    · exact (searching.covers v mem e called).step waits kept last rest
    · rw [List.mem_singleton.1 mem] at called
      exact searching.settles_of_called minimized entered called _
  · rw [pending_of_enters entered]
    exact searching.goesOn_enter minimized waits new

/-- A step visits the vertices that it marks. -/
theorem step (searching : s.Searching visited) (wf : s.graph.WellFormed)
    (minimized : s.graph.mode ≠ .full) (taken : s.step = .ok next) :
    next.Searching (visited ++ next.cursor.marksSince s.cursor s.graph) := by
  obtain ⟨here, later, waits, rfl⟩ := step_cases taken
  by_cases known : s.graph.vertexAt here ∈ visited
  · have entered : s.enters (s.graph.vertexAt here) = false := by
      rw [searching.enters_eq minimized]
      exact decide_eq_false (not_not.2 known)
    have nothing : Cursor.marksSince { s.cursor with pending := later } s.cursor s.graph = [] :=
      Cursor.marksSince_eq_nil s.graph fun _ => id
    rw [cursorAfter_of_not_enters entered, nothing, List.append_nil]
    exact searching.skip waits known
  · have within := searching.vertexAt_lt wf (waits ▸ List.mem_cons_self)
    have unmarked : s.cursor.isDiscovered (s.graph.vertexAt here) = false := by
      rw [← Bool.not_eq_true, searching.marks]
      exact known
    have marked : (s.cursorAfter here later).marksSince s.cursor s.graph
        = [s.graph.vertexAt here] :=
      Cursor.marksSince_eq_singleton wf within unmarked
        (isDiscovered_cursorAfter searching.fits within)
    rw [marked]
    exact searching.enter wf minimized waits known

end Searching

theorem searching_stepUpTo (wf : g.WellFormed) (minimized : g.mode ≠ .full) (n : Nat) :
    ((start g).stepUpTo n).Searching ((start g).marksIn n) := by
  induction n with
  | zero => exact searching_start g
  | succ n ih =>
    have graph : ((start g).stepUpTo n).graph = (start g).graph := stepUpTo_graph _ n
    rw [marksIn_succ]
    cases finished : ((start g).stepUpTo n).cursor.isFinished with
    | true =>
      rw [stepUpTo_add, stepUpTo_of_finished finished, Cursor.marksSince_eq_nil _ fun _ => id,
        List.append_nil]
      exact ih
    | false =>
      obtain ⟨next, taken⟩ := exists_step_of_not_finished (ne_true_of_eq_false finished)
      have after := ih.step (graph ▸ wf) (graph ▸ minimized) taken
      rw [graph] at after
      rwa [stepUpTo_succ_eq _ n taken]

namespace Searching

/-- The positions that were passed are the root and edges that leave vertices which can be
reached. -/
theorem passed_length_le (searching : s.Searching visited) :
    s.passed.length ≤ 1 + s.graph.liveEdges.ncard := by
  have finite : s.graph.liveEdges.Finite :=
    (List.finite_toSet s.graph.enabledEdges).subset fun e live => live.1
  have within : (s.passed.toFinset : Set Position)
      ⊆ insert .root (Position.edge '' s.graph.liveEdges) := by
    intro here mem
    cases here with
    | root => exact Set.mem_insert _ _
    | edge e =>
      obtain ⟨enabled, source⟩ :=
        searching.called e (List.mem_append_left _ (List.mem_toFinset.1 mem))
      exact .inr (Set.mem_image_of_mem _ ⟨enabled, searching.reached _ source⟩)
  have distinct := (List.nodup_append.1 searching.once).1
  calc s.passed.length = (s.passed.toFinset : Set Position).ncard := by
        rw [Set.ncard_coe_finset, List.toFinset_card_of_nodup distinct]
    _ ≤ (insert .root (Position.edge '' s.graph.liveEdges)).ncard :=
        Set.ncard_le_ncard within ((finite.image _).insert _)
    _ ≤ (Position.edge '' s.graph.liveEdges).ncard + 1 := Set.ncard_insert_le _ _
    _ ≤ s.graph.liveEdges.ncard + 1 := Nat.succ_le_succ (Set.ncard_image_le finite)
    _ = 1 + s.graph.liveEdges.ncard := Nat.add_comm ..

/-- When nothing waits, all vertices that can be reached were visited. -/
theorem mem_iff_of_finished (searching : s.Searching visited) (wf : s.graph.WellFormed)
    (nothing : s.cursor.pending = []) (v : VertexId) : v ∈ visited ↔ s.graph.Reachable v := by
  have visits : ∀ here, s.Settles visited here → s.graph.vertexAt here ∈ visited := by
    intro here settles
    apply settles.resolve_right
    rw [nothing]
    exact List.not_mem_nil
  constructor
  · exact searching.reached v
  · intro reachable
    apply reachable.induct (visits _ searching.root)
    intro e enabled known
    exact visits _ (searching.covers _ known e ((wf.mem_enabledOut _ e).2 ⟨enabled, rfl⟩))

end Searching

/-- Stepping in minimized mode that has finished after so many steps was depth-first search. -/
structure SearchesDepthFirst (g : CallGraph) (n : Nat) : Prop where
  stepsTaken : ((start g).stepUpTo n).stepsTaken = n
  finishes : ((start g).stepUpTo n).step = .error .finished
  short : n ≤ 1 + g.liveEdges.ncard
  marks : (start g).marksIn n = g.depthFirst
  once : ∀ i j e, ((start g).stepUpTo i).currentEdge = some e →
    ((start g).stepUpTo j).currentEdge = some e → i = j
  reaches : ∀ v, ((start g).stepUpTo n).cursor.isDiscovered v = true ↔ g.Reachable v

/-- No edge is the current one twice. -/
theorem eq_of_currentEdge_eq (wf : g.WellFormed) (minimized : g.mode ≠ .full) {i j : Nat}
    {e : EdgeId} (first : ((start g).stepUpTo i).currentEdge = some e)
    (second : ((start g).stepUpTo j).currentEdge = some e) : i = j := by
  have position : ∀ {s : Stepper}, s.currentEdge = some e → s.cursor.current = some (.edge e) := by
    intro s current
    obtain ⟨here, current, edge⟩ := Option.bind_eq_some_iff.1 current
    cases here with
    | root => cases edge
    | edge f => exact Option.some.inj edge ▸ current
  have differs : ∀ {i j}, i < j → ((start g).stepUpTo i).currentEdge = some e →
      ((start g).stepUpTo j).currentEdge ≠ some e := by
    intro i j less earlier later
    have passed := mem_passed_of_current less (position earlier)
    obtain ⟨rest, waits⟩ := Cursor.current_eq_some_iff.1 (position later)
    have once := (searching_stepUpTo wf minimized j).once
    rw [waits, List.nodup_append] at once
    exact once.2.2 _ passed _ List.mem_cons_self rfl
  rcases Nat.lt_trichotomy i j with less | same | less
  · exact absurd second (differs less first)
  · exact same
  · exact absurd first (differs less second)

/-- All steps but one take an edge that leaves a vertex that can be reached. -/
theorem stepsTaken_le (wf : g.WellFormed) (minimized : g.mode ≠ .full) (n : Nat) :
    ((start g).stepUpTo n).stepsTaken ≤ 1 + g.liveEdges.ncard := by
  have short := (searching_stepUpTo wf minimized n).passed_length_le
  have graph : ((start g).stepUpTo n).graph = g := stepUpTo_graph _ n
  rwa [passed_length_stepUpTo, graph] at short

/-- Stepping in minimized mode finishes. -/
theorem exists_finished (wf : g.WellFormed) (minimized : g.mode ≠ .full) :
    ∃ n, ((start g).stepUpTo n).cursor.isFinished = true
      ∧ ∀ m < n, ((start g).stepUpTo m).cursor.isFinished ≠ true := by
  have finishes : ∃ n, ((start g).stepUpTo n).cursor.isFinished = true := by
    by_contra never
    have goes : ∀ m, ((start g).stepUpTo m).cursor.isFinished ≠ true :=
      fun m finished => never ⟨m, finished⟩
    have short := stepsTaken_le wf minimized (2 + g.liveEdges.ncard)
    rw [stepsTaken_stepUpTo_start fun m _ => goes m] at short
    omega
  exact ⟨Nat.find finishes, Nat.find_spec finishes, fun m less => Nat.find_min finishes less⟩

/-- Stepping in minimized mode is depth-first search. -/
theorem minimized_stepping_searches {g : CallGraph} (recorded : g.Recorded)
    (minimized : g.mode = .minimized) : ∃ n, SearchesDepthFirst g n := by
  have wf := recorded.wellFormed
  have notFull : g.mode ≠ .full := by
    rw [minimized]
    exact Mode.noConfusion
  obtain ⟨n, finished, goes⟩ := exists_finished wf notFull
  have graph : ((start g).stepUpTo n).graph = g := stepUpTo_graph _ n
  have searching := searching_stepUpTo wf notFull n
  have nothing := Cursor.isFinished_iff.1 finished
  have stepsTaken := stepsTaken_stepUpTo_start goes
  refine ⟨n, stepsTaken, step_eq_error_iff.2 finished, ?_, ?_, ?_, ?_⟩
  · have short := stepsTaken_le wf notFull n
    rwa [stepsTaken] at short
  · have all := searching.goesOn
    rwa [nothing, List.map_nil, CallGraph.search_nil, List.append_nil, graph] at all
  · intro i j e first second
    exact eq_of_currentEdge_eq wf notFull first second
  · intro v
    rw [searching.marks, searching.mem_iff_of_finished (graph.symm ▸ wf) nothing, graph]

/-- A step that reaches itself is visited. -/
theorem minimized_stepping_searches_recursion :
    (Recorder.recursionGraph .minimized).Recorded
      ∧ (Recorder.recursionGraph .minimized).mode = .minimized
      ∧ ∃ n, SearchesDepthFirst (Recorder.recursionGraph .minimized) n
        ∧ ((start (Recorder.recursionGraph .minimized)).stepUpTo n).cursor.isDiscovered ⟨1⟩
          = true := by
  have recorded := Recorder.recursionGraph_recorded .minimized
  obtain ⟨n, searches⟩ := minimized_stepping_searches recorded rfl
  refine ⟨recorded, rfl, n, searches, (searches.reaches _).2 ⟨[⟨0⟩], ?_, rfl⟩⟩
  exact ⟨List.mem_cons_self, rfl, trivial⟩

/-- What is reached by one way only is not visited when that way is disabled. -/
example : ((Recorder.sharingGraph .minimized).setEdgeEnabled ⟨1⟩ false).depthFirst
    = [⟨0⟩, ⟨1⟩, ⟨3⟩, ⟨4⟩] := by cbv

end Stepper

end TemplateTrace
