import TemplateTrace.Proofs.Graph.Backtracing
import TemplateTrace.Proofs.Graph.RootPaths
set_option autoImplicit false

/-!
# Stepping in full mode

Where no cycle can be reached, stepping in full mode goes over the same tree of root paths as the
call tree does, earlier calls first (`exists_tours`).  The parents of the vertices on the path that
the cursor stands at spell this path (`Cursor.Spells`): what was entered since lies below that path
or beside it, and entering it changes none of these parents.  So the backtrace is the path.

Where a cycle can be reached there are paths of any length, and a stepper that finished would have
taken more steps than any path has edges (`length_lt_of_finished`).
-/

namespace TemplateTrace

/-! ## Mirrored forests -/

namespace Forest

/-- The trees of one forest and then those of another. -/
def append : Forest → Forest → Forest
  | nil, other => other
  | node here below beside, other => node here below (beside.append other)

/-- A forest with the nodes below the same node in reverse order, at all depths. -/
def mirror : Forest → Forest
  | nil => nil
  | node here below beside => beside.mirror.append (node here below.mirror nil)

theorem paths_append (a b : Forest) (p : List EdgeId) :
    (a.append b).paths p = a.paths p ++ b.paths p := by
  induction a with
  | nil => rfl
  | node here below beside _ ih =>
    rw [append, paths, paths, ih, List.cons_append, List.append_assoc]

theorem paths_mirror_node (here : Position) (below beside : Forest) (p : List EdgeId) :
    (node here below beside).mirror.paths p
      = beside.mirror.paths p
        ++ (p ++ here.edge?.toList) :: below.mirror.paths (p ++ here.edge?.toList) := by
  rw [mirror, paths_append, paths, paths, List.append_nil]

@[simp] theorem mirror_root (below : Forest) :
    (node .root below nil).mirror = node .root below.mirror nil := rfl

@[simp] theorem paths_root (below : Forest) :
    (node .root below nil).paths [] = [] :: below.paths [] := by
  rw [paths, paths, List.append_nil]
  rfl

@[simp] theorem positions_root (below : Forest) :
    (node .root below nil).positions = .root :: below.positions := by
  rw [positions, positions, List.append_nil]

/-- The paths to the nodes are the same in another order. -/
theorem mirror_paths_perm (forest : Forest) (p : List EdgeId) :
    (forest.mirror.paths p).Perm (forest.paths p) := by
  induction forest generalizing p with
  | nil => exact .refl []
  | node here below beside ihBelow ihBeside =>
    rw [paths_mirror_node, paths]
    exact List.perm_append_comm.trans (((ihBelow _).append (ihBeside p)).cons _)

theorem heads_append (a b : Forest) : (a.append b).heads = a.heads ++ b.heads := by
  induction a with
  | nil => rfl
  | node here below beside _ ih => rw [append, heads, heads, ih, List.append_assoc]

theorem mem_heads_mirror (forest : Forest) (e : EdgeId) :
    e ∈ forest.mirror.heads ↔ e ∈ forest.heads := by
  induction forest with
  | nil => exact Iff.rfl
  | node here below beside _ ih =>
    rw [mirror, heads_append, heads, heads, heads, List.append_nil, List.mem_append,
      List.mem_append, ih, or_comm]

variable {r : EdgeId → EdgeId → Prop} {forest : Forest}

theorem Sorted.append {a b : Forest} (first : a.Sorted r) (second : b.Sorted r)
    (between : ∀ e ∈ a.heads, ∀ f ∈ b.heads, r e f) : (a.append b).Sorted r := by
  induction a with
  | nil => exact second
  | node here below beside _ ih =>
    cases here with
    | root => exact first.elim
    | edge e =>
      obtain ⟨head, sortedBelow, sortedBeside⟩ := first
      refine ⟨?_, sortedBelow, ih sortedBeside ?_⟩
      · intro f mem
        rw [heads_append] at mem
        rcases List.mem_append.1 mem with mem | mem
        · exact head f mem
        · exact between e List.mem_cons_self f mem
      · intro f mem
        exact between f (List.mem_cons_of_mem _ mem)

theorem Sorted.mirror (sorted : forest.Sorted r) :
    forest.mirror.Sorted fun a b => r b a := by
  induction forest with
  | nil => trivial
  | node here below beside ihBelow ihBeside =>
    cases here with
    | root => exact sorted.elim
    | edge e =>
      obtain ⟨head, sortedBelow, sortedBeside⟩ := sorted
      refine (ihBeside sortedBeside).append ⟨by simp [heads], ihBelow sortedBelow, trivial⟩ ?_
      intro f memBeside e' mem
      obtain rfl : e' = e := by simpa [heads, Position.edge?] using mem
      exact head f ((beside.mem_heads_mirror f).1 memBeside)

/-- A node is at the end of the path to it. -/
theorem Sorted.positions_eq (sorted : forest.Sorted r) (p : List EdgeId) :
    forest.positions = (forest.paths p).map (CallGraph.endOf .root) := by
  induction forest generalizing p with
  | nil => rfl
  | node here below beside ihBelow ihBeside =>
    cases here with
    | root => exact sorted.elim
    | edge e =>
      obtain ⟨-, sortedBelow, sortedBeside⟩ := sorted
      rw [positions, paths_edge, List.map_cons, List.map_append, CallGraph.endOf_snoc,
        ← ihBelow sortedBelow, ← ihBeside sortedBeside]

end Forest

/-! ## Parents that spell a path -/

namespace CallGraph

/-- A prefix of a path ends at one of its vertices. -/
theorem vertexAt_endOf_mem_stops (g : CallGraph) {p q : List EdgeId} (first : q <+: p) :
    g.vertexAt (endOf .root q) ∈ g.stops .root p := by
  obtain ⟨rest, rfl⟩ := first
  rw [stops_append, stops_eq_dropLast_append g .root q]
  simp

/-- Preorder with earlier edges first: a path comes before what goes on from it and, where two paths
part, the one that takes the earlier edge comes first. -/
def Before : List EdgeId → List EdgeId → Prop := List.Lex fun a b => a.index < b.index

theorem isPath_subset_edgeIds {g : CallGraph} {v : VertexId} {p : List EdgeId}
    (path : g.IsPath v p) : p ⊆ g.edgeIds := by
  induction p generalizing v with
  | nil => exact List.nil_subset _
  | cons e rest ih =>
    obtain ⟨enabled, -, more⟩ := path
    exact List.cons_subset.2 ⟨(List.mem_filter.1 enabled).1, ih more⟩

/-- A path that repeats no vertex is not longer than there are edges. -/
theorem isPath_length_le {g : CallGraph} {v : VertexId} {p : List EdgeId} (path : g.IsPath v p)
    (distinct : (p.map fun e => (g.edge e).target).Nodup) : p.length ≤ g.edges.size :=
  length_le_of_nodup_of_subset (List.Nodup.of_map _ distinct) (isPath_subset_edgeIds path)

end CallGraph

namespace Cursor

/-- The parent of every vertex on a path from the root is the edge of the path that leads to it. -/
def Spells (c : Cursor) (g : CallGraph) (p : List EdgeId) : Prop :=
  ∀ q, q <+: p → c.parent (g.vertexAt (CallGraph.endOf .root q)) = CallGraph.endOf .root q

variable {c : Cursor} {g : CallGraph}

theorem Spells.mono {p q : List EdgeId} (spells : c.Spells g p) (start : q <+: p) :
    c.Spells g q :=
  fun r first => spells r (first.trans start)

/-- The parents lead from the end of a path back along it. -/
theorem Spells.leadsBack {p : List EdgeId} (path : g.IsPath CallGraph.root p)
    (spells : c.Spells g p.dropLast) : c.LeadsBack g (CallGraph.endOf .root p) p.reverse := by
  induction p using List.reverseRecOn with
  | nil => exact .root
  | append_singleton p e ih =>
    rw [List.dropLast_concat] at spells
    obtain ⟨before, -, source⟩ := (CallGraph.isPath_snoc_iff .root).1 path
    rw [CallGraph.endOf_snoc, List.reverse_append]
    apply Cursor.LeadsBack.edge
    rw [source, spells p (List.prefix_refl p)]
    have shorter := List.dropLast_prefix p
    exact ih before (spells.mono shorter)

end Cursor

namespace Stepper

variable {g : CallGraph} {s next : Stepper} {p : List EdgeId}

/-- A stepper over a graph is below a path: its parents spell the path. -/
structure IsBelow (s : Stepper) (g : CallGraph) (p : List EdgeId) : Prop where
  graph : s.graph = g
  fits : s.cursor.Fits g
  path : g.IsPath CallGraph.root p
  spells : s.cursor.Spells g p

/-- A stepper over a graph stands at the end of a path. -/
structure IsAt (s : Stepper) (g : CallGraph) (p : List EdgeId) : Prop where
  graph : s.graph = g
  current : s.cursor.current = some (CallGraph.endOf .root p)
  path : g.IsPath CallGraph.root p
  spells : s.cursor.Spells g p.dropLast

/-- Steps one after the other, and the paths at which the stepper stands before each of them. -/
inductive Tours (g : CallGraph) : Stepper → List (List EdgeId) → Stepper → Prop
  | stop (s : Stepper) : Tours g s [] s
  | step {s next final : Stepper} {p : List EdgeId} {paths : List (List EdgeId)}
      (stands : s.IsAt g p) (taken : s.step = .ok next) (more : Tours g next paths final) :
      Tours g s (p :: paths) final

namespace Tours

variable {between final : Stepper} {paths later : List (List EdgeId)}

theorem append (tours : Tours g s paths between) (more : Tours g between later final) :
    Tours g s (paths ++ later) final := by
  induction tours with
  | stop s => exact more
  | step stands taken _ ih => exact .step stands taken (ih more)

theorem isAt (tours : Tours g s paths final) {k : Nat} (found : paths[k]? = some p) :
    (s.stepUpTo k).IsAt g p := by
  induction tours generalizing k with
  | stop s => cases found
  | step stands taken _ ih =>
    cases k with
    | zero => exact Option.some.inj found ▸ stands
    | succ k =>
      rw [stepUpTo_succ_of_step taken]
      exact ih found

theorem stepUpTo_eq (tours : Tours g s paths final) : s.stepUpTo paths.length = final := by
  induction tours with
  | stop s => rfl
  | step _ taken _ ih => rw [List.length_cons, stepUpTo_succ_of_step taken, ih]

/-- As long as there are paths left the stepper goes on. -/
theorem not_finished (tours : Tours g s paths final) {k : Nat} (within : k < paths.length) :
    (s.stepUpTo k).cursor.isFinished ≠ true := by
  obtain ⟨later, waits⟩ :=
    Cursor.current_eq_some_iff.1 (tours.isAt (List.getElem?_eq_getElem within)).current
  rw [ne_eq, Cursor.isFinished_iff, waits]
  exact List.cons_ne_nil _ later

theorem stepsTaken_eq (tours : Tours g (start g) paths final) {k : Nat}
    (within : k ≤ paths.length) : ((start g).stepUpTo k).stepsTaken = k :=
  stepsTaken_stepUpTo_start fun _ less => tours.not_finished (Nat.lt_of_lt_of_le less within)

/-- A tour after which nothing waits has finished with its last path. -/
theorem isFinished_iff (tours : Tours g s paths final) (nothing : final.cursor.pending = [])
    (k : Nat) : (s.stepUpTo k).cursor.isFinished = true ↔ paths.length ≤ k := by
  constructor
  · intro finished
    exact Nat.le_of_not_lt fun within => tours.not_finished within finished
  · intro beyond
    have finished : (s.stepUpTo paths.length).cursor.isFinished = true := by
      rw [tours.stepUpTo_eq]
      exact Cursor.isFinished_iff.2 nothing
    rwa [stepUpTo_eq_of_finished finished beyond]

/-- It tells the position after any number of steps. -/
theorem current_eq (tours : Tours g s paths final) (nothing : final.cursor.pending = [])
    (k : Nat) : (s.stepUpTo k).cursor.current = (paths.map (CallGraph.endOf .root))[k]? := by
  rw [List.getElem?_map]
  cases found : paths[k]? with
  | some p => exact (tours.isAt found).current
  | none =>
    have finished := (tours.isFinished_iff nothing k).2 (List.getElem?_eq_none_iff.1 found)
    rw [Cursor.current, Cursor.isFinished_iff.1 finished]
    rfl

end Tours

/-! ## Below an edge -/

/-- Entering the vertex at the end of a path in full mode makes its calls wait, and the parents then
spell the path, provided that the vertex is none of those before it. -/
theorem IsBelow.enter (below : s.IsBelow g p) (full : g.mode = .full) {e : EdgeId}
    {later : List Position} (path : g.IsPath CallGraph.root (p ++ [e]))
    (within : (g.edge e).target.index < g.vertices.size)
    (fresh : (g.edge e).target ∉ g.stops .root p) (waits : s.cursor.pending = .edge e :: later) :
    ∃ next, s.step = .ok next ∧ next.IsBelow g (p ++ [e])
      ∧ next.cursor.pending = (g.enabledOut (g.edge e).target).map .edge ++ later := by
  obtain ⟨rfl, fits, -, spells⟩ := below
  have entered : s.enters (s.graph.vertexAt (.edge e)) = true := enters_of_full full _
  have parent : ∀ v, (s.cursorAfter (.edge e) later).parent v
      = if v = (s.graph.edge e).target then .edge e else s.cursor.parent v :=
    parent_cursorAfter fits within entered
  refine ⟨_, step_of_pending waits, ⟨rfl, fits_cursorAfter fits _ _, path, ?_⟩, ?_⟩
  · intro q first
    rw [parent]
    rcases List.prefix_concat_iff.1 first with rfl | first
    · rw [CallGraph.endOf_snoc]
      exact if_pos rfl
    · have differs : s.graph.vertexAt (CallGraph.endOf .root q) ≠ (s.graph.edge e).target := by
        intro same
        exact fresh (same ▸ s.graph.vertexAt_endOf_mem_stops first)
      rw [if_neg differs]
      exact spells q first
  · rw [pending_of_enters entered, children_of_full full]
    rfl

/-- A stepper below a path at which some calls wait, the first call first, goes over the mirrored
unfolding of these calls if none of it closes a cycle. -/
theorem exists_tours_of_unfolds (wf : g.WellFormed) (full : g.mode = .full)
    {above : List VertexId} {es : List EdgeId} {forest : Forest}
    (unfolds : g.Unfolds above es forest) (acyclic : ¬forest.Closes g above)
    (reached : above.reverse = g.stops .root p)
    (called : ∀ e ∈ es, e ∈ g.enabledOut (g.vertexAt (CallGraph.endOf .root p)))
    (below : s.IsBelow g p) {later : List Position}
    (waits : s.cursor.pending = es.reverse.map .edge ++ later) :
    ∃ final, Tours g s (forest.mirror.paths p) final ∧ final.IsBelow g p
      ∧ final.cursor.pending = later := by
  induction unfolds generalizing s p later with
  | done above => exact ⟨s, .stop s, below, waits⟩
  | closed repeats _ _ => exact absurd (.inl repeats) acyclic
  | @expanded above e rest inside beside fresh _ _ ihBelow ihBeside =>
    obtain ⟨calledHere, calledRest⟩ := List.forall_mem_cons.1 called
    rw [Forest.Closes, not_or, not_or] at acyclic
    -- the last call waits behind the others
    rw [List.reverse_cons, List.map_append, List.append_assoc] at waits
    obtain ⟨s₁, toursBeside, below₁, waits₁⟩ :=
      ihBeside acyclic.2.2 reached calledRest below waits
    obtain ⟨enabled, source⟩ := (wf.mem_enabledOut _ e).1 calledHere
    have path : g.IsPath CallGraph.root (p ++ [e]) :=
      (CallGraph.isPath_snoc_iff .root).2 ⟨below.path, enabled, source⟩
    have within : (g.edge e).target.index < g.vertices.size :=
      wf.callee_lt (List.mem_map_of_mem (List.mem_reverse.2 calledHere))
    have new : (g.edge e).target ∉ g.stops .root p := by
      rwa [← reached, List.mem_reverse]
    obtain ⟨s₂, taken, below₂, waits₂⟩ := below₁.enter full path within new waits₁
    obtain ⟨final, toursBelow, belowFinal, waitsFinal⟩ :=
      ihBelow acyclic.2.1 (CallGraph.Unfolds.reached_snoc e reached)
        (fun f mem => by rwa [CallGraph.endOf_snoc, CallGraph.vertexAt_edge, ← List.mem_reverse])
        below₂ (by rw [waits₂, List.reverse_reverse])
    have stands : s₁.IsAt g (p ++ [e]) := by
      refine ⟨below₁.graph, ?_, path, ?_⟩
      · rw [Cursor.current, waits₁, CallGraph.endOf_snoc]
        rfl
      · rw [List.dropLast_concat]
        exact below₁.spells
    refine ⟨final, ?_, ?_, waitsFinal⟩
    · rw [Forest.paths_mirror_node]
      exact toursBeside.append (.step stands taken toursBelow)
    · exact ⟨belowFinal.graph, belowFinal.fits, below.path,
        belowFinal.spells.mono (List.prefix_append p [e])⟩

/-! ## From the root -/

/-- The step that enters the root makes its calls wait. -/
theorem exists_step_root (wf : g.WellFormed) (full : g.mode = .full) :
    (start g).IsAt g [] ∧ ∃ next, (start g).step = .ok next ∧ next.IsBelow g []
      ∧ next.cursor.pending = (g.enabledOut CallGraph.root).map .edge ++ [] := by
  have fits : (start g).cursor.Fits (start g).graph := Cursor.fits_start g
  have waits : (start g).cursor.pending = .root :: [] := rfl
  have entered : (start g).enters ((start g).graph.vertexAt .root) = true :=
    enters_of_full full _
  have parent : ∀ v, ((start g).cursorAfter .root []).parent v
      = if v = CallGraph.root then .root else (start g).cursor.parent v :=
    parent_cursorAfter fits wf.root_lt entered
  refine ⟨⟨rfl, rfl, trivial, ?_⟩, _, step_of_pending waits,
    ⟨rfl, fits_cursorAfter fits .root [], trivial, ?_⟩, ?_⟩
  · intro q first
    obtain rfl := List.prefix_nil.1 first
    exact Cursor.parent_start _ _
  · intro q first
    obtain rfl := List.prefix_nil.1 first
    exact (parent _).trans (if_pos rfl)
  · rw [pending_of_enters entered, children_of_full full]
    rfl

/-- Stepping in full mode over a graph in which no cycle can be reached goes over the mirrored tree
of the call tree, and then nothing waits. -/
theorem exists_tours (wf : g.WellFormed) (full : g.mode = .full) (acyclic : ¬g.HasCycle .root) :
    ∃ (below : Forest) (final : Stepper),
      g.Unfolds [CallGraph.root] (g.enabledOut CallGraph.root).reverse below
        ∧ (start g).stations none = (Forest.node .root below .nil).stations g 0
        ∧ ((start g).callTree none).1 = ((Forest.node .root below .nil).stations g 0).map Prod.snd
        ∧ Tours g (start g) ([] :: below.mirror.paths []) final ∧ final.cursor.pending = [] := by
  obtain ⟨below, walk, unfolds, stations, ends, -⟩ := exists_unfolds wf full
  have closes := CallGraph.Unfolds.closes_iff_hasCycle .root wf unfolds
  obtain ⟨stands, next, taken, isBelow, waits⟩ := exists_step_root wf full
  have notClosed : ¬below.Closes g [CallGraph.root] := fun closed => acyclic (closes.1 closed)
  have reached : [CallGraph.root].reverse = g.stops .root [] := rfl
  have called : ∀ e ∈ (g.enabledOut CallGraph.root).reverse,
      e ∈ g.enabledOut (g.vertexAt (CallGraph.endOf .root [])) :=
    fun e mem => List.mem_reverse.1 mem
  obtain ⟨final, tours, -, nothing⟩ :=
    exists_tours_of_unfolds wf full unfolds notClosed reached called isBelow
      (by rw [waits, List.reverse_reverse])
  exact ⟨below, final, unfolds, stations, congrArg Prod.fst ends.drain_eq,
    .step stands taken tours, nothing⟩

/-- The root paths with earlier edges first, where no cycle can be reached. -/
theorem mem_mirrored_iff (wf : g.WellFormed) (acyclic : ¬g.HasCycle .root) {below : Forest}
    (unfolds : g.Unfolds [CallGraph.root] (g.enabledOut CallGraph.root).reverse below)
    (p : List EdgeId) :
    p ∈ [] :: below.mirror.paths [] ↔ g.IsPath CallGraph.root p := by
  have same : p ∈ [] :: below.mirror.paths [] ↔ p ∈ [] :: below.paths [] :=
    ((below.mirror_paths_perm []).cons []).mem_iff
  rw [same]
  refine (CallGraph.Unfolds.mem_pathsFrom_iff .root wf unfolds p).trans (and_iff_left_of_imp ?_)
  intro path
  exact (CallGraph.nodup_stops_of_acyclic acyclic path).sublist (List.dropLast_sublist _)

theorem mirrored_pairwise (wf : g.WellFormed) {below : Forest}
    (unfolds : g.Unfolds [CallGraph.root] (g.enabledOut CallGraph.root).reverse below) :
    ([] :: below.mirror.paths []).Pairwise CallGraph.Before :=
  (unfolds.sorted wf (wf.callees_sorted _)).mirror.pathsFrom_pairwise

/-! ## Backtraces -/

/-- After so many steps over a graph the stepper stands at the end of a path, and the backtrace is
the path: the parents lead back along it and nothing is cut off. -/
structure ShowsPath (s : Stepper) (g : CallGraph) (k : Nat) (p : List EdgeId) : Prop where
  stepsTaken : s.stepsTaken = k
  current : s.cursor.current = some (CallGraph.endOf .root p)
  frames : s.backtrace = (p.reverse.map fun e => g.frameAt (.edge e)) ++ [g.rootFrame]
  back : s.cursor.LeadsBack g (CallGraph.endOf .root p) p.reverse
  whole : ¬s.cursor.CutsOff g (g.edges.size + 1) (CallGraph.endOf .root p)

theorem IsAt.showsPath (stands : s.IsAt g p) (acyclic : ¬g.HasCycle .root) :
    s.ShowsPath g s.stepsTaken p := by
  obtain ⟨rfl, current, path, spells⟩ := stands
  have distinct := (CallGraph.nodup_stops_of_acyclic acyclic path).of_cons
  have short : p.reverse.length ≤ s.graph.edges.size + 1 := by
    rw [List.length_reverse]
    exact Nat.le_succ_of_le (CallGraph.isPath_length_le path distinct)
  have back := Cursor.Spells.leadsBack path spells
  obtain ⟨frames, whole⟩ := back.framesFrom_eq short
  exact ⟨rfl, current, (backtrace_of_current current).trans frames, back, whole⟩

/-- In full mode, where no cycle can be reached, the backtrace after some steps is the root path of
that number, the root paths being counted in preorder, earlier calls first. -/
theorem backtrace_spells_path {g : CallGraph} (recorded : g.Recorded) (full : g.mode = .full)
    (acyclic : ¬g.HasCycle .root) :
    ∃ paths : List (List EdgeId),
      (∀ p, p ∈ paths ↔ g.IsPath CallGraph.root p)
        ∧ paths.Nodup ∧ paths.Pairwise CallGraph.Before
        ∧ ∀ k (within : k < paths.length), ((start g).stepUpTo k).ShowsPath g k paths[k] := by
  have wf := recorded.wellFormed
  obtain ⟨below, final, unfolds, -, -, tours, -⟩ := exists_tours wf full acyclic
  have ordered := mirrored_pairwise wf unfolds
  refine ⟨_, mem_mirrored_iff wf acyclic unfolds,
    CallGraph.nodup_of_pairwise_lex (fun e => Nat.lt_irrefl e.index) ordered, ordered, ?_⟩
  intro k within
  have shows := (tours.isAt (List.getElem?_eq_getElem within)).showsPath acyclic
  rwa [tours.stepsTaken_eq (Nat.le_of_lt within)] at shows

theorem not_hasCycle_sharing : ¬(Recorder.sharingGraph .full).HasCycle .root := by
  apply CallGraph.not_hasCycle_of_lt
  decide +kernel

/-- The path by which the step that is reached twice is reached again, and on from there. -/
theorem isPath_sharing :
    (Recorder.sharingGraph .full).IsPath CallGraph.root [⟨0⟩, ⟨4⟩, ⟨3⟩] := by
  have enabled : ∀ e ∈ [⟨0⟩, ⟨4⟩, ⟨3⟩], e ∈ (Recorder.sharingGraph .full).enabledEdges := by
    decide +kernel
  exact ⟨enabled ⟨0⟩ (by decide), rfl, enabled ⟨4⟩ (by decide), rfl, enabled ⟨3⟩ (by decide), rfl,
    trivial⟩

/-- Below a step that is entered again the backtrace shows the way by which it was entered last. -/
theorem backtrace_spells_path_sharing :
    (Recorder.sharingGraph .full).Recorded ∧ (Recorder.sharingGraph .full).mode = .full
      ∧ ¬(Recorder.sharingGraph .full).HasCycle .root
      ∧ ∃ k, ((start (Recorder.sharingGraph .full)).stepUpTo k).ShowsPath
          (Recorder.sharingGraph .full) k [⟨0⟩, ⟨4⟩, ⟨3⟩] := by
  have recorded := Recorder.sharingGraph_recorded .full
  obtain ⟨paths, mem_iff, -, -, shows⟩ :=
    backtrace_spells_path recorded rfl not_hasCycle_sharing
  obtain ⟨k, within, same⟩ := List.mem_iff_getElem.1 ((mem_iff _).2 isPath_sharing)
  exact ⟨recorded, rfl, not_hasCycle_sharing, k, same ▸ shows k within⟩

/-! ## Cycles -/

/-- A stepper that finishes in full mode takes more steps than there are edges on any path that goes
on from a position that waits. -/
theorem length_lt_of_finished (wf : s.graph.WellFormed) (full : s.graph.mode = .full) {n : Nat}
    (finished : (s.stepUpTo n).cursor.isFinished = true) {here : Position}
    (waits : here ∈ s.cursor.pending) (path : s.graph.IsPath (s.graph.vertexAt here) p) :
    p.length < n := by
  induction n generalizing s here p with
  | zero =>
    rw [stepUpTo, Cursor.isFinished_iff] at finished
    rw [finished] at waits
    exact absurd waits List.not_mem_nil
  | succ n ih =>
    cases pending : s.cursor.pending with
    | nil =>
      rw [pending] at waits
      exact absurd waits List.not_mem_nil
    | cons first later =>
      rw [stepUpTo_succ_of_step (step_of_pending pending)] at finished
      have pendingNext : (s.cursorAfter first later).pending
          = (s.graph.enabledOut (s.graph.vertexAt first)).map .edge ++ later := by
        rw [pending_of_enters (enters_of_full full _), children_of_full full]
      have next : ∀ {p : List EdgeId} {other : Position},
          other ∈ (s.cursorAfter first later).pending →
          s.graph.IsPath (s.graph.vertexAt other) p → p.length < n := by
        intro p other mem path
        exact ih (s := ⟨s.graph, s.cursorAfter first later, s.cursor :: s.history⟩) wf full
          finished mem path
      rw [pending] at waits
      rw [pendingNext] at next
      rcases List.mem_cons.1 waits with rfl | behind
      · cases p with
        | nil => exact Nat.succ_pos n
        | cons e rest =>
          obtain ⟨enabled, source, more⟩ := path
          have called := (wf.mem_enabledOut _ e).2 ⟨enabled, source⟩
          have less := next (List.mem_append_left _ (List.mem_map_of_mem called)) more
          exact Nat.succ_lt_succ less
      · exact Nat.lt_succ_of_lt (next (List.mem_append_right _ behind) path)

/-- Where a cycle can be reached, stepping in full mode never finishes. -/
theorem not_finished_of_hasCycle (wf : g.WellFormed) (full : g.mode = .full)
    (cyclic : g.HasCycle .root) (k : Nat) :
    ((start g).stepUpTo k).cursor.isFinished ≠ true := by
  intro finished
  obtain ⟨p, path, long⟩ := CallGraph.exists_isPath_of_hasCycle cyclic k
  have less := length_lt_of_finished (s := start g) wf full finished List.mem_cons_self path
  omega

/-! ## Stepping and the call tree -/

/-- The call tree is a tree of root paths, later calls first; stepping goes over the mirrored tree,
one position with each step, and finishes when it has taken as many steps as the tree has nodes. -/
structure SteppingMirrors (g : CallGraph) (tree : Forest) : Prop where
  stations : (start g).stations none = tree.stations g 0
  nodes : ((start g).callTree none).1 = (tree.stations g 0).map Prod.snd
  paths : ∀ p, p ∈ tree.paths [] ↔ g.IsPath CallGraph.root p
  laterFirst : (tree.paths []).Pairwise CallGraph.Precedes
  earlierFirst : (tree.mirror.paths []).Pairwise CallGraph.Before
  positions : ∀ k, ((start g).stepUpTo k).cursor.current = tree.mirror.positions[k]?
  stepsTaken : ∀ k ≤ ((start g).callTree none).1.length, ((start g).stepUpTo k).stepsTaken = k
  finishes : ∀ k, ((start g).stepUpTo k).step = .error .finished
    ↔ ((start g).callTree none).1.length ≤ k

theorem exists_steppingMirrors (wf : g.WellFormed) (full : g.mode = .full)
    (acyclic : ¬g.HasCycle .root) : ∃ tree, SteppingMirrors g tree := by
  obtain ⟨below, final, unfolds, stations, nodes, tours, nothing⟩ := exists_tours wf full acyclic
  have sorted := unfolds.sorted wf (wf.callees_sorted _)
  have positions : (Forest.node .root below .nil).mirror.positions
      = ([] :: below.mirror.paths []).map (CallGraph.endOf .root) := by
    rw [Forest.mirror_root, Forest.positions_root, sorted.mirror.positions_eq [], List.map_cons,
      CallGraph.endOf_nil]
  have size : ([] :: below.mirror.paths []).length = ((start g).callTree none).1.length := by
    rw [nodes, List.length_map, ← List.length_map Prod.fst, Forest.stations_map_fst,
      Forest.positions_root, sorted.positions_eq [], List.length_cons, List.length_cons,
      List.length_map, (below.mirror_paths_perm []).length_eq]
  refine ⟨.node .root below .nil, stations, nodes, ?_, ?_, ?_, ?_, ?_, ?_⟩
  · intro p
    rw [Forest.paths_root, ← mem_mirrored_iff wf acyclic unfolds p]
    exact ((below.mirror_paths_perm []).cons []).mem_iff.symm
  · rw [Forest.paths_root]
    exact unfolds.pathsFrom_pairwise .root wf
  · rw [Forest.mirror_root, Forest.paths_root]
    exact mirrored_pairwise wf unfolds
  · intro k
    rw [positions]
    exact tours.current_eq nothing k
  · intro k within
    exact tours.stepsTaken_eq (size ▸ within)
  · intro k
    rw [step_eq_error_iff, ← size]
    exact tours.isFinished_iff nothing k

/-- Where no cycle can be reached, stepping in full mode goes over the call tree with earlier calls
first and finishes with it; where a cycle can be reached, it never finishes. -/
theorem stepping_mirrors_callTree {g : CallGraph} (recorded : g.Recorded) (full : g.mode = .full) :
    (¬g.HasCycle .root → ∃ tree, SteppingMirrors g tree)
      ∧ (g.HasCycle .root → ∀ k, ((start g).stepUpTo k).stepsTaken = k
        ∧ ∃ next, ((start g).stepUpTo k).step = .ok next) := by
  have wf := recorded.wellFormed
  refine ⟨exists_steppingMirrors wf full, ?_⟩
  intro cyclic k
  have goes := not_finished_of_hasCycle wf full cyclic
  exact ⟨stepsTaken_stepUpTo_start fun m _ => goes m, exists_step_of_not_finished (goes k)⟩

/-- A step that is reached twice is stepped through twice; a step that reaches itself is stepped
through for ever. -/
theorem stepping_mirrors_callTree_sharing :
    (Recorder.sharingGraph .full).Recorded ∧ (Recorder.recursionGraph .full).Recorded
      ∧ (∃ tree, SteppingMirrors (Recorder.sharingGraph .full) tree
        ∧ [⟨0⟩, ⟨4⟩, ⟨3⟩] ∈ tree.paths [])
      ∧ ∃ next, ((start (Recorder.recursionGraph .full)).stepUpTo 100).step = .ok next := by
  have shared := Recorder.sharingGraph_recorded .full
  have recursive := Recorder.recursionGraph_recorded .full
  obtain ⟨tree, mirrors⟩ := (stepping_mirrors_callTree shared rfl).1 not_hasCycle_sharing
  have goes := ((stepping_mirrors_callTree recursive rfl).2 hasCycle_recursion 100).2
  exact ⟨shared, recursive, ⟨tree, mirrors, (mirrors.paths _).2 isPath_sharing⟩, goes⟩

end Stepper

end TemplateTrace
