import TemplateTrace.Proofs.Graph.Coverage
import TemplateTrace.Proofs.Graph.Recorded
import TemplateTrace.Proofs.Graph.Unfolding
set_option autoImplicit false

/-!
# The call tree in minimized mode

The call tree of a graph in minimized mode is that in full mode with the second and later
occurrences of each vertex cut down to leaves (`collapses_inMode`).  What the cycle guard of full
mode leaves out is below an ancestor that is marked, so that minimized mode leaves it out as well;
and what minimized mode leaves out has been listed before, since it covers what it marks.
-/

namespace TemplateTrace

namespace CallGraph

/-- A call tree in preorder with only the first occurrence of each vertex left as it is.  Of the
others, and of those of the vertices in `seen`, the node stays without what lies below it. -/
def collapse (g : CallGraph) (seen : List VertexId) :
    List (Position × CallNode) → List (Position × CallNode)
  | [] => []
  | (here, node) :: rest =>
      if g.vertexAt here ∈ seen then
        (here, { node with children := 0 })
          :: g.collapse seen (rest.dropWhile fun other => node.depth < other.2.depth)
      else (here, node) :: g.collapse (g.vertexAt here :: seen) rest
termination_by stations => stations.length
decreasing_by
  · exact Nat.lt_succ_of_le (List.dropWhile_sublist _).length_le
  · exact Nat.lt_succ_self _

variable {g : CallGraph}

theorem collapse_of_mem {seen : List VertexId} {here : Position} {node : CallNode}
    (known : g.vertexAt here ∈ seen) (rest : List (Position × CallNode)) :
    g.collapse seen ((here, node) :: rest)
      = (here, { node with children := 0 })
        :: g.collapse seen (rest.dropWhile fun other => node.depth < other.2.depth) := by
  rw [collapse, if_pos known]

theorem collapse_of_notMem {seen : List VertexId} {here : Position} {node : CallNode}
    (new : g.vertexAt here ∉ seen) (rest : List (Position × CallNode)) :
    g.collapse seen ((here, node) :: rest)
      = (here, node) :: g.collapse (g.vertexAt here :: seen) rest := by
  rw [collapse, if_neg new]

/-- Collapsing brings up no new position. -/
theorem exists_mem_of_mem_collapse {seen : List VertexId} {stations : List (Position × CallNode)}
    {station : Position × CallNode} (mem : station ∈ g.collapse seen stations) :
    ∃ other ∈ stations, other.1 = station.1 := by
  induction seen, stations using collapse.induct g with
  | case1 seen => simp [collapse] at mem
  | case2 seen here node rest known ih =>
    rw [collapse_of_mem known] at mem
    rcases List.mem_cons.1 mem with rfl | later
    · exact ⟨_, List.mem_cons_self, rfl⟩
    · obtain ⟨other, among, same⟩ := ih later
      exact ⟨other, List.mem_cons_of_mem _ ((List.dropWhile_sublist _).mem among), same⟩
  | case3 seen here node rest new ih =>
    rw [collapse_of_notMem new] at mem
    rcases List.mem_cons.1 mem with rfl | later
    · exact ⟨_, List.mem_cons_self, rfl⟩
    · obtain ⟨other, among, same⟩ := ih later
      exact ⟨other, List.mem_cons_of_mem _ among, same⟩

/-! ## Descendants -/

/-- Whether a list of nodes starts at some depth or above it, if it is not empty. -/
def StartsAbove (depth : Nat) (stations : List (Position × CallNode)) : Prop :=
  ∀ station ∈ stations.head?, station.2.depth ≤ depth

theorem startsAbove_nil (depth : Nat) : StartsAbove depth [] := by
  intro station first
  cases first

theorem depth_le_of_mem_stations (g : CallGraph) {forest : Forest} {depth : Nat}
    {station : Position × CallNode} (mem : station ∈ forest.stations g depth) :
    depth ≤ station.2.depth := by
  induction forest generalizing depth with
  | nil => simp [Forest.stations] at mem
  | node here below beside ihBelow ihBeside =>
    rw [Forest.stations, List.mem_cons, List.mem_append] at mem
    rcases mem with rfl | mem | mem
    · exact Nat.le_refl depth
    · exact Nat.le_of_succ_le (ihBelow mem)
    · exact ihBeside mem

theorem startsAbove_stations (g : CallGraph) (forest : Forest) (depth : Nat)
    {later : List (Position × CallNode)} (back : StartsAbove depth later) :
    StartsAbove depth (forest.stations g depth ++ later) := by
  cases forest with
  | nil => exact back
  | node here below beside =>
    rintro station first
    obtain rfl := Option.some.inj first
    exact Nat.le_refl depth

theorem StartsAbove.mono {depth deeper : Nat} {later : List (Position × CallNode)}
    (back : StartsAbove depth later) (h : depth ≤ deeper) : StartsAbove deeper later :=
  fun station first => Nat.le_trans (back station first) h

/-- The nodes below a node of some depth are those before the list comes back to that depth. -/
theorem dropWhile_stations (g : CallGraph) (below : Forest) (depth : Nat)
    {later : List (Position × CallNode)} (back : StartsAbove depth later) :
    (below.stations g (depth + 1) ++ later).dropWhile (fun other => depth < other.2.depth)
      = later := by
  have deeper : ∀ station ∈ below.stations g (depth + 1), decide (depth < station.2.depth) = true :=
    fun station mem => decide_eq_true (depth_le_of_mem_stations g mem)
  rw [List.dropWhile_append_of_pos deeper]
  cases later with
  | nil => rfl
  | cons station later =>
    have notBelow := Nat.not_lt.2 (back station rfl)
    rw [List.dropWhile_cons_of_neg (by simpa using notBelow)]

/-! ## Collapsing an unfolding -/

theorem stations_inMode (g : CallGraph) (mode : Mode) (forest : Forest) (depth : Nat) :
    forest.stations (g.inMode mode) depth = forest.stations g depth := by
  induction forest generalizing depth with
  | nil => rfl
  | node here below beside ihBelow ihBeside =>
    rw [Forest.stations, Forest.stations, ihBelow, ihBeside]
    rfl

/-- Collapsing cuts what lies below a vertex that is known. -/
theorem collapse_stations_of_mem {e : EdgeId} {known knownAfter : List VertexId}
    (mem : (g.edge e).target ∈ known) (below : Forest) {beside collapsed : Forest} {depth : Nat}
    {later : List (Position × CallNode)} (back : StartsAbove depth later)
    (same : g.collapse known (beside.stations g depth ++ later)
      = collapsed.stations g depth ++ g.collapse knownAfter later) :
    g.collapse known ((Forest.node (.edge e) below beside).stations g depth ++ later)
      = (Forest.node (.edge e) .nil collapsed).stations g depth
        ++ g.collapse knownAfter later := by
  have met : g.vertexAt (.edge e) ∈ known := mem
  have behind := startsAbove_stations g beside depth back
  rw [Forest.stations, List.cons_append, List.append_assoc, collapse_of_mem met,
    dropWhile_stations g below depth behind, same]
  rfl

/-- In minimized mode the same edges are explored to the collapsed unfolding. -/
theorem Unfolds.exists_explores (wf : g.WellFormed) {above : List VertexId} {es : List EdgeId}
    {forest : Forest} (unfolds : g.Unfolds above es forest)
    (within : ∀ e ∈ es, (g.edge e).target.index < g.vertices.size) {seen : Array Bool}
    (ancestry : (g.inMode .minimized).Ancestry none above seen) {known : List VertexId}
    (marks : ∀ v, Marked seen v ↔ v ∈ known) :
    ∃ (collapsed : Forest) (after : Array Bool) (knownAfter : List VertexId),
      (g.inMode .minimized).Explores none above seen (es.map .edge) collapsed after
        ∧ (∀ v, Marked after v ↔ v ∈ knownAfter)
        ∧ ∀ depth later, StartsAbove depth later →
          g.collapse known (forest.stations g depth ++ later)
            = collapsed.stations g depth ++ g.collapse knownAfter later := by
  have minimized : (g.inMode .minimized).mode ≠ .full := by simp [inMode]
  induction unfolds generalizing seen known with
  | done above => exact ⟨.nil, seen, known, .done above seen, marks, fun _ _ _ => rfl⟩
  | @closed above e es beside repeats more ih =>
    obtain ⟨withinHere, withinRest⟩ := List.forall_mem_cons.1 within
    obtain ⟨collapsed, after, knownAfter, explores, marksAfter, same⟩ :=
      ih withinRest ancestry marks
    have marked := ancestry.marked rfl minimized _ repeats
    refine ⟨.node (.edge e) .nil collapsed, after, knownAfter, ?_, marksAfter, ?_⟩
    · exact .closed (fun opens => opens.unmarked marked) explores
    · intro depth later back
      exact collapse_stations_of_mem ((marks _).1 marked) .nil back (same depth later back)
  | @expanded above e es below beside fresh inner more ihBelow ihBeside =>
    obtain ⟨withinHere, withinRest⟩ := List.forall_mem_cons.1 within
    by_cases marked : Marked seen (g.edge e).target
    · -- a vertex that was met before, though not above
      obtain ⟨collapsed, after, knownAfter, explores, marksAfter, same⟩ :=
        ihBeside withinRest ancestry marks
      refine ⟨.node (.edge e) .nil collapsed, after, knownAfter, ?_, marksAfter, ?_⟩
      · exact .closed (fun opens => opens.unmarked marked) explores
      · intro depth later back
        exact collapse_stations_of_mem ((marks _).1 marked) below back (same depth later back)
    · have opens : (g.inMode .minimized).Opens none above seen (g.edge e).target :=
        ⟨marked, fun known => minimized known.1.1⟩
      have size : (g.edge e).target.index < seen.size := ancestry.size.symm ▸ withinHere
      have marksBelow : ∀ v, Marked ((g.inMode .minimized).mark seen (g.edge e).target) v
          ↔ v ∈ (g.edge e).target :: known := by
        intro v
        rw [marked_mark_iff minimized size, marks, List.mem_cons]
      obtain ⟨collapsedBelow, between, knownBetween, exploresBelow, marksBetween, sameBelow⟩ :=
        ihBelow (fun f called => wf.callee_lt (List.mem_map_of_mem called))
          (ancestry.push opens withinHere) marksBelow
      obtain ⟨collapsed, after, knownAfter, explores, marksAfter, same⟩ :=
        ihBeside withinRest (ancestry.afterBelow exploresBelow) marksBetween
      refine ⟨.node (.edge e) collapsedBelow collapsed, after, knownAfter, ?_, marksAfter, ?_⟩
      · exact .expanded opens (hasRoom_none _) exploresBelow explores
      · intro depth later back
        have new : g.vertexAt (.edge e) ∉ known := fun mem => marked ((marks _).2 mem)
        have behind := startsAbove_stations g beside depth back
        have counts : below.count = collapsedBelow.count := by
          rw [inner.count_eq, exploresBelow.count_eq, List.length_map]
        rw [Forest.stations, List.cons_append, List.append_assoc, collapse_of_notMem new, counts,
          vertexAt_edge, sameBelow (depth + 1) _ (behind.mono (Nat.le_succ depth)),
          same depth later back, Forest.stations, List.cons_append, List.append_assoc]

/-- What holds of the vertices that are called first and of all that are called from such vertices
holds of all vertices of an unfolding. -/
theorem Unfolds.forall_positions {above : List VertexId} {es : List EdgeId} {forest : Forest}
    (unfolds : g.Unfolds above es forest) {P : VertexId → Prop}
    (called : ∀ v, P v → ∀ p ∈ g.callees v, P (g.vertexAt p))
    (first : ∀ e ∈ es, P (g.edge e).target) : ∀ p ∈ forest.positions, P (g.vertexAt p) := by
  induction unfolds with
  | done => simp [Forest.positions]
  | closed _ _ ih =>
    obtain ⟨here, rest⟩ := List.forall_mem_cons.1 first
    exact List.forall_mem_cons.2 ⟨here, ih rest⟩
  | expanded _ _ _ ihBelow ihBeside =>
    obtain ⟨here, rest⟩ := List.forall_mem_cons.1 first
    refine List.forall_mem_cons.2 ⟨here, List.forall_mem_append.2 ⟨ihBelow ?_, ihBeside rest⟩⟩
    exact fun f mem => called _ here (.edge f) (List.mem_map_of_mem mem)

end CallGraph

namespace Stepper

/-- The vertices of a call tree, in order. -/
def shown (s : Stepper) (maxDepth : Option Nat) : List VertexId :=
  (s.stations maxDepth).map fun station => s.graph.vertexAt station.1

/-- The call tree below the root of one graph is the collapsed one of another graph, and both show
the same vertices. -/
structure Collapses (full minimized : CallGraph) : Prop where
  stations : (start minimized).stations none = full.collapse [] ((start full).stations none)
  fullTree : ((start full).callTree none).1 = ((start full).stations none).map Prod.snd
  minimizedTree :
    ((start minimized).callTree none).1 = ((start minimized).stations none).map Prod.snd
  frames : ∀ station ∈ (start full).stations none, station.2.frame = full.frameAt station.1
  shown : ∀ v, v ∈ (start minimized).shown none ↔ v ∈ (start full).shown none

theorem shown_eq {s : Stepper} {maxDepth : Option Nat} {forest : Forest}
    (stations : s.stations maxDepth = forest.stations s.graph 0) :
    s.shown maxDepth = forest.positions.map s.graph.vertexAt := by
  rw [shown, stations, ← forest.stations_map_fst s.graph 0, List.map_map]
  rfl

variable {g : CallGraph}

theorem marked_start_iff (minimized : g.mode ≠ .full) (wf : g.WellFormed) (v : VertexId) :
    Marked (g.mark (start g).cursor.discovered CallGraph.root) v ↔ v ∈ [CallGraph.root] := by
  have within : CallGraph.root.index < (start g).cursor.discovered.size :=
    (ancestry_start g).size.symm ▸ wf.root_lt
  rw [CallGraph.marked_mark_iff minimized within, List.mem_singleton]
  exact or_iff_left (not_marked_replicate _ _)

/-- In minimized mode exploring what the root calls covers all that it marks. -/
theorem covers_root (wf : g.WellFormed) (minimized : g.mode ≠ .full) {below : Forest}
    {after : Array Bool}
    (inner : g.Explores none [CallGraph.root] (g.mark (start g).cursor.discovered CallGraph.root)
      (g.callees CallGraph.root) below after) :
    g.Covers after [] ∧ Marked after CallGraph.root := by
  have size : CallGraph.root.index < (start g).cursor.discovered.size :=
    (ancestry_start g).size.symm ▸ wf.root_lt
  have blank : g.Covers (start g).cursor.discovered [] := fun v marked =>
    absurd marked (not_marked_replicate _ _)
  obtain ⟨covers, called⟩ := inner.covers wf minimized
    ((ancestry_start g).push (opens_root g) wf.root_lt) (fun p mem => wf.callee_lt mem)
    (blank.mark minimized size)
  refine ⟨covers.pop called, inner.marked ?_⟩
  exact (marked_start_iff minimized wf _).2 (List.mem_singleton.2 rfl)

/-- What covers all that it marks, the root among it, marks all vertices below the root. -/
theorem marked_positions {below : Forest} {after : Array Bool} (covers : g.Covers after [])
    (rootMarked : Marked after CallGraph.root)
    (unfolds : g.Unfolds [CallGraph.root] (g.enabledOut CallGraph.root).reverse below) :
    ∀ p ∈ (Forest.node .root below .nil).positions, Marked after (g.vertexAt p) := by
  rw [Forest.positions, Forest.positions, List.append_nil]
  refine List.forall_mem_cons.2 ⟨rootMarked, unfolds.forall_positions ?_ ?_⟩
  · intro u known p called
    exact covers u known List.not_mem_nil p called
  · intro e called
    exact covers _ rootMarked List.not_mem_nil (.edge e) (List.mem_map_of_mem called)

/-- The call tree in minimized mode is the collapsed one in full mode. -/
theorem collapses_inMode (wf : g.WellFormed) (full : g.mode = .full) :
    Collapses g (g.inMode .minimized) := by
  obtain ⟨below, final, unfolds, stations, ends, -⟩ := exists_unfolds wf full
  have minimized : (g.inMode .minimized).mode ≠ .full := by simp [CallGraph.inMode]
  have wfMin : (g.inMode .minimized).WellFormed := wf.congr rfl rfl rfl fun _ _ => ⟨rfl, rfl⟩
  obtain ⟨collapsed, after, knownAfter, inner, -, same⟩ :=
    unfolds.exists_explores wf (fun e called => wf.callee_lt (List.mem_map_of_mem called))
      ((ancestry_start _).push (opens_root _) wfMin.root_lt) (marked_start_iff minimized wfMin)
  obtain ⟨finalMin, stationsMin, endsMin, -, -⟩ :=
    exists_walk_ends (s := start (g.inMode .minimized)) wfMin (ancestry_start _).size rfl
      wfMin.root_lt (explores_root inner)
  have counts : below.count = collapsed.count := by
    rw [unfolds.count_eq, inner.count_eq, List.length_map]
  have collapses : (start (g.inMode .minimized)).stations none
      = g.collapse [] ((start g).stations none) := by
    have rest := same 1 [] (CallGraph.startsAbove_nil 1)
    rw [List.append_nil, CallGraph.collapse, List.append_nil] at rest
    rw [stationsMin.trans (g.stations_inMode .minimized _ 0), stations, Forest.stations_singleton,
      Forest.stations_singleton, CallGraph.collapse_of_notMem List.not_mem_nil, counts]
    exact congrArg (_ :: ·) rest.symm
  refine ⟨collapses, ?_, ?_, ?_, fun v => ⟨?_, ?_⟩⟩
  · rw [stations]
    exact congrArg Prod.fst ends.drain_eq
  · rw [stationsMin]
    exact congrArg Prod.fst endsMin.drain_eq
  · rw [stations]
    exact fun station mem => Forest.frame_of_mem_stations mem
  · intro mem
    obtain ⟨station, among, rfl⟩ := List.mem_map.1 mem
    rw [collapses] at among
    obtain ⟨other, mem, same⟩ := CallGraph.exists_mem_of_mem_collapse among
    exact List.mem_map.2 ⟨other, mem, congrArg g.vertexAt same⟩
  · intro mem
    rw [shown_eq stations] at mem
    rw [shown_eq stationsMin]
    obtain ⟨p, among, rfl⟩ := List.mem_map.1 mem
    obtain ⟨covers, rootMarked⟩ := covers_root wfMin minimized inner
    have coversFull : g.Covers after [] := covers
    have marked := marked_positions coversFull rootMarked unfolds p among
    rcases inner.exists_position_of_marked marked with before | ⟨q, mem, same⟩
    · rw [marked_start_iff minimized wfMin, List.mem_singleton] at before
      exact List.mem_map.2 ⟨.root, List.mem_cons_self, before.symm⟩
    · exact List.mem_map.2 ⟨q, by simp [Forest.positions, mem], same⟩

/-- A trace that is recorded in full mode is recorded in minimized mode as well.  Whatever edges are
then enabled or disabled, as long as they are the same ones, the call tree in minimized mode is the
collapsed one in full mode. -/
theorem minimized_collapses_full (config : Config) (location : Location) (events : List Event)
    {full : Recorder}
    (recorded : (Recorder.start { config with mode := .full } location).recordAll events
      = (full, none)) :
    ∃ minimized,
      (Recorder.start { config with mode := .minimized } location).recordAll events
          = (minimized, none)
        ∧ ∀ changes changesMin : List Toggle,
          (∀ e, ((full.graph.toggleAll changes).edge e).enabled
            = ((minimized.graph.toggleAll changesMin).edge e).enabled) →
          Collapses (full.graph.toggleAll changes) (minimized.graph.toggleAll changesMin) := by
  have kept := Recorder.recordAll_wellFormed
    (Recorder.start_wellFormed { config with mode := .full } location) events
  have mode := (Recorder.start { config with mode := .full } location).recordAll_mode events
  rw [recorded] at kept mode
  refine ⟨full.inMode .minimized, ?_, ?_⟩
  · have same := (Recorder.start { config with mode := .full } location).recordAll_inMode
      .minimized events
    rw [recorded] at same
    exact same
  · intro changes changesMin enabled
    rw [Recorder.inMode, CallGraph.toggleAll_inMode] at enabled ⊢
    rw [← CallGraph.toggleAll_eq_of_enabled_eq enabled kept.graph.edgeRoom]
    exact collapses_inMode (kept.graph.toggleAll changes)
      ((full.graph.toggleAll_mode changes).trans mode)

/-- A step that repeats itself is shown by two nodes, of which minimized mode cuts the second. -/
theorem minimized_collapses_full_recursion :
    ∃ full minimized,
      (Recorder.start { Config.default with mode := .full } .unknown).recordAll Recorder.recursion
          = (full, none)
        ∧ (Recorder.start { Config.default with mode := .minimized } .unknown).recordAll
          Recorder.recursion = (minimized, none)
        ∧ (∀ e, ((full.graph.toggleAll []).edge e).enabled
          = ((minimized.graph.toggleAll []).edge e).enabled)
        ∧ Collapses (full.graph.toggleAll []) (minimized.graph.toggleAll []) := by
  obtain ⟨minimized, recorded, collapses⟩ :=
    minimized_collapses_full .default .unknown Recorder.recursion (Prod.ext rfl rfl)
  obtain rfl : _ = minimized := congrArg Prod.fst recorded
  exact ⟨_, _, Prod.ext rfl rfl, recorded, fun e => rfl, collapses [] [] fun e => rfl⟩

end Stepper

end TemplateTrace
