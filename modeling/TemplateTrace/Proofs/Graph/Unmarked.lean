import TemplateTrace.Proofs.Graph.Backtracing
import TemplateTrace.Proofs.Graph.Collapse
import Mathlib.Algebra.BigOperators.Finprod
set_option autoImplicit false

/-!
# The call tree of what is not marked

In minimized mode and without a limit the call tree goes over the vertices that can be reached from
the current position without passing a marked one (`CallGraph.unmarkedFrom`).  Whatever was marked
before and whatever cycles there are, it shows each edge that leaves such a vertex once, and what
lies below a vertex where the vertex occurs first (`Stepper.callTree_shows_unmarked`).

The vertices that an exploration opens carry the proof.  They are listed once each, the nodes are
the explored positions and what is called from the opened vertices (`Explores.exists_opened`), and
they are the vertices that can be reached (`Explores.marked_iff`).
-/

namespace TemplateTrace

theorem Marked.lt_size {seen : Array Bool} {v : VertexId} (marked : Marked seen v) :
    v.index < seen.size := by
  by_contra beyond
  simp [Marked, beyond] at marked

namespace CallGraph

/-- The vertices to which enabled edges lead from a position through vertices that are not marked,
the first and the last one counted. -/
def unmarkedFrom (g : CallGraph) (seen : Array Bool) (start : Position) : Set VertexId :=
  {v | ∃ p, g.IsPath (g.vertexAt start) p ∧ (∀ u ∈ g.stops start p, ¬Marked seen u)
    ∧ g.vertexAt (endOf start p) = v}

/-- Whether each node has a subtree for each enabled edge that leaves its vertex when the vertex
occurs for the first time and was not marked before, and no subtree otherwise. -/
def ExpandsFirst (g : CallGraph) : Array Bool → List (Position × CallNode) → Prop
  | _, [] => True
  | seen, (here, node) :: rest =>
      node.children = (if Marked seen (g.vertexAt here) then 0
          else g.enabledDegree (g.vertexAt here))
        ∧ g.ExpandsFirst (g.mark seen (g.vertexAt here)) rest

variable {g : CallGraph} {maxDepth : Option Nat} {above : List VertexId} {seen after : Array Bool}
  {here : List Position} {forest : Forest} {start : Position}

/-! ## Vertices that can be reached -/

theorem not_marked_of_mem_unmarkedFrom {v : VertexId} (mem : v ∈ g.unmarkedFrom seen start) :
    ¬Marked seen v := by
  obtain ⟨p, -, unmarked, rfl⟩ := mem
  apply unmarked
  rw [stops_eq_dropLast_append]
  simp

theorem vertexAt_mem_unmarkedFrom (unmarked : ¬Marked seen (g.vertexAt start)) :
    g.vertexAt start ∈ g.unmarkedFrom seen start :=
  ⟨[], trivial, by simpa [stops] using unmarked, rfl⟩

/-- What is called from a vertex that can be reached can be reached if it is not marked. -/
theorem callee_mem_unmarkedFrom (wf : g.WellFormed) {v : VertexId}
    (mem : v ∈ g.unmarkedFrom seen start) {p : Position} (called : p ∈ g.callees v)
    (unmarked : ¬Marked seen (g.vertexAt p)) : g.vertexAt p ∈ g.unmarkedFrom seen start := by
  obtain ⟨e, among, rfl⟩ := List.mem_map.1 called
  obtain ⟨enabled, source⟩ := (wf.mem_enabledOut v e).1 (List.mem_reverse.1 among)
  obtain ⟨way, path, passed, rfl⟩ := mem
  refine ⟨way ++ [e], (isPath_snoc_iff start).2 ⟨path, enabled, source⟩, ?_, by rw [endOf_snoc]⟩
  rw [stops_append]
  exact List.forall_mem_append.2 ⟨passed, by simpa using unmarked⟩

/-- A set of vertices that has the first one, and with a vertex all that is called from it and not
marked, has all that can be reached. -/
theorem unmarkedFrom_induct (wf : g.WellFormed) {motive : VertexId → Prop}
    (first : motive (g.vertexAt start))
    (goesOn : ∀ v, motive v → ¬Marked seen v → ∀ p ∈ g.callees v, motive (g.vertexAt p))
    {v : VertexId} (mem : v ∈ g.unmarkedFrom seen start) : motive v := by
  obtain ⟨p, path, unmarked, rfl⟩ := mem
  induction p using List.reverseRecOn with
  | nil => exact first
  | append_singleton p e ih =>
    obtain ⟨before, enabled, source⟩ := (isPath_snoc_iff start).1 path
    rw [stops_append] at unmarked
    have passed := (List.forall_mem_append.1 unmarked).1
    have last : ¬Marked seen (g.vertexAt (endOf start p)) :=
      not_marked_of_mem_unmarkedFrom ⟨p, before, passed, rfl⟩
    rw [endOf_snoc]
    refine goesOn _ (ih before passed) last (.edge e) (List.mem_map_of_mem ?_)
    exact List.mem_reverse.2 ((wf.mem_enabledOut _ e).2 ⟨enabled, source⟩)

/-! ## What an exploration opens -/

theorem mark_of_marked {v : VertexId} (marked : Marked seen v) : g.mark seen v = seen := by
  unfold CallGraph.mark
  split
  · rfl
  · refine Array.ext (Array.size_setIfInBounds ..) ?_
    intro i _ within
    rw [Array.getElem_setIfInBounds within]
    split
    · next same =>
      subst same
      simpa [Marked, within] using marked.symm
    · rfl

/-- In minimized mode a vertex is opened unless it is marked. -/
theorem opens_iff_of_minimized (minimized : g.mode ≠ .full) (v : VertexId) :
    g.Opens maxDepth above seen v ↔ ¬Marked seen v :=
  ⟨fun opens => opens.unmarked, fun unmarked => ⟨unmarked, fun known => minimized known.1.1⟩⟩

/-- The nodes of an exploration are expanded where their vertices occur first. -/
theorem Explores.expandsFirst (minimized : g.mode ≠ .full)
    (explores : g.Explores none above seen here forest after) (depth : Nat)
    (later : List (Position × CallNode)) :
    g.ExpandsFirst seen (forest.stations g depth ++ later) ↔ g.ExpandsFirst after later := by
  induction explores generalizing depth later with
  | done => exact Iff.rfl
  | closed shut _ ih =>
    rw [opens_iff_of_minimized minimized, not_not] at shut
    simp only [Forest.stations, List.nil_append, List.cons_append, ExpandsFirst, if_pos shut,
      mark_of_marked shut, Forest.count, true_and]
    exact ih depth later
  | cut _ full _ _ => exact absurd (hasRoom_none _) full
  | @expanded _ _ _ _ here _ below _ opens _ inner _ ihBelow ihBeside =>
    have degree : below.count = g.enabledDegree (g.vertexAt here) := by
      rw [inner.count_eq, callees, List.length_map, List.length_reverse, enabledDegree]
    simp only [Forest.stations, List.cons_append, List.append_assoc, ExpandsFirst,
      if_neg opens.unmarked, degree, true_and]
    exact (ihBelow (depth + 1) _).trans (ihBeside depth later)

/-- Exploring in minimized mode opens some vertices, each once: it marks them, and its nodes are the
explored positions and what is called from these vertices. -/
theorem Explores.exists_opened (wf : g.WellFormed) (minimized : g.mode ≠ .full)
    (explores : g.Explores none above seen here forest after)
    (ancestry : g.Ancestry none above seen)
    (within : ∀ p ∈ here, (g.vertexAt p).index < g.vertices.size) :
    ∃ opened : List VertexId, opened.Nodup ∧ (∀ v ∈ opened, ¬Marked seen v)
      ∧ (∀ v, Marked after v ↔ Marked seen v ∨ v ∈ opened)
      ∧ forest.positions.Perm (here ++ opened.flatMap g.callees) := by
  induction explores with
  | done => exact ⟨[], .nil, by simp, by simp, .refl _⟩
  | closed shut _ ih =>
    obtain ⟨opened, nodup, new, marks, nodes⟩ := ih ancestry (List.forall_mem_cons.1 within).2
    exact ⟨opened, nodup, new, marks, nodes.cons _⟩
  | cut _ full _ _ => exact absurd (hasRoom_none _) full
  | @expanded _ seen between _ here rest below _ opens _ inner more ihBelow ihBeside =>
    obtain ⟨withinHere, withinRest⟩ := List.forall_mem_cons.1 within
    have size : (g.vertexAt here).index < seen.size := ancestry.size.symm ▸ withinHere
    obtain ⟨inside, nodupInside, newInside, marksInside, nodesInside⟩ :=
      ihBelow (ancestry.push opens withinHere) fun p mem => wf.callee_lt mem
    obtain ⟨beyond, nodupBeyond, newBeyond, marksBeyond, nodesBeyond⟩ :=
      ihBeside (ancestry.afterBelow inner) withinRest
    have marksHere := marked_mark_iff minimized size
    have known : Marked between (g.vertexAt here) :=
      inner.marked ((marksHere _).2 (.inl rfl))
    refine ⟨g.vertexAt here :: (inside ++ beyond), ?_, ?_, ?_, ?_⟩
    · refine List.nodup_cons.2 ⟨?_, List.nodup_append.2 ⟨nodupInside, nodupBeyond, ?_⟩⟩
      · intro mem
        rcases List.mem_append.1 mem with mem | mem
        · exact newInside _ mem ((marksHere _).2 (.inl rfl))
        · exact newBeyond _ mem known
      · rintro v memInside _ memBeyond rfl
        exact newBeyond v memBeyond ((marksInside v).2 (.inr memInside))
    · refine List.forall_mem_cons.2 ⟨opens.unmarked, List.forall_mem_append.2 ⟨?_, ?_⟩⟩
      · exact fun v mem marked => newInside v mem (marked.mark _)
      · exact fun v mem marked => newBeyond v mem (inner.marked (marked.mark _))
    · intro v
      rw [marksBeyond, marksInside, marksHere, List.mem_cons, List.mem_append, or_assoc, or_assoc]
      exact or_left_comm
    · -- the calls of the first vertex are those that are explored below it
      have calls := (nodesInside.append nodesBeyond).trans (List.perm_append_comm_assoc ..)
      rw [Forest.positions, List.cons_append, List.flatMap_cons, List.flatMap_append]
      refine List.Perm.cons here (calls.trans (List.Perm.append_left rest ?_))
      rw [List.append_assoc]

/-- An exploration in minimized mode marks the vertices of all its nodes. -/
theorem Explores.marked_of_mem_positions (wf : g.WellFormed) (minimized : g.mode ≠ .full)
    (explores : g.Explores none above seen here forest after)
    (ancestry : g.Ancestry none above seen)
    (within : ∀ p ∈ here, (g.vertexAt p).index < g.vertices.size) :
    ∀ p ∈ forest.positions, Marked after (g.vertexAt p) := by
  induction explores with
  | done => simp [Forest.positions]
  | closed shut more ih =>
    rw [opens_iff_of_minimized minimized, not_not] at shut
    exact List.forall_mem_cons.2
      ⟨more.marked shut, ih ancestry (List.forall_mem_cons.1 within).2⟩
  | cut _ full _ _ => exact absurd (hasRoom_none _) full
  | expanded opens _ inner more ihBelow ihBeside =>
    obtain ⟨withinHere, withinRest⟩ := List.forall_mem_cons.1 within
    have now := (marked_mark_iff minimized (ancestry.size.symm ▸ withinHere) _).2 (.inl rfl)
    have inside := ihBelow (ancestry.push opens withinHere) fun p mem => wf.callee_lt mem
    refine List.forall_mem_cons.2 ⟨more.marked (inner.marked now), ?_⟩
    exact List.forall_mem_append.2 ⟨fun p mem => more.marked (inside p mem),
      ihBeside (ancestry.afterBelow inner) withinRest⟩

/-- What holds of the explored vertices, and with a vertex that was not marked of all that is called
from it, holds of all vertices that exploring marks. -/
theorem Explores.marked_induct (explores : g.Explores maxDepth above seen here forest after)
    {motive : VertexId → Prop} (first : ∀ p ∈ here, motive (g.vertexAt p))
    (goesOn : ∀ v, motive v → ¬Marked seen v → ∀ p ∈ g.callees v, motive (g.vertexAt p))
    {v : VertexId} (marked : Marked after v) : Marked seen v ∨ motive v := by
  induction explores generalizing v with
  | done => exact .inl marked
  | closed _ _ ih => exact ih (List.forall_mem_cons.1 first).2 goesOn marked
  | cut _ _ _ ih =>
    obtain ⟨firstHere, firstRest⟩ := List.forall_mem_cons.1 first
    rcases ih firstRest (fun u holds new => goesOn u holds fun known => new (known.mark _)) marked
      with known | holds
    · rcases known.of_mark with before | rfl
      · exact .inl before
      · exact .inr firstHere
    · exact .inr holds
  | expanded opens _ inner _ ihBelow ihBeside =>
    obtain ⟨firstHere, firstRest⟩ := List.forall_mem_cons.1 first
    have called := goesOn _ firstHere opens.unmarked
    rcases ihBeside firstRest (fun u holds new =>
      goesOn u holds fun known => new (inner.marked (known.mark _))) marked with known | holds
    · rcases ihBelow called (fun u holds new =>
        goesOn u holds fun known => new (known.mark _)) known with known | holds
      · rcases known.of_mark with before | rfl
        · exact .inl before
        · exact .inr firstHere
      · exact .inr holds
    · exact .inr holds

/-- Exploring a position in minimized mode marks the vertices that can be reached from it without
passing a marked one. -/
theorem Explores.marked_iff (wf : g.WellFormed) (minimized : g.mode ≠ .full)
    (explores : g.Explores none [] seen [start] forest after)
    (size : seen.size = g.vertices.size)
    (within : (g.vertexAt start).index < g.vertices.size) (v : VertexId) :
    Marked after v ↔ Marked seen v ∨ v ∈ g.unmarkedFrom seen start := by
  have ancestry : g.Ancestry none [] seen := .root size
  have withinAll : ∀ p ∈ [start], (g.vertexAt p).index < g.vertices.size := by simpa using within
  have marked := explores.marked_of_mem_positions wf minimized ancestry withinAll
  obtain ⟨opened, -, -, marks, nodes⟩ := explores.exists_opened wf minimized ancestry withinAll
  constructor
  · intro now
    have holds : Marked seen v ∨ Marked seen v ∨ v ∈ g.unmarkedFrom seen start := by
      refine explores.marked_induct
        (motive := fun u => Marked seen u ∨ u ∈ g.unmarkedFrom seen start) ?_ ?_ now
      · intro p mem
        obtain rfl := List.mem_singleton.1 mem
        exact (em (Marked seen (g.vertexAt p))).imp id vertexAt_mem_unmarkedFrom
      · intro u known new p called
        exact (em (Marked seen (g.vertexAt p))).imp id
          (callee_mem_unmarkedFrom wf (known.resolve_left new) called)
    exact holds.elim .inl id
  · rintro (before | reached)
    · exact explores.marked before
    · refine unmarkedFrom_induct wf (marked _ (nodes.symm.subset List.mem_cons_self)) ?_ reached
      intro u now new p called
      have inside := ((marks u).1 now).resolve_left new
      exact marked p (nodes.symm.subset
        (List.mem_append_right _ (List.mem_flatMap.2 ⟨u, inside, called⟩)))

/-- Exploring a position in minimized mode finds it and what is called from the vertices that can be
reached from it without passing a marked one. -/
theorem Explores.exists_region (wf : g.WellFormed) (minimized : g.mode ≠ .full)
    (explores : g.Explores none [] seen [start] forest after)
    (size : seen.size = g.vertices.size)
    (within : (g.vertexAt start).index < g.vertices.size) :
    ∃ (opened : List VertexId) (below : List Position), opened.Nodup
      ∧ (∀ v, v ∈ opened ↔ v ∈ g.unmarkedFrom seen start)
      ∧ forest.positions = start :: below ∧ below.Perm (opened.flatMap g.callees) := by
  obtain ⟨opened, nodup, new, marks, nodes⟩ :=
    explores.exists_opened wf minimized (.root size) (by simpa using within)
  have region := explores.marked_iff wf minimized size within
  have first : ∃ below, forest.positions = start :: below := by
    cases explores <;> exact ⟨_, rfl⟩
  obtain ⟨below, positions⟩ := first
  rw [positions] at nodes
  refine ⟨opened, below, nodup, ?_, positions, nodes.cons_inv⟩
  intro v
  have same := (marks v).symm.trans (region v)
  constructor
  · exact fun mem => (same.1 (.inr mem)).resolve_left (new v mem)
  · exact fun mem => (same.2 (.inr mem)).resolve_left (not_marked_of_mem_unmarkedFrom mem)

/-! ## Nodes and their counts -/

/-- A node has subtrees where its vertex occurs first and was not marked before. -/
theorem ExpandsFirst.children_eq (minimized : g.mode ≠ .full)
    {before later : List (Position × CallNode)} {p : Position} {node : CallNode}
    (expands : g.ExpandsFirst seen (before ++ (p, node) :: later))
    (within : ∀ station ∈ before, (g.vertexAt station.1).index < seen.size) :
    node.children
      = if Marked seen (g.vertexAt p)
          ∨ g.vertexAt p ∈ before.map fun station => g.vertexAt station.1
        then 0 else g.enabledDegree (g.vertexAt p) := by
  induction before generalizing seen with
  | nil => simpa using expands.1
  | cons first before ih =>
    obtain ⟨withinFirst, withinRest⟩ := List.forall_mem_cons.1 within
    rw [ih expands.2 (by simpa using withinRest)]
    refine if_congr ?_ rfl rfl
    rw [marked_mark_iff minimized withinFirst, List.map_cons, List.mem_cons, or_assoc,
      or_left_comm]

/-- Of the stations of an exploration, just those have calls below them at which an unmarked vertex
occurs first. -/
theorem Explores.children_eq (wf : g.WellFormed) (minimized : g.mode ≠ .full)
    (explores : g.Explores none above seen here forest after)
    (ancestry : g.Ancestry none above seen)
    (within : ∀ p ∈ here, (g.vertexAt p).index < g.vertices.size) {depth : Nat}
    {before later : List (Position × CallNode)} {p : Position} {node : CallNode}
    (split : forest.stations g depth = before ++ (p, node) :: later) :
    node.children
      = if Marked seen (g.vertexAt p)
          ∨ g.vertexAt p ∈ before.map fun station => g.vertexAt station.1
        then 0 else g.enabledDegree (g.vertexAt p) := by
  have expands := (explores.expandsFirst minimized depth []).2 trivial
  rw [List.append_nil, split] at expands
  refine expands.children_eq minimized fun station mem => ?_
  have found : station.1 ∈ forest.positions := by
    rw [← forest.stations_map_fst g depth, split]
    exact List.mem_map_of_mem (List.mem_append_left _ mem)
  rw [← explores.size_eq]
  exact (explores.marked_of_mem_positions wf minimized ancestry within _ found).lt_size

theorem mem_callees_iff (wf : g.WellFormed) (v : VertexId) (p : Position) :
    p ∈ g.callees v ↔ ∃ e, p = .edge e ∧ e ∈ g.enabledEdges ∧ (g.edge e).source = v := by
  unfold callees
  rw [List.mem_map]
  constructor
  · rintro ⟨e, among, rfl⟩
    exact ⟨e, rfl, (wf.mem_enabledOut v e).1 (List.mem_reverse.1 among)⟩
  · rintro ⟨e, rfl, leaves⟩
    exact ⟨e, List.mem_reverse.2 ((wf.mem_enabledOut v e).2 leaves), rfl⟩

theorem mem_flatMap_callees_iff (wf : g.WellFormed) (vs : List VertexId) (p : Position) :
    p ∈ vs.flatMap g.callees
      ↔ ∃ e, p = .edge e ∧ e ∈ g.enabledEdges ∧ (g.edge e).source ∈ vs := by
  rw [List.mem_flatMap]
  constructor
  · rintro ⟨v, mem, called⟩
    obtain ⟨e, rfl, enabled, rfl⟩ := (mem_callees_iff wf v p).1 called
    exact ⟨e, rfl, enabled, mem⟩
  · rintro ⟨e, rfl, enabled, mem⟩
    exact ⟨_, mem, (mem_callees_iff wf _ _).2 ⟨e, rfl, enabled, rfl⟩⟩

/-- What is called from different vertices is different. -/
theorem nodup_flatMap_callees (wf : g.WellFormed) {opened : List VertexId} (nodup : opened.Nodup) :
    (opened.flatMap g.callees).Nodup := by
  rw [List.nodup_flatMap]
  refine ⟨?_, nodup.imp ?_⟩
  · intro v _
    exact (List.nodup_reverse.2 (wf.nodup_enabledOut v)).map fun _ _ => Position.edge.inj
  · intro v u differs p fromV fromU
    obtain ⟨e, rfl, -, source⟩ := (mem_callees_iff wf v p).1 fromV
    obtain ⟨_, ⟨⟩, -, source'⟩ := (mem_callees_iff wf u _).1 fromU
    exact differs (source.symm.trans source')

end CallGraph

namespace Stepper

/-- What the call tree below a position shows of the vertices that can be reached from there without
passing a marked one: the position, and each edge that leaves such a vertex once; and of each such
vertex, where it occurs first, what lies below it. -/
structure ShowsUnmarked (s : Stepper) (here : Position) (region : Set VertexId) : Prop where
  ends : ∃ final, s.callTree none = ((s.stations none).map Prod.snd, final)
    ∧ (s.walk none).Ends s.graph ((s.stations none).map Prod.snd) final
  finite : region.Finite
  frames : ∀ station ∈ s.stations none, station.2.frame = s.graph.frameAt station.1
  positions : ∃ below, (s.stations none).map Prod.fst = here :: below ∧ (here :: below).Nodup
    ∧ ∀ p, p ∈ below
      ↔ ∃ e, p = .edge e ∧ e ∈ s.graph.enabledEdges ∧ (s.graph.edge e).source ∈ region
  occurs : ∀ v ∈ region, v ∈ s.shown none
  expanded : ∀ before p node later, s.stations none = before ++ (p, node) :: later →
    s.graph.vertexAt p ∈ region →
    s.graph.vertexAt p ∉ before.map (fun station => s.graph.vertexAt station.1) →
    node.children = s.graph.enabledDegree (s.graph.vertexAt p)
  leaf : ∀ before p node later, s.stations none = before ++ (p, node) :: later →
    s.graph.vertexAt p ∉ region
      ∨ s.graph.vertexAt p ∈ before.map (fun station => s.graph.vertexAt station.1) →
    node.children = 0
  length : (s.callTree none).1.length = 1 + ∑ᶠ v ∈ region, s.graph.enabledDegree v

theorem Grounded.showsUnmarked {s : Stepper} {here : Position} (grounded : s.Grounded)
    (current : s.cursor.current = some here) :
    s.ShowsUnmarked here (s.graph.unmarkedFrom s.cursor.discovered here) := by
  obtain ⟨later, waits⟩ := Cursor.current_eq_some_iff.1 current
  have waiting : here ∈ s.cursor.pending := waits ▸ List.mem_cons_self
  have wf := grounded.graph
  have minimized := grounded.minimized
  have size := grounded.cursor.fits.discovered
  have within := grounded.cursor.vertexAt_lt wf waiting
  have ancestry : s.graph.Ancestry none [] s.cursor.discovered := .root size
  have withinAll : ∀ p ∈ [here], (s.graph.vertexAt p).index < s.graph.vertices.size := by
    simpa using within
  obtain ⟨forest, after, explores⟩ := CallGraph.exists_explores wf ancestry [here] withinAll
  obtain ⟨final, stations, ends, -, -⟩ := exists_walk_ends wf size current within explores
  have region := explores.marked_iff wf minimized size within
  obtain ⟨opened, below, nodup, opened_iff, positions, nodes⟩ :=
    explores.exists_region wf minimized size within
  have places : (s.stations none).map Prod.fst = here :: below := by
    rw [stations, Forest.stations_map_fst, positions]
  have mem_below : ∀ p, p ∈ below ↔ ∃ e, p = .edge e ∧ e ∈ s.graph.enabledEdges
      ∧ (s.graph.edge e).source ∈ s.graph.unmarkedFrom s.cursor.discovered here := by
    intro p
    rw [nodes.mem_iff, CallGraph.mem_flatMap_callees_iff wf]
    simp only [opened_iff]
  have marked := explores.marked_of_mem_positions wf minimized ancestry withinAll
  have children : ∀ before p node later, s.stations none = before ++ (p, node) :: later →
      node.children = if Marked s.cursor.discovered (s.graph.vertexAt p)
          ∨ s.graph.vertexAt p ∈ before.map fun station => s.graph.vertexAt station.1
        then 0 else s.graph.enabledDegree (s.graph.vertexAt p) := fun _ _ _ _ split =>
    explores.children_eq wf minimized ancestry withinAll (stations ▸ split)
  have same : s.graph.unmarkedFrom s.cursor.discovered here = opened.toFinset := by
    ext v
    rw [← opened_iff, Finset.mem_coe, List.mem_toFinset]
  refine ⟨⟨final, ?_, ?_⟩, ?_, ?_, ⟨below, places, ?_, mem_below⟩, ?_, ?_, ?_, ?_⟩
  · rw [stations]
    exact ends.drain_eq
  · rw [stations]
    exact ends
  · rw [same]
    exact opened.toFinset.finite_toSet
  · rw [stations]
    exact fun station mem => Forest.frame_of_mem_stations mem
  · -- the edge at which the tree begins leaves a marked vertex
    refine List.nodup_cons.2 ⟨?_, nodes.nodup_iff.2 (CallGraph.nodup_flatMap_callees wf nodup)⟩
    intro mem
    obtain ⟨e, rfl, -, source⟩ := (mem_below here).1 mem
    exact CallGraph.not_marked_of_mem_unmarkedFrom source (grounded.cursor.waits e waiting).2
  · intro v mem
    have unmarked := CallGraph.not_marked_of_mem_unmarkedFrom mem
    obtain ⟨p, found, rfl⟩ :=
      (explores.exists_position_of_marked ((region v).2 (.inr mem))).resolve_left unmarked
    rw [shown_eq stations]
    exact List.mem_map_of_mem found
  · intro before p node later split mem first
    rw [children before p node later split, if_neg]
    exact not_or.2 ⟨CallGraph.not_marked_of_mem_unmarkedFrom mem, first⟩
  · intro before p node later split known
    rw [children before p node later split, if_pos]
    refine known.imp (fun outside => ?_) id
    have found : p ∈ forest.positions := by
      rw [← forest.stations_map_fst s.graph 0, ← stations, split]
      exact List.mem_map_of_mem (List.mem_append_right _ List.mem_cons_self)
    exact ((region _).1 (marked p found)).resolve_right outside
  · have lengths : (s.callTree none).1.length = (here :: below).length := by
      rw [← places, List.length_map, callTree, ends.drain_eq, stations, List.length_map]
    rw [lengths, same, finsum_mem_coe_finset, List.sum_toFinset _ nodup, List.length_cons,
      nodes.length_eq, List.length_flatMap, Nat.add_comm]
    refine congrArg (1 + ·) (congrArg List.sum (List.map_congr_left fun v _ => ?_))
    rw [CallGraph.callees, List.length_map, List.length_reverse, CallGraph.enabledDegree]

/-- In minimized mode and without a limit, whatever moves were made before, the call tree shows what
can be reached from the current position without passing a vertex that was entered before. -/
theorem callTree_shows_unmarked {g : CallGraph} (recorded : g.Recorded)
    (minimized : g.mode = .minimized) (moves : List Move) {here : Position}
    (current : ((start g).performAll moves).cursor.current = some here) :
    ((start g).performAll moves).ShowsUnmarked here
      (((start g).performAll moves).graph.unmarkedFrom
        ((start g).performAll moves).cursor.discovered here) := by
  have begun : (start g).Grounded := by
    apply grounded_start recorded.wellFormed
    rw [minimized]
    exact Mode.noConfusion
  exact (begun.performAll moves).showsUnmarked current

/-- A stepper over a graph with a shared vertex, which has taken a step back. -/
def overSharing : Stepper :=
  (start (Recorder.sharingGraph .minimized)).performAll [.stepMany 3, .stepBack]

/-- The tree below a call goes over the vertex that another call, which waits, shares with it. -/
theorem callTree_shows_unmarked_sharing :
    (Recorder.sharingGraph .minimized).Recorded
      ∧ (Recorder.sharingGraph .minimized).mode = .minimized
      ∧ overSharing.cursor.current = some (.edge ⟨1⟩)
      ∧ overSharing.ShowsUnmarked (.edge ⟨1⟩)
          (overSharing.graph.unmarkedFrom overSharing.cursor.discovered (.edge ⟨1⟩)) :=
  ⟨Recorder.sharingGraph_recorded .minimized, rfl, rfl,
    callTree_shows_unmarked (Recorder.sharingGraph_recorded .minimized) rfl _ rfl⟩

end Stepper

end TemplateTrace
