import TemplateTrace.Proofs.Graph.ShownPaths
set_option autoImplicit false

/-!
# Call trees with a depth limit

With a limit full mode looks for no cycles, and what bounds the call tree is its depth alone: the
nodes are the paths from the root with so many edges at most, whatever vertices they repeat
(`Stepper.callTree_enumerates_bounded_paths`).  Where no cycle can be reached, that is the call tree
without a limit, cut at the limit.
-/

namespace TemplateTrace

/-- A node as it is shown with a depth limit: nothing lies below it at the limit. -/
def CallNode.cutAt (limit : Nat) (node : CallNode) : CallNode :=
  if node.depth = limit then { node with children := 0 } else node

namespace CallGraph

/-- The node at the end of a path with a depth limit. -/
def boundedNode (g : CallGraph) (limit : Nat) (start : Position) (p : List EdgeId) : CallNode where
  frame := g.frameAt (endOf start p)
  depth := p.length
  children := if p.length < limit then g.enabledDegree (g.vertexAt (endOf start p)) else 0

variable {g : CallGraph} {seen : Array Bool} {start : Position} {limit : Nat} {p : List EdgeId}

theorem expands_iff_length_lt (blank : ∀ v, ¬Marked seen v) :
    g.Expands (some limit) seen start p ↔ p.length < limit := by
  constructor
  · exact fun expands => expands.2 limit rfl
  · intro short
    refine ⟨⟨blank _, fun repeats => ?_⟩, ?_⟩
    · cases repeats.1.2
    · rintro _ ⟨⟩
      exact short

theorem shownNode_eq_boundedNode (blank : ∀ v, ¬Marked seen v) (p : List EdgeId) :
    g.shownNode (some limit) seen start p = g.boundedNode limit start p := by
  simp only [shownNode, boundedNode, expands_iff_length_lt blank]

theorem shows_iff_length_le (blank : ∀ v, ¬Marked seen v) :
    g.Shows (some limit) seen start p ↔ g.IsPath (g.vertexAt start) p ∧ p.length ≤ limit := by
  refine and_congr_right fun _ => ⟨?_, ?_⟩
  · intro goes
    rcases List.eq_nil_or_concat p with rfl | ⟨q, e, rfl⟩
    · exact Nat.zero_le limit
    · rw [List.concat_eq_append] at goes ⊢
      have expands := goes q (List.prefix_append q [e]) (by simp)
      have short := (expands_iff_length_lt blank).1 expands
      rwa [List.length_append, List.length_singleton]
  · intro short q begins differs
    have shorter := Nat.lt_of_le_of_ne begins.length_le
      fun same => differs (begins.eq_of_length same)
    exact (expands_iff_length_lt blank).2 (Nat.lt_of_lt_of_le shorter short)

/-- Where no cycle can be reached, the node of a path at the limit is the node without a limit, with
nothing below it. -/
theorem boundedNode_eq_cutAt (short : p.length ≤ limit) :
    g.boundedNode limit start p = (g.calledNode start p).cutAt limit := by
  unfold boundedNode CallNode.cutAt calledNode
  by_cases atLimit : p.length = limit
  · simp [atLimit]
  · simp [atLimit, Nat.lt_of_le_of_ne short atLimit]

end CallGraph

/-! ## The cycle flag -/

namespace Walk

variable {w after : Walk} {g : CallGraph} {limit : Nat} {node : CallNode} {nodes : List CallNode}

/-- A walk with a limit does not look for cycles, and has found none. -/
structure Limited (w : Walk) (limit : Nat) : Prop where
  maxDepth : w.maxDepth = some limit
  cycle : w.cycleDetected = false

theorem Limited.visit (limited : w.Limited limit) (g : CallGraph) (here : Position) (depth : Nat) :
    (w.visit g here depth).Limited limit where
  maxDepth := (w.visit_maxDepth g here depth).trans limited.maxDepth
  cycle := by
    have unguarded : ¬w.guardsCycles g = true := by simp [guardsCycles, limited.maxDepth]
    have entered : w.enterPath g (g.vertexAt here) depth = (false, w) := if_neg unguarded
    exact (congrArg (fun moved => moved.2.cycleDetected) entered).trans limited.cycle

theorem Limited.next (limited : w.Limited limit) (step : w.next g = some (node, after)) :
    after.Limited limit := by
  unfold Walk.next at step
  split at step
  · cases step
  · cases step
    exact ⟨limited.maxDepth, limited.cycle⟩
  · next e depth rest _ waits =>
    cases step
    have left : Limited { w with pending := rest } limit := ⟨limited.maxDepth, limited.cycle⟩
    exact left.visit g (.edge e) depth

theorem Limited.yields (limited : w.Limited limit) (yields : w.Yields g nodes after) :
    after.Limited limit := by
  induction yields with
  | stop => exact limited
  | next step _ ih => exact ih (limited.next step)

end Walk

namespace Stepper

theorem limited_walk (s : Stepper) {here : Position} (current : s.cursor.current = some here)
    (limit : Nat) : (s.walk (some limit)).Limited limit := by
  rw [walk_eq_visit (some limit) current]
  exact Walk.Limited.visit ⟨rfl, rfl⟩ s.graph here 0

/-! ## The call tree below the root -/

theorem not_marked_start (g : CallGraph) (v : VertexId) :
    ¬Marked (start g).cursor.discovered v := not_marked_replicate _ v

/-- Where no cycle can be reached, the call tree below the root has a node for each path of enabled
edges, in preorder. -/
theorem exists_callTree_of_acyclic {g : CallGraph} (wf : g.WellFormed) (full : g.mode = .full)
    (acyclic : ¬g.HasCycle .root) :
    ∃ paths : List (List EdgeId),
      ((start g).callTree none).1 = paths.map (g.calledNode .root)
        ∧ (∀ p, p ∈ paths ↔ g.IsPath CallGraph.root p) ∧ paths.Pairwise CallGraph.Precedes := by
  obtain ⟨nodes, paths, final, tree, -, lists⟩ :=
    exists_listsShown (placed_start wf) full rfl none
  have expands : ∀ p, g.IsPath CallGraph.root p →
      g.Expands none (start g).cursor.discovered .root p := by
    intro p path
    exact (CallGraph.expands_iff_of_acyclic acyclic path).2 (not_marked_start g _)
  have shows : ∀ p, p ∈ paths ↔ g.IsPath CallGraph.root p := by
    intro p
    refine (lists.mem_iff p).trans (and_iff_left_of_imp fun path q begins _ => expands q ?_)
    obtain ⟨rest, rfl⟩ := begins
    exact ((@CallGraph.isPath_append g .root q rest).1 path).1
  refine ⟨paths, ?_, shows, lists.ordered⟩
  rw [tree, lists.nodes]
  apply List.map_congr_left
  intro p mem
  exact congrArg _ (if_pos (expands p ((shows p).1 mem)))

/-- In full mode and with a depth limit the nodes below the root are the paths of enabled edges from
the root that have so many edges at most, whatever vertices they repeat: each once, in preorder and
later calls first.  The walk ends after them and never finds a cycle.  If no cycle can be reached,
they are the nodes there are without a limit, those below the limit left out and those at the limit
shown as leaves. -/
theorem callTree_enumerates_bounded_paths {g : CallGraph} (recorded : g.Recorded)
    (full : g.mode = .full) (limit : Nat) :
    ∃ (paths : List (List EdgeId)) (final : Walk),
      (start g).callTree (some limit) = (paths.map (g.boundedNode limit .root), final)
        ∧ ((start g).walk (some limit)).Ends g (paths.map (g.boundedNode limit .root)) final
        ∧ (∀ p, p ∈ paths ↔ g.IsPath CallGraph.root p ∧ p.length ≤ limit)
        ∧ paths.Nodup ∧ paths.Pairwise CallGraph.Precedes
        ∧ (∀ nodes w, ((start g).walk (some limit)).Yields g nodes w → w.cycleDetected = false)
        ∧ (¬g.HasCycle .root → paths.map (g.boundedNode limit .root)
          = (((start g).callTree none).1.filter fun node => node.depth ≤ limit).map
              (CallNode.cutAt limit)) := by
  have wf := recorded.wellFormed
  obtain ⟨nodes, paths, final, tree, ends, lists⟩ :=
    exists_listsShown (placed_start wf) full rfl (some limit)
  have nodes_eq : nodes = paths.map (g.boundedNode limit .root) := by
    rw [lists.nodes]
    exact List.map_congr_left fun p _ => CallGraph.shownNode_eq_boundedNode (not_marked_start g) p
  have mem_iff : ∀ p, p ∈ paths ↔ g.IsPath CallGraph.root p ∧ p.length ≤ limit := by
    intro p
    exact (lists.mem_iff p).trans (CallGraph.shows_iff_length_le (not_marked_start g))
  subst nodes_eq
  refine ⟨paths, final, tree, ends, mem_iff, CallGraph.nodup_of_pairwise_precedes lists.ordered,
    lists.ordered, ?_, ?_⟩
  · intro nodes w yields
    exact ((limited_walk _ rfl limit).yields yields).cycle
  · intro acyclic
    obtain ⟨all, unlimited, mem_all, ordered⟩ := exists_callTree_of_acyclic wf full acyclic
    have kept : paths = all.filter fun p => p.length ≤ limit := by
      apply CallGraph.eq_of_pairwise_precedes lists.ordered (ordered.sublist List.filter_sublist)
      intro p
      rw [mem_iff, List.mem_filter, mem_all, decide_eq_true_iff]
    rw [unlimited, List.filter_map, List.map_map, kept]
    apply List.map_congr_left
    intro p mem
    exact CallGraph.boundedNode_eq_cutAt (of_decide_eq_true (List.mem_filter.1 mem).2)

theorem isPath_recursion_twice :
    (Recorder.recursionGraph .full).IsPath CallGraph.root [⟨0⟩, ⟨1⟩, ⟨1⟩] :=
  ⟨List.mem_cons_self, rfl, List.mem_cons_of_mem _ List.mem_cons_self, rfl,
    List.mem_cons_of_mem _ List.mem_cons_self, rfl, trivial⟩

/-- A step that calls itself is shown as often as the limit lets it. -/
theorem callTree_enumerates_bounded_paths_recursion :
    (Recorder.recursionGraph .full).Recorded ∧ (Recorder.recursionGraph .full).mode = .full
      ∧ ∃ (paths : List (List EdgeId)) (final : Walk),
        (start (Recorder.recursionGraph .full)).callTree (some 3)
            = (paths.map ((Recorder.recursionGraph .full).boundedNode 3 .root), final)
          ∧ [⟨0⟩, ⟨1⟩, ⟨1⟩] ∈ paths ∧ [⟨0⟩, ⟨1⟩, ⟨1⟩, ⟨1⟩] ∉ paths
          ∧ final.cycleDetected = false := by
  have recorded := Recorder.recursionGraph_recorded .full
  obtain ⟨paths, final, tree, ends, mem_iff, -, -, cycle, -⟩ :=
    callTree_enumerates_bounded_paths recorded rfl 3
  refine ⟨recorded, rfl, paths, final, tree, (mem_iff _).2 ⟨isPath_recursion_twice, by decide⟩, ?_,
    cycle _ _ ends.yields⟩
  intro mem
  exact absurd ((mem_iff _).1 mem).2 (by decide)

end Stepper

end TemplateTrace
