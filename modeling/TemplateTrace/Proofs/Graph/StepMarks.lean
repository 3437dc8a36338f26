import TemplateTrace.Proofs.Graph.FullStepping
import TemplateTrace.Proofs.Graph.ShownPaths
set_option autoImplicit false

/-!
# Call trees after some steps in full mode

Steps mark the vertices they pass, in full mode as well, and a walk goes by the marks in every mode.
After some steps in full mode a vertex that was passed is therefore a leaf of the call tree, also
where it is shared and is reached again (`Stepper.callTree_omits_passed`).  The call tree is that of
an unmarked graph just when no vertex that was passed has calls and can be reached again
(`CallGraph.ListsShown.listsAll_iff`).
-/

namespace TemplateTrace

namespace CallGraph

/-- Whether one of the first so many steps over a graph takes a position with some vertex. -/
def Passes (g : CallGraph) (k : Nat) (v : VertexId) : Prop :=
  ∃ j < k, ∃ here, ((Stepper.start g).stepUpTo j).cursor.current = some here ∧ g.vertexAt here = v

theorem passes_zero (g : CallGraph) (v : VertexId) : ¬g.Passes 0 v := by
  rintro ⟨j, less, -⟩
  exact absurd less (Nat.not_lt_zero j)

theorem passes_succ_iff (g : CallGraph) (k : Nat) (v : VertexId) :
    g.Passes (k + 1) v ↔ g.Passes k v
      ∨ ∃ here, ((Stepper.start g).stepUpTo k).cursor.current = some here
        ∧ g.vertexAt here = v := by
  constructor
  · rintro ⟨j, less, taken⟩
    rcases Nat.lt_succ_iff_lt_or_eq.1 less with earlier | rfl
    · exact .inl ⟨j, earlier, taken⟩
    · exact .inr taken
  · rintro (⟨j, less, taken⟩ | taken)
    · exact ⟨j, Nat.lt_succ_of_lt less, taken⟩
    · exact ⟨k, Nat.lt_succ_self k, taken⟩

/-! ## Paths one after the other -/

theorem endOf_append (start : Position) (p q : List EdgeId) :
    endOf start (p ++ q) = endOf (endOf start p) q := by
  induction p generalizing start with
  | nil => rfl
  | cons e p ih => rw [List.cons_append, endOf_cons, endOf_cons, ih]

/-- A cycle that can be reached from the end of a path can be reached from its start. -/
theorem HasCycle.of_isPath {g : CallGraph} {start : Position} {way : List EdgeId}
    (path : g.IsPath (g.vertexAt start) way) (cyclic : g.HasCycle (endOf start way)) :
    g.HasCycle start := by
  obtain ⟨p, loop, goes, round, same⟩ := cyclic
  refine ⟨way ++ p, loop, goes, ?_, ?_⟩
  · rw [List.append_assoc]
    exact (isPath_append way (p ++ loop)).2 ⟨path, round⟩
  · rw [List.append_assoc, endOf_append start way (p ++ loop), same, endOf_append]

/-- The end of a path is passed by what goes on from there. -/
theorem mem_dropLast_stops_append (g : CallGraph) (start : Position) (p : List EdgeId)
    {rest : List EdgeId} (goes : rest ≠ []) :
    g.vertexAt (endOf start p) ∈ (g.stops start (p ++ rest)).dropLast := by
  have further : rest.map (fun e => (g.edge e).target) ≠ [] := mt List.map_eq_nil_iff.1 goes
  rw [stops_append, List.dropLast_append_of_ne_nil further, stops_eq_dropLast_append]
  simp

end CallGraph

namespace Stepper

variable {g : CallGraph}

theorem placed_stepUpTo (wf : g.WellFormed) (k : Nat) : ((start g).stepUpTo k).Placed :=
  stepUpTo_induct (placed_start wf) (fun _ _ kept taken => kept.step taken) k

/-- The marks after some steps are on the vertices these have passed. -/
theorem marked_stepUpTo_iff (wf : g.WellFormed) (k : Nat) (v : VertexId) :
    Marked ((start g).stepUpTo k).cursor.discovered v ↔ g.Passes k v := by
  induction k with
  | zero => exact iff_of_false (not_marked_replicate _ v) (g.passes_zero v)
  | succ k ih =>
    rw [CallGraph.passes_succ_iff]
    by_cases finished : ((start g).stepUpTo k).cursor.isFinished = true
    · rw [stepUpTo_add, stepUpTo_of_finished finished, ih, Cursor.current,
        Cursor.isFinished_iff.1 finished]
      simp
    · have placed := placed_stepUpTo wf k
      obtain ⟨next, taken⟩ := exists_step_of_not_finished finished
      obtain ⟨here, later, waits, rfl⟩ := step_cases taken
      have current := Cursor.current_eq_some_iff.2 ⟨later, waits⟩
      rw [stepUpTo_succ_eq _ k taken, ← ih]
      refine (isDiscovered_cursorAfter placed.cursor.fits (placed.within current) v).trans ?_
      refine or_comm.trans (or_congr_right ?_)
      rw [current, stepUpTo_graph]
      constructor
      · rintro rfl
        exact ⟨here, rfl, rfl⟩
      · rintro ⟨_, ⟨⟩, same⟩
        exact same.symm

/-- Where no cycle can be reached from the root, none can be reached from where the steps come. -/
theorem not_hasCycle_current (wf : g.WellFormed) (full : g.mode = .full)
    (acyclic : ¬g.HasCycle .root) {k : Nat} {here : Position}
    (current : ((start g).stepUpTo k).cursor.current = some here) : ¬g.HasCycle here := by
  obtain ⟨below, final, -, -, -, tours, nothing⟩ := exists_tours wf full acyclic
  rw [tours.current_eq nothing, List.getElem?_map, Option.map_eq_some_iff] at current
  obtain ⟨way, found, rfl⟩ := current
  have path : g.IsPath (g.vertexAt .root) way := (tours.isAt found).path
  exact fun cyclic => acyclic (.of_isPath path cyclic)

end Stepper

namespace CallGraph

variable {g : CallGraph} {seen : Array Bool} {start : Position} {nodes : List CallNode}
  {paths : List (List EdgeId)} {p : List EdgeId}

/-- The node at the end of a path with some marks: a marked vertex is a leaf. -/
def markedNode (g : CallGraph) (seen : Array Bool) (start : Position) (p : List EdgeId) :
    CallNode where
  frame := g.frameAt (endOf start p)
  depth := p.length
  children :=
    if Marked seen (g.vertexAt (endOf start p)) then 0
    else g.enabledDegree (g.vertexAt (endOf start p))

/-- Some nodes are those of all paths of enabled edges that go on from a position, as if nothing
were marked: each with all that is called from it, in preorder and later calls first. -/
def ListsAll (g : CallGraph) (start : Position) (nodes : List CallNode) : Prop :=
  ∃ paths : List (List EdgeId), nodes = paths.map (g.calledNode start)
    ∧ (∀ p, p ∈ paths ↔ g.IsPath (g.vertexAt start) p) ∧ paths.Pairwise Precedes

theorem shownNode_eq_markedNode (acyclic : ¬g.HasCycle start)
    (path : g.IsPath (g.vertexAt start) p) :
    g.shownNode none seen start p = g.markedNode seen start p := by
  simp only [shownNode, markedNode, expands_iff_of_acyclic acyclic path, ite_not]

/-- A marked vertex is shown as if it were not when it has no calls. -/
theorem markedNode_eq_calledNode
    (unmarked : g.enabledOut (g.vertexAt (endOf start p)) ≠ [] →
      ¬Marked seen (g.vertexAt (endOf start p))) :
    g.markedNode seen start p = g.calledNode start p := by
  unfold markedNode calledNode
  by_cases marked : Marked seen (g.vertexAt (endOf start p))
  · have none : g.enabledDegree (g.vertexAt (endOf start p)) = 0 := by
      by_contra calls
      exact unmarked (List.ne_nil_of_length_pos (Nat.pos_of_ne_zero calls)) marked
    rw [if_pos marked, none]
  · rw [if_neg marked]

theorem shows_iff_of_acyclic (acyclic : ¬g.HasCycle start) :
    g.Shows none seen start p ↔ g.IsPath (g.vertexAt start) p
      ∧ ∀ v ∈ (g.stops start p).dropLast, ¬Marked seen v := by
  refine and_congr_right fun path => ⟨?_, ?_⟩
  · intro goes v mem
    obtain ⟨before, loop, rfl, further, rfl⟩ := exists_split_of_mem_dropLast mem
    have expands := goes before (List.prefix_append before loop) (by simpa using further)
    exact expands.1.unmarked
  · rintro unmarked q ⟨rest, rfl⟩ differs
    refine (expands_iff_of_acyclic acyclic ((isPath_append q rest).1 path).1).2 (unmarked _ ?_)
    apply g.mem_dropLast_stops_append
    rintro rfl
    exact differs (List.append_nil q).symm

/-- Where no cycle can be reached, the nodes are those of all paths just when no marked vertex that
has calls can be reached. -/
theorem ListsShown.listsAll_iff (wf : g.WellFormed) (acyclic : ¬g.HasCycle start)
    (lists : g.ListsShown none seen start nodes paths) :
    g.ListsAll start nodes ↔ ∀ p, g.IsPath (g.vertexAt start) p →
      g.enabledOut (g.vertexAt (endOf start p)) ≠ [] →
      ¬Marked seen (g.vertexAt (endOf start p)) := by
  constructor
  · rintro ⟨all, same, mem_all, -⟩ p path calls marked
    -- as many paths are shown as there are, so that none is left out
    have shown : paths ⊆ all := fun q mem => (mem_all q).2 ((lists.mem_iff q).1 mem).1
    have length : all.length ≤ paths.length := by
      rw [← List.length_map (f := g.calledNode start), ← same, lists.nodes, List.length_map]
    have perm := (List.subperm_of_subset (nodup_of_pairwise_precedes lists.ordered)
      shown).perm_of_length_le length
    obtain ⟨e, out⟩ := List.exists_mem_of_ne_nil _ calls
    have longer := (mem_all (p ++ [e])).2
      ((isPath_snoc_iff start).2 ⟨path, (wf.mem_enabledOut _ e).1 out⟩)
    have shows := (lists.mem_iff _).1 (perm.mem_iff.2 longer)
    exact (shows.2 p (List.prefix_append p [e]) (by simp)).1.unmarked marked
  · intro unmarked
    refine ⟨paths, ?_, ?_, lists.ordered⟩
    · rw [lists.nodes]
      apply List.map_congr_left
      intro p mem
      have path := ((lists.mem_iff p).1 mem).1
      rw [shownNode_eq_markedNode acyclic path, markedNode_eq_calledNode (unmarked p path)]
    · intro p
      refine (lists.mem_iff p).trans (and_iff_left_of_imp ?_)
      rintro path q ⟨rest, rfl⟩ differs
      obtain ⟨first, further⟩ := (isPath_append q rest).1 path
      cases rest with
      | nil => exact absurd (List.append_nil q).symm differs
      | cons e rest =>
        have out := (wf.mem_enabledOut _ e).2 ⟨further.1, further.2.1⟩
        exact (expands_iff_of_acyclic acyclic first).2
          (unmarked q first (List.ne_nil_of_mem out))

end CallGraph

namespace Stepper

/-- After some steps in full mode, where no cycle can be reached, the call tree lists the paths of
enabled edges that go on from the current position and pass none of the vertices that the steps have
passed, the last one not counted: each once, in preorder and later calls first.  A path that ends at
such a vertex is a leaf.  So the call tree lists all paths, each with all that is called from its
end, just when no vertex that has calls and was passed can be reached. -/
theorem callTree_omits_passed {g : CallGraph} (recorded : g.Recorded) (full : g.mode = .full)
    (acyclic : ¬g.HasCycle .root) (k : Nat) {here : Position}
    (current : ((start g).stepUpTo k).cursor.current = some here) :
    ∃ (seen : Array Bool) (paths : List (List EdgeId)) (final : Walk),
      (∀ v, Marked seen v ↔ g.Passes k v)
        ∧ ((start g).stepUpTo k).callTree none = (paths.map (g.markedNode seen here), final)
        ∧ (((start g).stepUpTo k).walk none).Ends g (paths.map (g.markedNode seen here)) final
        ∧ (∀ p, p ∈ paths ↔ g.IsPath (g.vertexAt here) p
          ∧ ∀ v ∈ (g.stops here p).dropLast, ¬g.Passes k v)
        ∧ paths.Nodup ∧ paths.Pairwise CallGraph.Precedes
        ∧ (g.ListsAll here (paths.map (g.markedNode seen here))
          ↔ ∀ p, g.IsPath (g.vertexAt here) p →
            g.enabledOut (g.vertexAt (CallGraph.endOf here p)) ≠ [] →
            ¬g.Passes k (g.vertexAt (CallGraph.endOf here p))) := by
  have wf := recorded.wellFormed
  have graph := stepUpTo_graph (start g) k
  have marks := marked_stepUpTo_iff wf k
  have acyclicHere := not_hasCycle_current wf full acyclic current
  obtain ⟨nodes, paths, final, tree, ends, lists⟩ :=
    exists_listsShown (placed_stepUpTo wf k) (by rw [graph]; exact full) current none
  rw [graph] at ends lists
  have complete := lists.listsAll_iff wf acyclicHere
  have nodes_eq :
      nodes = paths.map (g.markedNode ((start g).stepUpTo k).cursor.discovered here) := by
    rw [lists.nodes]
    apply List.map_congr_left
    intro p mem
    exact CallGraph.shownNode_eq_markedNode acyclicHere ((lists.mem_iff p).1 mem).1
  subst nodes_eq
  simp only [marks] at complete
  refine ⟨_, paths, final, marks, tree, ends, ?_,
    CallGraph.nodup_of_pairwise_precedes lists.ordered, lists.ordered, complete⟩
  intro p
  refine (lists.mem_iff p).trans ((CallGraph.shows_iff_of_acyclic acyclicHere).trans ?_)
  simp only [marks]

/-- The step that is reached twice was passed when it is reached again. -/
theorem passes_sharing : (Recorder.sharingGraph .full).Passes 5 ⟨3⟩ :=
  ⟨3, by decide, .edge ⟨2⟩, rfl, rfl⟩

theorem current_sharing :
    ((start (Recorder.sharingGraph .full)).stepUpTo 5).cursor.current = some (.edge ⟨4⟩) := rfl

theorem called_again_sharing : ⟨3⟩ ∈ (Recorder.sharingGraph .full).enabledOut ⟨3⟩ := by
  decide +kernel

/-- When the step that is reached twice is reached again, what it calls is not listed. -/
theorem callTree_omits_passed_sharing :
    (Recorder.sharingGraph .full).Recorded ∧ (Recorder.sharingGraph .full).mode = .full
      ∧ ¬(Recorder.sharingGraph .full).HasCycle .root
      ∧ ((start (Recorder.sharingGraph .full)).stepUpTo 5).cursor.current = some (.edge ⟨4⟩)
      ∧ ∃ (seen : Array Bool) (paths : List (List EdgeId)) (final : Walk),
        ((start (Recorder.sharingGraph .full)).stepUpTo 5).callTree none
            = (paths.map ((Recorder.sharingGraph .full).markedNode seen (.edge ⟨4⟩)), final)
          ∧ [] ∈ paths ∧ [⟨3⟩] ∉ paths := by
  have recorded := Recorder.sharingGraph_recorded .full
  obtain ⟨seen, paths, final, -, tree, -, mem_iff, -⟩ :=
    callTree_omits_passed recorded rfl not_hasCycle_sharing 5 current_sharing
  refine ⟨recorded, rfl, not_hasCycle_sharing, current_sharing, seen, paths, final, tree,
    (mem_iff []).2 ⟨trivial, by simp [CallGraph.stops]⟩, ?_⟩
  intro mem
  exact ((mem_iff _).1 mem).2 ⟨3⟩ List.mem_cons_self passes_sharing

/-- The call tree of a step that is reached again is not the one there would be without marks,
although every call leads to a later step and none is disabled. -/
theorem not_listsAll_sharing :
    (Recorder.sharingGraph .full).Recorded ∧ (Recorder.sharingGraph .full).mode = .full
      ∧ (∀ e ∈ (Recorder.sharingGraph .full).edgeIds,
        ((Recorder.sharingGraph .full).edge e).enabled = true
          ∧ ((Recorder.sharingGraph .full).edge e).source.index
            < ((Recorder.sharingGraph .full).edge e).target.index)
      ∧ ((start (Recorder.sharingGraph .full)).stepUpTo 5).cursor.current = some (.edge ⟨4⟩)
      ∧ ¬(Recorder.sharingGraph .full).ListsAll (.edge ⟨4⟩)
        (((start (Recorder.sharingGraph .full)).stepUpTo 5).callTree none).1 := by
  have recorded := Recorder.sharingGraph_recorded .full
  have wf := recorded.wellFormed
  refine ⟨recorded, rfl, by decide +kernel, current_sharing, ?_⟩
  obtain ⟨nodes, paths, final, tree, -, lists⟩ :=
    exists_listsShown (placed_stepUpTo wf 5) rfl current_sharing none
  rw [tree]
  intro all
  have acyclic := not_hasCycle_current wf rfl not_hasCycle_sharing current_sharing
  refine (lists.listsAll_iff wf acyclic).1 all [] trivial
    (List.ne_nil_of_mem called_again_sharing) ?_
  exact (marked_stepUpTo_iff wf 5 ⟨3⟩).2 passes_sharing

end Stepper

end TemplateTrace
