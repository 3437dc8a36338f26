import TemplateTrace.Proofs.Graph.Paths
import TemplateTrace.Proofs.Graph.Recorded
import TemplateTrace.Proofs.Graph.Unfolding
import Mathlib.Data.List.Lex
set_option autoImplicit false

/-!
# The call tree in full mode

The nodes of an unfolding are the paths that lead to them.  In full mode and without a limit the
call tree below the root has one node for each path of enabled edges that repeats no vertex but with
its last step, in preorder, later calls first.
-/

namespace TemplateTrace

/-- The paths to the nodes in preorder, all of them going on from where `above` has come. -/
def Forest.paths (above : List EdgeId) : Forest → List (List EdgeId)
  | nil => []
  | node here below beside =>
      (above ++ here.edge?.toList)
        :: (below.paths (above ++ here.edge?.toList) ++ beside.paths above)

@[simp] theorem Forest.paths_edge (above : List EdgeId) (e : EdgeId) (below beside : Forest) :
    (node (.edge e) below beside).paths above
      = (above ++ [e]) :: (below.paths (above ++ [e]) ++ beside.paths above) := rfl

/-! ## Sorted forests -/

namespace Forest

/-- The edges of the roots of the trees. -/
def heads : Forest → List EdgeId
  | nil => []
  | node here _ beside => here.edge?.toList ++ beside.heads

/-- Whether all nodes are edges, and those below the same node come in some order. -/
def Sorted (r : EdgeId → EdgeId → Prop) : Forest → Prop
  | nil => True
  | node .root _ _ => False
  | node (.edge e) below beside =>
      (∀ f ∈ beside.heads, r e f) ∧ below.Sorted r ∧ beside.Sorted r

variable {r : EdgeId → EdgeId → Prop} {forest : Forest}

theorem lex_of_rel {e f : EdgeId} (first : r e f) (p a b : List EdgeId) :
    List.Lex r (p ++ e :: a) (p ++ f :: b) :=
  List.Lex.append_left r (.rel first) p

theorem lex_append (p : List EdgeId) (e : EdgeId) (b : List EdgeId) :
    List.Lex r p (p ++ e :: b) := by
  have below := List.Lex.append_left r (List.Lex.nil (a := e) (l := b)) p
  rwa [List.append_nil] at below

/-- A path to a node starts with the root of a tree. -/
theorem Sorted.exists_of_mem_paths (sorted : forest.Sorted r) {p q : List EdgeId}
    (mem : q ∈ forest.paths p) : ∃ e ∈ forest.heads, ∃ b, q = p ++ e :: b := by
  induction forest generalizing p with
  | nil => simp [paths] at mem
  | node here below beside ihBelow ihBeside =>
    cases here with
    | root => exact sorted.elim
    | edge e =>
      obtain ⟨-, sortedBelow, sortedBeside⟩ := sorted
      rw [paths_edge, List.mem_cons, List.mem_append] at mem
      rcases mem with rfl | mem | mem
      · exact ⟨e, List.mem_cons_self, [], rfl⟩
      · obtain ⟨f, -, b, rfl⟩ := ihBelow sortedBelow mem
        exact ⟨e, List.mem_cons_self, f :: b, List.append_assoc ..⟩
      · obtain ⟨f, head, b, rfl⟩ := ihBeside sortedBeside mem
        exact ⟨f, List.mem_cons_of_mem _ head, b, rfl⟩

/-- The paths to the nodes come in preorder: a path comes before what goes on from it, and where two
paths part the order of the edges decides. -/
theorem Sorted.paths_pairwise (sorted : forest.Sorted r) (p : List EdgeId) :
    (forest.paths p).Pairwise (List.Lex r) := by
  induction forest generalizing p with
  | nil => exact .nil
  | node here below beside ihBelow ihBeside =>
    cases here with
    | root => exact sorted.elim
    | edge e =>
      obtain ⟨first, sortedBelow, sortedBeside⟩ := sorted
      have onBelow : ∀ q ∈ below.paths (p ++ [e]), ∃ b, q = p ++ e :: b := by
        intro q mem
        obtain ⟨f, -, b, rfl⟩ := sortedBelow.exists_of_mem_paths mem
        exact ⟨f :: b, List.append_assoc ..⟩
      rw [paths_edge, List.pairwise_cons, List.pairwise_append]
      refine ⟨?_, ihBelow sortedBelow _, ihBeside sortedBeside p, ?_⟩
      · intro q mem
        rcases List.mem_append.1 mem with memBelow | memBeside
        · obtain ⟨f, -, b, rfl⟩ := sortedBelow.exists_of_mem_paths memBelow
          exact lex_append _ f b
        · obtain ⟨f, head, b, rfl⟩ := sortedBeside.exists_of_mem_paths memBeside
          exact lex_of_rel (first f head) p [] b
      · intro q memBelow q' memBeside
        obtain ⟨b, rfl⟩ := onBelow q memBelow
        obtain ⟨f, head, b', rfl⟩ := sortedBeside.exists_of_mem_paths memBeside
        exact lex_of_rel (first f head) p b b'

/-- The empty path comes before them. -/
theorem Sorted.pathsFrom_pairwise (sorted : forest.Sorted r) :
    ([] :: forest.paths []).Pairwise (List.Lex r) := by
  refine List.pairwise_cons.2 ⟨?_, sorted.paths_pairwise []⟩
  intro q mem
  obtain ⟨e, -, rest, rfl⟩ := sorted.exists_of_mem_paths mem
  exact .nil

end Forest

namespace CallGraph

/-- The node at the end of a path. -/
def pathNode (g : CallGraph) (start : Position) (p : List EdgeId) : CallNode where
  frame := g.frameAt (endOf start p)
  depth := p.length
  children :=
    if g.vertexAt (endOf start p) ∈ (g.stops start p).dropLast then 0
    else g.enabledDegree (g.vertexAt (endOf start p))

/-- Preorder with later edges first: a path comes before what goes on from it and, where two paths
part, the one that takes the later edge comes first. -/
def Precedes : List EdgeId → List EdgeId → Prop := List.Lex fun a b => b.index < a.index

theorem WellFormed.callees_sorted {g : CallGraph} (wf : g.WellFormed) (v : VertexId) :
    (g.enabledOut v).reverse.Pairwise fun a b => b.index < a.index :=
  List.pairwise_reverse.2 (wf.enabledOut_sorted v)

namespace Unfolds

variable {g : CallGraph} {start : Position} {above : List VertexId} {es : List EdgeId}
  {forest : Forest} {p : List EdgeId}

theorem pathNode_snoc (e : EdgeId) (reached : above.reverse = g.stops start p) :
    g.pathNode start (p ++ [e])
      = ⟨g.frameAt (.edge e), above.length,
          if (g.edge e).target ∈ above then 0 else g.enabledDegree (g.edge e).target⟩ := by
  have length : above.length = p.length + 1 := by
    rw [← List.length_reverse, reached]
    simp [stops]
  simp [pathNode, dropLast_stops_snoc, vertexAt, ← reached, length]

theorem reached_snoc (e : EdgeId) (reached : above.reverse = g.stops start p) :
    ((g.edge e).target :: above).reverse = g.stops start (p ++ [e]) := by
  rw [List.reverse_cons, reached, stops_append]
  rfl

/-- The nodes are the nodes of their paths. -/
theorem stations_eq (unfolds : g.Unfolds above es forest)
    (reached : above.reverse = g.stops start p) :
    (forest.stations g above.length).map Prod.snd = (forest.paths p).map (g.pathNode start) := by
  induction unfolds generalizing p with
  | done => rfl
  | closed repeats _ ih =>
    rw [Forest.stations, Forest.paths_edge, List.map_cons, List.map_cons, List.map_append,
      List.map_append, ih reached, pathNode_snoc _ reached, if_pos repeats]
    rfl
  | expanded fresh inner _ ihBelow ihBeside =>
    have below := ihBelow (reached_snoc _ reached)
    rw [List.length_cons] at below
    rw [Forest.stations, Forest.paths_edge, List.map_cons, List.map_cons, List.map_append,
      List.map_append, ihBeside reached, below, pathNode_snoc _ reached, if_neg fresh,
      inner.count_eq, List.length_reverse]
    rfl

/-- The paths of an unfolding start with its edges and repeat none of the vertices above or on the
way, the last one not counted. -/
theorem mem_paths_iff (wf : g.WellFormed) (unfolds : g.Unfolds above es forest)
    (distinct : above.Nodup) (p q : List EdgeId) :
    q ∈ forest.paths p ↔ ∃ e ∈ es, ∃ rest, q = p ++ e :: rest ∧ g.IsPath (g.edge e).target rest
      ∧ (above.reverse ++ (g.stops (.edge e) rest).dropLast).Nodup := by
  induction unfolds generalizing p with
  | done => simp [Forest.paths]
  | @closed above e es beside repeats _ ih =>
    rw [Forest.paths_edge, Forest.paths, List.nil_append, List.mem_cons, ih distinct,
      List.exists_mem_cons_iff]
    refine or_congr_left ⟨?_, ?_⟩
    · rintro rfl
      exact ⟨[], rfl, trivial, by simpa [stops] using List.nodup_reverse.2 distinct⟩
    · rintro ⟨rest, rfl, -, nodup⟩
      cases rest with
      | nil => rfl
      | cons f rest =>
        -- nothing goes on from a vertex that is repeated
        rw [dropLast_stops_cons, List.nodup_append] at nodup
        exact absurd rfl (nodup.2.2 _ (List.mem_reverse.2 repeats) _ List.mem_cons_self)
  | @expanded above e es below beside fresh _ _ ihBelow ihBeside =>
    rw [Forest.paths_edge, List.mem_cons, List.mem_append, ihBeside distinct,
      ihBelow (List.nodup_cons.2 ⟨fresh, distinct⟩), List.exists_mem_cons_iff, ← or_assoc]
    refine or_congr_left ⟨?_, ?_⟩
    · rintro (rfl | ⟨f, called, rest, rfl, path, nodup⟩)
      · exact ⟨[], rfl, trivial, by simpa [stops] using List.nodup_reverse.2 distinct⟩
      · obtain ⟨enabled, source⟩ := (wf.mem_enabledOut _ f).1 (List.mem_reverse.1 called)
        refine ⟨f :: rest, by simp, ⟨enabled, source, path⟩, ?_⟩
        rwa [List.reverse_cons, List.append_assoc] at nodup
    · rintro ⟨rest, rfl, path, nodup⟩
      cases rest with
      | nil => exact .inl rfl
      | cons f rest =>
        obtain ⟨enabled, source, path⟩ := path
        refine .inr ⟨f, List.mem_reverse.2 ((wf.mem_enabledOut _ f).2 ⟨enabled, source⟩), rest,
          by simp, path, ?_⟩
        rwa [List.reverse_cons, List.append_assoc]

/-- The trees of an unfolding are those of its edges. -/
theorem heads_eq (unfolds : g.Unfolds above es forest) : forest.heads = es := by
  induction unfolds with
  | done => rfl
  | closed _ _ ih => exact congrArg (_ :: ·) ih
  | expanded _ _ _ _ ih => exact congrArg (_ :: ·) ih

/-- An unfolding has later edges first. -/
theorem sorted (wf : g.WellFormed) (unfolds : g.Unfolds above es forest)
    (ordered : es.Pairwise fun a b => b.index < a.index) :
    forest.Sorted fun a b => b.index < a.index := by
  induction unfolds with
  | done => trivial
  | closed _ more ih =>
    obtain ⟨first, rest⟩ := List.pairwise_cons.1 ordered
    exact ⟨more.heads_eq.symm ▸ first, trivial, ih rest⟩
  | expanded _ _ more ihBelow ihBeside =>
    obtain ⟨first, rest⟩ := List.pairwise_cons.1 ordered
    exact ⟨more.heads_eq.symm ▸ first, ihBelow (wf.callees_sorted _), ihBeside rest⟩

/-- Some node has the vertex of an ancestor when the path to some node repeats a vertex. -/
theorem closes_iff (unfolds : g.Unfolds above es forest) (distinct : above.Nodup)
    (reached : above.reverse = g.stops start p) :
    forest.Closes g above ↔ ∃ q ∈ forest.paths p, ¬(g.stops start q).Nodup := by
  have nodup_snoc : ∀ {above : List VertexId} {p : List EdgeId} (e : EdgeId), above.Nodup →
      above.reverse = g.stops start p →
      ((g.stops start (p ++ [e])).Nodup ↔ (g.edge e).target ∉ above) := by
    intro above p e distinct reached
    rw [← reached_snoc e reached, List.nodup_reverse, List.nodup_cons, and_iff_left distinct]
  induction unfolds generalizing p with
  | done => simp [Forest.Closes, Forest.paths]
  | closed repeats _ _ =>
    refine iff_of_true (.inl repeats) ⟨_, List.mem_cons_self, ?_⟩
    exact fun nodup => (nodup_snoc _ distinct reached).1 nodup repeats
  | expanded fresh _ _ ihBelow ihBeside =>
    have below := ihBelow (List.nodup_cons.2 ⟨fresh, distinct⟩) (reached_snoc _ reached)
    have first := not_not.2 ((nodup_snoc _ distinct reached).2 fresh)
    rw [Forest.paths_edge, List.exists_mem_cons_iff, or_iff_right first]
    simp only [List.mem_append, or_and_right, exists_or]
    exact (or_iff_right fresh).trans (or_congr below (ihBeside distinct reached))

/-- The paths below a position and the empty one are those that go on from it and repeat no vertex,
the last one not counted. -/
theorem mem_pathsFrom_iff (start : Position) (wf : g.WellFormed)
    (unfolds : g.Unfolds [g.vertexAt start] (g.enabledOut (g.vertexAt start)).reverse forest)
    (p : List EdgeId) :
    p ∈ [] :: forest.paths [] ↔ g.IsPath (g.vertexAt start) p ∧ g.Unlooped start p := by
  rw [List.mem_cons, unfolds.mem_paths_iff wf (List.nodup_singleton _) [] p]
  cases p with
  | nil => simp [IsPath, Unlooped, stops]
  | cons e rest =>
    rw [IsPath, Unlooped, dropLast_stops_cons]
    constructor
    · rintro (none | ⟨f, called, rest', same, path, nodup⟩)
      · cases none
      · obtain ⟨rfl, rfl⟩ := List.cons.inj same
        obtain ⟨enabled, source⟩ := (wf.mem_enabledOut _ e).1 (List.mem_reverse.1 called)
        exact ⟨⟨enabled, source, path⟩, nodup⟩
    · rintro ⟨⟨enabled, source, path⟩, nodup⟩
      have called := List.mem_reverse.2 ((wf.mem_enabledOut _ e).2 ⟨enabled, source⟩)
      exact .inr ⟨e, called, rest, rfl, path, nodup⟩

/-- Some node below a position has the vertex of an ancestor when a cycle can be reached. -/
theorem closes_iff_hasCycle (start : Position) (wf : g.WellFormed)
    (unfolds : g.Unfolds [g.vertexAt start] (g.enabledOut (g.vertexAt start)).reverse forest) :
    forest.Closes g [g.vertexAt start] ↔ g.HasCycle start := by
  have distinct : [g.vertexAt start].Nodup := List.nodup_singleton _
  rw [unfolds.closes_iff (p := []) distinct rfl, hasCycle_iff_exists_closing]
  constructor
  · rintro ⟨p, mem, repeats⟩
    obtain ⟨path, unlooped⟩ := (unfolds.mem_pathsFrom_iff start wf p).1 (List.mem_cons_of_mem _ mem)
    exact ⟨p, path, unlooped, repeats⟩
  · rintro ⟨p, path, unlooped, repeats⟩
    have mem := (unfolds.mem_pathsFrom_iff start wf p).2 ⟨path, unlooped⟩
    rcases List.mem_cons.1 mem with rfl | mem
    · exact absurd distinct repeats
    · exact ⟨p, mem, repeats⟩

/-- The empty path and the paths below a position come in preorder, later edges first. -/
theorem pathsFrom_pairwise (start : Position) (wf : g.WellFormed)
    (unfolds : g.Unfolds [g.vertexAt start] (g.enabledOut (g.vertexAt start)).reverse forest) :
    ([] :: forest.paths []).Pairwise Precedes :=
  (unfolds.sorted wf (wf.callees_sorted _)).pathsFrom_pairwise

/-- The nodes of a position and of what lies below it are the nodes of the paths that go on from
there. -/
theorem stationsFrom_eq (start : Position)
    (unfolds : g.Unfolds [g.vertexAt start] (g.enabledOut (g.vertexAt start)).reverse forest) :
    ((Forest.node start forest .nil).stations g 0).map Prod.snd
      = ([] :: forest.paths []).map (g.pathNode start) := by
  rw [List.map_cons, ← unfolds.stations_eq (p := []) rfl]
  simp [Forest.stations, pathNode, stops, unfolds.count_eq, enabledDegree]

end Unfolds

theorem nodup_of_pairwise_lex {r : EdgeId → EdgeId → Prop} (irrefl : ∀ e, ¬r e e)
    {paths : List (List EdgeId)} (ordered : paths.Pairwise (List.Lex r)) : paths.Nodup := by
  refine ordered.imp ?_
  rintro p _ before rfl
  exact List.lex_irrefl irrefl p before

theorem nodup_of_pairwise_precedes {paths : List (List EdgeId)}
    (ordered : paths.Pairwise Precedes) : paths.Nodup :=
  nodup_of_pairwise_lex (fun e => Nat.lt_irrefl e.index) ordered

end CallGraph

namespace Stepper

/-- In full mode and without a limit the nodes below the root are the paths of enabled edges from
the root that repeat no vertex, the last one not counted: each once, in preorder and later calls
first.  The walk is exhausted after them, and it has found a cycle if one can be reached at all. -/
theorem callTree_enumerates_paths {g : CallGraph} (recorded : g.Recorded) (full : g.mode = .full) :
    ∃ (paths : List (List EdgeId)) (final : Walk),
      (start g).callTree none = (paths.map (g.pathNode .root), final)
        ∧ ((start g).walk none).Ends g (paths.map (g.pathNode .root)) final
        ∧ (∀ p, p ∈ paths ↔ g.IsPath CallGraph.root p ∧ g.Unlooped .root p)
        ∧ paths.Nodup ∧ paths.Pairwise CallGraph.Precedes
        ∧ (final.cycleDetected = true ↔ g.HasCycle .root)
        ∧ (¬g.HasCycle .root → ∀ p, p ∈ paths ↔ g.IsPath CallGraph.root p) := by
  have wf := recorded.wellFormed
  obtain ⟨below, final, unfolds, -, ends, cycle⟩ := exists_unfolds wf full
  have mem_iff := CallGraph.Unfolds.mem_pathsFrom_iff .root wf unfolds
  have ordered := CallGraph.Unfolds.pathsFrom_pairwise .root wf unfolds
  have reachable := CallGraph.Unfolds.closes_iff_hasCycle .root wf unfolds
  rw [CallGraph.Unfolds.stationsFrom_eq .root unfolds] at ends
  refine ⟨[] :: below.paths [], final, ends.drain_eq, ends, mem_iff,
    CallGraph.nodup_of_pairwise_precedes ordered, ordered, cycle.trans reachable, ?_⟩
  intro acyclic p
  refine (mem_iff p).trans (and_iff_left_of_imp ?_)
  intro path
  exact (CallGraph.nodup_stops_of_acyclic acyclic path).sublist (List.dropLast_sublist _)

theorem isPath_recursion :
    (Recorder.recursionGraph .full).IsPath CallGraph.root [⟨0⟩, ⟨1⟩] :=
  ⟨List.mem_cons_self, rfl, List.mem_cons_of_mem _ List.mem_cons_self, rfl, trivial⟩

theorem unlooped_recursion : (Recorder.recursionGraph .full).Unlooped .root [⟨0⟩, ⟨1⟩] := by
  have stops : (Recorder.recursionGraph .full).stops .root [⟨0⟩, ⟨1⟩] = [⟨0⟩, ⟨1⟩, ⟨1⟩] := rfl
  rw [CallGraph.Unlooped, stops]
  decide

theorem hasCycle_recursion : (Recorder.recursionGraph .full).HasCycle .root := by
  have first : ((Recorder.recursionGraph .full).edge ⟨0⟩).target = ⟨1⟩ := rfl
  have second : ((Recorder.recursionGraph .full).edge ⟨1⟩).target = ⟨1⟩ := rfl
  exact ⟨[⟨0⟩], [⟨1⟩], List.cons_ne_nil _ _, isPath_recursion, second.trans first.symm⟩

/-- The call of a step by itself is shown and is found to close a cycle. -/
theorem callTree_enumerates_paths_recursion :
    (Recorder.recursionGraph .full).Recorded ∧ (Recorder.recursionGraph .full).mode = .full
      ∧ ∃ (paths : List (List EdgeId)) (final : Walk),
        (start (Recorder.recursionGraph .full)).callTree none
            = (paths.map ((Recorder.recursionGraph .full).pathNode .root), final)
          ∧ [⟨0⟩, ⟨1⟩] ∈ paths ∧ final.cycleDetected = true := by
  have recorded := Recorder.recursionGraph_recorded .full
  obtain ⟨paths, final, tree, -, mem_iff, -, -, cycle, -⟩ :=
    callTree_enumerates_paths recorded rfl
  exact ⟨recorded, rfl, paths, final, tree, (mem_iff _).2 ⟨isPath_recursion, unlooped_recursion⟩,
    cycle.2 hasCycle_recursion⟩

end Stepper

end TemplateTrace
