import TemplateTrace.Proofs.Graph.RootPaths
import TemplateTrace.Proofs.Graph.Visiting
set_option autoImplicit false

/-!
# The call tree in full mode at any position

In full mode exploration changes no marks, so that whether a node is expanded depends on the path to
it alone: on the marks that were there at first, on the vertices of the path and on its length
(`CallGraph.Expands`).  The nodes below a position are the paths that go on from nodes that are
expanded (`CallGraph.Shows`), in preorder and later calls first (`Stepper.exists_shown`).
-/

namespace TemplateTrace

namespace CallGraph

/-- Whether the node at the end of a path is expanded, in full mode and with some marks. -/
def Expands (g : CallGraph) (maxDepth : Option Nat) (seen : Array Bool) (start : Position)
    (p : List EdgeId) : Prop :=
  g.Opens maxDepth (g.stops start p).dropLast.reverse seen (g.vertexAt (endOf start p))
    ∧ HasRoom maxDepth p.length

/-- Whether a path goes on from nodes that are expanded only. -/
def Shows (g : CallGraph) (maxDepth : Option Nat) (seen : Array Bool) (start : Position)
    (p : List EdgeId) : Prop :=
  g.IsPath (g.vertexAt start) p ∧ ∀ q, q <+: p → q ≠ p → g.Expands maxDepth seen start q

instance (g : CallGraph) (maxDepth : Option Nat) (above : List VertexId) (seen : Array Bool)
    (v : VertexId) : Decidable (g.Opens maxDepth above seen v) :=
  decidable_of_iff (¬Marked seen v ∧ ¬g.Repeats maxDepth above v)
    ⟨fun ⟨unmarked, unrepeated⟩ => ⟨unmarked, unrepeated⟩,
      fun opens => ⟨opens.unmarked, opens.unrepeated⟩⟩

instance (g : CallGraph) (maxDepth : Option Nat) (seen : Array Bool) (start : Position)
    (p : List EdgeId) : Decidable (g.Expands maxDepth seen start p) :=
  inferInstanceAs (Decidable (_ ∧ _))

/-- The node at the end of a path, in full mode and with some marks. -/
def shownNode (g : CallGraph) (maxDepth : Option Nat) (seen : Array Bool)
    (start : Position) (p : List EdgeId) : CallNode where
  frame := g.frameAt (endOf start p)
  depth := p.length
  children :=
    if g.Expands maxDepth seen start p then g.enabledDegree (g.vertexAt (endOf start p)) else 0

variable {g : CallGraph} {maxDepth : Option Nat} {seen after : Array Bool} {start : Position}
  {above : List VertexId} {here : List Position} {es : List EdgeId} {forest : Forest}
  {p : List EdgeId}

/-! ## One more step -/

theorem length_eq_of_reached (reached : above.reverse = g.stops start p) :
    above.length = p.length + 1 := by
  rw [← List.length_reverse, reached]
  simp [stops]

theorem expands_snoc_iff (e : EdgeId) (reached : above.reverse = g.stops start p) :
    g.Expands maxDepth seen start (p ++ [e])
      ↔ g.Opens maxDepth above seen (g.edge e).target ∧ HasRoom maxDepth above.length := by
  rw [Expands, dropLast_stops_snoc, endOf_snoc, vertexAt_edge, List.length_append,
    List.length_singleton, ← length_eq_of_reached reached, ← reached, List.reverse_reverse]

theorem shownNode_snoc (e : EdgeId) (reached : above.reverse = g.stops start p) :
    g.shownNode maxDepth seen start (p ++ [e])
      = ⟨g.frameAt (.edge e), above.length,
          if g.Opens maxDepth above seen (g.edge e).target ∧ HasRoom maxDepth above.length
          then g.enabledDegree (g.edge e).target else 0⟩ := by
  simp [shownNode, expands_snoc_iff e reached, vertexAt, length_eq_of_reached reached]

/-- What holds of every beginning of a path but itself holds of the empty one and of those that take
its first step. -/
theorem forall_before_cons_iff {motive : List EdgeId → Prop} (e : EdgeId) (p : List EdgeId) :
    (∀ q, q <+: e :: p → q ≠ e :: p → motive q)
      ↔ motive [] ∧ ∀ q, q <+: p → q ≠ p → motive (e :: q) := by
  constructor
  · intro all
    refine ⟨all [] List.nil_prefix (List.cons_ne_nil e p).symm, ?_⟩
    intro q begins differs
    refine all (e :: q) ((List.prefix_cons_inj e).2 begins) ?_
    exact fun same => differs (List.cons.inj same).2
  · rintro ⟨first, rest⟩ q start differs
    rcases List.prefix_cons_iff.1 start with rfl | ⟨q, rfl, begins⟩
    · exact first
    · exact rest q begins fun same => differs (congrArg _ same)

theorem forall_before_nil {motive : List EdgeId → Prop} :
    ∀ q, q <+: [] → q ≠ [] → motive q :=
  fun _ start differs => absurd (List.prefix_nil.1 start) differs

/-! ## Exploring in full mode -/

namespace Explores

/-- The trees of an exploration are those of its edges. -/
theorem heads_eq (explores : g.Explores maxDepth above seen here forest after)
    (edges : here = es.map .edge) : forest.heads = es := by
  induction explores generalizing es with
  | done => exact (List.map_eq_nil_iff.1 edges.symm).symm
  | closed _ _ ih =>
    obtain ⟨e, es, rfl, rfl, rfl⟩ := List.map_eq_cons_iff.1 edges.symm
    exact congrArg (e :: ·) (ih rfl)
  | cut _ _ _ ih =>
    obtain ⟨e, es, rfl, rfl, rfl⟩ := List.map_eq_cons_iff.1 edges.symm
    exact congrArg (e :: ·) (ih rfl)
  | expanded _ _ _ _ _ ih =>
    obtain ⟨e, es, rfl, rfl, rfl⟩ := List.map_eq_cons_iff.1 edges.symm
    exact congrArg (e :: ·) (ih rfl)

/-- An exploration has later edges first. -/
theorem sorted (wf : g.WellFormed) (explores : g.Explores maxDepth above seen here forest after)
    (edges : here = es.map .edge) (ordered : es.Pairwise fun a b => b.index < a.index) :
    forest.Sorted fun a b => b.index < a.index := by
  induction explores generalizing es with
  | done => trivial
  | closed _ more ih =>
    obtain ⟨e, es, rfl, rfl, rfl⟩ := List.map_eq_cons_iff.1 edges.symm
    obtain ⟨first, rest⟩ := List.pairwise_cons.1 ordered
    exact ⟨(more.heads_eq rfl).symm ▸ first, trivial, ih rfl rest⟩
  | cut _ _ more ih =>
    obtain ⟨e, es, rfl, rfl, rfl⟩ := List.map_eq_cons_iff.1 edges.symm
    obtain ⟨first, rest⟩ := List.pairwise_cons.1 ordered
    exact ⟨(more.heads_eq rfl).symm ▸ first, trivial, ih rfl rest⟩
  | expanded _ _ _ more ihBelow ihBeside =>
    obtain ⟨e, es, rfl, rfl, rfl⟩ := List.map_eq_cons_iff.1 edges.symm
    obtain ⟨first, rest⟩ := List.pairwise_cons.1 ordered
    exact ⟨(more.heads_eq rfl).symm ▸ first, ihBelow rfl (wf.callees_sorted _), ihBeside rfl rest⟩

/-- The nodes are the nodes of their paths. -/
theorem stations_eq (full : g.mode = .full)
    (explores : g.Explores maxDepth above seen here forest after) (edges : here = es.map .edge)
    (reached : above.reverse = g.stops start p) :
    (forest.stations g above.length).map Prod.snd
      = (forest.paths p).map (g.shownNode maxDepth seen start) := by
  induction explores generalizing es p with
  | done => rfl
  | closed shut _ ih =>
    obtain ⟨e, es, rfl, rfl, rfl⟩ := List.map_eq_cons_iff.1 edges.symm
    rw [Forest.stations, Forest.paths_edge, List.map_cons, List.map_cons, List.map_append,
      List.map_append, ih rfl reached, shownNode_snoc e reached,
      if_neg fun expands => shut expands.1]
    rfl
  | cut _ none _ ih =>
    obtain ⟨e, es, rfl, rfl, rfl⟩ := List.map_eq_cons_iff.1 edges.symm
    rw [mark_of_full full] at ih
    rw [Forest.stations, Forest.paths_edge, List.map_cons, List.map_cons, List.map_append,
      List.map_append, ih rfl reached, shownNode_snoc e reached,
      if_neg fun expands => none expands.2]
    rfl
  | expanded opens room inner _ ihBelow ihBeside =>
    obtain ⟨e, es, rfl, rfl, rfl⟩ := List.map_eq_cons_iff.1 edges.symm
    have same := inner.eq_of_full full
    rw [mark_of_full full] at same ihBelow
    subst same
    have below := ihBelow rfl (Unfolds.reached_snoc e reached)
    rw [List.length_cons] at below
    rw [Forest.stations, Forest.paths_edge, List.map_cons, List.map_cons, List.map_append,
      List.map_append, ihBeside rfl reached, below, shownNode_snoc e reached,
      if_pos ⟨opens, room⟩, inner.count_eq]
    simp [callees, enabledDegree]

/-- No path but the one to a leaf goes through the leaf. -/
theorem eq_snoc_iff_of_leaf {e : EdgeId} {q : List EdgeId}
    (reached : above.reverse = g.stops start p)
    (leaf : ¬(g.Opens maxDepth above seen (g.edge e).target ∧ HasRoom maxDepth above.length)) :
    q = p ++ [e] ↔ ∃ rest, q = p ++ e :: rest ∧ g.IsPath (g.edge e).target rest
      ∧ ∀ r, r <+: rest → r ≠ rest → g.Expands maxDepth seen start (p ++ e :: r) := by
  constructor
  · rintro rfl
    exact ⟨[], rfl, trivial, forall_before_nil⟩
  · rintro ⟨rest, rfl, -, goes⟩
    cases rest with
    | nil => rfl
    | cons f rest =>
      have expands := ((forall_before_cons_iff f rest).1 goes).1
      exact absurd ((expands_snoc_iff e reached).1 expands) leaf

/-- The paths of an exploration start with its edges, and go on from nodes that are expanded. -/
theorem mem_paths_iff (wf : g.WellFormed) (full : g.mode = .full)
    (explores : g.Explores maxDepth above seen here forest after) (edges : here = es.map .edge)
    (reached : above.reverse = g.stops start p) (q : List EdgeId) :
    q ∈ forest.paths p ↔ ∃ e ∈ es, ∃ rest, q = p ++ e :: rest ∧ g.IsPath (g.edge e).target rest
      ∧ ∀ r, r <+: rest → r ≠ rest → g.Expands maxDepth seen start (p ++ e :: r) := by
  induction explores generalizing es p with
  | done =>
    obtain rfl : es = [] := List.map_eq_nil_iff.1 edges.symm
    simp [Forest.paths]
  | closed shut _ ih =>
    obtain ⟨e, es, rfl, rfl, rfl⟩ := List.map_eq_cons_iff.1 edges.symm
    rw [Forest.paths_edge, Forest.paths, List.nil_append, List.mem_cons, ih rfl reached,
      List.exists_mem_cons_iff]
    exact or_congr_left (eq_snoc_iff_of_leaf reached fun expands => shut expands.1)
  | cut opens none _ ih =>
    obtain ⟨e, es, rfl, rfl, rfl⟩ := List.map_eq_cons_iff.1 edges.symm
    rw [mark_of_full full] at ih
    rw [Forest.paths_edge, Forest.paths, List.nil_append, List.mem_cons, ih rfl reached,
      List.exists_mem_cons_iff]
    exact or_congr_left (eq_snoc_iff_of_leaf reached fun expands => none expands.2)
  | expanded opens room inner _ ihBelow ihBeside =>
    obtain ⟨e, es, rfl, rfl, rfl⟩ := List.map_eq_cons_iff.1 edges.symm
    have expands := (expands_snoc_iff e reached).2 ⟨opens, room⟩
    have same := inner.eq_of_full full
    rw [mark_of_full full] at same ihBelow
    subst same
    rw [Forest.paths_edge, List.mem_cons, List.mem_append, ihBeside rfl reached,
      ihBelow rfl (Unfolds.reached_snoc e reached), List.exists_mem_cons_iff, ← or_assoc]
    refine or_congr_left ⟨?_, ?_⟩
    · rintro (rfl | ⟨f, called, rest, rfl, path, goes⟩)
      · exact ⟨[], rfl, trivial, forall_before_nil⟩
      · obtain ⟨enabled, source⟩ := (wf.mem_enabledOut _ f).1 (List.mem_reverse.1 called)
        refine ⟨f :: rest, by simp, ⟨enabled, source, path⟩, ?_⟩
        refine (forall_before_cons_iff f rest).2 ⟨expands, ?_⟩
        simpa using goes
    · rintro ⟨rest, rfl, path, goes⟩
      cases rest with
      | nil => exact .inl rfl
      | cons f rest =>
        obtain ⟨enabled, source, path⟩ := path
        obtain ⟨-, further⟩ := (forall_before_cons_iff f rest).1 goes
        refine .inr ⟨f, List.mem_reverse.2 ((wf.mem_enabledOut _ f).2 ⟨enabled, source⟩), rest,
          by simp, path, ?_⟩
        simpa using further

end Explores

/-! ## Without marks and cycles -/

/-- The node at the end of a path, with all that is called from there below it. -/
def calledNode (g : CallGraph) (start : Position) (p : List EdgeId) : CallNode where
  frame := g.frameAt (endOf start p)
  depth := p.length
  children := g.enabledDegree (g.vertexAt (endOf start p))

/-- Without a limit and where no cycle can be reached, only marks keep a node from being
expanded. -/
theorem expands_iff_of_acyclic (acyclic : ¬g.HasCycle start)
    (path : g.IsPath (g.vertexAt start) p) :
    g.Expands none seen start p ↔ ¬Marked seen (g.vertexAt (endOf start p)) := by
  constructor
  · exact fun expands => expands.1.unmarked
  · intro unmarked
    refine ⟨⟨unmarked, fun repeats => ?_⟩, hasRoom_none _⟩
    have distinct := nodup_stops_of_acyclic acyclic path
    rw [stops_eq_dropLast_append, List.nodup_append] at distinct
    exact distinct.2.2 _ (List.mem_reverse.1 repeats.2) _ (List.mem_singleton_self _) rfl

/-- Lists of paths in preorder are the same if they have the same members. -/
theorem eq_of_pairwise_precedes {a b : List (List EdgeId)} (first : a.Pairwise Precedes)
    (second : b.Pairwise Precedes) (same : ∀ p, p ∈ a ↔ p ∈ b) : a = b := by
  have perm := (List.perm_ext_iff_of_nodup (nodup_of_pairwise_precedes first)
    (nodup_of_pairwise_precedes second)).2 same
  refine perm.eq_of_pairwise ?_ first second
  have asymm : Std.Asymm fun a b : EdgeId => b.index < a.index :=
    ⟨fun _ _ more less => Nat.lt_asymm more less⟩
  intro p q _ _ before behind
  exact absurd behind ((List.Lex.asymm _).asymm p q before)

/-! ## From a position -/

theorem shownNode_nil (g : CallGraph) (maxDepth : Option Nat) (seen : Array Bool)
    (start : Position) :
    g.shownNode maxDepth seen start []
      = ⟨g.frameAt start, 0,
          if g.Expands maxDepth seen start [] then g.enabledDegree (g.vertexAt start) else 0⟩ :=
  rfl

theorem shows_nil (g : CallGraph) (maxDepth : Option Nat) (seen : Array Bool) (start : Position) :
    g.Shows maxDepth seen start [] := ⟨trivial, forall_before_nil⟩

/-- Nothing lies below a position that is not expanded. -/
theorem shows_iff_of_leaf (leaf : ¬g.Expands maxDepth seen start []) (p : List EdgeId) :
    g.Shows maxDepth seen start p ↔ p = [] := by
  constructor
  · rintro ⟨-, goes⟩
    by_contra differs
    exact leaf (goes [] List.nil_prefix fun same => differs same.symm)
  · rintro rfl
    exact g.shows_nil maxDepth seen start

/-- Some paths and the nodes they lead to are those of a position and of what lies below it. -/
structure ListsShown (g : CallGraph) (maxDepth : Option Nat) (seen : Array Bool) (start : Position)
    (nodes : List CallNode) (paths : List (List EdgeId)) : Prop where
  nodes : nodes = paths.map (g.shownNode maxDepth seen start)
  mem_iff : ∀ p, p ∈ paths ↔ g.Shows maxDepth seen start p
  ordered : paths.Pairwise Precedes

theorem listsShown_of_leaf (leaf : ¬g.Expands maxDepth seen start []) :
    g.ListsShown maxDepth seen start [⟨g.frameAt start, 0, 0⟩] [[]] where
  nodes := by rw [List.map_singleton, shownNode_nil, if_neg leaf]
  mem_iff p := by rw [List.mem_singleton, shows_iff_of_leaf leaf]
  ordered := List.pairwise_singleton _ _

theorem Explores.listsShown_of_expands (wf : g.WellFormed) (full : g.mode = .full)
    (expands : g.Expands maxDepth seen start [])
    (inner : g.Explores maxDepth [g.vertexAt start] seen (g.callees (g.vertexAt start)) forest
      after) :
    g.ListsShown maxDepth seen start
      (⟨g.frameAt start, 0, forest.count⟩ :: (forest.stations g 1).map Prod.snd)
      ([] :: forest.paths []) where
  nodes := by
    have stations := inner.stations_eq (p := []) full rfl rfl
    rw [List.length_singleton] at stations
    rw [List.map_cons, ← stations, shownNode_nil, if_pos expands, inner.count_eq, length_callees]
  mem_iff p := by
    rw [List.mem_cons, inner.mem_paths_iff (p := []) wf full rfl rfl]
    cases p with
    | nil => exact iff_of_true (.inl rfl) (g.shows_nil maxDepth seen start)
    | cons e rest =>
      rw [Shows, IsPath, forall_before_cons_iff]
      constructor
      · rintro (none | ⟨f, called, rest', same, path, goes⟩)
        · cases none
        · obtain ⟨rfl, rfl⟩ := List.cons.inj same
          obtain ⟨enabled, source⟩ := (wf.mem_enabledOut _ e).1 (List.mem_reverse.1 called)
          exact ⟨⟨enabled, source, path⟩, expands, goes⟩
      · rintro ⟨⟨enabled, source, path⟩, -, goes⟩
        have called := List.mem_reverse.2 ((wf.mem_enabledOut _ e).2 ⟨enabled, source⟩)
        exact .inr ⟨e, called, rest, rfl, path, goes⟩
  ordered := (inner.sorted wf rfl (wf.callees_sorted _)).pathsFrom_pairwise

/-- In full mode exploring a position lists the paths that go on from nodes that are expanded. -/
theorem Explores.exists_listsShown (wf : g.WellFormed) (full : g.mode = .full)
    (explores : g.Explores maxDepth [] seen [start] forest after) :
    ∃ paths, g.ListsShown maxDepth seen start ((forest.stations g 0).map Prod.snd) paths := by
  cases explores with
  | closed shut more =>
    cases more
    exact ⟨_, listsShown_of_leaf fun expands => shut expands.1⟩
  | cut opens none more =>
    cases more
    exact ⟨_, listsShown_of_leaf fun expands => none expands.2⟩
  | expanded opens room inner more =>
    cases more
    rw [mark_of_full full] at inner
    rw [Forest.stations_singleton]
    exact ⟨_, listsShown_of_expands wf full ⟨opens, room⟩ inner⟩

end CallGraph

/-- In full mode the call tree at any position lists the paths that go on from nodes that are
expanded, and the walk over it ends. -/
theorem Stepper.exists_listsShown {s : Stepper} (placed : s.Placed) (full : s.graph.mode = .full)
    {here : Position} (current : s.cursor.current = some here) (maxDepth : Option Nat) :
    ∃ nodes paths final, s.callTree maxDepth = (nodes, final)
      ∧ (s.walk maxDepth).Ends s.graph nodes final
      ∧ s.graph.ListsShown maxDepth s.cursor.discovered here nodes paths := by
  obtain ⟨forest, final, explores, ends⟩ := placed.exists_explored current maxDepth
  obtain ⟨paths, lists⟩ := explores.exists_listsShown placed.graph full
  exact ⟨_, paths, final, ends.drain_eq, ends, lists⟩

end TemplateTrace
