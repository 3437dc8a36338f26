import TemplateTrace.Proofs.Graph.Walking
set_option autoImplicit false

/-!
# Unfolding

In full mode and without a limit nothing is marked, and exploration is the unfolding of a graph
along its enabled edges: below an edge lies what is called from its target, unless the target is one
of the ancestors (`CallGraph.Unfolds`).  The walk from the root yields the unfolding of the root
(`Stepper.exists_unfolds`).
-/

namespace TemplateTrace

namespace CallGraph

/-- Unfolding some edges one after the other, below some ancestors, gives a forest. -/
inductive Unfolds (g : CallGraph) : List VertexId → List EdgeId → Forest → Prop
  | done (above : List VertexId) : Unfolds g above [] .nil
  | closed {above : List VertexId} {e : EdgeId} {rest : List EdgeId} {beside : Forest}
      (repeats : (g.edge e).target ∈ above) (more : Unfolds g above rest beside) :
      Unfolds g above (e :: rest) (.node (.edge e) .nil beside)
  | expanded {above : List VertexId} {e : EdgeId} {rest : List EdgeId} {below beside : Forest}
      (fresh : (g.edge e).target ∉ above)
      (inner : Unfolds g ((g.edge e).target :: above) (g.enabledOut (g.edge e).target).reverse
        below)
      (more : Unfolds g above rest beside) :
      Unfolds g above (e :: rest) (.node (.edge e) below beside)

theorem Unfolds.count_eq {g : CallGraph} {above : List VertexId} {es : List EdgeId}
    {forest : Forest} (unfolds : g.Unfolds above es forest) : forest.count = es.length := by
  induction unfolds with
  | done => rfl
  | closed _ _ ih => rw [Forest.count, ih, List.length_cons]
  | expanded _ _ _ _ ih => rw [Forest.count, ih, List.length_cons]

/-- Exploration that looks for cycles opens every vertex that is not marked and repeats none. -/
theorem opens_iff_of_guards {g : CallGraph} {maxDepth : Option Nat} (guards : g.Guards maxDepth)
    {seen : Array Bool} {v : VertexId} (unmarked : ¬Marked seen v) (above : List VertexId) :
    g.Opens maxDepth above seen v ↔ v ∉ above := by
  constructor
  · exact fun opens mem => opens.unrepeated ⟨guards, mem⟩
  · exact fun fresh => ⟨unmarked, fun known => fresh known.2⟩

theorem Explores.unfolds {g : CallGraph} {maxDepth : Option Nat} (guards : g.Guards maxDepth)
    {above : List VertexId} {seen after : Array Bool} (blank : ∀ v, ¬Marked seen v)
    {here : List Position} {forest : Forest}
    (explores : g.Explores maxDepth above seen here forest after) {es : List EdgeId}
    (edges : here = es.map .edge) : g.Unfolds above es forest := by
  induction explores generalizing es with
  | done above =>
    obtain rfl : es = [] := List.map_eq_nil_iff.1 edges.symm
    exact .done above
  | closed shut _ ih =>
    obtain ⟨e, es, rfl, rfl, rfl⟩ := List.map_eq_cons_iff.1 edges.symm
    rw [opens_iff_of_guards guards (blank _), not_not] at shut
    exact .closed shut (ih blank rfl)
  | cut _ full _ _ =>
    obtain ⟨limit, limited, -⟩ := not_hasRoom_iff.1 full
    rw [guards.2] at limited
    cases limited
  | expanded opens _ inner _ ihBelow ihBeside =>
    obtain ⟨e, es, rfl, rfl, rfl⟩ := List.map_eq_cons_iff.1 edges.symm
    have same := inner.eq_of_full guards.1
    rw [mark_of_full guards.1] at same ihBelow
    subst same
    exact .expanded ((opens_iff_of_guards guards (blank _) _).1 opens) (ihBelow blank rfl)
      (ihBeside blank rfl)

end CallGraph

/-! ## From the root -/

theorem not_marked_replicate (n : Nat) (v : VertexId) : ¬Marked (Array.replicate n false) v := by
  unfold Marked
  rw [VertexId.getD_replicate]
  exact Bool.false_ne_true

namespace Stepper

variable {g : CallGraph}

theorem ancestry_start (g : CallGraph) : g.Ancestry none [] (start g).cursor.discovered :=
  .root (by simp [start, Cursor.start])

/-- Before the first step exploration opens the root. -/
theorem opens_root (g : CallGraph) :
    g.Opens none [] (start g).cursor.discovered CallGraph.root :=
  ⟨not_marked_replicate _ _, fun known => by simpa using known.2⟩

theorem explores_root {below : Forest} {after : Array Bool}
    (inner : g.Explores none [CallGraph.root] (g.mark (start g).cursor.discovered CallGraph.root)
      (g.callees CallGraph.root) below after) :
    g.Explores none [] (start g).cursor.discovered [.root] (.node .root below .nil) after :=
  .expanded (opens_root g) (CallGraph.hasRoom_none _) inner (.done [] after)

/-- In full mode the walk from the root yields the unfolding of the root. -/
theorem exists_unfolds (wf : g.WellFormed) (full : g.mode = .full) :
    ∃ (below : Forest) (final : Walk),
      g.Unfolds [CallGraph.root] (g.enabledOut CallGraph.root).reverse below
        ∧ (start g).stations none = (Forest.node .root below .nil).stations g 0
        ∧ ((start g).walk none).Ends g
          (((Forest.node .root below .nil).stations g 0).map Prod.snd) final
        ∧ (final.cycleDetected = true ↔ below.Closes g [CallGraph.root]) := by
  have guards : g.Guards none := ⟨full, rfl⟩
  obtain ⟨below, after, inner⟩ :=
    CallGraph.exists_explores wf ((ancestry_start g).push (opens_root g) wf.root_lt)
      (g.callees CallGraph.root) fun p mem => wf.callee_lt mem
  obtain ⟨final, stations, ends, -, cycle⟩ :=
    exists_walk_ends (s := start g) wf (ancestry_start g).size rfl wf.root_lt (explores_root inner)
  rw [CallGraph.mark_of_full full] at inner
  refine ⟨below, final, inner.unfolds guards (not_marked_replicate _) rfl, stations, ends,
    cycle.trans ((and_iff_right guards).trans ?_)⟩
  simp [Forest.Closes, CallGraph.vertexAt, start]

end Stepper

end TemplateTrace
