import TemplateTrace.Proofs.Graph.Recorded
import TemplateTrace.Proofs.Graph.Stepping
set_option autoImplicit false

/-!
# Backtraces

Whatever was done with a stepper, its backtrace leads from the current frame to the root frame and
is not longer than the graph allows (`Stepper.showsWay`).  In minimized mode it is never cut off,
and the edges on it form a chain that passes no vertex twice: a vertex is entered once, from an edge
whose source was entered before, so the parents lead back through ever older vertices
(`Cursor.Grounded`).
-/

namespace TemplateTrace

namespace Cursor

/-! ## The way back -/

/-- Whether the way back from a position is cut off because it has more than so many edges. -/
def CutsOff (c : Cursor) (g : CallGraph) : Nat → Position → Prop
  | _, .root => False
  | 0, .edge _ => True
  | n + 1, .edge e => c.CutsOff g n (c.parent (g.edge e).source)

/-- The parents lead from a position back to the root along some edges, innermost first. -/
inductive LeadsBack (c : Cursor) (g : CallGraph) : Position → List EdgeId → Prop
  | root : LeadsBack c g .root []
  | edge {e : EdgeId} {outer : List EdgeId}
      (back : LeadsBack c g (c.parent (g.edge e).source) outer) :
      LeadsBack c g (.edge e) (e :: outer)

variable {c : Cursor} {g : CallGraph}

theorem framesFrom_length_le (c : Cursor) (g : CallGraph) (n : Nat) (here : Position) :
    (c.framesFrom g n here).length ≤ n + 1 := by
  induction n generalizing here with
  | zero => cases here <;> exact Nat.le_refl 1
  | succ n ih =>
    cases here with
    | root => exact Nat.le_add_left 1 (n + 1)
    | edge e => exact Nat.succ_le_succ (ih _)

theorem framesFrom_head? (c : Cursor) (g : CallGraph) (n : Nat) (here : Position) :
    (c.framesFrom g (n + 1) here).head? = some (g.frameAt here) := by
  cases here <;> rfl

theorem framesFrom_getLast? (c : Cursor) (g : CallGraph) (n : Nat) (here : Position) :
    (c.framesFrom g n here).getLast? = some g.rootFrame := by
  induction n generalizing here with
  | zero => cases here <;> rfl
  | succ n ih =>
    cases here with
    | root => rfl
    | edge e => rw [framesFrom, List.getLast?_cons, ih, Option.getD_some]

/-- A way back that is short enough is shown as it is. -/
theorem LeadsBack.framesFrom_eq {here : Position} {es : List EdgeId}
    (leads : c.LeadsBack g here es) {n : Nat} (short : es.length ≤ n) :
    c.framesFrom g n here = (es.map fun e => g.frameAt (.edge e)) ++ [g.rootFrame]
      ∧ ¬c.CutsOff g n here := by
  induction leads generalizing n with
  | root =>
    cases n with
    | zero => exact ⟨rfl, id⟩
    | succ n => exact ⟨rfl, id⟩
  | edge _ ih =>
    cases n with
    | zero => exact absurd short (Nat.not_succ_le_zero _)
    | succ n =>
      obtain ⟨frames, whole⟩ := ih (Nat.le_of_succ_le_succ short)
      exact ⟨congrArg _ frames, whole⟩

/-- The way back depends on the parents of the vertices that are passed. -/
theorem LeadsBack.congr {other : Cursor} {here : Position} {es : List EdgeId}
    (leads : c.LeadsBack g here es)
    (same : ∀ e ∈ es, other.parent (g.edge e).source = c.parent (g.edge e).source) :
    other.LeadsBack g here es := by
  induction leads with
  | root => exact .root
  | edge _ ih =>
    obtain ⟨first, rest⟩ := List.forall_mem_cons.1 same
    exact .edge (first.symm ▸ ih rest)

end Cursor

namespace Stepper

/-! ## Any backtrace -/

/-- What holds of the backtrace of any stepper: it leads from the current frame to the root frame,
there is none when the stepper has finished, and it has two frames more than there are edges at
most. -/
structure ShowsWay (s : Stepper) : Prop where
  length_le : s.backtrace.length ≤ s.graph.edges.size + 2
  eq_nil_iff : s.backtrace = [] ↔ s.cursor.isFinished = true
  head? : s.backtrace.head? = s.currentFrame
  getLast? : s.cursor.isFinished ≠ true → s.backtrace.getLast? = some s.graph.rootFrame

theorem backtrace_of_finished {s : Stepper} (nothing : s.cursor.pending = []) :
    s.backtrace = [] := by
  simp only [backtrace, Cursor.backtrace, Cursor.current, nothing, List.head?_nil]

theorem backtrace_of_current {s : Stepper} {here : Position}
    (current : s.cursor.current = some here) :
    s.backtrace = s.cursor.framesFrom s.graph (s.graph.edges.size + 1) here := by
  simp only [backtrace, Cursor.backtrace, current]

theorem showsWay (s : Stepper) : s.ShowsWay := by
  cases waits : s.cursor.pending with
  | nil =>
    have none := backtrace_of_finished waits
    have finished := Cursor.isFinished_iff.2 waits
    refine ⟨?_, iff_of_true none finished, ?_, fun goes => absurd finished goes⟩
    · rw [none]
      exact Nat.zero_le _
    · rw [none, currentFrame, Cursor.current, waits]
      rfl
  | cons here later =>
    have current : s.cursor.current = some here := Cursor.current_eq_some_iff.2 ⟨later, waits⟩
    have goes : s.cursor.isFinished ≠ true := by
      rw [ne_eq, Cursor.isFinished_iff, waits]
      exact List.cons_ne_nil here later
    have first := s.cursor.framesFrom_head? s.graph s.graph.edges.size here
    rw [← backtrace_of_current current] at first
    refine ⟨?_, iff_of_false ?_ goes, ?_, ?_⟩
    · rw [backtrace_of_current current]
      exact s.cursor.framesFrom_length_le s.graph _ here
    · intro none
      rw [none] at first
      cases first
    · rw [first, currentFrame, current]
      rfl
    · intro _
      rw [backtrace_of_current current]
      exact s.cursor.framesFrom_getLast? s.graph _ here

end Stepper

/-! ## Chains of edges -/

namespace CallGraph

/-- Some edges of a graph, innermost first, lead to a vertex from the root: each edge leaves the
vertex that the edge after it leads to, and the last one leaves the root. -/
def Lineage (g : CallGraph) : VertexId → List EdgeId → Prop
  | v, [] => v = root
  | v, e :: outer => e ∈ g.edgeIds ∧ (g.edge e).target = v ∧ g.Lineage (g.edge e).source outer

/-- The vertices that some edges leave. -/
def sources (g : CallGraph) (es : List EdgeId) : List VertexId :=
  es.map fun e => (g.edge e).source

theorem Lineage.subset_edgeIds {g : CallGraph} {v : VertexId} {es : List EdgeId}
    (lineage : g.Lineage v es) : es ⊆ g.edgeIds := by
  induction es generalizing v with
  | nil => exact List.nil_subset _
  | cons e outer ih =>
    obtain ⟨known, -, rest⟩ := lineage
    exact List.cons_subset.2 ⟨known, ih rest⟩

/-- There are no more different edges than a graph has. -/
theorem length_le_of_nodup_of_subset {g : CallGraph} {es : List EdgeId} (distinct : es.Nodup)
    (known : es ⊆ g.edgeIds) : es.length ≤ g.edges.size := by
  have bound := (List.subperm_of_subset distinct known).length_le
  rwa [edgeIds, List.length_map, List.length_range] at bound

/-- Two graphs that have the same vertices, and edges that lead from and to the same ones. -/
structure SameEnds (g other : CallGraph) : Prop where
  mode : other.mode = g.mode
  vertices : other.vertices.size = g.vertices.size
  edges : other.edges.size = g.edges.size
  source : ∀ e, (other.edge e).source = (g.edge e).source
  target : ∀ e, (other.edge e).target = (g.edge e).target

theorem edge_unflagged (g : CallGraph) (e : EdgeId) :
    (g.edge e).unflagged = (g.edges.map Edge.unflagged).getD e.index default := by
  simp only [edge, Array.getD_eq_getD_getElem?, Array.getElem?_map]
  cases g.edges[e.index]? <;> rfl

theorem SameButFlags.sameEnds {g other : CallGraph} (same : g.SameButFlags other) :
    g.SameEnds other := by
  obtain ⟨edges, rest⟩ := same
  have unflagged : ∀ e, (other.edge e).unflagged = (g.edge e).unflagged := by
    intro e
    rw [edge_unflagged, edge_unflagged, edges]
  refine ⟨by rw [rest], by rw [rest], ?_, ?_, ?_⟩
  · simpa using congrArg Array.size edges
  · intro e
    exact (Edge.mk.inj (unflagged e)).1
  · intro e
    exact (Edge.mk.inj (unflagged e)).2.1

theorem SameEnds.vertexAt {g other : CallGraph} (same : g.SameEnds other) (here : Position) :
    other.vertexAt here = g.vertexAt here := by
  cases here with
  | root => rfl
  | edge e => exact same.target e

theorem SameEnds.sources {g other : CallGraph} (same : g.SameEnds other) (es : List EdgeId) :
    other.sources es = g.sources es :=
  List.map_congr_left fun e _ => same.source e

theorem SameEnds.lineage {g other : CallGraph} (same : g.SameEnds other) {v : VertexId}
    {es : List EdgeId} (lineage : g.Lineage v es) : other.Lineage v es := by
  induction es generalizing v with
  | nil => exact lineage
  | cons e outer ih =>
    obtain ⟨known, target, rest⟩ := lineage
    refine ⟨?_, (same.target e).trans target, ?_⟩
    · rwa [edgeIds_eq_of_size_eq same.edges]
    · rw [same.source e]
      exact ih rest

theorem SameEnds.leadsBack {g other : CallGraph} (same : g.SameEnds other) {c : Cursor}
    {here : Position} {es : List EdgeId} (leads : c.LeadsBack g here es) :
    c.LeadsBack other here es := by
  induction leads with
  | root => exact .root
  | edge _ ih => exact .edge (same.source _ ▸ ih)

end CallGraph

/-! ## Parents in minimized mode -/

namespace Cursor

/-- The way back from a position in minimized mode: a chain of edges from the root, through vertices
that were entered, none of them twice. -/
structure Trail (c : Cursor) (g : CallGraph) (here : Position) (es : List EdgeId) : Prop where
  back : c.LeadsBack g here es
  lineage : g.Lineage (g.vertexAt here) es
  distinct : (g.sources es).Nodup
  entered : ∀ e ∈ es, c.isDiscovered (g.edge e).source = true

/-- What holds of the cursor in minimized mode at all times: what waits leaves a vertex that was
entered, and a vertex that was entered has a parent that leads to it and from there a way back on
which it does not lie itself. -/
structure Grounded (c : Cursor) (g : CallGraph) : Prop where
  fits : c.Fits g
  waits : ∀ e, .edge e ∈ c.pending →
    e ∈ g.edgeIds ∧ c.isDiscovered (g.edge e).source = true
  entered : ∀ v, c.isDiscovered v = true → g.vertexAt (c.parent v) = v
    ∧ ∃ es, c.Trail g (c.parent v) es ∧ v ∉ g.sources es

variable {c : Cursor} {g : CallGraph} {here : Position} {es : List EdgeId}

/-- Entering further vertices leaves the ways back as they are. -/
theorem Trail.mono (trail : c.Trail g here es) {other : Cursor}
    (marks : ∀ v, c.isDiscovered v = true → other.isDiscovered v = true)
    (parents : ∀ v, c.isDiscovered v = true → other.parent v = c.parent v) :
    other.Trail g here es where
  back := trail.back.congr fun e mem => parents _ (trail.entered e mem)
  lineage := trail.lineage
  distinct := trail.distinct
  entered e mem := marks _ (trail.entered e mem)

theorem Grounded.exists_trail (grounded : c.Grounded g) (waits : here ∈ c.pending) :
    ∃ es, c.Trail g here es := by
  cases here with
  | root => exact ⟨[], .root, rfl, List.nodup_nil, by simp⟩
  | edge e =>
    obtain ⟨known, entered⟩ := grounded.waits e waits
    obtain ⟨leads, es, trail, fresh⟩ := grounded.entered _ entered
    have lineage := trail.lineage
    rw [leads] at lineage
    exact ⟨e :: es, .edge trail.back, ⟨known, rfl, lineage⟩,
      List.nodup_cons.2 ⟨fresh, trail.distinct⟩,
      List.forall_mem_cons.2 ⟨entered, trail.entered⟩⟩

theorem grounded_start (g : CallGraph) : (Cursor.start g.vertices.size).Grounded g where
  fits := fits_start g
  waits e mem := by simp [Cursor.start] at mem
  entered v marked := by
    rw [isDiscovered_start] at marked
    cases marked

theorem Grounded.vertexAt_lt (grounded : c.Grounded g) (wf : g.WellFormed)
    (waits : here ∈ c.pending) : (g.vertexAt here).index < g.vertices.size := by
  cases here with
  | root => exact wf.root_lt
  | edge e =>
    exact wf.target_lt e ((CallGraph.mem_edgeIds wf.edgeRoom e).1 (grounded.waits e waits).1)

/-- Enabling and disabling edges has no part in where a cursor came from. -/
theorem Grounded.congr (grounded : c.Grounded g) {other : CallGraph} (same : g.SameEnds other) :
    c.Grounded other where
  fits :=
    ⟨same.vertices.symm ▸ grounded.fits.discovered, same.vertices.symm ▸ grounded.fits.parents⟩
  waits e mem := by
    rw [CallGraph.edgeIds_eq_of_size_eq same.edges, same.source e]
    exact grounded.waits e mem
  entered v marked := by
    obtain ⟨leads, es, trail, fresh⟩ := grounded.entered v marked
    refine ⟨(same.vertexAt _).trans leads, es, ⟨same.leadsBack trail.back, ?_, ?_, ?_⟩, ?_⟩
    · rw [same.vertexAt]
      exact same.lineage trail.lineage
    · rw [same.sources]
      exact trail.distinct
    · intro e mem
      rw [same.source]
      exact trail.entered e mem
    · rwa [same.sources]

end Cursor

namespace Stepper

variable {s next : Stepper} {here : Position} {later : List Position}

/-- What waits after a vertex was entered leaves that vertex or one that was entered before. -/
theorem waits_enter (wf : s.graph.WellFormed) (grounded : s.cursor.Grounded s.graph)
    (waits : s.cursor.pending = here :: later)
    (entered : s.enters (s.graph.vertexAt here) = true) {e : EdgeId}
    (mem : .edge e ∈ (s.cursorAfter here later).pending) :
    e ∈ s.graph.edgeIds ∧ ((s.graph.edge e).source = s.graph.vertexAt here
      ∨ s.cursor.isDiscovered (s.graph.edge e).source = true) := by
  rw [pending_of_enters entered] at mem
  rcases List.mem_append.1 mem with mem | mem
  · obtain ⟨_, child, ⟨⟩⟩ := List.mem_map.1 mem
    obtain ⟨enabled, source⟩ := leaves_of_mem_children wf child
    exact ⟨(List.mem_filter.1 enabled).1, .inl source⟩
  · obtain ⟨known, source⟩ := grounded.waits e (waits ▸ List.mem_cons_of_mem _ mem)
    exact ⟨known, .inr source⟩

/-- A vertex that was not entered before is entered from one that was, and no way back from there
passes it. -/
theorem grounded_enter (wf : s.graph.WellFormed) (grounded : s.cursor.Grounded s.graph)
    (waits : s.cursor.pending = here :: later)
    (entered : s.enters (s.graph.vertexAt here) = true)
    (new : s.cursor.isDiscovered (s.graph.vertexAt here) = false) :
    (s.cursorAfter here later).Grounded s.graph := by
  have now : here ∈ s.cursor.pending := waits ▸ List.mem_cons_self
  have within := grounded.vertexAt_lt wf now
  have marks : ∀ v, (s.cursorAfter here later).isDiscovered v = true
      ↔ v = s.graph.vertexAt here ∨ s.cursor.isDiscovered v = true :=
    isDiscovered_cursorAfter grounded.fits within
  have parent : ∀ v, (s.cursorAfter here later).parent v
      = if v = s.graph.vertexAt here then here else s.cursor.parent v :=
    parent_cursorAfter grounded.fits within entered
  have older : ∀ v, s.cursor.isDiscovered v = true → v ≠ s.graph.vertexAt here := by
    rintro _ marked rfl
    rw [new] at marked
    cases marked
  have extend : ∀ {p es}, s.cursor.Trail s.graph p es →
      (s.cursorAfter here later).Trail s.graph p es := by
    intro p es trail
    apply trail.mono fun v marked => (marks v).2 (.inr marked)
    intro v marked
    rw [parent, if_neg (older v marked)]
  refine ⟨fits_cursorAfter grounded.fits here later, ?_, ?_⟩
  · intro e mem
    obtain ⟨known, source⟩ := waits_enter wf grounded waits entered mem
    exact ⟨known, (marks _).2 source⟩
  · intro v marked
    by_cases same : v = s.graph.vertexAt here
    · obtain ⟨es, trail⟩ := grounded.exists_trail now
      rw [parent, if_pos same]
      refine ⟨same.symm, es, extend trail, ?_⟩
      intro mem
      obtain ⟨e, passed, source⟩ := List.mem_map.1 mem
      exact older _ (trail.entered e passed) (source.trans same)
    · obtain ⟨leads, es, trail, fresh⟩ :=
        grounded.entered v (((marks v).1 marked).resolve_left same)
      rw [parent, if_neg same]
      exact ⟨leads, es, extend trail, fresh⟩

/-- A step in minimized mode enters a vertex from one that was entered before, or none at all. -/
theorem grounded_cursorAfter (wf : s.graph.WellFormed) (minimized : s.graph.mode ≠ .full)
    (grounded : s.cursor.Grounded s.graph) (waits : s.cursor.pending = here :: later) :
    (s.cursorAfter here later).Grounded s.graph := by
  cases entered : s.enters (s.graph.vertexAt here) with
  | true =>
    have new := ((s.enters_iff _).1 entered).resolve_left minimized
    exact grounded_enter wf grounded waits entered new
  | false =>
    rw [cursorAfter_of_not_enters entered]
    refine ⟨⟨grounded.fits.discovered, grounded.fits.parents⟩, ?_, ?_⟩
    · intro e mem
      exact grounded.waits e (waits ▸ List.mem_cons_of_mem _ mem)
    · intro v marked
      obtain ⟨leads, es, trail, fresh⟩ := grounded.entered v marked
      exact ⟨leads, es, trail.mono (fun _ => id) (fun _ _ => rfl), fresh⟩

/-! ## Any run -/

/-- What may be done with a stepper. -/
inductive Move where
  | step
  | stepMany (n : Nat)
  | stepBack
  | reset
  | toggle (change : Toggle)

/-- The stepper after a move, also where the move is refused. -/
def perform (s : Stepper) : Move → Stepper
  | .step => s.advance.1
  | .stepMany n => (s.stepMany n).2
  | .stepBack => s.retreat.1
  | .reset => s.reset
  | .toggle change => s.onGraph (·.toggle change)

/-- The stepper after some moves one after the other. -/
def performAll (s : Stepper) (moves : List Move) : Stepper :=
  moves.foldl perform s

/-- What holds at first and is kept by every move holds after some moves. -/
theorem performAll_induct {motive : Stepper → Prop} (first : motive s)
    (steps : ∀ s next, motive s → s.step = .ok next → motive next)
    (goesBack : ∀ s before, motive s → s.stepBack = .ok before → motive before)
    (resets : ∀ s, motive s → motive s.reset)
    (toggles : ∀ s change, motive s → motive (s.onGraph (·.toggle change))) (moves : List Move) :
    motive (s.performAll moves) := by
  unfold Stepper.performAll
  induction moves generalizing s with
  | nil => exact first
  | cons move rest ih =>
    refine ih ?_
    cases move with
    | step =>
      cases waits : s.cursor.pending with
      | nil =>
        rw [perform, advance_of_nothing waits]
        exact first
      | cons here later =>
        rw [perform, advance_of_pending waits]
        exact steps s _ first (step_of_pending waits)
    | stepMany n => exact stepUpTo_induct first steps n
    | stepBack =>
      cases past : s.history with
      | nil =>
        rw [perform, retreat_of_start past]
        exact first
      | cons before history =>
        have taken := retreat_of_history past
        rw [perform, taken]
        exact goesBack s _ first (stepBack_eq_ok_iff.2 taken)
    | reset => exact resets s first
    | toggle change => exact toggles s change first

/-- No move changes the mode. -/
theorem performAll_mode (s : Stepper) (moves : List Move) :
    (s.performAll moves).graph.mode = s.graph.mode := by
  refine performAll_induct (motive := fun after => after.graph.mode = s.graph.mode) rfl
    ?_ ?_ ?_ ?_ moves
  · intro before after same taken
    obtain ⟨here, later, -, rfl⟩ := step_cases taken
    exact same
  · intro after before same taken
    obtain ⟨c, history, -, rfl⟩ := stepBack_cases taken
    exact same
  · intro before same
    exact same
  · intro before change same
    exact (congrArg CallGraph.mode (before.graph.sameButFlags_toggle change).2).trans same

/-- The cursor of a stepper and those before it, the last one first. -/
def track (s : Stepper) : List Cursor := s.cursor :: s.history

/-- What holds of a stepper that was moved over a graph: there are as many vertices as there were,
all cursors of the track have a mark and a parent for each of them, and the track ends in the cursor
before the first step. -/
structure MovedOver (s : Stepper) (g : CallGraph) : Prop where
  size : s.graph.vertices.size = g.vertices.size
  fits : ∀ c ∈ s.track, c.Fits g
  begins : s.track.getLast? = some (Cursor.start g.vertices.size)

theorem movedOver_start {g other : CallGraph} (size : other.vertices.size = g.vertices.size) :
    (start other).MovedOver g where
  size := size
  fits c mem := by
    obtain rfl := List.mem_singleton.1 mem
    rw [start, size]
    exact Cursor.fits_start g
  begins := by rw [track, start, size, List.getLast?_singleton]

theorem MovedOver.fits_history {g : CallGraph} (moved : s.MovedOver g) :
    ∀ c ∈ s.history, c.Fits s.graph := fun c mem =>
  (moved.fits c (List.mem_cons_of_mem _ mem)).of_size_eq moved.size

theorem track_of_step (taken : s.step = .ok next) : next.track = next.cursor :: s.track := by
  obtain ⟨here, later, -, rfl⟩ := step_cases taken
  rfl

theorem graph_of_step (taken : s.step = .ok next) : next.graph = s.graph := by
  obtain ⟨here, later, -, rfl⟩ := step_cases taken
  rfl

theorem MovedOver.step {g : CallGraph} (moved : s.MovedOver g) (taken : s.step = .ok next) :
    next.MovedOver g where
  size := (congrArg (·.vertices.size) (graph_of_step taken)).trans moved.size
  fits := by
    have fits := moved.fits s.cursor List.mem_cons_self
    rw [track_of_step taken]
    refine List.forall_mem_cons.2 ⟨?_, moved.fits⟩
    obtain ⟨here, later, -, rfl⟩ := step_cases taken
    have after := fits_cursorAfter (fits.of_size_eq moved.size) here later
    exact after.of_size_eq moved.size.symm
  begins := by
    rw [track_of_step taken, List.getLast?_cons, moved.begins, Option.getD_some]

theorem MovedOver.stepBack {g : CallGraph} (moved : s.MovedOver g)
    (taken : s.stepBack = .ok next) : next.MovedOver g := by
  obtain ⟨c, history, past, rfl⟩ := stepBack_cases_of_fits moved.fits_history taken
  have fits := moved.fits
  have begins := moved.begins
  rw [track, past] at fits begins
  rw [List.getLast?_cons_cons] at begins
  exact ⟨moved.size, (List.forall_mem_cons.1 fits).2, begins⟩

theorem MovedOver.stepUpTo {g : CallGraph} (moved : s.MovedOver g) (n : Nat) :
    (s.stepUpTo n).MovedOver g :=
  stepUpTo_induct (motive := fun t => t.MovedOver g) moved
    (fun _ _ kept taken => kept.step taken) n

theorem movedOver_performAll (g : CallGraph) (moves : List Move) :
    ((start g).performAll moves).MovedOver g := by
  refine performAll_induct (motive := fun s => s.MovedOver g) (movedOver_start rfl)
    (fun _ _ moved taken => moved.step taken) (fun _ _ moved taken => moved.stepBack taken)
    (fun _ moved => movedOver_start moved.size) (fun s change moved => ?_) moves
  have same := (s.graph.sameButFlags_toggle change).sameEnds.vertices
  exact ⟨same.trans moved.size, moved.fits, moved.begins⟩

/-- What holds of a stepper in minimized mode at all times: its cursor and all that it remembers are
grounded. -/
structure Grounded (s : Stepper) : Prop where
  graph : s.graph.WellFormed
  minimized : s.graph.mode ≠ .full
  cursor : s.cursor.Grounded s.graph
  history : ∀ c ∈ s.history, c.Grounded s.graph

theorem grounded_start {g : CallGraph} (wf : g.WellFormed) (minimized : g.mode ≠ .full) :
    (start g).Grounded where
  graph := wf
  minimized := minimized
  cursor := Cursor.grounded_start g
  history := by simp [start]

theorem Grounded.step (grounded : s.Grounded) (taken : s.step = .ok next) : next.Grounded := by
  obtain ⟨here, later, waits, rfl⟩ := step_cases taken
  exact ⟨grounded.graph, grounded.minimized,
    grounded_cursorAfter grounded.graph grounded.minimized grounded.cursor waits,
    List.forall_mem_cons.2 ⟨grounded.cursor, grounded.history⟩⟩

theorem Grounded.stepBack (grounded : s.Grounded) (taken : s.stepBack = .ok next) :
    next.Grounded := by
  obtain ⟨c, history, past, rfl⟩ :=
    stepBack_cases_of_fits (fun c mem => (grounded.history c mem).fits) taken
  have kept := grounded.history
  rw [past, List.forall_mem_cons] at kept
  exact ⟨grounded.graph, grounded.minimized, kept.1, kept.2⟩

theorem Grounded.toggle (grounded : s.Grounded) (change : Toggle) :
    (s.onGraph (·.toggle change)).Grounded := by
  have same := (s.graph.sameButFlags_toggle change).sameEnds
  refine ⟨grounded.graph.toggle change, ?_, grounded.cursor.congr same, ?_⟩
  · exact same.mode.symm ▸ grounded.minimized
  · intro c mem
    exact (grounded.history c mem).congr same

theorem Grounded.performAll (grounded : s.Grounded) (moves : List Move) :
    (s.performAll moves).Grounded :=
  performAll_induct grounded (fun _ _ kept taken => kept.step taken)
    (fun _ _ kept taken => kept.stepBack taken)
    (fun _ kept => grounded_start kept.graph kept.minimized)
    (fun _ change kept => kept.toggle change) moves

/-- A backtrace that is whole: it is not cut off, and its frames are those of a chain of different
edges back to the root, which passes no vertex twice, the current one not counted. -/
structure ShowsChain (s : Stepper) (here : Position) (es : List EdgeId) : Prop where
  whole : ¬s.cursor.CutsOff s.graph (s.graph.edges.size + 1) here
  frames : s.backtrace = (es.map fun e => s.graph.frameAt (.edge e)) ++ [s.graph.rootFrame]
  back : s.cursor.LeadsBack s.graph here es
  chain : s.graph.Lineage (s.graph.vertexAt here) es
  edges : es.Nodup
  vertices : (s.graph.sources es).Nodup

theorem Grounded.exists_showsChain (grounded : s.Grounded)
    (current : s.cursor.current = some here) : ∃ es, s.ShowsChain here es := by
  obtain ⟨later, waits⟩ := Cursor.current_eq_some_iff.1 current
  obtain ⟨es, trail⟩ := grounded.cursor.exists_trail (waits ▸ List.mem_cons_self)
  have distinct := List.Nodup.of_map _ trail.distinct
  have short := CallGraph.length_le_of_nodup_of_subset distinct trail.lineage.subset_edgeIds
  obtain ⟨frames, whole⟩ := trail.back.framesFrom_eq (Nat.le_succ_of_le short)
  exact ⟨es, whole, (backtrace_of_current current).trans frames, trail.back, trail.lineage,
    distinct, trail.distinct⟩

/-- Whatever moves were made over a recorded graph, the backtrace leads from the current frame to
the root frame; in minimized mode it is whole, and a chain of different edges. -/
theorem backtrace_after_moves {g : CallGraph} (recorded : g.Recorded) (moves : List Move) :
    ((start g).performAll moves).ShowsWay
      ∧ (g.mode = .minimized → ∀ here,
          ((start g).performAll moves).cursor.current = some here →
          ∃ es, ((start g).performAll moves).ShowsChain here es) := by
  refine ⟨showsWay _, ?_⟩
  intro minimized here current
  have begun : (start g).Grounded := by
    apply grounded_start recorded.wellFormed
    rw [minimized]
    exact Mode.noConfusion
  exact (begun.performAll moves).exists_showsChain current

/-- The step that a template step repeats is on the way back from the repetition, also after the
cursor has gone on and come back. -/
theorem backtrace_after_moves_recursion :
    (Recorder.recursionGraph .minimized).Recorded
      ∧ ((start (Recorder.recursionGraph .minimized)).performAll
          [.stepMany 3, .toggle (.edge ⟨2⟩ false), .stepBack]).cursor.current = some (.edge ⟨1⟩)
      ∧ ∃ es, ((start (Recorder.recursionGraph .minimized)).performAll
          [.stepMany 3, .toggle (.edge ⟨2⟩ false), .stepBack]).ShowsChain (.edge ⟨1⟩) es :=
  ⟨Recorder.recursionGraph_recorded .minimized, rfl,
    (backtrace_after_moves (Recorder.recursionGraph_recorded .minimized) _).2 rfl _ rfl⟩

end Stepper

end TemplateTrace
