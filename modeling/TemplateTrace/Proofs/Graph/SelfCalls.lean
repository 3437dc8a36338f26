import TemplateTrace.Proofs.Graph.Backtracing
import TemplateTrace.Proofs.Graph.DepthFirst
set_option autoImplicit false

/-!
# Steps that call themselves

In minimized mode a step that enters a vertex makes those calls of it wait that lead to vertices
without a mark.  It looks at the marks before it marks the vertex itself, so a call of the vertex to
itself comes to wait as well, although the vertex is marked by then.  That is the only kind of call
to a marked vertex that comes to wait (`Stepper.Entry.unmarkedCalls_eq`), and a run takes such a
call just when a vertex that calls itself can be reached (`Stepper.meetsMarked_iff`).
-/

namespace TemplateTrace

namespace Stepper

/-- A step enters the vertex of a position, and what waits behind the position is left. -/
structure Entry (s : Stepper) (here : Position) (later : List Position) (next : Stepper) :
    Prop where
  waits : s.cursor.pending = here :: later
  enters : s.enters (s.graph.vertexAt here) = true
  taken : s.step = .ok next

/-- The enabled calls of a vertex that lead to vertices which a cursor has not marked, in the order
in which they were discovered. -/
def unmarkedCalls (s : Stepper) (c : Cursor) (v : VertexId) : List EdgeId :=
  (s.graph.enabledOut v).filter fun e => !c.isDiscovered (s.graph.edge e).target

/-- A step enters a vertex and makes a call wait before what waited already. -/
def Pushes (s next : Stepper) (e : EdgeId) : Prop :=
  ∃ here later front, s.Entry here later next ∧ next.cursor.pending = front ++ later
    ∧ .edge e ∈ front

variable {s next : Stepper} {here : Position} {later : List Position} {e : EdgeId}

/-! ## One step -/

theorem children_of_minimized (minimized : s.graph.mode ≠ .full) (v : VertexId) :
    s.children v = s.unmarkedCalls s.cursor v := by
  refine List.filter_congr ?_
  intro e _
  rw [Bool.eq_iff_iff, enters_iff, or_iff_right minimized, Bool.not_eq_true']

/-- What waits behind a position is left by the step that takes it. -/
theorem later_subset_cursorAfter (s : Stepper) (here : Position) (later : List Position) :
    later ⊆ (s.cursorAfter here later).pending := by
  cases entered : s.enters (s.graph.vertexAt here) with
  | true =>
    rw [pending_of_enters entered]
    exact List.subset_append_right _ _
  | false =>
    rw [cursorAfter_of_not_enters entered]
    exact List.Subset.refl _

theorem mem_unmarkedCalls_iff (s : Stepper) (c : Cursor) (v : VertexId) (e : EdgeId) :
    e ∈ s.unmarkedCalls c v
      ↔ e ∈ s.graph.enabledOut v ∧ c.isDiscovered (s.graph.edge e).target = false := by
  rw [unmarkedCalls, List.mem_filter, Bool.not_eq_true']

namespace Entry

theorem next_eq (entry : s.Entry here later next) :
    next = ⟨s.graph, s.cursorAfter here later, s.cursor :: s.history⟩ := by
  have taken := entry.taken
  rw [step_of_pending entry.waits] at taken
  exact (Except.ok.inj taken).symm

/-- The calls that come to wait are chosen by the marks before the step. -/
theorem pending_eq (entry : s.Entry here later next) (minimized : s.graph.mode ≠ .full) :
    next.cursor.pending
      = (s.unmarkedCalls s.cursor (s.graph.vertexAt here)).map .edge ++ later := by
  rw [entry.next_eq, pending_of_enters entry.enters, children_of_minimized minimized]

theorem unmarked (entry : s.Entry here later next) (minimized : s.graph.mode ≠ .full) :
    s.cursor.isDiscovered (s.graph.vertexAt here) = false :=
  ((s.enters_iff _).1 entry.enters).resolve_left minimized

/-- After the step one more vertex is marked. -/
theorem isDiscovered_iff (entry : s.Entry here later next) (fits : s.cursor.Fits s.graph)
    (within : (s.graph.vertexAt here).index < s.graph.vertices.size) (v : VertexId) :
    next.cursor.isDiscovered v = true
      ↔ v = s.graph.vertexAt here ∨ s.cursor.isDiscovered v = true := by
  rw [entry.next_eq]
  exact isDiscovered_cursorAfter fits within v

/-- By the marks after the step, the calls that come to wait lead to vertices without a mark, or to
the vertex that is entered. -/
theorem unmarkedCalls_eq (entry : s.Entry here later next) (minimized : s.graph.mode ≠ .full)
    (fits : s.cursor.Fits s.graph)
    (within : (s.graph.vertexAt here).index < s.graph.vertices.size) :
    s.unmarkedCalls s.cursor (s.graph.vertexAt here)
      = (s.graph.enabledOut (s.graph.vertexAt here)).filter fun e =>
        (s.graph.edge e).target == s.graph.vertexAt here
          || !next.cursor.isDiscovered (s.graph.edge e).target := by
  refine List.filter_congr ?_
  intro e _
  have marks := entry.isDiscovered_iff fits within (s.graph.edge e).target
  by_cases same : (s.graph.edge e).target = s.graph.vertexAt here
  · rw [same, entry.unmarked minimized, beq_self_eq_true]
    rfl
  · rw [or_iff_right same, ← Bool.eq_iff_iff] at marks
    rw [marks, beq_eq_false_iff_ne.2 same, Bool.false_or]

/-- What comes to wait is what the marks after the step would choose just when the vertex does not
call itself. -/
theorem pending_eq_iff (entry : s.Entry here later next) (minimized : s.graph.mode ≠ .full)
    (fits : s.cursor.Fits s.graph)
    (within : (s.graph.vertexAt here).index < s.graph.vertices.size) :
    next.cursor.pending
        = (s.unmarkedCalls next.cursor (s.graph.vertexAt here)).map .edge ++ later
      ↔ ∀ e ∈ s.graph.enabledOut (s.graph.vertexAt here),
        (s.graph.edge e).target ≠ s.graph.vertexAt here := by
  have now := (entry.isDiscovered_iff fits within (s.graph.vertexAt here)).2 (.inl rfl)
  rw [entry.pending_eq minimized, List.append_cancel_right_eq,
    List.map_inj_right fun _ _ => Position.edge.inj, entry.unmarkedCalls_eq minimized fits within]
  constructor
  · intro same e called self
    have mem : e ∈ (s.graph.enabledOut (s.graph.vertexAt here)).filter fun e =>
        (s.graph.edge e).target == s.graph.vertexAt here
          || !next.cursor.isDiscovered (s.graph.edge e).target :=
      List.mem_filter.2 ⟨called, by rw [self, beq_self_eq_true, Bool.true_or]⟩
    rw [same, unmarkedCalls, List.mem_filter, self, now] at mem
    exact Bool.false_ne_true mem.2
  · intro others
    refine List.filter_congr ?_
    intro e called
    rw [beq_eq_false_iff_ne.2 (others e called), Bool.false_or]

end Entry

/-- A step makes the calls of the vertex wait that lead to vertices without a mark before it. -/
theorem pushes_iff (minimized : s.graph.mode ≠ .full) :
    s.Pushes next e ↔ ∃ here later, s.Entry here later next
      ∧ e ∈ s.graph.enabledOut (s.graph.vertexAt here)
      ∧ s.cursor.isDiscovered (s.graph.edge e).target = false := by
  refine exists_congr fun here => exists_congr fun later => ?_
  constructor
  · rintro ⟨front, entry, waits, mem⟩
    rw [entry.pending_eq minimized, List.append_cancel_right_eq] at waits
    rw [← waits, List.mem_map_of_injective fun _ _ => Position.edge.inj] at mem
    exact ⟨entry, (s.mem_unmarkedCalls_iff _ _ e).1 mem⟩
  · rintro ⟨entry, call⟩
    exact ⟨_, entry, entry.pending_eq minimized,
      List.mem_map_of_mem ((s.mem_unmarkedCalls_iff _ _ e).2 call)⟩

/-! ## Runs -/

variable {g : CallGraph}

theorem stepUpTo_waits_cases {n : Nat}
    (waits : .edge e ∈ ((start g).stepUpTo (n + 1)).cursor.pending) :
    .edge e ∈ ((start g).stepUpTo n).cursor.pending
      ∨ ((start g).stepUpTo n).Pushes ((start g).stepUpTo (n + 1)) e := by
  by_cases finished : ((start g).stepUpTo n).cursor.isFinished = true
  · rw [stepUpTo_add, stepUpTo_of_finished finished] at waits
    exact .inl waits
  · obtain ⟨next, taken⟩ := exists_step_of_not_finished finished
    rw [stepUpTo_succ_eq _ n taken] at waits ⊢
    obtain ⟨here, later, before, rfl⟩ := step_cases taken
    cases entered : ((start g).stepUpTo n).enters (((start g).stepUpTo n).graph.vertexAt here) with
    | false =>
      rw [cursorAfter_of_not_enters entered] at waits
      exact .inl (before ▸ List.mem_cons_of_mem _ waits)
    | true =>
      have after : (((start g).stepUpTo n).cursorAfter here later).pending
          = (((start g).stepUpTo n).children (((start g).stepUpTo n).graph.vertexAt here)).map
              .edge ++ later :=
        pending_of_enters entered
      simp only [after, List.mem_append] at waits
      rcases waits with front | rest
      · exact .inr ⟨here, later, _, ⟨before, entered, taken⟩, after, front⟩
      · exact .inl (before ▸ List.mem_cons_of_mem _ rest)

/-- What waits in a run was made to wait by one of its steps. -/
theorem exists_pushes_of_waits {n : Nat} (waits : .edge e ∈ ((start g).stepUpTo n).cursor.pending) :
    ∃ j < n, ((start g).stepUpTo j).Pushes ((start g).stepUpTo (j + 1)) e := by
  induction n with
  | zero => simp [stepUpTo, start, Cursor.start] at waits
  | succ n ih =>
    rcases stepUpTo_waits_cases waits with before | pushed
    · obtain ⟨j, less, pushed⟩ := ih before
      exact ⟨j, Nat.lt_succ_of_lt less, pushed⟩
    · exact ⟨n, Nat.lt_succ_self n, pushed⟩

/-- What waits is taken before a run finishes. -/
theorem exists_current_of_waits {m n : Nat} (waits : here ∈ (s.stepUpTo m).cursor.pending)
    (finished : (s.stepUpTo n).cursor.isFinished = true) :
    ∃ k, m ≤ k ∧ (s.stepUpTo k).cursor.current = some here := by
  by_contra never
  have stays (d : Nat) : here ∈ (s.stepUpTo (m + d)).cursor.pending := by
    induction d with
    | zero => exact waits
    | succ d ih =>
      cases before : (s.stepUpTo (m + d)).cursor.pending with
      | nil => rw [before] at ih; cases ih
      | cons now later =>
        have other : here ≠ now := by
          rintro rfl
          exact never ⟨m + d, Nat.le_add_right m d, Cursor.current_eq_some_iff.2 ⟨later, before⟩⟩
        rw [before] at ih
        rw [← Nat.add_assoc, stepUpTo_succ_eq s _ (step_of_pending before)]
        exact later_subset_cursorAfter _ now later ((List.mem_cons.1 ih).resolve_left other)
  have nothing : (s.stepUpTo (m + n)).cursor.pending = [] := by
    rw [stepUpTo_eq_of_finished finished (Nat.le_add_left n m)]
    exact Cursor.isFinished_iff.1 finished
  have mem := stays n
  rw [nothing] at mem
  cases mem

/-- In minimized mode a call that is made to wait leads to a vertex without a mark, and after the
step to one with a mark just when it leads back to where it comes from. -/
theorem Searching.of_pushes {visited : List VertexId} (searching : s.Searching visited)
    (wf : s.graph.WellFormed) (minimized : s.graph.mode ≠ .full) (pushed : s.Pushes next e) :
    e ∈ s.graph.enabledEdges ∧ s.graph.Reachable (s.graph.edge e).source
      ∧ s.cursor.isDiscovered (s.graph.edge e).target = false
      ∧ (next.cursor.isDiscovered (s.graph.edge e).target = true
        ↔ (s.graph.edge e).target = (s.graph.edge e).source) := by
  obtain ⟨here, later, entry, called, fresh⟩ := (pushes_iff minimized).1 pushed
  obtain ⟨enabled, source⟩ := (wf.mem_enabledOut _ e).1 called
  have now : here ∈ s.cursor.pending := entry.waits ▸ List.mem_cons_self
  have marks := entry.isDiscovered_iff searching.fits (searching.vertexAt_lt wf now)
  refine ⟨enabled, source ▸ searching.reachable now, fresh, ?_⟩
  rw [marks, source, fresh]
  exact or_iff_left Bool.false_ne_true

/-- The step that marks a vertex enters it. -/
theorem Searching.exists_entry {visited : List VertexId} (searching : s.Searching visited)
    (wf : s.graph.WellFormed) (taken : s.step = .ok next) {v : VertexId}
    (unmarked : s.cursor.isDiscovered v = false) (marked : next.cursor.isDiscovered v = true) :
    ∃ here later, s.Entry here later next ∧ s.graph.vertexAt here = v := by
  obtain ⟨here, later, waits, rfl⟩ := step_cases taken
  have within := searching.vertexAt_lt wf (waits ▸ List.mem_cons_self)
  have marks := (isDiscovered_cursorAfter searching.fits within v).1 marked
  rw [unmarked, or_iff_left Bool.false_ne_true] at marks
  subst marks
  exact ⟨here, later, ⟨waits, (s.enters_iff _).2 (.inr unmarked), taken⟩, rfl⟩

/-- A vertex that is marked in a run was marked by one of its steps. -/
theorem exists_marking {n : Nat} {v : VertexId}
    (marked : ((start g).stepUpTo n).cursor.isDiscovered v = true) :
    ∃ j < n, ((start g).stepUpTo j).cursor.isDiscovered v = false
      ∧ ((start g).stepUpTo (j + 1)).cursor.isDiscovered v = true := by
  induction n with
  | zero =>
    rw [stepUpTo, start, Cursor.isDiscovered_start] at marked
    cases marked
  | succ n ih =>
    cases before : ((start g).stepUpTo n).cursor.isDiscovered v with
    | false => exact ⟨n, Nat.lt_succ_self n, before, marked⟩
    | true =>
      obtain ⟨j, less, marking⟩ := ih before
      exact ⟨j, Nat.lt_succ_of_lt less, marking⟩

/-- A run over a graph takes a call which led to a marked vertex as soon as it waited. -/
def MeetsMarked (g : CallGraph) : Prop :=
  ∃ j k e, j < k ∧ ((start g).stepUpTo j).Pushes ((start g).stepUpTo (j + 1)) e
    ∧ ((start g).stepUpTo (j + 1)).cursor.isDiscovered (g.edge e).target = true
    ∧ ((start g).stepUpTo k).cursor.current = some (.edge e)

/-- A vertex that can be reached and calls itself is entered, its call to itself waits then, and is
taken in the end. -/
theorem meetsMarked_of_selfCall (wf : g.WellFormed) (minimized : g.mode ≠ .full)
    (enabled : e ∈ g.enabledEdges) (reachable : g.Reachable (g.edge e).source)
    (self : (g.edge e).target = (g.edge e).source) : MeetsMarked g := by
  obtain ⟨n, finished, -⟩ := exists_finished wf minimized
  have nothing := Cursor.isFinished_iff.1 finished
  have atEnd := searching_stepUpTo wf minimized n
  have graphAtEnd : ((start g).stepUpTo n).graph = g := stepUpTo_graph _ n
  have visited := (atEnd.mem_iff_of_finished (graphAtEnd.symm ▸ wf) nothing (g.edge e).source).2
    (graphAtEnd.symm ▸ reachable)
  obtain ⟨j, -, unmarked, marked⟩ := exists_marking ((atEnd.marks _).2 visited)
  have graph : ((start g).stepUpTo j).graph = g := stepUpTo_graph _ j
  have goes : ((start g).stepUpTo j).cursor.isFinished ≠ true := by
    intro stopped
    rw [stepUpTo_add, stepUpTo_of_finished stopped, unmarked] at marked
    cases marked
  obtain ⟨next, taken⟩ := exists_step_of_not_finished goes
  have after := stepUpTo_succ_eq _ j taken
  rw [after] at marked
  obtain ⟨here, later, entry, entered⟩ := (searching_stepUpTo wf minimized j).exists_entry
    (graph.symm ▸ wf) taken unmarked marked
  have call : e ∈ ((start g).stepUpTo j).unmarkedCalls ((start g).stepUpTo j).cursor
      (((start g).stepUpTo j).graph.vertexAt here) := by
    rw [mem_unmarkedCalls_iff, entered, graph, self]
    exact ⟨(wf.mem_enabledOut _ e).2 ⟨enabled, rfl⟩, unmarked⟩
  have waits := entry.pending_eq (graph.symm ▸ minimized)
  have mem : .edge e ∈ next.cursor.pending := by
    rw [waits]
    exact List.mem_append_left _ (List.mem_map_of_mem call)
  obtain ⟨k, after_le, current⟩ := exists_current_of_waits (after.symm ▸ mem) finished
  refine ⟨j, k, e, after_le, ?_, ?_, current⟩
  · rw [after]
    exact ⟨here, later, _, entry, waits, List.mem_map_of_mem call⟩
  · rwa [after, self]

/-- A run takes a call that led to a marked vertex just when a vertex that calls itself can be
reached. -/
theorem meetsMarked_iff (wf : g.WellFormed) (minimized : g.mode ≠ .full) :
    MeetsMarked g ↔ ∃ e ∈ g.enabledEdges, g.Reachable (g.edge e).source
      ∧ (g.edge e).target = (g.edge e).source := by
  constructor
  · rintro ⟨j, k, e, -, pushed, marked, -⟩
    have graph : ((start g).stepUpTo j).graph = g := stepUpTo_graph _ j
    have facts := (searching_stepUpTo wf minimized j).of_pushes (graph.symm ▸ wf)
      (graph.symm ▸ minimized) pushed
    rw [graph] at facts
    obtain ⟨enabled, reachable, -, self⟩ := facts
    exact ⟨e, enabled, reachable, self.1 marked⟩
  · rintro ⟨e, enabled, reachable, self⟩
    exact meetsMarked_of_selfCall wf minimized enabled reachable self

/-! ## Minimized mode -/

/-- What a step puts before the positions that waited, by the marks before it and by those after
it. -/
structure PushesSelfCalls (s : Stepper) (here : Position) (later : List Position)
    (next : Stepper) : Prop where
  before : next.cursor.pending
    = (s.unmarkedCalls s.cursor (s.graph.vertexAt here)).map .edge ++ later
  after : s.unmarkedCalls s.cursor (s.graph.vertexAt here)
    = (s.graph.enabledOut (s.graph.vertexAt here)).filter fun e =>
      (s.graph.edge e).target == s.graph.vertexAt here
        || !next.cursor.isDiscovered (s.graph.edge e).target
  /-- the marks after the step choose the same calls just when the vertex does not call itself -/
  same_iff : next.cursor.pending
      = (s.unmarkedCalls next.cursor (s.graph.vertexAt here)).map .edge ++ later
    ↔ ∀ e ∈ s.graph.enabledOut (s.graph.vertexAt here),
      (s.graph.edge e).target ≠ s.graph.vertexAt here

/-- A call that a run takes was made to wait by an earlier step.  It led to a vertex without a mark
before that step, and to one with a mark after it just when the call leads back to where it comes
from. -/
def TakesUnmarked (g : CallGraph) (n : Nat) (e : EdgeId) : Prop :=
  ∃ j < n, ((start g).stepUpTo j).Pushes ((start g).stepUpTo (j + 1)) e
    ∧ ((start g).stepUpTo j).cursor.isDiscovered (g.edge e).target = false
    ∧ (((start g).stepUpTo (j + 1)).cursor.isDiscovered (g.edge e).target = true
      ↔ (g.edge e).target = (g.edge e).source)

/-- Whatever moves were made, a step that enters a vertex makes those enabled calls wait that lead
to vertices without a mark once the vertex itself is marked. -/
def SkipsMarked (g : CallGraph) : Prop :=
  ∀ moves here later next, ((start g).performAll moves).Entry here later next →
    next.cursor.pending = (((start g).performAll moves).unmarkedCalls next.cursor
      (((start g).performAll moves).graph.vertexAt here)).map .edge ++ later

theorem Grounded.pushesSelfCalls (grounded : s.Grounded) (entry : s.Entry here later next) :
    s.PushesSelfCalls here later next := by
  have now : here ∈ s.cursor.pending := entry.waits ▸ List.mem_cons_self
  have fits := grounded.cursor.fits
  have within := grounded.cursor.vertexAt_lt grounded.graph now
  exact ⟨entry.pending_eq grounded.minimized,
    entry.unmarkedCalls_eq grounded.minimized fits within,
    entry.pending_eq_iff grounded.minimized fits within⟩

theorem takesUnmarked (wf : g.WellFormed) (minimized : g.mode ≠ .full) {n : Nat}
    (current : ((start g).stepUpTo n).cursor.current = some (.edge e)) : TakesUnmarked g n e := by
  obtain ⟨later, waits⟩ := Cursor.current_eq_some_iff.1 current
  obtain ⟨j, less, pushed⟩ := exists_pushes_of_waits (waits ▸ List.mem_cons_self)
  have graph : ((start g).stepUpTo j).graph = g := stepUpTo_graph _ j
  have facts := (searching_stepUpTo wf minimized j).of_pushes (graph.symm ▸ wf)
    (graph.symm ▸ minimized) pushed
  rw [graph] at facts
  exact ⟨j, less, pushed, facts.2.2⟩

/-- In minimized mode a step that enters a vertex makes the enabled calls wait, in the order in
which they were discovered, that led to vertices without a mark before the step.  By the marks after
it these are the calls to vertices without a mark and those of the vertex to itself.  So a run takes
a call that led to a marked vertex as soon as it waited just when a vertex that calls itself can be
reached. -/
theorem minimized_pushes_self_calls {g : CallGraph} (recorded : g.Recorded)
    (minimized : g.mode = .minimized) :
    (∀ moves here later next, ((start g).performAll moves).Entry here later next →
        ((start g).performAll moves).PushesSelfCalls here later next)
      ∧ (∀ n e, ((start g).stepUpTo n).cursor.current = some (.edge e) → TakesUnmarked g n e)
      ∧ (MeetsMarked g ↔ ∃ e ∈ g.enabledEdges, g.Reachable (g.edge e).source
        ∧ (g.edge e).target = (g.edge e).source) := by
  have wf := recorded.wellFormed
  have notFull : g.mode ≠ .full := by
    rw [minimized]
    exact Mode.noConfusion
  refine ⟨?_, ?_, meetsMarked_iff wf notFull⟩
  · intro moves here later next entry
    exact ((grounded_start wf notFull).performAll moves).pushesSelfCalls entry
  · intro n e current
    exact takesUnmarked wf notFull current

theorem selfCall_recursion : ∃ e ∈ (Recorder.recursionGraph .minimized).enabledEdges,
    (Recorder.recursionGraph .minimized).Reachable
        ((Recorder.recursionGraph .minimized).edge e).source
      ∧ ((Recorder.recursionGraph .minimized).edge e).target
        = ((Recorder.recursionGraph .minimized).edge e).source := by
  refine ⟨⟨1⟩, by decide +kernel, ⟨[⟨0⟩], ?_, rfl⟩, rfl⟩
  exact ⟨List.mem_cons_self, rfl, trivial⟩

/-- The call of a step to itself is taken after its vertex was marked. -/
theorem minimized_pushes_self_calls_recursion :
    (Recorder.recursionGraph .minimized).Recorded
      ∧ (Recorder.recursionGraph .minimized).mode = .minimized
      ∧ MeetsMarked (Recorder.recursionGraph .minimized)
      ∧ TakesUnmarked (Recorder.recursionGraph .minimized) 2 ⟨1⟩ := by
  have recorded := Recorder.recursionGraph_recorded .minimized
  obtain ⟨-, takes, meets⟩ := minimized_pushes_self_calls recorded rfl
  exact ⟨recorded, rfl, meets.2 selfCall_recursion, takes 2 ⟨1⟩ rfl⟩

/-- Not all calls to marked vertices are skipped: that of a step to itself waits, and is taken. -/
theorem not_skipsMarked_recursion :
    (Recorder.recursionGraph .minimized).Recorded
      ∧ (Recorder.recursionGraph .minimized).mode = .minimized
      ∧ ¬SkipsMarked (Recorder.recursionGraph .minimized)
      ∧ MeetsMarked (Recorder.recursionGraph .minimized) := by
  have recorded := Recorder.recursionGraph_recorded .minimized
  refine ⟨recorded, rfl, ?_, ?_⟩
  · intro skips
    have entry : ((start (Recorder.recursionGraph .minimized)).performAll [.step]).Entry
        (.edge ⟨0⟩) [] ((start (Recorder.recursionGraph .minimized)).stepUpTo 2) :=
      ⟨rfl, rfl, rfl⟩
    exact absurd (skips [.step] _ _ _ entry) (by decide +kernel)
  · exact (meetsMarked_iff recorded.wellFormed Mode.noConfusion).2 selfCall_recursion

end Stepper

end TemplateTrace
