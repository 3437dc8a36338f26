import TemplateTrace.Proofs.Graph.Paths
set_option autoImplicit false

/-!
# Steps of the cursor

What a step changes (`Stepper.step_cases`, with the lemmas on `Stepper.cursorAfter`), and what some
steps one after the other come to.  A stepper that has not finished has taken as many steps as it
was told to (`Stepper.stepsTaken_stepUpTo`).
-/

namespace TemplateTrace

theorem Cursor.isFinished_iff {c : Cursor} : c.isFinished = true ↔ c.pending = [] :=
  List.isEmpty_iff

theorem Cursor.current_eq_some_iff {c : Cursor} {here : Position} :
    c.current = some here ↔ ∃ later, c.pending = here :: later :=
  List.head?_eq_some_iff

theorem Cursor.isDiscovered_start (n : Nat) (v : VertexId) :
    (Cursor.start n).isDiscovered v = false :=
  VertexId.getD_replicate n v false

theorem Cursor.parent_start (n : Nat) (v : VertexId) : (Cursor.start n).parent v = .root := by
  have none : (Array.replicate n (none : Option EdgeId)).getD v.index none = none :=
    VertexId.getD_replicate n v none
  simp only [Cursor.parent, Cursor.start, none]

namespace Stepper

variable {s next : Stepper} {here : Position} {later : List Position}

/-! ## One step -/

theorem advance_of_pending (waits : s.cursor.pending = here :: later) :
    s.advance = (⟨s.graph, s.cursorAfter here later, s.cursor :: s.history⟩, none) := by
  simp only [advance, waits]

/-- A step that is refused changes nothing. -/
theorem advance_of_nothing (nothing : s.cursor.pending = []) :
    s.advance = (s, some .finished) := by
  simp only [advance, nothing]

theorem retreat_of_history {c : Cursor} {history : List Cursor} (past : s.history = c :: history) :
    s.retreat = (⟨s.graph, c.grownTo s.graph.vertices.size, history⟩, none) := by
  simp only [retreat, past]

/-- A step back that is refused changes nothing. -/
theorem retreat_of_start (start : s.history = []) : s.retreat = (s, some .atStart) := by
  simp only [retreat, start]

theorem unlessRefused_eq_ok_iff {moved : Stepper × Option StepFault} :
    unlessRefused moved = .ok next ↔ moved = (next, none) := by
  obtain ⟨after, fault⟩ := moved
  cases fault <;> simp [unlessRefused]

theorem step_eq_ok_iff : s.step = .ok next ↔ s.advance = (next, none) :=
  unlessRefused_eq_ok_iff

theorem stepBack_eq_ok_iff : s.stepBack = .ok next ↔ s.retreat = (next, none) :=
  unlessRefused_eq_ok_iff

theorem step_of_pending (waits : s.cursor.pending = here :: later) :
    s.step = .ok ⟨s.graph, s.cursorAfter here later, s.cursor :: s.history⟩ :=
  step_eq_ok_iff.2 (advance_of_pending waits)

theorem step_of_nothing (nothing : s.cursor.pending = []) : s.step = .error .finished := by
  rw [step, advance_of_nothing nothing, unlessRefused]

/-- A step takes the position that waits next, and remembers the cursor. -/
theorem step_cases (taken : s.step = .ok next) :
    ∃ here later, s.cursor.pending = here :: later
      ∧ next = ⟨s.graph, s.cursorAfter here later, s.cursor :: s.history⟩ := by
  cases waits : s.cursor.pending with
  | nil => rw [step_of_nothing waits] at taken; cases taken
  | cons here later =>
    rw [step_of_pending waits] at taken
    exact ⟨here, later, rfl, (Except.ok.inj taken).symm⟩

/-- A step that is taken back leaves a cursor that was remembered. -/
theorem stepBack_cases (taken : s.stepBack = .ok next) :
    ∃ c history, s.history = c :: history
      ∧ next = ⟨s.graph, c.grownTo s.graph.vertices.size, history⟩ := by
  have moved := stepBack_eq_ok_iff.1 taken
  cases past : s.history with
  | nil => rw [retreat_of_start past] at moved; cases moved
  | cons c history =>
    rw [retreat_of_history past] at moved
    exact ⟨c, history, rfl, (congrArg Prod.fst moved).symm⟩

/-- What was remembered comes back as it was if it has entries for all vertices. -/
theorem stepBack_cases_of_fits (fits : ∀ c ∈ s.history, c.Fits s.graph)
    (taken : s.stepBack = .ok next) :
    ∃ c history, s.history = c :: history ∧ next = ⟨s.graph, c, history⟩ := by
  obtain ⟨c, history, past, rfl⟩ := stepBack_cases taken
  rw [(fits c (past ▸ List.mem_cons_self)).grownTo_eq]
  exact ⟨c, history, past, rfl⟩

theorem step_eq_error_iff : s.step = .error .finished ↔ s.cursor.isFinished = true := by
  rw [Cursor.isFinished_iff]
  constructor
  · intro refused
    cases waits : s.cursor.pending with
    | nil => rfl
    | cons here later => rw [step_of_pending waits] at refused; cases refused
  · exact step_of_nothing

theorem exists_step_of_not_finished (goes : s.cursor.isFinished ≠ true) :
    ∃ next, s.step = .ok next := by
  cases waits : s.cursor.pending with
  | nil => exact absurd (Cursor.isFinished_iff.2 waits) goes
  | cons here later => exact ⟨_, step_of_pending waits⟩

/-! ## The cursor after a step -/

theorem enters_iff (s : Stepper) (v : VertexId) :
    s.enters v = true ↔ s.graph.mode = .full ∨ s.cursor.isDiscovered v = false := by
  simp [enters]

theorem enters_eq_false_iff (s : Stepper) (v : VertexId) :
    s.enters v = false ↔ s.graph.mode ≠ .full ∧ s.cursor.isDiscovered v = true := by
  simp [enters]

theorem enters_of_full (full : s.graph.mode = .full) (v : VertexId) : s.enters v = true :=
  (s.enters_iff v).2 (.inl full)

theorem children_of_full (full : s.graph.mode = .full) (v : VertexId) :
    s.children v = s.graph.enabledOut v := by
  unfold children
  rw [List.filter_eq_self]
  intro e _
  exact enters_of_full full _

theorem mem_children_iff (s : Stepper) (v : VertexId) (e : EdgeId) :
    e ∈ s.children v ↔ e ∈ s.graph.enabledOut v ∧ s.enters (s.graph.edge e).target = true :=
  List.mem_filter

/-- What is called from a vertex leaves it by enabled edges. -/
theorem leaves_of_mem_children (wf : s.graph.WellFormed) {v : VertexId} {e : EdgeId}
    (child : e ∈ s.children v) :
    e ∈ s.graph.enabledEdges ∧ (s.graph.edge e).source = v :=
  (wf.mem_enabledOut v e).1 ((s.mem_children_iff v e).1 child).1

theorem nodup_children (s : Stepper) (wf : s.graph.WellFormed) (v : VertexId) :
    (s.children v).Nodup :=
  (wf.nodup_enabledOut v).sublist List.filter_sublist

theorem cursorAfter_of_enters (entered : s.enters (s.graph.vertexAt here) = true) :
    s.cursorAfter here later
      = ⟨s.cursor.discovered.setIfInBounds (s.graph.vertexAt here).index true,
          s.cursor.parents.setIfInBounds (s.graph.vertexAt here).index here.edge?,
          (s.children (s.graph.vertexAt here)).map .edge ++ later⟩ :=
  if_pos entered

/-- Entering a vertex makes what is called from it wait before the other positions. -/
theorem pending_of_enters (entered : s.enters (s.graph.vertexAt here) = true) :
    (s.cursorAfter here later).pending
      = (s.children (s.graph.vertexAt here)).map .edge ++ later := by
  rw [cursorAfter_of_enters entered]

theorem cursorAfter_of_not_enters (known : s.enters (s.graph.vertexAt here) = false) :
    s.cursorAfter here later = { s.cursor with pending := later } :=
  if_neg (ne_true_of_eq_false known)

theorem fits_cursorAfter (fits : s.cursor.Fits s.graph) (here : Position)
    (later : List Position) : (s.cursorAfter here later).Fits s.graph := by
  cases entered : s.enters (s.graph.vertexAt here) with
  | true =>
    rw [cursorAfter_of_enters entered]
    exact ⟨(Array.size_setIfInBounds ..).trans fits.discovered,
      (Array.size_setIfInBounds ..).trans fits.parents⟩
  | false =>
    rw [cursorAfter_of_not_enters entered]
    exact ⟨fits.discovered, fits.parents⟩

/-- After a step the vertex of the position is marked, whether the step entered it or it was marked
before. -/
theorem isDiscovered_cursorAfter (fits : s.cursor.Fits s.graph)
    (within : (s.graph.vertexAt here).index < s.graph.vertices.size) (v : VertexId) :
    (s.cursorAfter here later).isDiscovered v = true
      ↔ v = s.graph.vertexAt here ∨ s.cursor.isDiscovered v = true := by
  cases entered : s.enters (s.graph.vertexAt here) with
  | true =>
    rw [cursorAfter_of_enters entered]
    simp only [Cursor.isDiscovered, VertexId.getD_setIfInBounds, fits.discovered, within, and_true]
    by_cases same : v = s.graph.vertexAt here <;> simp [same]
  | false =>
    rw [cursorAfter_of_not_enters entered]
    refine (or_iff_right_of_imp ?_).symm
    intro same
    exact same ▸ (s.enters_eq_false_iff _).1 entered |>.2

/-- Entering a vertex leaves the parents of the other vertices. -/
theorem parent_cursorAfter (fits : s.cursor.Fits s.graph)
    (within : (s.graph.vertexAt here).index < s.graph.vertices.size)
    (entered : s.enters (s.graph.vertexAt here) = true) (v : VertexId) :
    (s.cursorAfter here later).parent v
      = if v = s.graph.vertexAt here then here else s.cursor.parent v := by
  rw [cursorAfter_of_enters entered]
  simp only [Cursor.parent, VertexId.getD_setIfInBounds, fits.parents, within, and_true]
  by_cases same : v = s.graph.vertexAt here
  · rw [if_pos same, if_pos same]
    cases here <;> rfl
  · rw [if_neg same, if_neg same]

/-! ## Many steps -/

theorem stepUpTo_succ_of_step (taken : s.step = .ok next) (n : Nat) :
    s.stepUpTo (n + 1) = next.stepUpTo n := by
  rw [stepUpTo, step_eq_ok_iff.1 taken]

theorem stepUpTo_of_finished (finished : s.cursor.isFinished = true) (n : Nat) :
    s.stepUpTo n = s := by
  cases n with
  | zero => rfl
  | succ n => rw [stepUpTo, advance_of_nothing (Cursor.isFinished_iff.1 finished)]

theorem stepUpTo_add (s : Stepper) (m n : Nat) :
    s.stepUpTo (m + n) = (s.stepUpTo m).stepUpTo n := by
  induction m generalizing s with
  | zero => rw [Nat.zero_add, stepUpTo]
  | succ m ih =>
    by_cases finished : s.cursor.isFinished = true
    · rw [stepUpTo_of_finished finished, stepUpTo_of_finished finished,
        stepUpTo_of_finished finished]
    · obtain ⟨next, taken⟩ := exists_step_of_not_finished finished
      rw [Nat.add_right_comm, stepUpTo_succ_of_step taken, stepUpTo_succ_of_step taken, ih]

/-- The last of some steps is taken after the others. -/
theorem stepUpTo_succ_eq (s : Stepper) (n : Nat) (taken : (s.stepUpTo n).step = .ok next) :
    s.stepUpTo (n + 1) = next := by
  rw [stepUpTo_add, stepUpTo_succ_of_step taken, stepUpTo]

/-- What holds at first and is kept by every step holds after many steps. -/
theorem stepUpTo_induct {motive : Stepper → Prop} (first : motive s)
    (keeps : ∀ t next, motive t → t.step = .ok next → motive next) (n : Nat) :
    motive (s.stepUpTo n) := by
  induction n with
  | zero => exact first
  | succ n ih =>
    by_cases finished : (s.stepUpTo n).cursor.isFinished = true
    · rw [stepUpTo_add, stepUpTo_of_finished finished]
      exact ih
    · obtain ⟨next, taken⟩ := exists_step_of_not_finished finished
      rw [stepUpTo_succ_eq s n taken]
      exact keeps _ next ih taken

theorem stepUpTo_graph (s : Stepper) (n : Nat) : (s.stepUpTo n).graph = s.graph := by
  refine stepUpTo_induct (motive := fun t => t.graph = s.graph) rfl ?_ n
  intro t next same taken
  obtain ⟨here, later, -, rfl⟩ := step_cases taken
  exact same

/-- Once finished, a stepper stays where it is. -/
theorem stepUpTo_eq_of_finished {m n : Nat} (finished : (s.stepUpTo m).cursor.isFinished = true)
    (h : m ≤ n) : s.stepUpTo n = s.stepUpTo m := by
  obtain ⟨rest, rfl⟩ := Nat.exists_eq_add_of_le h
  rw [stepUpTo_add, stepUpTo_of_finished finished]

/-- A stepper that goes on after fewer steps has taken them all. -/
theorem stepsTaken_stepUpTo {n : Nat}
    (goes : ∀ m < n, (s.stepUpTo m).cursor.isFinished ≠ true) :
    (s.stepUpTo n).stepsTaken = s.stepsTaken + n := by
  induction n with
  | zero => rfl
  | succ n ih =>
    have before := ih fun m less => goes m (Nat.lt_succ_of_lt less)
    obtain ⟨next, taken⟩ := exists_step_of_not_finished (goes n (Nat.lt_succ_self n))
    rw [stepUpTo_succ_eq s n taken]
    obtain ⟨here, later, -, rfl⟩ := step_cases taken
    rw [stepsTaken, List.length_cons, ← Nat.add_assoc]
    exact congrArg (· + 1) before

/-- From the start no more and no fewer steps were taken than it was told to take. -/
theorem stepsTaken_stepUpTo_start {g : CallGraph} {n : Nat}
    (goes : ∀ m < n, ((start g).stepUpTo m).cursor.isFinished ≠ true) :
    ((start g).stepUpTo n).stepsTaken = n :=
  (stepsTaken_stepUpTo goes).trans (Nat.zero_add n)

end Stepper

end TemplateTrace
