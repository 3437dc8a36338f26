import TemplateTrace.Proofs.Graph.Backtracing
set_option autoImplicit false

/-!
# Steps that are taken back

Taking steps back undoes them, in every state that moves can lead to
(`Stepper.reversible_performAll`): as many steps as were taken lead back to where they began,
whatever edges are enabled or disabled in between, and as many as are remembered lead back to the
start.

All of it is read off the track of a stepper, which is its cursor and those before it.  A step puts
a cursor in front of the track and taking it back takes the front away, so that some steps and as
many taken back leave the track as it was (`Takes.exists_track`, `stepBackAll_of_track`); whatever
the moves, the track ends in the cursor before the first step, and no cursor on it has to grow
(`movedOver_performAll`).
-/

namespace TemplateTrace

namespace Stepper

variable {s t next : Stepper} {m n : Nat}

/-! ## Steps -/

/-- So many steps are taken one after the other, none of which is refused. -/
inductive Takes : Stepper → Nat → Stepper → Prop
  | none (s : Stepper) : Takes s 0 s
  | step {s next last : Stepper} {n : Nat} (taken : s.step = .ok next) (more : Takes next n last) :
      Takes s (n + 1) last

theorem track_length (s : Stepper) : s.track.length = s.stepsTaken + 1 :=
  List.length_cons

/-- Some steps put as many cursors in front of the track. -/
theorem Takes.exists_track (takes : s.Takes m t) :
    ∃ recent, recent.length = m ∧ t.track = recent ++ s.track := by
  induction takes with
  | none s => exact ⟨[], rfl, rfl⟩
  | @step s next last n taken _ ih =>
    obtain ⟨recent, length, track⟩ := ih
    rw [track_of_step taken, List.append_cons] at track
    refine ⟨recent ++ [next.cursor], ?_, track⟩
    rw [List.length_append, List.length_singleton, length]

theorem Takes.stepsTaken_eq (takes : s.Takes m t) : t.stepsTaken = m + s.stepsTaken := by
  obtain ⟨recent, length, track⟩ := takes.exists_track
  have lengths := congrArg List.length track
  rw [List.length_append, track_length, track_length, length] at lengths
  omega

theorem Takes.graph_eq (takes : s.Takes m t) : t.graph = s.graph := by
  induction takes with
  | none s => rfl
  | step taken _ ih => rw [ih, graph_of_step taken]

/-- All steps that a stepper is told to take are taken, or all that there are. -/
theorem exists_takes_stepUpTo (s : Stepper) (n : Nat) :
    ∃ m ≤ n, s.Takes m (s.stepUpTo n) ∧ (m < n → (s.stepUpTo n).cursor.isFinished = true) := by
  induction n generalizing s with
  | zero => exact ⟨0, Nat.le_refl 0, .none s, fun less => absurd less (Nat.lt_irrefl 0)⟩
  | succ n ih =>
    cases finished : s.cursor.isFinished with
    | true =>
      rw [stepUpTo_of_finished finished]
      exact ⟨0, Nat.zero_le _, .none s, fun _ => finished⟩
    | false =>
      obtain ⟨next, taken⟩ := exists_step_of_not_finished (ne_true_of_eq_false finished)
      obtain ⟨m, few, takes, ends⟩ := ih next
      rw [stepUpTo_succ_of_step taken]
      exact ⟨m + 1, Nat.succ_le_succ few, .step taken takes,
        fun less => ends (Nat.lt_of_succ_lt_succ less)⟩

/-- What is counted are the steps that were taken. -/
theorem exists_takes_stepMany (s : Stepper) (n : Nat) :
    s.Takes (s.stepMany n).1 (s.stepMany n).2 ∧ (s.stepMany n).1 ≤ n
      ∧ ((s.stepMany n).1 < n → (s.stepMany n).2.cursor.isFinished = true) := by
  obtain ⟨m, few, takes, ends⟩ := s.exists_takes_stepUpTo n
  have count : (s.stepMany n).1 = m := by
    have taken := takes.stepsTaken_eq
    simp only [stepMany]
    omega
  rw [count]
  exact ⟨takes, few, ends⟩

/-- Some steps and then some more are taken and counted like all of them together. -/
theorem stepMany_add (s : Stepper) (a b : Nat) :
    s.stepMany (a + b)
      = ((s.stepMany a).1 + ((s.stepMany a).2.stepMany b).1, ((s.stepMany a).2.stepMany b).2) := by
  obtain ⟨first, -, takesFirst, -⟩ := s.exists_takes_stepUpTo a
  obtain ⟨second, -, takesSecond, -⟩ := (s.stepUpTo a).exists_takes_stepUpTo b
  have between := takesFirst.stepsTaken_eq
  have last := takesSecond.stepsTaken_eq
  simp only [stepMany, stepUpTo_add, Prod.mk.injEq, and_true]
  omega

/-! ## Steps back -/

/-- The stepper after a step back for each list of changes, these changes to the flags being made
before the step, and why a step back was refused if one was; nothing is done after that. -/
def stepBackAll (s : Stepper) : List (List Toggle) → Stepper × Option StepFault
  | [] => (s, none)
  | changes :: rest =>
      match (s.onGraph (·.toggleAll changes)).retreat with
      | (before, none) => before.stepBackAll rest
      | refused => refused

theorem stepBackAll_cons_of_history {changes : List Toggle} {rest : List (List Toggle)}
    {before : Cursor} {history : List Cursor} (fits : before.Fits s.graph)
    (past : s.history = before :: history) :
    s.stepBackAll (changes :: rest)
      = stepBackAll ⟨s.graph.toggleAll changes, before, history⟩ rest := by
  have same := (s.graph.sameButFlags_toggleAll changes).sameEnds.vertices
  have taken : (s.onGraph (·.toggleAll changes)).retreat = _ := retreat_of_history past
  rw [stepBackAll, taken]
  simp only [onGraph, same, fits.grownTo_eq]

theorem stepBackAll_cons_of_start {changes : List Toggle} {rest : List (List Toggle)}
    (start : s.history = []) :
    s.stepBackAll (changes :: rest) = (s.onGraph (·.toggleAll changes), some .atStart) := by
  have refused : (s.onGraph (·.toggleAll changes)).retreat = _ := retreat_of_start start
  rw [stepBackAll, refused]

/-- Some steps back and then some more are taken one after the other. -/
theorem stepBackAll_append {first : List (List Toggle)} (taken : s.stepBackAll first = (t, none))
    (more : List (List Toggle)) : s.stepBackAll (first ++ more) = t.stepBackAll more := by
  induction first generalizing s with
  | nil =>
    obtain rfl : s = t := congrArg Prod.fst taken
    rfl
  | cons changes rest ih =>
    rw [stepBackAll] at taken
    rw [List.cons_append, stepBackAll]
    split at taken
    · exact ih taken
    · rename_i refused
      exact absurd taken (refused t)

/-- Taking all steps back and changing flags may be done in either order. -/
theorem reset_toggleAll (s : Stepper) (changes : List Toggle) :
    s.reset.onGraph (·.toggleAll changes) = (s.onGraph (·.toggleAll changes)).reset := by
  have same := (s.graph.sameButFlags_toggleAll changes).sameEnds.vertices
  simp only [reset, start, onGraph, same]

/-- Steps back lead to the cursor that lies as far back on the track. -/
theorem stepBackAll_of_track {between : List (List Toggle)} {recent older : List Cursor}
    {c : Cursor} (fits : ∀ c ∈ s.history, c.Fits s.graph) (passed : s.track = recent ++ c :: older)
    (length : recent.length = between.length) :
    s.stepBackAll between = (⟨s.graph.toggleAll between.flatten, c, older⟩, none) := by
  induction between generalizing s recent with
  | nil =>
    obtain rfl := List.length_eq_zero_iff.1 length
    obtain ⟨rfl, rfl⟩ := List.cons.inj passed
    rfl
  | cons changes rest ih =>
    cases recent with
    | nil => simp at length
    | cons last recent =>
      obtain ⟨-, past⟩ := List.cons.inj passed
      cases history : s.history with
      | nil => simp [history] at past
      | cons before earlier =>
        rw [history, List.forall_mem_cons] at fits
        have same := (s.graph.sameButFlags_toggleAll changes).sameEnds.vertices
        have ahead : track ⟨s.graph.toggleAll changes, before, earlier⟩ = recent ++ c :: older :=
          history.symm.trans past
        rw [stepBackAll_cons_of_history fits.1 history,
          ih (fun c mem => (fits.2 c mem).of_size_eq same) ahead (Nat.succ.inj length),
          List.flatten_cons, CallGraph.toggleAll_append]

/-- As many steps back as are remembered lead to the start if the track ends there. -/
theorem stepBackAll_eq_reset (fits : ∀ c ∈ s.history, c.Fits s.graph)
    (ends : s.track.getLast? = some (Cursor.start s.graph.vertices.size))
    {between : List (List Toggle)} (length : between.length = s.stepsTaken) :
    s.stepBackAll between = ((s.onGraph (·.toggleAll between.flatten)).reset, none) := by
  obtain ⟨recent, passed⟩ := List.getLast?_eq_some_iff.1 ends
  have count := congrArg List.length passed
  rw [track_length, List.length_append, List.length_singleton, ← length] at count
  have same := (s.graph.sameButFlags_toggleAll between.flatten).sameEnds.vertices
  rw [stepBackAll_of_track fits passed (Nat.succ.inj count).symm, ← same]
  rfl

/-- The step back after these is refused, and so the stepper is left at the start. -/
theorem stepBackAll_of_lt (fits : ∀ c ∈ s.history, c.Fits s.graph)
    (ends : s.track.getLast? = some (Cursor.start s.graph.vertices.size))
    {between : List (List Toggle)} (more : s.stepsTaken < between.length) :
    s.stepBackAll between
      = ((s.onGraph (·.toggleAll (between.take (s.stepsTaken + 1)).flatten)).reset,
          some .atStart) := by
  have all := stepBackAll_eq_reset fits ends (List.length_take_of_le (Nat.le_of_lt more))
  have refused := stepBackAll_append all (between.drop s.stepsTaken)
  rw [List.take_append_drop, List.drop_eq_getElem_cons more, stepBackAll_cons_of_start rfl]
    at refused
  rw [refused, reset_toggleAll, List.take_succ_eq_append_getElem more, List.flatten_append,
    List.flatten_singleton]
  simp only [CallGraph.toggleAll_append, onGraph]

/-- As many steps back as steps were taken lead back to where these began. -/
theorem Takes.stepBackAll_eq (takes : s.Takes m t) (fits : ∀ c ∈ t.history, c.Fits t.graph)
    {between : List (List Toggle)} (length : between.length = m) :
    t.stepBackAll between =
      (⟨s.graph.toggleAll between.flatten, s.cursor, s.history⟩, Option.none) := by
  obtain ⟨recent, count, track⟩ := takes.exists_track
  rw [stepBackAll_of_track fits track (count.trans length.symm), takes.graph_eq]

/-! ## Any run -/

/-- How steps and steps back go together in some state; the lists `between` say which flags are
changed before each step back. -/
structure Reversible (s : Stepper) : Prop where
  /-- the steps that are counted are taken, and these are all unless the cursor finishes -/
  counted : ∀ n, s.Takes (s.stepMany n).1 (s.stepMany n).2 ∧ (s.stepMany n).1 ≤ n
    ∧ ((s.stepMany n).1 < n → (s.stepMany n).2.cursor.isFinished = true)
  /-- some steps and then some more are taken and counted like all of them together -/
  added : ∀ a b, s.stepMany (a + b)
    = ((s.stepMany a).1 + ((s.stepMany a).2.stepMany b).1, ((s.stepMany a).2.stepMany b).2)
  /-- as many steps back lead back to the cursor and to all that it remembered -/
  restored : ∀ n (between : List (List Toggle)), between.length = (s.stepMany n).1 →
    (s.stepMany n).2.stepBackAll between
      = (⟨s.graph.toggleAll between.flatten, s.cursor, s.history⟩, none)
  /-- as many steps back as are remembered lead to the start -/
  started : ∀ between : List (List Toggle), between.length = s.stepsTaken →
    s.stepBackAll between = ((s.onGraph (·.toggleAll between.flatten)).reset, none)
  /-- the next one after these is refused, and leaves the start as it is -/
  stopped : ∀ between : List (List Toggle), s.stepsTaken < between.length →
    s.stepBackAll between
      = ((s.onGraph (·.toggleAll (between.take (s.stepsTaken + 1)).flatten)).reset, some .atStart)
  step_refused : ∀ fault, s.step = .error fault ↔ fault = .finished ∧ s.cursor.isFinished = true
  stepBack_refused : ∀ fault, s.stepBack = .error fault ↔ fault = .atStart ∧ s.isAtStart = true
  /-- nothing is changed by what is refused -/
  unchanged : (s.cursor.isFinished = true →
      s.advance = (s, some .finished) ∧ ∀ n, s.stepMany n = (0, s))
    ∧ (s.isAtStart = true → s.retreat = (s, some .atStart))
  /-- what is restored has entries for all vertices already -/
  grown : ∀ c ∈ s.history, c.grownTo s.graph.vertices.size = c

theorem step_refused_iff (s : Stepper) (fault : StepFault) :
    s.step = .error fault ↔ fault = .finished ∧ s.cursor.isFinished = true := by
  rw [Cursor.isFinished_iff]
  cases waits : s.cursor.pending with
  | nil => simp [step_of_nothing waits, eq_comm]
  | cons here later => simp [step_of_pending waits]

theorem stepBack_refused_iff (s : Stepper) (fault : StepFault) :
    s.stepBack = .error fault ↔ fault = .atStart ∧ s.isAtStart = true := by
  rw [isAtStart, List.isEmpty_iff]
  cases past : s.history with
  | nil => simp [stepBack, retreat_of_start past, unlessRefused, eq_comm]
  | cons before earlier => simp [stepBack, retreat_of_history past, unlessRefused]

theorem unchanged_of_finished (finished : s.cursor.isFinished = true) :
    s.advance = (s, some .finished) ∧ ∀ n, s.stepMany n = (0, s) := by
  refine ⟨advance_of_nothing (Cursor.isFinished_iff.1 finished), fun n => ?_⟩
  rw [stepMany, stepUpTo_of_finished finished, Nat.sub_self]

theorem unchanged_of_isAtStart (start : s.isAtStart = true) :
    s.retreat = (s, some .atStart) :=
  retreat_of_start (List.isEmpty_iff.1 start)

/-- Whatever moves were made over a graph, steps that are taken back leave nothing behind, and they
can be taken back to the start. -/
theorem reversible_performAll (g : CallGraph) (moves : List Move) :
    ((start g).performAll moves).Reversible := by
  have moved := movedOver_performAll g moves
  have begins := moved.begins
  rw [← moved.size] at begins
  exact {
    counted := exists_takes_stepMany _
    added := stepMany_add _
    restored := fun n between length => by
      have takes := (exists_takes_stepMany ((start g).performAll moves) n).1
      exact takes.stepBackAll_eq (moved.stepUpTo n).fits_history length
    started := fun between length => stepBackAll_eq_reset moved.fits_history begins length
    stopped := fun between more => stepBackAll_of_lt moved.fits_history begins more
    step_refused := step_refused_iff _
    stepBack_refused := stepBack_refused_iff _
    unchanged := ⟨unchanged_of_finished, unchanged_of_isAtStart⟩
    grown := fun c remembered => (moved.fits_history c remembered).grownTo_eq }

end Stepper

end TemplateTrace
