import TemplateTrace.Graph.Cursor
import TemplateTrace.Proofs.Growth
set_option autoImplicit false

/-!
# What a refused event leaves behind

Nothing, while there is room for edges: a vertex is added only once nothing but the want of room for
its edge can still stop an arrival.  So the one trace of a refused event is the vertex of an arrival
at a graph that is full of edges (`Recorder.LeavesVertex`), and after the end of the evaluation
there is not even that (`Recorder.refused_leaves_recorder`).

With this the effect of every event is known, refused or not, and what each of them keeps holds of
all recorders that can be reached (`Recorder.Reached.induct`), the full ones included.
-/

namespace TemplateTrace

namespace Recorder

/-- The recorders that come of any events, those that are refused being passed over. -/
def Reached (r : Recorder) : Prop :=
  ∃ config rootLocation events, (start config rootLocation).recordEach events = r

/-- What an arrival leaves behind for the edge of which there is no room: a vertex which no edge
leaves or leads to, with a blank mark and a blank parent that the cursor has for it, and its key if
the arrival is at a template step. -/
structure LeavesVertex (r : Recorder) (a : Arrival) (after : Recorder) : Prop where
  full : r.graph.edges.size = CallGraph.arenaLimit
  room : r.graph.vertices.size < CallGraph.arenaLimit
  unknown : ∀ key, a.key? = some key → r.elements.get? key = none
  only : after = { r with
    graph := { r.graph with
      vertices := r.graph.vertices.push ⟨a.node, a.location⟩
      outgoing := r.graph.outgoing.push #[] }
    cursor := { r.cursor with
      discovered := r.cursor.discovered.push false
      parents := r.cursor.parents.push none }
    elements := match a.key? with
      | some key => r.elements.insert key ⟨UInt32.ofNat r.graph.vertices.size⟩
      | none => r.elements }
  isolated : ∀ e : EdgeId, e.index < after.graph.edges.size →
    (after.graph.edge e).source ≠ ⟨UInt32.ofNat r.graph.vertices.size⟩
      ∧ (after.graph.edge e).target ≠ ⟨UInt32.ofNat r.graph.vertices.size⟩
  unmarked : after.cursor.discovered[r.graph.vertices.size]? = some false
    ∧ after.cursor.parents[r.graph.vertices.size]? = some none

variable {r after : Recorder} {a : Arrival} {target : VertexId} {event : Event}
  {fault : RecordFault}

/-! ## Refused arrivals -/

/-- The vertex that is left behind is a new one, which the edges cannot know of. -/
theorem leavesVertex_withVertex (wf : r.WellFormed)
    (full : r.graph.edges.size = CallGraph.arenaLimit) (unknown : r.known? a = none)
    (found : r.target? a = some target) : r.LeavesVertex a (r.withVertex a target) := by
  have fresh : r.graph.nextVertex? = some target := by simpa [target?, unknown] using found
  obtain ⟨room, rfl⟩ : _ ∧ (⟨UInt32.ofNat r.graph.vertices.size⟩ : VertexId) = target := by
    simpa [CallGraph.nextVertex?] using fresh
  have index := VertexId.index_ofNat wf.graph.vertexRoom
  have only : r.withVertex a ⟨UInt32.ofNat r.graph.vertices.size⟩ = { r with
      toStepper := r.toStepper.addVertex ⟨a.node, a.location⟩
      elements := match a.key? with
        | some key => r.elements.insert key ⟨UInt32.ofNat r.graph.vertices.size⟩
        | none => r.elements } := by
    cases key : a.key? <;> simp only [withVertex, unknown, key]
  refine ⟨full, room, fun key => get?_of_unknown unknown, only, fun e within => ?_, ?_⟩
  · rw [only] at within ⊢
    rw [Stepper.addVertex_graph, CallGraph.addVertex_edge]
    constructor
    · intro same
      exact Nat.ne_of_lt (wf.graph.source_lt e within) (same ▸ index)
    · intro same
      exact Nat.ne_of_lt (wf.graph.target_lt e within) (same ▸ index)
  · -- the cursor has had as many marks as there were vertices
    have fits : r.cursor.Fits r.graph := wf.fits
    rw [only]
    constructor
    · simp only [Stepper.addVertex, Cursor.addVertex, ← fits.discovered, Array.getElem?_push_size]
    · simp only [Stepper.addVertex, Cursor.addVertex, ← fits.parents, Array.getElem?_push_size]

theorem arrive_refused_cases (wf : r.WellFormed) (refused : r.arrive a = (after, some fault)) :
    after = r ∨ r.LeavesVertex a after := by
  unfold arrive at refused
  cases reason : r.refusal? a with
  | some first =>
    simp only [reason, Prod.mk.injEq] at refused
    exact .inl refused.1.symm
  | none =>
    cases found : r.target? a with
    | none =>
      simp only [reason, found, Prod.mk.injEq] at refused
      exact .inl refused.1.symm
    | some target =>
      by_cases room : r.graph.edges.size < CallGraph.arenaLimit
      · simp [reason, found, CallGraph.nextEdge?, room] at refused
      · have full := Nat.le_antisymm wf.graph.edgeRoom (Nat.le_of_not_lt room)
        obtain ⟨rfl, -⟩ : r.withVertex a target = after ∧ _ := by
          simpa [reason, found, CallGraph.nextEdge?, room] using refused
        cases known : r.known? a with
        | some v => exact .inl (by simp only [withVertex, known])
        | none => exact .inr (leavesVertex_withVertex wf full known found)

/-! ## Events -/

/-- What an event does that is refused. -/
theorem record_refused_cases (wf : r.WellFormed) (refused : r.record event = (after, some fault)) :
    after = r ∨ ∃ a, event.action = .arrive a ∧ r.LeavesVertex a after := by
  unfold record at refused
  cases action : event.action with
  | arrive a =>
    simp only [action] at refused
    rcases arrive_refused_cases wf refused with same | leaves
    · exact .inl same
    · exact .inr ⟨a, rfl, leaves⟩
  | close closing timestamp condition =>
    simp only [action] at refused
    have same := r.close_refused closing timestamp condition (by simp [refused])
    rw [refused] at same
    exact .inl same
  | finish outcome =>
    simp only [action] at refused
    have same := r.finish_refused outcome (by simp [refused])
    rw [refused] at same
    exact .inl same

theorem recordEach_of_frozen (frozen : r.graph.isFrozen = true) (events : List Event) :
    r.recordEach events = r := by
  induction events with
  | nil => rfl
  | cons event rest ih =>
    rw [recordEach, List.foldl_cons, record_of_frozen frozen event]
    exact ih

theorem isFrozen_of_record_evaluationEnd {outcome : Outcome}
    (recorded : r.record (.evaluationEnd outcome) = (after, none)) :
    after.graph.isFrozen = true := by
  obtain ⟨-, -, rfl⟩ := exists_of_finish_eq recorded
  rfl

/-! ## Recorders that can be reached -/

theorem recordEach_append (r : Recorder) (p q : List Event) :
    r.recordEach (p ++ q) = (r.recordEach p).recordEach q :=
  List.foldl_append

theorem recordEach_snoc (r : Recorder) (p : List Event) (event : Event) :
    r.recordEach (p ++ [event]) = ((r.recordEach p).record event).1 :=
  r.recordEach_append p [event]

theorem Reached.recordEach (reached : r.Reached) (events : List Event) :
    (r.recordEach events).Reached := by
  obtain ⟨config, rootLocation, before, rfl⟩ := reached
  exact ⟨config, rootLocation, before ++ events, recordEach_append _ before events⟩

/-- What an event comes to, refused or not. -/
theorem record_cases_of_any (wf : r.WellFormed) (event : Event) :
    r.Records event (r.record event).1 ∨ (r.record event).1 = r
      ∨ ∃ a, r.LeavesVertex a (r.record event).1 := by
  cases step : r.record event with
  | mk after refused =>
    cases refused with
    | none => exact .inl (record_cases wf step)
    | some fault =>
      rcases record_refused_cases wf step with same | ⟨a, -, leaves⟩
      · exact .inr (.inl same)
      · exact .inr (.inr ⟨a, leaves⟩)

/-- What holds at first, is kept by every event that is not refused, and by the vertices that others
leave behind, holds of every recorder that can be reached. -/
theorem Reached.induct {motive : Recorder → Prop} (reached : r.Reached)
    (first : ∀ config rootLocation, motive (start config rootLocation))
    (keeps : ∀ r event after, r.WellFormed → after.WellFormed → r.Records event after → motive r →
      motive after)
    (leaves : ∀ r a after, r.WellFormed → after.WellFormed → r.LeavesVertex a after → motive r →
      motive after) :
    r.WellFormed ∧ motive r := by
  obtain ⟨config, rootLocation, events, rfl⟩ := reached
  induction events using List.reverseRecOn with
  | nil => exact ⟨start_wellFormed config rootLocation, first config rootLocation⟩
  | append_singleton p event ih =>
    obtain ⟨wf, holds⟩ := ih
    have wfAfter := record_wellFormed wf event
    rw [recordEach_snoc]
    refine ⟨wfAfter, ?_⟩
    rcases record_cases_of_any wf event with records | same | ⟨a, left⟩
    · exact keeps _ event _ wf wfAfter records holds
    · rwa [same]
    · exact leaves _ a _ wf wfAfter left holds

theorem Reached.wellFormed (reached : r.Reached) : r.WellFormed :=
  (reached.induct (motive := fun _ => True) (fun _ _ => trivial) (fun _ _ _ _ _ _ _ => trivial)
    fun _ _ _ _ _ _ _ => trivial).1

/-- A refused event leaves the recorder as it was; only if no edge fits any more, it may leave its
vertex behind.  Once the evaluation has ended, all events are refused for that and change nothing,
however many of them come. -/
theorem refused_leaves_recorder (reached : r.Reached) :
    (∀ event after fault, r.record event = (after, some fault) →
        after = r ∨ ∃ a, event.action = .arrive a ∧ r.LeavesVertex a after)
      ∧ ∀ outcome ended, r.record (.evaluationEnd outcome) = (ended, none) →
          ∀ later event, ended.recordEach later = ended
            ∧ (ended.recordEach later).record event = (ended, some .frozen) := by
  refine ⟨fun event after fault refused => record_refused_cases reached.wellFormed refused, ?_⟩
  intro outcome ended recorded later event
  have frozen := isFrozen_of_record_evaluationEnd recorded
  rw [recordEach_of_frozen frozen later]
  exact ⟨rfl, record_of_frozen frozen event⟩

/-- A recorder with a condition that is open. -/
def conditional : Recorder :=
  (start .default .unknown).recordEach [.conditionBegin "A" .unknown 0]

/-- The end of a template step does not fit the condition that is open; another one comes after the
evaluation has ended. -/
theorem refused_leaves_recorder_conditional :
    conditional.Reached
      ∧ conditional.record (.templateEnd 1)
        = (conditional, some (.mismatchedEnd .template .preprocessingCondition))
      ∧ (conditional.recordEach
            [.conditionEnd true 1, .evaluationEnd default, .templateEnd 2]).record
          (.templateEnd 3)
        = (conditional.recordEach [.conditionEnd true 1, .evaluationEnd default],
            some .frozen) := by
  have reached : conditional.Reached := ⟨.default, .unknown, _, rfl⟩
  have refused : (conditional.record (.templateEnd 1)).2
      = some (.mismatchedEnd .template .preprocessingCondition) := by decide +kernel
  have ended : ((conditional.recordEach [.conditionEnd true 1]).record
      (.evaluationEnd default)).2 = none := by decide +kernel
  refine ⟨reached, Prod.ext ?_ refused, ?_⟩
  · rcases (refused_leaves_recorder reached).1 _ _ _ (Prod.ext rfl refused) with
      same | ⟨a, -, left⟩
    · exact same
    · exact absurd left.full (by decide +kernel)
  · exact ((refused_leaves_recorder (reached.recordEach [.conditionEnd true 1])).2 default _
      (Prod.ext rfl ended) [.templateEnd 2] (.templateEnd 3)).2

end Recorder

end TemplateTrace
