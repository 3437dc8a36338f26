import TemplateTrace.Proofs.Sharing
import TemplateTrace.Proofs.Graph.Unshared
set_option autoImplicit false

/-!
# The call forest of a trace

The brackets of a balanced trace make a forest of its steps: what lies between the begin of a step
and its end lies below the step (`StepForest`).  A graph whose edges recount the steps holds the
same forest: the callers of its edges are the brackets that are open (`source_stepEdge`,
`StepForest.calledFrom`), the chain of open brackets leads to the root (`lineage_of_after`), and the
frames of its edges tell of the steps and their ends (`frameOf_stepEdge`).
-/

namespace TemplateTrace

/-! ## Forests of steps -/

/-- The forest of the steps of a balanced trace, numbered in order from `n`: nothing lies below a
leaf, and below a step that is begun lie the steps up to its end. -/
inductive StepForest : Nat → List Event → Forest → Prop
  | nil (n : Nat) : StepForest n [] .nil
  | leaf {n : Nat} {event : Event} {rest : List Event} {beside : Forest}
      (role : event.role = .leaf) (later : StepForest (n + 1) rest beside) :
      StepForest n (event :: rest) (.node (.edge ⟨UInt32.ofNat n⟩) .nil beside)
  | bracket {n : Nat} {opening closing : Event} {type : Closing} {inside rest : List Event}
      {below beside : Forest}
      (opens : opening.role = .opens type) (inner : StepForest (n + 1) inside below)
      (closes : closing.role = .closes type)
      (later : StepForest (n + 1 + stepCount inside) rest beside) :
      StepForest n (opening :: (inside ++ closing :: rest))
        (.node (.edge ⟨UInt32.ofNat n⟩) below beside)

theorem exists_stepForest {steps : List Event} (balanced : Balanced steps) (n : Nat) :
    ∃ forest, StepForest n steps forest := by
  induction balanced generalizing n with
  | nil => exact ⟨_, .nil n⟩
  | leaf role _ ih =>
    obtain ⟨beside, later⟩ := ih (n + 1)
    exact ⟨_, .leaf role later⟩
  | @bracket _ _ _ inside _ opens _ closes _ ihInside ihRest =>
    obtain ⟨below, inner⟩ := ihInside (n + 1)
    obtain ⟨beside, later⟩ := ihRest (n + 1 + stepCount inside)
    exact ⟨_, .bracket opens inner closes later⟩

namespace StepForest

variable {n : Nat} {steps : List Event} {forest : Forest}

theorem balanced (calls : StepForest n steps forest) : Balanced steps := by
  induction calls with
  | nil => exact .nil
  | leaf role _ ih => exact .leaf role ih
  | bracket opens _ closes _ ihBelow ihBeside => exact .bracket opens ihBelow closes ihBeside

/-- The nodes are all steps, in order. -/
theorem positions_eq (calls : StepForest n steps forest) :
    forest.positions
      = (List.range' n (stepCount steps)).map fun k => .edge ⟨UInt32.ofNat k⟩ := by
  induction calls with
  | nil => rfl
  | leaf role _ ih =>
    rw [Forest.positions, Forest.positions, List.nil_append, ih, stepCount_cons,
      isStep_of_leaf role, if_pos rfl, Nat.add_comm 1, List.range'_succ, List.map_cons]
  | @bracket n opening closing type inside rest below beside opens _ closes _ ihBelow ihBeside =>
    have count : stepCount (opening :: (inside ++ closing :: rest))
        = stepCount inside + stepCount rest + 1 := by
      rw [stepCount_cons, stepCount_append, stepCount_cons, isStep_of_opens opens,
        isStep_of_closes closes, if_pos rfl, if_neg Bool.false_ne_true, Nat.zero_add, Nat.add_comm]
    rw [Forest.positions, ihBelow, ihBeside, count, List.range'_succ, List.map_cons,
      ← List.range'_append_1, List.map_append]

end StepForest

/-! ## Callers -/

/-- The vertex of the innermost of some open brackets, or the root. -/
def Brackets.caller (g : CallGraph) (events : List Event) : Brackets → VertexId
  | [] => CallGraph.root
  | (place, _) :: _ => (g.edge (stepEdge events place)).target

/-- Whether the edges of a graph tell of all steps of a trace. -/
def RecountsAll (config : Config) (g : CallGraph) (events : List Event) : Prop :=
  ∀ n event, events[n]? = some event → event.isStep = true → Recounts config g events n event

variable {config : Config} {g : CallGraph} {events p rest : List Event} {n : Nat} {event : Event}
  {stack : Brackets}

theorem stepEdge_of_split (split : events = p ++ rest) :
    stepEdge events p.length = ⟨UInt32.ofNat (stepCount p)⟩ := by
  rw [stepEdge, split, List.take_left]

theorem index_stepEdge (wf : g.WellFormed) {edge : Edge}
    (found : g.edges[stepCount (events.take n)]? = some edge) :
    (stepEdge events n).index = stepCount (events.take n) := by
  have within := (Array.getElem?_eq_some_iff.1 found).1
  exact EdgeId.index_ofNat (Nat.le_trans (Nat.le_of_lt within) wf.edgeRoom)

theorem edge_stepEdge (wf : g.WellFormed) {edge : Edge}
    (found : g.edges[stepCount (events.take n)]? = some edge) :
    (stepEdge events n).index < g.edges.size ∧ g.edge (stepEdge events n) = edge := by
  rw [CallGraph.edge, index_stepEdge wf found, Array.getD_eq_getD_getElem?, found]
  exact ⟨(Array.getElem?_eq_some_iff.1 found).1, rfl⟩

theorem Recounts.at_stepEdge (wf : g.WellFormed) (recounts : Recounts config g events n event) :
    (stepEdge events n).index < g.edges.size
      ∧ Placed config g events n event (g.edge (stepEdge events n))
      ∧ Timed events n event (g.edge (stepEdge events n)) := by
  obtain ⟨edge, found, placed, timed⟩ := recounts
  obtain ⟨within, same⟩ := edge_stepEdge wf found
  rw [same]
  exact ⟨within, placed, timed⟩

namespace RecountsAll

/-- A step is called from the innermost bracket that is open. -/
theorem source_stepEdge (recounts : RecountsAll config g events) (wf : g.WellFormed)
    (split : events = p ++ event :: rest) (step : event.isStep = true)
    (nested : Brackets.after p = some stack) :
    (stepEdge events p.length).index < g.edges.size
      ∧ (g.edge (stepEdge events p.length)).source = stack.caller g events := by
  have found : events[p.length]? = some event := by simp [split]
  have before : events.take p.length = p := by rw [split, List.take_left]
  obtain ⟨within, placed, -⟩ := (recounts _ event found step).at_stepEdge wf
  refine ⟨within, ?_⟩
  have caller := placed.caller
  rw [before] at caller
  rcases caller with ⟨i, outer, innermost, atPlace, source⟩ | ⟨none, source⟩
  · obtain ⟨type, below, rfl⟩ := (innermostUnclosed_iff nested i).1 innermost
    rw [source, Brackets.caller, (edge_stepEdge wf atPlace).2]
  · cases stack with
    | nil => exact source
    | cons top below =>
      exact absurd ((unclosed_iff_mem nested top.1).2 ⟨top.2, List.mem_cons_self⟩) (none top.1)

/-- The open brackets are a chain of edges from the root. -/
theorem lineage_of_after (recounts : RecountsAll config g events) (wf : g.WellFormed)
    (split : events = p ++ rest) (nested : Brackets.after p = some stack) :
    g.Lineage (stack.caller g events) (stack.map fun top => stepEdge events top.1) := by
  induction stack generalizing p rest with
  | nil => exact rfl
  | cons top outer ih =>
    obtain ⟨place, type⟩ := top
    obtain ⟨before, opening, inside, rfl, rfl, opens, outside, -⟩ :=
      Brackets.exists_split_of_after_cons nested
    rw [List.append_assoc] at split
    obtain ⟨within, source⟩ :=
      recounts.source_stepEdge wf split (isStep_of_opens opens) outside
    refine ⟨(CallGraph.mem_edgeIds wf.edgeRoom _).2 within, rfl, ?_⟩
    rw [source]
    exact ih split outside

end RecountsAll

/-- The forest of the steps is one of calls. -/
theorem StepForest.calledFrom {steps : List Event} {forest : Forest}
    (calls : StepForest n steps forest) (recounts : RecountsAll config g events)
    (wf : g.WellFormed) (split : events = p ++ (steps ++ rest)) (count : stepCount p = n)
    (nested : Brackets.after p = some stack) : g.CalledFrom (stack.caller g events) forest := by
  induction calls generalizing p rest stack with
  | nil => trivial
  | @leaf n event later beside role _ ih =>
    subst count
    obtain ⟨-, source⟩ := recounts.source_stepEdge wf split (isStep_of_leaf role) nested
    have next : events = (p ++ [event]) ++ (later ++ rest) := by simp [split]
    rw [← stepEdge_of_split split]
    refine ⟨source, trivial, ih next ?_ ?_⟩
    · rw [stepCount_append, stepCount_singleton, isStep_of_leaf role, if_pos rfl]
    · exact Brackets.after_append_balanced nested (.leaf role .nil)
  | @bracket n opening closing type inside later below beside opens inner closes _ ihBelow
      ihBeside =>
    subst count
    obtain ⟨-, source⟩ := recounts.source_stepEdge wf split (isStep_of_opens opens) nested
    have within : events = (p ++ [opening]) ++ (inside ++ closing :: (later ++ rest)) := by
      simp [split]
    have beyond : events = (p ++ opening :: (inside ++ [closing])) ++ (later ++ rest) := by
      simp [split]
    have opened : Brackets.after (p ++ [opening]) = some ((p.length, type) :: stack) := by
      simp [Brackets.after_snoc, nested, Brackets.next, opens]
    rw [← stepEdge_of_split split]
    refine ⟨source, ihBelow within ?_ opened, ihBeside beyond ?_ ?_⟩
    · rw [stepCount_append, stepCount_singleton, isStep_of_opens opens, if_pos rfl]
    · rw [stepCount_append, stepCount_cons, stepCount_append, stepCount_singleton,
        isStep_of_opens opens, isStep_of_closes closes, if_pos rfl, if_neg Bool.false_ne_true]
      omega
    · exact Brackets.after_append_balanced nested (.bracket opens inner.balanced closes .nil)

/-! ## Frames -/

/-- Whether the event at `m` is the end of the step that the event at `n` begins or is. -/
inductive EndsAt (events : List Event) (n : Nat) : Nat → Prop
  | leaf {event : Event} (found : events[n]? = some event) (role : event.role = .leaf) :
      EndsAt events n n
  | closed {m : Nat} (closes : Matches events n m) : EndsAt events n m

/-- Whether a frame is that of the step at `n`: it tells what the step is, how long it took from its
begin to its end, and what became of the condition if it is one. -/
def FrameOf (events : List Event) (n : Nat) (frame : Frame) : Prop :=
  ∃ event step m last, events[n]? = some event ∧ event.step? = some step
    ∧ EndsAt events n m ∧ events[m]? = some last
    ∧ frame = ⟨step.vertex.node, step.vertex.location, some step.kind, some step.pointOfEvent,
      some (last.timestamp - event.timestamp), last.conditionResult⟩

theorem conditionResult_of_leaf (role : event.role = .leaf) : event.conditionResult = none := by
  cases event <;> first | rfl | simp [Event.role] at role

/-- A step that has ended tells so in its edge. -/
theorem exists_endsAt (balanced : Balanced events) {edge : Edge} (found : events[n]? = some event)
    (step : event.isStep = true) (timed : Timed events n event edge) :
    ∃ m last, EndsAt events n m ∧ events[m]? = some last
      ∧ edge.ended = some last.timestamp ∧ edge.condition = last.conditionResult := by
  cases role : event.role with
  | leaf =>
    obtain ⟨ended, condition⟩ := timed.leaf role
    exact ⟨n, event, .leaf found role, found, ended,
      condition.trans (conditionResult_of_leaf role).symm⟩
  | opens bracket =>
    -- nothing is open after a balanced trace
    have closed : ¬Unclosed events n := by
      rw [unclosed_iff_mem ((Brackets.after_eq_nil_iff events).2 balanced)]
      simp
    obtain ⟨m, closes⟩ : ∃ m, Matches events n m := by
      by_contra none
      exact closed ⟨⟨event, bracket, found, role⟩, fun m closes => none ⟨m, closes⟩⟩
    have last := List.getElem?_eq_getElem closes.lt_length.2
    obtain ⟨ended, condition⟩ := timed.closed m _ closes last
    exact ⟨m, _, .closed closes, last, ended, condition⟩
  | closes bracket => simp [Event.isStep, role] at step
  | ends => simp [Event.isStep, role] at step

/-- The frame of an edge is that of its step. -/
theorem RecountsAll.frameOf_stepEdge (recounts : RecountsAll config g events) (wf : g.WellFormed)
    (balanced : Balanced events) (found : events[n]? = some event) (step : event.isStep = true) :
    FrameOf events n (g.frameAt (.edge (stepEdge events n))) := by
  obtain ⟨-, placed, timed⟩ := (recounts n event found step).at_stepEdge wf
  obtain ⟨m, last, ends, atEnd, ended, condition⟩ := exists_endsAt balanced found step timed
  obtain ⟨data, prescribed, kind, atTarget, point⟩ := placed.step
  have vertex : g.vertex (g.edge (stepEdge events n)).target = data.vertex := by
    rw [CallGraph.vertex, Array.getD_eq_getD_getElem?, atTarget, Option.getD_some]
  refine ⟨event, data, m, last, found, prescribed, ends, atEnd, ?_⟩
  rw [CallGraph.frameAt, Frame.ofEdge, Edge.timeTaken, vertex, kind, point, ended, condition,
    placed.began, Option.map_some]

end TemplateTrace
