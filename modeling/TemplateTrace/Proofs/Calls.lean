import TemplateTrace.Proofs.Nesting
set_option autoImplicit false

/-!
# Who called whom

The edges of a recorded graph are the steps of the trace, in order.  `Recounts` says what the edge
of a step tells: it leads from the vertex of the innermost step that is open to the vertex of the
step itself, and it has ended when the event came that closes the step (`recounts_of_follows`).

An event adds one edge or ends one; all else stays, which is `CallGraph.Extends`.
-/

namespace TemplateTrace

/-! ## What events prescribe -/

/-- What a step is: the kind of its edge, its vertex, and the place it is reached from. -/
structure StepData where
  kind : Kind
  vertex : Vertex
  pointOfEvent : Location
  deriving DecidableEq, Repr, Inhabited

/-- What the step is that an event begins or reports as a whole. -/
def Event.step? : Event → Option StepData
  | .templateBegin kind name point location _ => some ⟨kind, ⟨.typeName name, location⟩, point⟩
  | .macroExpansionBegin name args point location _ =>
      some ⟨.macroExpansion, ⟨.expansion name args, location⟩, point⟩
  | .rescanning code _ => some ⟨.rescanning, ⟨.code code, .unknown⟩, .unknown⟩
  | .expandedCode code point _ => some ⟨.expandedCode, ⟨.code code, point⟩, point⟩
  | .tokenGeneration category value point location _ =>
      some ⟨.generatedToken, ⟨.token category value, location⟩, point⟩
  | .tokenSkipping category value point _ =>
      some ⟨.skippedToken, ⟨.token category value, point⟩, point⟩
  | .includeBegin path true point _ => some ⟨.sysInclude, ⟨.inclusion path true, point⟩, point⟩
  | .includeBegin path false point _ => some ⟨.quoteInclude, ⟨.inclusion path false, point⟩, point⟩
  | .define name args body point _ =>
      some ⟨.macroDefinition, ⟨.definition name args body, point⟩, point⟩
  | .undefine name point _ => some ⟨.macroDeletion, ⟨.code ("#undef " ++ name), point⟩, point⟩
  | .conditionBegin expression point _ =>
      some ⟨.preprocessingCondition, ⟨.code expression, point⟩, point⟩
  | .elseBranch point _ => some ⟨.preprocessingElse, ⟨.code "#else", point⟩, point⟩
  | .endif point _ => some ⟨.preprocessingEndif, ⟨.code "#endif", point⟩, point⟩
  | .errorDirective message point _ => some ⟨.errorDirective, ⟨.message message, point⟩, point⟩
  | .lineDirective argument point location _ =>
      some ⟨.lineDirective, ⟨.code ("#line " ++ argument), location⟩, point⟩
  | .templateEnd _ | .macroExpansionEnd _ | .includeEnd _ | .conditionEnd _ _
  | .evaluationEnd _ => none

/-- When an event happened; the end of the evaluation does not tell. -/
def Event.timestamp : Event → Float
  | .templateBegin _ _ _ _ timestamp | .templateEnd timestamp
  | .macroExpansionBegin _ _ _ _ timestamp | .rescanning _ timestamp
  | .expandedCode _ _ timestamp | .macroExpansionEnd timestamp
  | .tokenGeneration _ _ _ _ timestamp | .tokenSkipping _ _ _ timestamp
  | .includeBegin _ _ _ timestamp | .includeEnd timestamp | .define _ _ _ _ timestamp
  | .undefine _ _ timestamp | .conditionBegin _ _ timestamp | .conditionEnd _ timestamp
  | .elseBranch _ timestamp | .endif _ timestamp | .errorDirective _ _ timestamp
  | .lineDirective _ _ _ timestamp => timestamp
  | .evaluationEnd _ => 0

/-- What became of the condition that an event closes. -/
def Event.conditionResult : Event → Option Bool
  | .conditionEnd result _ => some result
  | _ => none

theorem step?_of_arrive {event : Event} {a : Arrival} (h : event.action = .arrive a) :
    event.step? = some ⟨a.kind, ⟨a.node, a.location⟩, a.pointOfEvent⟩
      ∧ event.timestamp = a.timestamp := by
  cases event with
  | includeBegin path system point timestamp =>
    cases system <;> (obtain rfl := Action.arrive.inj h; exact ⟨rfl, rfl⟩)
  | _ => first
    | (obtain rfl := Action.arrive.inj h; exact ⟨rfl, rfl⟩)
    | simp [Event.action] at h

theorem timestamp_of_close {event : Event} {closing : Closing} {timestamp : Float}
    {condition : Option Bool} (h : event.action = .close closing timestamp condition) :
    timestamp = event.timestamp ∧ condition = event.conditionResult := by
  cases event <;> first
    | (obtain ⟨-, rfl, rfl⟩ := Action.close.inj h; exact ⟨rfl, rfl⟩)
    | simp [Event.action] at h

/-! ## Edges and steps -/

/-- Where the edge of the step at `n` takes its place: after the edges of the steps before it. -/
theorem stepCount_take_lt {events : List Event} {n m : Nat} {event : Event}
    (found : events[n]? = some event) (step : event.isStep = true) (less : n < m) :
    stepCount (events.take n) < stepCount (events.take m) := by
  obtain ⟨within, rfl⟩ := List.getElem?_eq_some_iff.1 found
  have upTo : stepCount (events.take (n + 1)) = stepCount (events.take n) + 1 := by
    rw [← List.take_append_getElem within, stepCount_append, stepCount_singleton, step, if_pos rfl]
  have rest : events.take m = events.take (n + 1) ++ (events.take m).drop (n + 1) := by
    have split := List.take_append_drop (n + 1) (events.take m)
    rw [List.take_take, Nat.min_eq_left less] at split
    exact split.symm
  rw [rest, stepCount_append]
  omega

/-- Each place below the number of steps is that of a step. -/
theorem exists_step_of_lt {events : List Event} {k : Nat} (h : k < stepCount events) :
    ∃ n event, events[n]? = some event ∧ event.isStep = true
      ∧ stepCount (events.take n) = k := by
  induction events using List.reverseRecOn with
  | nil => simp at h
  | append_singleton p event ih =>
    by_cases earlier : k < stepCount p
    · obtain ⟨n, other, found, step, place⟩ := ih earlier
      have within : n < p.length := (List.getElem?_eq_some_iff.1 found).1
      refine ⟨n, other, ?_, step, ?_⟩
      · rwa [List.getElem?_append_left within]
      · rwa [List.take_append_of_le_length (Nat.le_of_lt within)]
    · rw [stepCount_append, stepCount_singleton] at h
      have step : event.isStep = true := by
        by_contra none
        simp [none] at h
        omega
      rw [step, if_pos rfl] at h
      refine ⟨p.length, event, by simp, step, ?_⟩
      rw [List.take_left]
      omega

/-! ## What an edge tells -/

/-- What an edge tells of a step except when and how it ended: it leads from the vertex of the
innermost open step, or from the root if none is open, to the vertex of the step. -/
structure Placed (config : Config) (g : CallGraph) (events : List Event) (n : Nat) (event : Event)
    (edge : Edge) : Prop where
  caller : (∃ i outer, InnermostUnclosed (events.take n) i
      ∧ g.edges[stepCount (events.take i)]? = some outer ∧ edge.source = outer.target)
    ∨ ((∀ i, ¬ Unclosed (events.take n) i) ∧ edge.source = CallGraph.root)
  step : ∃ step, event.step? = some step ∧ edge.kind = step.kind
    ∧ g.vertices[edge.target.index]? = some step.vertex ∧ edge.pointOfEvent = step.pointOfEvent
  began : edge.began = event.timestamp
  enabled : edge.enabled = (edge.kind.isTemplate || config.preprocessor)

/-- What an edge tells of the end of a step: when the event came that closes it, and what became of
the condition if it is one.  A leaf ends at once. -/
structure Timed (events : List Event) (n : Nat) (event : Event) (edge : Edge) : Prop where
  leaf : event.role = .leaf → edge.ended = some event.timestamp ∧ edge.condition = none
  closed : ∀ j closing, Matches events n j → events[j]? = some closing →
    edge.ended = some closing.timestamp ∧ edge.condition = closing.conditionResult
  unclosed : (∃ bracket, event.role = .opens bracket) → (∀ j, ¬ Matches events n j) →
    edge.ended = none ∧ edge.condition = none

/-- Whether the edge in the place of a step tells of the step. -/
def Recounts (config : Config) (g : CallGraph) (events : List Event) (n : Nat) (event : Event) :
    Prop :=
  ∃ edge, g.edges[stepCount (events.take n)]? = some edge
    ∧ Placed config g events n event edge ∧ Timed events n event edge

/-- A graph in which the vertices and edges of another are where they were, and of an edge at most
how it ended has changed. -/
structure CallGraph.Extends (g later : CallGraph) : Prop where
  vertices : ∀ (i : Nat) (v : Vertex), g.vertices[i]? = some v → later.vertices[i]? = some v
  edges : ∀ (k : Nat) (edge : Edge), g.edges[k]? = some edge →
    ∃ ended condition, later.edges[k]? = some { edge with ended, condition }

variable {config : Config} {g later : CallGraph} {p : List Event} {n : Nat} {event last : Event}
  {edge : Edge}

theorem Placed.snoc (h : Placed config g p n event edge) (within : n < p.length)
    (extends_ : g.Extends later) (last : Event) (ended : Option Float) (condition : Option Bool) :
    Placed config later (p ++ [last]) n event { edge with ended, condition } := by
  have before : (p ++ [last]).take n = p.take n :=
    List.take_append_of_le_length (Nat.le_of_lt within)
  refine ⟨?_, ?_, h.began, h.enabled⟩
  · rw [before]
    rcases h.caller with ⟨i, outer, innermost, found, source⟩ | ⟨none, source⟩
    · obtain ⟨opened, type, here, -⟩ := innermost.1.1
      have earlier : i < n := by
        have := (List.getElem?_eq_some_iff.1 here).1
        rw [List.length_take] at this
        omega
      obtain ⟨outerEnded, outerCondition, kept⟩ := extends_.edges _ outer found
      refine .inl ⟨i, { outer with ended := outerEnded, condition := outerCondition },
        innermost, ?_, source⟩
      rwa [List.take_append_of_le_length (by omega)]
    · exact .inr ⟨none, source⟩
  · obtain ⟨step, prescribed, kind, vertex, point⟩ := h.step
    exact ⟨step, prescribed, kind, extends_.vertices _ _ vertex, point⟩

/-- The end of a step stays as it is unless the last event closes the step. -/
theorem Timed.snoc {stack : Brackets} (nested : Brackets.after p = some stack)
    (h : Timed p n event edge)
    (stays : ¬ ∃ type outer, last.role = .closes type ∧ stack = (n, type) :: outer) :
    Timed (p ++ [last]) n event edge := by
  refine ⟨h.leaf, ?_, ?_⟩
  · intro j closing closes found
    rcases (matches_snoc_iff nested last n j).1 closes with inside | ⟨-, closed⟩
    · rw [List.getElem?_append_left inside.lt_length.2] at found
      exact h.closed j closing inside found
    · exact absurd closed stays
  · intro opens unmatched
    exact h.unclosed opens fun j inside =>
      unmatched j ((matches_snoc_iff nested last n j).2 (.inl inside))

/-- The last event ends the step that it closes. -/
theorem Timed.snoc_of_closes {type : Closing} {outer : Brackets}
    (nested : Brackets.after p = some ((n, type) :: outer)) (role : last.role = .closes type)
    (opens : ∃ bracket, event.role = .opens bracket) :
    Timed (p ++ [last]) n event
      { edge with ended := some last.timestamp, condition := last.conditionResult } := by
  have open_ : Unclosed p n := (unclosed_iff_mem nested n).2 ⟨type, List.mem_cons_self⟩
  refine ⟨?_, ?_, ?_⟩
  · intro leaf
    obtain ⟨bracket, opens⟩ := opens
    simp [leaf] at opens
  · intro j closing closes found
    rcases (matches_snoc_iff nested last n j).1 closes with inside | ⟨rfl, -⟩
    · exact absurd inside (open_.2 j)
    · obtain rfl : last = closing := by simpa using found
      exact ⟨rfl, rfl⟩
  · intro _ unmatched
    exact absurd ((matches_snoc_iff nested last n p.length).2
      (.inr ⟨rfl, type, outer, role, rfl⟩)) (unmatched p.length)

/-- A step that has just been reached is over if it is a leaf, and open otherwise. -/
theorem Timed.of_last (leaf : event.role = .leaf → edge.ended = some event.timestamp)
    (opens : (∃ bracket, event.role = .opens bracket) → edge.ended = none)
    (condition : edge.condition = none) : Timed (p ++ [event]) p.length event edge := by
  refine ⟨fun role => ⟨leaf role, condition⟩, ?_, fun role _ => ⟨opens role, condition⟩⟩
  intro j closing closes _
  have := closes.lt_length
  simp only [List.length_append, List.length_singleton] at this
  omega

/-! ## Recording a step -/

namespace Recorder

variable {stack : Brackets} {r after : Recorder}

theorem Arrived.extends {a : Arrival} {target : VertexId} (h : r.Arrived a target after) :
    r.graph.Extends after.graph := by
  refine ⟨h.vertices, fun k edge found => ⟨edge.ended, edge.condition, ?_⟩⟩
  have within : k < r.graph.edges.size := (Array.getElem?_eq_some_iff.1 found).1
  rw [h.edges, Array.getElem?_push, if_neg (Nat.ne_of_lt within), found]

theorem modifyEdge_extends (g : CallGraph) (e : EdgeId) (timestamp : Float)
    (condition : Option Bool) : g.Extends (g.modifyEdge e (closeEdge timestamp condition)) := by
  refine ⟨fun i v found => found, ?_⟩
  intro k edge found
  by_cases same : e.index = k
  · exact ⟨some timestamp, condition, by
      simp [CallGraph.modifyEdge, Array.getElem?_modify, same, found, closeEdge]⟩
  · exact ⟨edge.ended, edge.condition, by
      simp [CallGraph.modifyEdge, Array.getElem?_modify, same, found]⟩

/-- The caller of a recorder is the vertex of the innermost open step, or the root. -/
theorem Follows.caller_eq (f : Follows config p stack r) :
    (∃ i outer, InnermostUnclosed p i ∧ r.graph.edges[stepCount (p.take i)]? = some outer
        ∧ r.caller = outer.target)
      ∨ ((∀ i, ¬ Unclosed p i) ∧ r.caller = CallGraph.root) := by
  have opened := f.opened
  unfold caller
  cases openEdges : r.openEdges with
  | nil =>
    rw [openEdges] at opened
    obtain rfl := List.forall₂_nil_left_iff.1 opened
    refine .inr ⟨?_, rfl⟩
    intro i unclosed
    simpa using (unclosed_iff_mem f.nested i).1 unclosed
  | cons e inner =>
    rw [openEdges] at opened
    obtain ⟨⟨i, type⟩, outer, pair, -, rfl⟩ := List.forall₂_cons_left_iff.1 opened
    have innermost := (innermostUnclosed_iff f.nested i).2 ⟨type, outer, rfl⟩
    refine .inl ⟨i, r.graph.edge e, innermost, ?_, rfl⟩
    rw [← pair.1]
    exact CallGraph.getElem?_edge (f.wellFormed.opened e (by simp [openEdges]))

/-- An arrival is recounted by the edge it adds, and the steps before it by theirs. -/
theorem Follows.recounts_arrive (f : Follows config p stack r) {a : Arrival}
    (action : last.action = .arrive a) (role : ∀ type, last.role ≠ .closes type)
    (opens : a.opens = true ↔ ∃ bracket, last.role = .opens bracket)
    (recorded : r.record last = (after, none))
    (ih : ∀ n event, p[n]? = some event → event.isStep = true → Recounts config r.graph p n event)
    (n : Nat) (event : Event) (found : (p ++ [last])[n]? = some event)
    (step : event.isStep = true) : Recounts config after.graph (p ++ [last]) n event := by
  simp only [record, action] at recorded
  obtain ⟨target, arrived⟩ := exists_arrived f.wellFormed recorded
  have grown := arrived.extends
  by_cases earlier : n < p.length
  · rw [List.getElem?_append_left earlier] at found
    obtain ⟨edge, atPlace, placed, timed⟩ := ih n event found step
    refine ⟨edge, ?_, placed.snoc earlier grown last edge.ended edge.condition,
      timed.snoc f.nested ?_⟩
    · have within := (Array.getElem?_eq_some_iff.1 atPlace).1
      rw [List.take_append_of_le_length (Nat.le_of_lt earlier), arrived.edges,
        Array.getElem?_push, if_neg (Nat.ne_of_lt within), atPlace]
    · rintro ⟨type, outer, closes, -⟩
      exact role type closes
  · -- the step is the one that has just been reached
    have within := (List.getElem?_eq_some_iff.1 found).1
    obtain rfl : n = p.length := by
      rw [List.length_append, List.length_singleton] at within
      omega
    obtain rfl : last = event := by simpa using found
    obtain ⟨prescribed, timestamp⟩ := step?_of_arrive action
    refine ⟨r.edgeFor a target, ?_, ⟨?_, ?_, timestamp.symm, ?_⟩, .of_last ?_ ?_ rfl⟩
    · rw [List.take_left, arrived.edges, ← f.edges_size]
      simp
    · rw [List.take_left]
      rcases f.caller_eq with ⟨i, outer, innermost, atPlace, source⟩ | ⟨none, source⟩
      · obtain ⟨opened, type, here, -⟩ := innermost.1.1
        have inside := (List.getElem?_eq_some_iff.1 here).1
        obtain ⟨ended, condition, kept⟩ := grown.edges _ outer atPlace
        refine .inl ⟨i, { outer with ended, condition }, innermost, ?_, source⟩
        rwa [List.take_append_of_le_length (Nat.le_of_lt inside)]
      · exact .inr ⟨none, source⟩
    · exact ⟨_, prescribed, rfl, arrived.vertex, rfl⟩
    · simp [edgeFor, f.preprocessor]
    · intro leaf
      have noBracket : ¬ a.opens = true := by
        rw [opens]
        rintro ⟨bracket, bad⟩
        simp [leaf] at bad
      simp [edgeFor, noBracket, timestamp]
    · intro bracket
      simp [edgeFor, opens.2 bracket]

/-- A closing event ends the innermost open step, and no other step. -/
theorem Follows.recounts_close (f : Follows config p stack r) {type : Closing}
    (role : last.role = .closes type) (recorded : r.record last = (after, none))
    (ih : ∀ n event, p[n]? = some event → event.isStep = true → Recounts config r.graph p n event)
    (n : Nat) (event : Event) (found : (p ++ [last])[n]? = some event)
    (step : event.isStep = true) : Recounts config after.graph (p ++ [last]) n event := by
  obtain ⟨place, outer, rfl, -⟩ := f.snoc_of_closes role recorded
  obtain ⟨timestamp, condition, action⟩ := action_of_closes role
  obtain ⟨rfl, rfl⟩ := timestamp_of_close action
  simp only [record, action] at recorded
  obtain ⟨-, e, inner, openEdges, -, rfl⟩ := exists_of_close_eq recorded
  obtain ⟨index, -⟩ : OpenedBy r.graph p e (place, type) := by
    have opened := f.opened
    rw [openEdges] at opened
    exact (List.forall₂_cons.1 opened).1
  have earlier : n < p.length := by
    have within := (List.getElem?_eq_some_iff.1 found).1
    rw [List.length_append, List.length_singleton] at within
    by_contra beyond
    obtain rfl : n = p.length := by omega
    obtain rfl : last = event := by simpa using found
    simp [isStep_of_closes role] at step
  rw [List.getElem?_append_left earlier] at found
  obtain ⟨edge, atPlace, placed, timed⟩ := ih n event found step
  have grown := modifyEdge_extends r.graph e last.timestamp last.conditionResult
  have before : (p ++ [last]).take n = p.take n :=
    List.take_append_of_le_length (Nat.le_of_lt earlier)
  by_cases closed : n = place
  · subst closed
    obtain ⟨opening, bracket, here, opens⟩ := ((unclosed_iff_mem f.nested n).2
      ⟨type, List.mem_cons_self⟩).1
    obtain rfl : event = opening := by simpa [found] using here
    refine ⟨_, ?_, placed.snoc earlier grown last (some last.timestamp) last.conditionResult,
      .snoc_of_closes f.nested role ⟨bracket, opens⟩⟩
    rw [before]
    simp [CallGraph.modifyEdge, Array.getElem?_modify, index, atPlace, closeEdge]
  · -- different steps have different edges
    obtain ⟨opening, bracket, here, opens⟩ := ((unclosed_iff_mem f.nested place).2
      ⟨type, List.mem_cons_self⟩).1
    have differs : e.index ≠ stepCount (p.take n) := by
      rw [index]
      rcases Nat.lt_or_gt_of_ne closed with less | more
      · exact Nat.ne_of_gt (stepCount_take_lt found step less)
      · exact Nat.ne_of_lt (stepCount_take_lt here (isStep_of_opens opens) more)
    refine ⟨edge, ?_, placed.snoc earlier grown last edge.ended edge.condition,
      timed.snoc f.nested ?_⟩
    · rw [before]
      simp [CallGraph.modifyEdge, Array.getElem?_modify, differs, atPlace]
    · rintro ⟨other, below, -, same⟩
      simp only [List.cons.injEq, Prod.mk.injEq] at same
      exact closed same.1.1.symm

/-- While the evaluation has not ended, every step is recounted by its edge. -/
theorem recounts_of_follows {rootLocation : Location}
    (recorded : (start config rootLocation).recordAll p = (r, none))
    (f : Follows config p stack r) (n : Nat) (event : Event) (found : p[n]? = some event)
    (step : event.isStep = true) : Recounts config r.graph p n event := by
  induction p using List.reverseRecOn generalizing r stack n event with
  | nil => simp at found
  | append_singleton p last ih =>
    obtain ⟨outer, before, earlier, follows, lastRecorded⟩ := exists_follows_before recorded f
    have ih := fun n event found step => ih earlier follows n event found step
    cases role : last.role with
    | opens bracket =>
      obtain ⟨a, action, opens, -⟩ := action_of_opens role
      exact follows.recounts_arrive action (by simp [role]) (by simp [opens, role]) lastRecorded ih
        n event found step
    | leaf =>
      obtain ⟨a, action, opens, -⟩ := action_of_leaf role
      exact follows.recounts_arrive action (by simp [role]) (by simp [opens, role]) lastRecorded ih
        n event found step
    | closes type => exact follows.recounts_close role lastRecorded ih n event found step
    | ends =>
      have nested := f.nested
      rw [Brackets.after_snoc, follows.nested] at nested
      simp [Brackets.next, role] at nested

/-- The end of the evaluation changes nothing that the edges tell. -/
theorem Follows.recounts_end (f : Follows config p stack r) (outcome : Outcome)
    (h : Recounts config r.graph p n event) (within : n < p.length) :
    Recounts config { r.graph with outcome := some outcome } (p ++ [.evaluationEnd outcome]) n
      event := by
  obtain ⟨edge, atPlace, placed, timed⟩ := h
  have same : r.graph.Extends { r.graph with outcome := some outcome } :=
    ⟨fun _ _ found => found, fun _ edge found => ⟨edge.ended, edge.condition, found⟩⟩
  refine ⟨edge, ?_, placed.snoc within same _ edge.ended edge.condition, timed.snoc f.nested ?_⟩
  · rwa [List.take_append_of_le_length (Nat.le_of_lt within)]
  · rintro ⟨type, outer, closes, -⟩
    simp [Event.role] at closes

/-- The edges of a recorded trace are its steps, in order: there are as many, later steps have later
edges, and every edge is that of a step and recounts it. -/
theorem edges_recount_calls (config : Config) (rootLocation : Location) (events : List Event)
    (r : Recorder) (recorded : (start config rootLocation).recordAll events = (r, none)) :
    r.graph.edges.size = stepCount events
      ∧ (∀ k < r.graph.edges.size, ∃ n event, events[n]? = some event ∧ event.isStep = true
          ∧ stepCount (events.take n) = k)
      ∧ (∀ n m event, events[n]? = some event → event.isStep = true → n < m →
          stepCount (events.take n) < stepCount (events.take m))
      ∧ ∀ n event, events[n]? = some event → event.isStep = true →
          Recounts config r.graph events n event := by
  have main : r.graph.edges.size = stepCount events ∧ ∀ n event, events[n]? = some event →
      event.isStep = true → Recounts config r.graph events n event := by
    rcases recorded_cases recorded with
      ⟨stack, follows⟩ | ⟨p, outcome, before, rfl, earlier, follows, rfl⟩
    · exact ⟨follows.edges_size, recounts_of_follows recorded follows⟩
    · refine ⟨?_, ?_⟩
      · rw [stepCount_append, stepCount_singleton, isStep_of_ends rfl, if_neg Bool.false_ne_true]
        exact follows.edges_size
      · intro n event found step
        have within : n < p.length := by
          by_contra beyond
          have inside := (List.getElem?_eq_some_iff.1 found).1
          rw [List.length_append, List.length_singleton] at inside
          obtain rfl : n = p.length := by omega
          obtain rfl : .evaluationEnd outcome = event := by simpa using found
          simp [Event.isStep, Event.role] at step
        rw [List.getElem?_append_left within] at found
        exact follows.recounts_end outcome (recounts_of_follows earlier follows n event found step)
          within
  refine ⟨main.1, fun k within => exists_step_of_lt (main.1 ▸ within), ?_, main.2⟩
  intro n m event found step less
  exact stepCount_take_lt found step less

/-- The recursion is reached from the step that it repeats. -/
theorem edges_recount_calls_recursion :
    ∃ r, (start .default .unknown).recordAll recursion = (r, none)
      ∧ Recounts .default r.graph recursion 1
        (.templateBegin .memoization "a" .unknown .unknown 1) :=
  ⟨((start .default .unknown).recordAll recursion).1, Prod.ext rfl rfl,
    (edges_recount_calls .default .unknown recursion _ (Prod.ext rfl rfl)).2.2.2 1 _ rfl rfl⟩

end Recorder

end TemplateTrace
