import TemplateTrace.Proofs.Brackets
import TemplateTrace.Proofs.Recording
import Mathlib.Data.List.Forall2
set_option autoImplicit false

/-!
# Recording follows the brackets

While the evaluation has not ended, the open edges of a recorder are the open brackets of the trace:
`Recorder.Follows` relates the two, `Follows.snoc` keeps the relation over an event that is not
refused, and `Follows.record_eq_none` says that no event is refused that the brackets and the limits
of the configuration allow.  `recorded_cases` concludes that a recorded trace is one that follows
the brackets, with an end of the evaluation after it or not.
-/

namespace TemplateTrace

/-! ## Limits -/

/-- Whether an event that begins a template step gives it a kind of templates. -/
def Event.hasFittingKind : Event → Bool
  | .templateBegin kind .. => kind.isTemplate
  | _ => true

/-- Whether a trace keeps within what can be recorded: template steps have kinds of templates, and
there are no more steps than the capacity allows. -/
def WithinLimits (config : Config) (events : List Event) : Prop :=
  (∀ event ∈ events, event.hasFittingKind = true)
    ∧ ∀ capacity, config.capacity = some capacity → stepCount events ≤ capacity.toNat

theorem WithinLimits.initial {config : Config} {p q : List Event}
    (h : WithinLimits config (p ++ q)) : WithinLimits config p := by
  refine ⟨fun event mem => h.1 event (List.mem_append_left q mem), ?_⟩
  intro capacity known
  have whole := h.2 capacity known
  rw [stepCount_append] at whole
  omega

/-- Events that are no steps keep within the limits. -/
theorem WithinLimits.append_of_stepCount_eq_zero {config : Config} {p q : List Event}
    (h : WithinLimits config p) (none : stepCount q = 0) : WithinLimits config (p ++ q) := by
  refine ⟨?_, ?_⟩
  · intro event mem
    rcases List.mem_append.1 mem with mem | mem
    · exact h.1 event mem
    · have noStep : event.isStep ≠ true := List.countP_eq_zero.1 none event mem
      cases event <;> first | rfl | exact absurd rfl noStep
  · intro capacity known
    rw [stepCount_append, none]
    exact h.2 capacity known

/-! ## Actions by role -/

theorem action_of_opens {event : Event} {bracket : Closing} (h : event.role = .opens bracket) :
    ∃ a, event.action = .arrive a ∧ a.opens = true
      ∧ (a.key?.isSome && !a.kind.isTemplate) = !event.hasFittingKind
      ∧ (event.hasFittingKind = true → ∀ c, Closing.closes c a.kind = decide (c = bracket)) := by
  cases event with
  | templateBegin kind name point location timestamp =>
    obtain rfl : Closing.template = bracket := by simpa [Event.role] using h
    refine ⟨_, rfl, rfl, rfl, ?_⟩
    intro fits c
    cases kind <;> first | (cases c <;> rfl) | simp [Event.hasFittingKind, Kind.isTemplate] at fits
  | macroExpansionBegin name args point location timestamp =>
    obtain rfl : Closing.macroExpansion = bracket := by simpa [Event.role] using h
    exact ⟨_, rfl, rfl, rfl, fun _ c => by cases c <;> rfl⟩
  | includeBegin path system point timestamp =>
    obtain rfl : Closing.inclusion = bracket := by simpa [Event.role] using h
    exact ⟨_, rfl, rfl, rfl, fun _ c => by cases system <;> cases c <;> rfl⟩
  | conditionBegin expression point timestamp =>
    obtain rfl : Closing.condition = bracket := by simpa [Event.role] using h
    exact ⟨_, rfl, rfl, rfl, fun _ c => by cases c <;> rfl⟩
  | _ => simp [Event.role] at h

theorem action_of_leaf {event : Event} (h : event.role = .leaf) :
    ∃ a, event.action = .arrive a ∧ a.opens = false
      ∧ (a.key?.isSome && !a.kind.isTemplate) = !event.hasFittingKind := by
  cases event <;> first | exact ⟨_, rfl, rfl, rfl⟩ | simp [Event.role] at h

theorem action_of_closes {event : Event} {bracket : Closing} (h : event.role = .closes bracket) :
    ∃ timestamp condition, event.action = .close bracket timestamp condition := by
  cases event <;> first
    | (obtain rfl := Event.Role.closes.inj h; exact ⟨_, _, rfl⟩)
    | simp [Event.role] at h

namespace Recorder

/-! ## Recording and brackets -/

/-- Whether an edge is that of the event which opened a bracket, and closed as the bracket is. -/
def OpenedBy (g : CallGraph) (events : List Event) (e : EdgeId) (top : Nat × Closing) : Prop :=
  e.index = stepCount (events.take top.1)
    ∧ ∀ c, Closing.closes c (g.edge e).kind = decide (c = top.2)

/-- The recorder has recorded a trace that has not ended, and its open edges are those of the
brackets that the trace leaves open. -/
structure Follows (config : Config) (events : List Event) (stack : Brackets) (r : Recorder) :
    Prop where
  wellFormed : r.WellFormed
  capacity : r.capacity = config.capacity
  preprocessor : r.preprocessor = config.preprocessor
  unfinished : r.graph.outcome = none
  limits : WithinLimits config events
  nested : Brackets.after events = some stack
  edges_size : r.graph.edges.size = stepCount events
  vertices_size : r.graph.vertices.size ≤ stepCount events + 1
  opened : List.Forall₂ (OpenedBy r.graph events) r.openEdges stack

/-- After the end of the evaluation every event is refused for that, and changes nothing. -/
theorem record_of_frozen {r : Recorder} (frozen : r.graph.isFrozen = true) (event : Event) :
    r.record event = (r, some .frozen) := by
  unfold record
  cases event.action with
  | arrive a => simp [arrive, refusal?, frozen]
  | close closing timestamp condition => simp [close, frozen]
  | finish outcome => simp [finish, frozen]

theorem follows_start (config : Config) (rootLocation : Location) :
    Follows config [] [] (start config rootLocation) where
  wellFormed := start_wellFormed config rootLocation
  capacity := rfl
  preprocessor := rfl
  unfinished := rfl
  limits := ⟨by simp, by simp⟩
  nested := rfl
  edges_size := rfl
  vertices_size := Nat.le_refl _
  opened := .nil

namespace Follows

variable {config : Config} {p : List Event} {stack : Brackets} {r after : Recorder} {event : Event}

theorem not_frozen (f : Follows config p stack r) : r.graph.isFrozen = false := by
  simp [CallGraph.isFrozen, f.unfinished]

/-- The brackets that stay open keep their edges while the trace grows and edges change in other
respects than their kinds. -/
theorem opened_snoc {g : CallGraph} {edges : List EdgeId}
    (opened : List.Forall₂ (OpenedBy g p) edges stack) (places : ∀ top ∈ stack, top.1 < p.length)
    {later : CallGraph} (kinds : ∀ e ∈ edges, (later.edge e).kind = (g.edge e).kind)
    (event : Event) : List.Forall₂ (OpenedBy later (p ++ [event])) edges stack := by
  induction opened with
  | nil => exact .nil
  | @cons e top edges tops pair _ ih =>
    refine .cons ⟨?_, ?_⟩ (ih (fun top mem => places top (List.mem_cons_of_mem _ mem))
      fun e mem => kinds e (List.mem_cons_of_mem _ mem))
    · rw [List.take_append_of_le_length (Nat.le_of_lt (places top List.mem_cons_self))]
      exact pair.1
    · rw [kinds e List.mem_cons_self]
      exact pair.2

/-- What an arrival must meet that is not refused, beside the limits of the arenas. -/
theorem refusal?_eq_none_iff (f : Follows config p stack r) {a : Arrival} :
    r.refusal? a = none
      ↔ (∀ capacity, config.capacity = some capacity → stepCount p < capacity.toNat)
        ∧ (a.key?.isSome && !a.kind.isTemplate) = false := by
  unfold refusal? overflow?
  rw [f.not_frozen, f.capacity, f.edges_size]
  cases config.capacity with
  | none => simp
  | some capacity =>
    by_cases full : capacity.toNat ≤ stepCount p
    · have crowded : ¬ stepCount p < capacity.toNat := Nat.not_lt.2 full
      simp [full, crowded]
    · simp [full, Nat.lt_of_not_le full]

/-- An arrival keeps the relation, whatever it does to the brackets. -/
theorem arrive_snoc (f : Follows config p stack r) {a : Arrival} {next : Brackets}
    (action : event.action = .arrive a) (step : event.isStep = true)
    (fits : (a.key?.isSome && !a.kind.isTemplate) = !event.hasFittingKind)
    (h : r.record event = (after, none)) (nested : Brackets.after (p ++ [event]) = some next)
    (opened : ∀ target, r.Arrived a target after → event.hasFittingKind = true →
      List.Forall₂ (OpenedBy after.graph (p ++ [event])) r.openEdges stack →
      List.Forall₂ (OpenedBy after.graph (p ++ [event])) after.openEdges next) :
    Follows config (p ++ [event]) next after := by
  have keptWellFormed := f.wellFormed.of_record h
  simp only [record, action] at h
  obtain ⟨target, arrived⟩ := exists_arrived f.wellFormed h
  obtain ⟨room, fitting⟩ := f.refusal?_eq_none_iff.1 arrived.allowed
  have fitting : event.hasFittingKind = true := by simpa [fits] using fitting
  have count : stepCount (p ++ [event]) = stepCount p + 1 := by
    rw [stepCount_append, stepCount_singleton, step, if_pos rfl]
  have kinds : ∀ e ∈ r.openEdges, (after.graph.edge e).kind = (r.graph.edge e).kind := by
    intro e mem
    have within := f.wellFormed.opened e mem
    simp [CallGraph.edge, arrived.edges, Array.getElem?_push, Nat.ne_of_lt within]
  have places := (Brackets.after_places f.nested).1
  exact
    { wellFormed := keptWellFormed
      capacity := arrived.capacity.trans f.capacity
      preprocessor := arrived.preprocessor.trans f.preprocessor
      unfinished := arrived.outcome.trans f.unfinished
      limits := by
        refine ⟨?_, ?_⟩
        · intro other mem
          rcases List.mem_append.1 mem with mem | mem
          · exact f.limits.1 other mem
          · obtain rfl : other = event := by simpa using mem
            exact fitting
        · intro capacity known
          rw [count]
          exact room capacity known
      nested
      edges_size := by rw [arrived.edges, Array.size_push, f.edges_size, count]
      vertices_size := by
        have grown := arrived.vertices_size
        have before := f.vertices_size
        omega
      opened := opened target arrived fitting (opened_snoc f.opened places kinds event) }

theorem snoc_of_opens (f : Follows config p stack r) {bracket : Closing}
    (role : event.role = .opens bracket) (h : r.record event = (after, none)) :
    Follows config (p ++ [event]) ((p.length, bracket) :: stack) after := by
  obtain ⟨a, action, opens, fits, closes⟩ := action_of_opens role
  refine f.arrive_snoc action (isStep_of_opens role) fits h ?_ ?_
  · simp [Brackets.after_snoc, f.nested, Brackets.next, role]
  · intro target arrived fitting kept
    have last := EdgeId.index_ofNat f.wellFormed.graph.edgeRoom
    rw [arrived.openEdges, opens, if_pos rfl]
    refine .cons ⟨?_, ?_⟩ kept
    · rw [last, f.edges_size]
      simp
    · have edge : after.graph.edge ⟨UInt32.ofNat r.graph.edges.size⟩ = r.edgeFor a target := by
        simp [CallGraph.edge, last, arrived.edges]
      rw [edge]
      exact closes fitting

theorem snoc_of_leaf (f : Follows config p stack r) (role : event.role = .leaf)
    (h : r.record event = (after, none)) : Follows config (p ++ [event]) stack after := by
  obtain ⟨a, action, opens, fits⟩ := action_of_leaf role
  refine f.arrive_snoc action (isStep_of_leaf role) fits h ?_ ?_
  · simp [Brackets.after_snoc, f.nested, Brackets.next, role]
  · intro target arrived _ kept
    rw [arrived.openEdges, opens]
    exact kept

theorem snoc_of_closes (f : Follows config p stack r) {bracket : Closing}
    (role : event.role = .closes bracket) (h : r.record event = (after, none)) :
    ∃ place outer, stack = (place, bracket) :: outer
      ∧ Follows config (p ++ [event]) outer after := by
  have keptWellFormed := f.wellFormed.of_record h
  obtain ⟨timestamp, condition, action⟩ := action_of_closes role
  simp only [record, action] at h
  obtain ⟨-, e, inner, openEdges, closes, rfl⟩ := exists_of_close_eq h
  have opened := f.opened
  rw [openEdges] at opened
  obtain ⟨⟨place, top⟩, outer, pair, below, rfl⟩ := List.forall₂_cons_left_iff.1 opened
  obtain rfl : bracket = top := by simpa [pair.2 bracket] using closes
  have noStep : stepCount [event] = 0 := by
    rw [stepCount_singleton, isStep_of_closes role, if_neg Bool.false_ne_true]
  have count : stepCount (p ++ [event]) = stepCount p := by rw [stepCount_append, noStep]; rfl
  refine ⟨place, outer, rfl, ?_⟩
  exact
    { wellFormed := keptWellFormed
      capacity := f.capacity
      preprocessor := f.preprocessor
      unfinished := f.unfinished
      limits := f.limits.append_of_stepCount_eq_zero noStep
      nested := by simp [Brackets.after_snoc, f.nested, Brackets.next, role]
      edges_size := by simp [count, f.edges_size]
      vertices_size := count ▸ f.vertices_size
      opened := by
        have places := (Brackets.after_places f.nested).1
        refine opened_snoc below (fun top mem => places top (List.mem_cons_of_mem _ mem)) ?_ event
        intro other mem
        have within := f.wellFormed.opened other (by
          rw [openEdges]
          exact List.mem_cons_of_mem _ mem)
        rw [CallGraph.modifyEdge_edge _ _ _ within]
        split <;> rfl }

/-- An event that is not refused comes where the brackets allow it. -/
theorem snoc (f : Follows config p stack r) (unended : event.role ≠ .ends)
    (h : r.record event = (after, none)) :
    ∃ next, Follows config (p ++ [event]) next after := by
  cases role : event.role with
  | opens bracket => exact ⟨_, f.snoc_of_opens role h⟩
  | leaf => exact ⟨_, f.snoc_of_leaf role h⟩
  | closes bracket =>
    obtain ⟨place, outer, -, follows⟩ := f.snoc_of_closes role h
    exact ⟨outer, follows⟩
  | ends => exact absurd role unended

/-- The evaluation can end when no bracket is open. -/
theorem record_evaluationEnd_iff (f : Follows config p stack r) (outcome : Outcome) :
    r.record (.evaluationEnd outcome) = (after, none)
      ↔ stack = [] ∧ after = { r with graph := { r.graph with outcome := some outcome } } := by
  have sameLength := f.opened.length_eq
  simp only [record, Event.action, finish, f.not_frozen, Bool.false_eq_true, if_false]
  cases opened : r.openEdges with
  | nil =>
    rw [opened] at sameLength
    obtain rfl : stack = [] := List.length_eq_zero_iff.1 sameLength.symm
    simp [eq_comm]
  | cons e inner =>
    rw [opened] at sameLength
    have nonempty : stack ≠ [] := by
      rintro rfl
      simp at sameLength
    simp [nonempty]

/-- No event is refused that the brackets and the limits allow, the arenas being large enough. -/
theorem record_not_refused (f : Follows config p stack r) {next : Brackets}
    (nested : Brackets.after (p ++ [event]) = some next)
    (limits : WithinLimits config (p ++ [event]))
    (room : stepCount (p ++ [event]) < CallGraph.arenaLimit) :
    (r.record event).2 = none := by
  have arrival : ∀ a, event.action = .arrive a → event.isStep = true →
      (a.key?.isSome && !a.kind.isTemplate) = !event.hasFittingKind →
      (r.record event).2 = none := by
    intro a action step fits
    have count : stepCount (p ++ [event]) = stepCount p + 1 := by
      rw [stepCount_append, stepCount_singleton, step, if_pos rfl]
    have allowed : r.refusal? a = none := by
      refine f.refusal?_eq_none_iff.2 ⟨?_, ?_⟩
      · intro capacity known
        have := limits.2 capacity known
        omega
      · rw [fits, limits.1 event (by simp)]
        rfl
    have vertexRoom : r.graph.vertices.size < CallGraph.arenaLimit := by
      have := f.vertices_size
      omega
    have edgeRoom : r.graph.edges.size < CallGraph.arenaLimit := by
      have := f.edges_size
      omega
    have found : ∃ target, r.target? a = some target := by
      unfold target?
      cases r.known? a with
      | some v => exact ⟨v, rfl⟩
      | none =>
        refine ⟨⟨UInt32.ofNat r.graph.vertices.size⟩, ?_⟩
        simp [CallGraph.nextVertex?, vertexRoom]
    obtain ⟨target, found⟩ := found
    simp only [record, action, arrive, allowed, found, CallGraph.nextEdge?, withVertex_edges,
      edgeRoom, if_true]
  rcases Brackets.snoc_cases nested with
    ⟨type, outer, role, -, -⟩ | ⟨role, -⟩ | ⟨type, place, role, hp⟩
  · obtain ⟨a, action, -, fits, -⟩ := action_of_opens role
    exact arrival a action (isStep_of_opens role) fits
  · obtain ⟨a, action, -, fits⟩ := action_of_leaf role
    exact arrival a action (isStep_of_leaf role) fits
  · obtain ⟨timestamp, condition, action⟩ := action_of_closes role
    obtain rfl : stack = (place, type) :: next := by simpa [f.nested] using hp
    have opened := f.opened
    obtain ⟨e, inner, pair, -, openEdges⟩ := List.forall₂_cons_right_iff.1 opened
    have closes : type.closes (r.graph.edge e).kind = true := by simp [pair.2 type]
    simp only [record, action, close, f.not_frozen, openEdges, closes, Bool.false_eq_true, if_false,
      if_true]

end Follows

/-! ## Whole traces -/

/-- A recorded trace follows the brackets, with an end of the evaluation after it or not. -/
theorem recorded_cases {config : Config} {rootLocation : Location} {events : List Event}
    {r : Recorder} (h : (start config rootLocation).recordAll events = (r, none)) :
    (∃ stack, Follows config events stack r)
      ∨ ∃ p outcome before, events = p ++ [.evaluationEnd outcome]
        ∧ (start config rootLocation).recordAll p = (before, none) ∧ Follows config p [] before
        ∧ r = { before with graph := { before.graph with outcome := some outcome } } := by
  induction events using List.reverseRecOn generalizing r with
  | nil =>
    obtain rfl : start config rootLocation = r := by simpa [recordAll] using h
    exact .inl ⟨[], follows_start config rootLocation⟩
  | append_singleton p event ih =>
    obtain ⟨before, earlier, last⟩ := (recordAll_snoc_iff _ _ _ _).1 h
    rcases ih earlier with ⟨stack, follows⟩ | ⟨_, outcome, _, -, -, -, ended⟩
    · by_cases role : event.role = .ends
      · obtain ⟨outcome, rfl⟩ := exists_outcome_of_ends role
        obtain ⟨rfl, ended⟩ := (follows.record_evaluationEnd_iff outcome).1 last
        exact .inr ⟨p, outcome, before, rfl, earlier, follows, ended⟩
      · exact .inl (follows.snoc role last)
    · -- nothing is recorded after the end
      have frozen : before.graph.isFrozen = true := by rw [ended]; rfl
      rw [record_of_frozen frozen event] at last
      cases last

/-- A trace that has not ended was recorded event by event, and had not ended before. -/
theorem exists_follows_before {config : Config} {rootLocation : Location} {p : List Event}
    {event : Event} {stack : Brackets} {after : Recorder}
    (h : (start config rootLocation).recordAll (p ++ [event]) = (after, none))
    (f : Follows config (p ++ [event]) stack after) :
    ∃ outer before, (start config rootLocation).recordAll p = (before, none)
      ∧ Follows config p outer before ∧ before.record event = (after, none) := by
  obtain ⟨before, earlier, last⟩ := (recordAll_snoc_iff _ _ _ _).1 h
  rcases recorded_cases earlier with ⟨outer, follows⟩ | ⟨steps, outcome, _, rfl, -, -, -⟩
  · exact ⟨outer, before, earlier, follows, last⟩
  · exact absurd rfl (Brackets.role_ne_ends f.nested (.evaluationEnd outcome) (by simp))

/-- A trace that keeps to the brackets and the limits is recorded. -/
theorem exists_recordAll_eq {config : Config} (rootLocation : Location) {events : List Event}
    {stack : Brackets} (nested : Brackets.after events = some stack)
    (limits : WithinLimits config events) (room : stepCount events < CallGraph.arenaLimit) :
    ∃ r, (start config rootLocation).recordAll events = (r, none)
      ∧ Follows config events stack r := by
  induction events using List.reverseRecOn generalizing stack with
  | nil =>
    obtain rfl : [] = stack := by simpa using nested
    exact ⟨_, rfl, follows_start config rootLocation⟩
  | append_singleton p event ih =>
    obtain ⟨outer, nestedBefore, -⟩ :=
      Option.bind_eq_some_iff.1 (Brackets.after_snoc p event ▸ nested)
    have roomBefore : stepCount p < CallGraph.arenaLimit := by
      rw [stepCount_append] at room
      omega
    obtain ⟨before, earlier, follows⟩ := ih nestedBefore limits.initial roomBefore
    have last : before.record event = ((before.record event).1, none) :=
      Prod.ext rfl (follows.record_not_refused nested limits room)
    have unended : event.role ≠ .ends := by
      intro role
      rw [Brackets.after_snoc, nestedBefore] at nested
      simp [Brackets.next, role] at nested
    obtain ⟨next, followsNext⟩ := follows.snoc unended last
    obtain rfl : next = stack := by simpa [followsNext.nested] using nested
    exact ⟨_, (recordAll_snoc_iff _ _ _ _).2 ⟨before, earlier, last⟩, followsNext⟩

end Recorder

end TemplateTrace
