import TemplateTrace.Proofs.Nesting
import TemplateTrace.Session
set_option autoImplicit false

/-!
# Which traces are accepted

A trace is accepted if it is a balanced trace within the limits of the configuration, followed by
one end of the evaluation.  Replaying gives a graph for exactly these traces, and a replay which
fails at an event fails at the first one that no accepted trace has in this place
(`replay_cases`).
-/

namespace TemplateTrace

/-- The traces of which a graph comes. -/
def Accepted (config : Config) (events : List Event) : Prop :=
  ∃ steps outcome, events = steps ++ [.evaluationEnd outcome]
    ∧ (∀ event ∈ steps, event.role ≠ .ends) ∧ Balanced steps ∧ WithinLimits config steps

/-- Whether an accepted trace begins like this. -/
def Viable (config : Config) (events : List Event) : Prop :=
  ∃ rest, Accepted config (events ++ rest)

/-- Whether the event at a place is the first with which no accepted trace begins. -/
def FirstOffence (config : Config) (events : List Event) (place : Nat) : Prop :=
  (∀ n ≤ place, Viable config (events.take n)) ∧ ¬ Viable config (events.take (place + 1))

theorem Accepted.of_balanced {config : Config} {steps : List Event} (balanced : Balanced steps)
    (limits : WithinLimits config steps) (outcome : Outcome) :
    Accepted config (steps ++ [.evaluationEnd outcome]) :=
  ⟨steps, outcome, rfl, balanced.role_ne_ends, balanced, limits⟩

theorem Accepted.viable {config : Config} {events : List Event} (h : Accepted config events) :
    Viable config events :=
  ⟨[], by rwa [List.append_nil]⟩

/-- No brackets are left to be closed when the evaluation has ended. -/
theorem Accepted.after_eq_none {config : Config} {events : List Event}
    (h : Accepted config events) : Brackets.after events = none := by
  obtain ⟨steps, outcome, rfl, -, balanced, -⟩ := h
  rw [Brackets.after_snoc, (Brackets.after_eq_nil_iff steps).2 balanced]
  rfl

theorem Viable.take {config : Config} {events : List Event} (h : Viable config events) (n : Nat) :
    Viable config (events.take n) := by
  obtain ⟨rest, accepted⟩ := h
  refine ⟨events.drop n ++ rest, ?_⟩
  rwa [← List.append_assoc, List.take_append_drop]

namespace Recorder

/-- A recorder that follows a trace can be brought to the end of the evaluation. -/
theorem Follows.viable {config : Config} {events : List Event} {stack : Brackets} {r : Recorder}
    (f : Follows config events stack r) : Viable config events := by
  have limits := f.limits.append_of_stepCount_eq_zero (Brackets.stepCount_closers stack)
  have accepted := Accepted.of_balanced (Brackets.balanced_append_closers f.nested) limits default
  exact ⟨Brackets.closers stack ++ [.evaluationEnd default], by simpa using accepted⟩

/-- The traces that are recorded are those with which an accepted trace begins. -/
theorem recordAll_eq_none_iff {config : Config} (rootLocation : Location) {events : List Event}
    (room : stepCount events < CallGraph.arenaLimit) :
    ((start config rootLocation).recordAll events).2 = none ↔ Viable config events := by
  constructor
  · intro recorded
    rcases recorded_cases (Prod.ext rfl recorded) with
      ⟨stack, follows⟩ | ⟨steps, outcome, before, rfl, -, follows, -⟩
    · exact follows.viable
    · have balanced := (Brackets.after_eq_nil_iff steps).1 follows.nested
      refine ⟨[], ?_⟩
      rw [List.append_nil]
      exact .of_balanced balanced follows.limits outcome
  · rintro ⟨rest, steps, outcome, whole, -, balanced, limits⟩
    have nested := (Brackets.after_eq_nil_iff steps).2 balanced
    rcases List.eq_nil_or_concat rest with rfl | ⟨rest, last, rfl⟩
    · -- the evaluation has ended
      obtain rfl : events = steps ++ [.evaluationEnd outcome] := by simpa using whole
      have roomBefore : stepCount steps < CallGraph.arenaLimit := by
        rw [stepCount_append] at room
        omega
      obtain ⟨before, recorded, follows⟩ :=
        exists_recordAll_eq rootLocation nested limits roomBefore
      have ended := (follows.record_evaluationEnd_iff outcome).2 ⟨rfl, rfl⟩
      have all := (recordAll_snoc_iff _ _ _ _).2 ⟨before, recorded, ended⟩
      rw [all]
    · -- events are missing before the end
      have split : (events ++ rest) ++ [last] = steps ++ [.evaluationEnd outcome] := by
        simpa using whole
      obtain ⟨rfl, -⟩ : events ++ rest = steps ∧ last = .evaluationEnd outcome := by
        simpa using List.append_inj' split rfl
      obtain ⟨stack, nestedBefore, -⟩ :=
        Option.bind_eq_some_iff.1 (Brackets.after_append events rest ▸ nested)
      obtain ⟨r, recorded, -⟩ :=
        exists_recordAll_eq rootLocation nestedBefore limits.initial room
      rw [recorded]

/-- A trace that is refused is refused at some event. -/
theorem exists_first_refused {r : Recorder} {events : List Event} {fault : RecordFault}
    (h : (r.recordAll events).2 = some fault) :
    ∃ p event rest before, events = p ++ event :: rest ∧ r.recordAll p = (before, none)
      ∧ (before.record event).2 = some fault := by
  induction events generalizing r with
  | nil => simp [recordAll] at h
  | cons event rest ih =>
    cases step : r.record event with
    | mk after refused =>
      cases refused with
      | some first =>
        have same : first = fault := by simpa [recordAll, step] using h
        exact ⟨[], event, rest, r, rfl, rfl, by rw [step, same]⟩
      | none =>
        have later : (after.recordAll rest).2 = some fault := by simpa [recordAll, step] using h
        obtain ⟨p, offending, beyond, before, rfl, recorded, refused⟩ := ih later
        exact ⟨event :: p, offending, beyond, before, rfl, by simp [recordAll, step, recorded],
          refused⟩

end Recorder

namespace Session

variable {s : Session} {r after : Recorder} {p events : List Event} {event : Event}
  {fault : RecordFault}

/-! ## Events one by one -/

/-- The session after some events, refused or not. -/
def applyEach (s : Session) (events : List Event) : Session :=
  events.foldl (fun s event => (s.apply event).1) s

/-- Whether a session refuses none of some events. -/
def Accepts (s : Session) (events : List Event) : Prop :=
  ∀ before event rest, events = before ++ event :: rest →
    ((s.applyEach before).apply event).2 = none

theorem applyEach_cons (s : Session) (event : Event) (rest : List Event) :
    s.applyEach (event :: rest) = (s.apply event).1.applyEach rest := rfl

theorem applyEach_append (s : Session) (p q : List Event) :
    s.applyEach (p ++ q) = (s.applyEach p).applyEach q :=
  List.foldl_append

theorem accepts_nil (s : Session) : s.Accepts [] := by
  intro before event rest split
  simp at split

theorem accepts_cons_iff : s.Accepts (event :: p)
    ↔ (s.apply event).2 = none ∧ (s.apply event).1.Accepts p := by
  constructor
  · intro accepts
    refine ⟨accepts [] event p rfl, fun before later rest split => ?_⟩
    exact accepts (event :: before) later rest (by rw [split, List.cons_append])
  · rintro ⟨first, others⟩ before later rest split
    cases before with
    | nil =>
      obtain ⟨rfl, -⟩ := List.cons.inj split
      exact first
    | cons head before =>
      obtain ⟨rfl, splitLater⟩ := List.cons.inj split
      exact others before later rest splitLater

/-- Nothing happens any more in a session that was abandoned. -/
theorem applyEach_of_abandoned (abandoned : s.fault = some fault) (events : List Event) :
    s.applyEach events = s := by
  induction events with
  | nil => rfl
  | cons event rest ih =>
    rw [applyEach_cons, apply, abandoned]
    exact ih

/-- A session goes along with its recorder as long as that refuses nothing. -/
theorem applyEach_of_recordAll (recorded : r.recordAll events = (after, none)) (count : Nat) :
    applyEach ⟨r, count, none⟩ events = ⟨after, count + events.length, none⟩
      ∧ Accepts ⟨r, count, none⟩ events := by
  induction events generalizing r count with
  | nil =>
    obtain rfl : r = after := by simpa [Recorder.recordAll] using recorded
    exact ⟨rfl, accepts_nil _⟩
  | cons event rest ih =>
    cases step : r.record event with
    | mk next refused =>
      cases refused with
      | some fault => simp [Recorder.recordAll, step] at recorded
      | none =>
        have later : next.recordAll rest = (after, none) := by
          simpa [Recorder.recordAll, step] using recorded
        have applied : apply ⟨r, count, none⟩ event = (⟨next, count + 1, none⟩, none) := by
          simp only [apply, step]
        obtain ⟨reached, accepts⟩ := ih later (count + 1)
        rw [applyEach_cons, accepts_cons_iff, applied, reached, List.length_cons]
        exact ⟨by rw [Nat.add_right_comm, Nat.add_assoc], rfl, accepts⟩

/-! ## Replaying -/

/-- Events that are accepted bring a session to what is left of the trace. -/
theorem replayFrom_of_accepts (accepts : s.Accepts p) (items : List TraceItem) :
    s.replayFrom (p.map .ok ++ items) = (s.applyEach p).replayFrom items := by
  induction p generalizing s with
  | nil => rfl
  | cons event rest ih =>
    obtain ⟨first, others⟩ := accepts_cons_iff.1 accepts
    have step : s.apply event = ((s.apply event).1, none) := Prod.ext rfl first
    rw [List.map_cons, List.cons_append, replayFrom, step]
    exact ih others

theorem replayFrom_append (recorded : r.recordAll p = (after, none)) (count : Nat)
    (items : List TraceItem) :
    replayFrom ⟨r, count, none⟩ (p.map .ok ++ items)
      = replayFrom ⟨after, count + p.length, none⟩ items := by
  obtain ⟨reached, accepts⟩ := applyEach_of_recordAll recorded count
  rw [replayFrom_of_accepts accepts, reached]

/-- A recorded trace gives its graph if the evaluation has ended. -/
theorem replay_of_recorded {config : Config} {events : List Event} {r : Recorder}
    (h : (Recorder.start config .unknown).recordAll events = (r, none)) :
    replay config (events.map .ok)
      = if r.graph.isFrozen then .ok r.toStepper
        else .error (.ofCause (.record (.missingEvaluationEnd r.openEdges.length))) := by
  have whole := replayFrom_append h 0 []
  rw [List.append_nil] at whole
  exact whole

/-- A replay fails at the first event that is refused. -/
theorem replay_of_refused {config : Config} {p rest : List Event} {event : Event} {r : Recorder}
    {fault : RecordFault} (h : (Recorder.start config .unknown).recordAll p = (r, none))
    (refused : (r.record event).2 = some fault) :
    replay config ((p ++ event :: rest).map .ok)
      = .error ((Failure.ofCause (.record fault)).during (.event (p.length + 1) event.name)) := by
  have whole := replayFrom_append h 0 ((event :: rest).map .ok)
  rw [← List.map_append] at whole
  have step : r.record event = ((r.record event).1, some fault) := Prod.ext rfl refused
  refine whole.trans ?_
  simp only [List.map_cons, replayFrom, apply, Nat.zero_add]
  rw [step]

/-- What becomes of a replay: a graph with the outcome that an accepted trace ends with, a fault
because the end of the evaluation is missing, or a fault at the first offending event. -/
theorem replay_cases (config : Config) (events : List Event)
    (room : stepCount events < CallGraph.arenaLimit) :
    (Accepted config events ∧ ∃ steps outcome s, events = steps ++ [.evaluationEnd outcome]
        ∧ replay config (events.map .ok) = .ok s ∧ s.graph.outcome = some outcome)
      ∨ (Viable config events ∧ ¬ Accepted config events ∧ ∃ count,
        replay config (events.map .ok) = .error (.ofCause (.record (.missingEvaluationEnd count))))
      ∨ ∃ place event fault, events[place]? = some event ∧ FirstOffence config events place
        ∧ replay config (events.map .ok)
          = .error ((Failure.ofCause (.record fault)).during (.event (place + 1) event.name)) := by
  cases recorded : ((Recorder.start config .unknown).recordAll events).2 with
  | none =>
    have viable := (Recorder.recordAll_eq_none_iff .unknown room).1 recorded
    have replayed := replay_of_recorded (Prod.ext rfl recorded)
    rcases Recorder.recorded_cases (Prod.ext rfl recorded) with
      ⟨stack, follows⟩ | ⟨steps, outcome, before, rfl, -, follows, ended⟩
    · refine .inr (.inl ⟨viable, ?_, ?_⟩)
      · intro accepted
        have nested := follows.nested
        rw [accepted.after_eq_none] at nested
        simp at nested
      · rw [follows.not_frozen] at replayed
        exact ⟨_, replayed⟩
    · have balanced := (Brackets.after_eq_nil_iff steps).1 follows.nested
      refine .inl ⟨.of_balanced balanced follows.limits outcome, steps, outcome,
        { before.toStepper with graph := { before.graph with outcome := some outcome } }, rfl, ?_,
        rfl⟩
      rw [replayed, ended]
      rfl
  | some fault =>
    obtain ⟨p, event, rest, before, rfl, recorded, refused⟩ :=
      Recorder.exists_first_refused recorded
    refine .inr (.inr ⟨p.length, event, fault, by simp, ⟨?_, ?_⟩,
      replay_of_refused recorded refused⟩)
    · -- what comes before the refused event was recorded
      intro n within
      have roomBefore : stepCount p < CallGraph.arenaLimit := by
        rw [stepCount_append] at room
        omega
      rw [List.take_append_of_le_length within]
      exact ((Recorder.recordAll_eq_none_iff .unknown roomBefore).1 (by rw [recorded])).take n
    · intro viable
      have upTo : (p ++ event :: rest).take (p.length + 1) = p ++ [event] := by
        rw [List.append_cons, List.take_append_of_le_length (by simp),
          List.take_of_length_le (by simp)]
      rw [upTo] at viable
      have roomUpTo : stepCount (p ++ [event]) < CallGraph.arenaLimit := by
        rw [List.append_cons, stepCount_append] at room
        omega
      have all := (Recorder.recordAll_eq_none_iff .unknown roomUpTo).2 viable
      obtain ⟨middle, sameStart, last⟩ :=
        (Recorder.recordAll_snoc_iff _ _ _ _).1 (Prod.ext rfl all)
      obtain rfl : before = middle := by simpa [recorded] using sameStart
      rw [last] at refused
      simp at refused

/-- Replaying gives a graph for exactly the traces of the grammar, and the graph has the outcome
that the trace ends with.  A replay that fails at an event fails at the first one with which no
accepted trace begins; otherwise it is the end of the evaluation that is missing. -/
theorem replay_accepts_grammar (config : Config) (events : List Event)
    (room : stepCount events ≤ 4294967294) :
    ((∃ s, replay config (events.map .ok) = .ok s) ↔ Accepted config events)
      ∧ (∀ s, replay config (events.map .ok) = .ok s →
          ∃ steps outcome, events = steps ++ [.evaluationEnd outcome]
            ∧ s.graph.outcome = some outcome)
      ∧ ∀ failure, replay config (events.map .ok) = .error failure →
          (∃ place event fault, events[place]? = some event ∧ FirstOffence config events place
            ∧ failure = (Failure.ofCause (.record fault)).during (.event (place + 1) event.name))
          ∨ (∃ count, failure = .ofCause (.record (.missingEvaluationEnd count))
            ∧ Viable config events ∧ ¬ Accepted config events) := by
  have limit : stepCount events < CallGraph.arenaLimit := Nat.lt_succ_of_le room
  rcases replay_cases config events limit with
    ⟨accepted, steps, outcome, stepper, split, replayed, result⟩
    | ⟨viable, unaccepted, count, replayed⟩
    | ⟨place, event, fault, found, offence, replayed⟩
  · refine ⟨⟨fun _ => accepted, fun _ => ⟨stepper, replayed⟩⟩, ?_, ?_⟩
    · intro s same
      obtain rfl : stepper = s := Except.ok.inj (replayed.symm.trans same)
      exact ⟨steps, outcome, split, result⟩
    · intro failure failed
      simp [replayed] at failed
  · refine ⟨⟨?_, fun accepted => absurd accepted unaccepted⟩, ?_, ?_⟩
    · rintro ⟨s, succeeded⟩
      simp [replayed] at succeeded
    · intro s succeeded
      simp [replayed] at succeeded
    · intro failure failed
      have same := Except.error.inj (replayed.symm.trans failed)
      exact .inr ⟨count, same.symm, viable, unaccepted⟩
  · refine ⟨⟨?_, fun accepted => absurd (accepted.viable.take (place + 1)) offence.2⟩, ?_, ?_⟩
    · rintro ⟨s, succeeded⟩
      simp [replayed] at succeeded
    · intro s succeeded
      simp [replayed] at succeeded
    · intro failure failed
      have same := Except.error.inj (replayed.symm.trans failed)
      exact .inl ⟨place, event, fault, found, offence, same.symm⟩

/-- A macro expansion within a condition. -/
def nested : List Event :=
  [.conditionBegin "A > 1" .unknown 0, .macroExpansionBegin "A" none .unknown .unknown 0,
    .rescanning "1" 0, .macroExpansionEnd 0, .conditionEnd true 0]

/-- A macro expansion within a condition, and the end of the evaluation after it. -/
theorem replay_accepts_grammar_nested :
    stepCount (nested ++ [.evaluationEnd default]) ≤ 4294967294
      ∧ ∃ s, replay .default ((nested ++ [Event.evaluationEnd default]).map .ok) = .ok s := by
  refine ⟨by decide, (replay_accepts_grammar .default _ (by decide)).1.2 ?_⟩
  refine .of_balanced ((Brackets.after_eq_nil_iff nested).1 rfl) ⟨by decide, ?_⟩ default
  intro capacity known
  simp [Config.default] at known

end Session

end TemplateTrace
