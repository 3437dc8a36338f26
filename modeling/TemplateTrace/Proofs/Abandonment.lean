import TemplateTrace.Proofs.Acceptance
import Mathlib.Data.Set.Card
set_option autoImplicit false

/-!
# Sessions that are abandoned

A session is its recorder up to the first event that is refused; from there on nothing changes and
nothing is accepted (`Session.abandonedBy`).  A session that accepts all events is finished by the
end of the evaluation, and lacks it otherwise (`Session.completedBy`).  A replay stops at the first
item that gives no event or is refused, whatever comes after it (`Session.replayFrom_cases`).
-/

namespace TemplateTrace

/-! ## Brackets that stay open -/

/-- There are as many brackets on the stack as begins that no event closes. -/
theorem Brackets.ncard_unclosed {events : List Event} {stack : Brackets}
    (h : Brackets.after events = some stack) : {i | Unclosed events i}.ncard = stack.length := by
  have places : (stack.map Prod.fst).Nodup :=
    List.pairwise_map.2 ((Brackets.after_places h).2.imp fun less => Nat.ne_of_gt less)
  have same : {i | Unclosed events i} = ((stack.map Prod.fst).toFinset : Set Nat) := by
    ext i
    simp [unclosed_iff_mem h]
  rw [same, Set.ncard_coe_finset, List.toFinset_card_of_nodup places, List.length_map]

namespace Session

variable {config : Config} {s : Session} {r after : Recorder} {p events : List Event}
  {event : Event} {fault : RecordFault}

/-! ## The first fault -/

/-- What becomes of a session when the recorder, after some events, refuses the next one. -/
structure AbandonedBy (config : Config) (p : List Event) (event : Event) (fault : RecordFault) :
    Prop where
  /-- the session is the recorder until then -/
  follows : ∀ n ≤ p.length, (start config).applyEach (p.take n)
    = ⟨((Recorder.start config .unknown).recordAll (p.take n)).1, n, none⟩
  accepts : (start config).Accepts p
  refuses : (((start config).applyEach p).apply event).2
    = some ((Failure.ofCause (.record fault)).during (.event (p.length + 1) event.name))
  /-- nothing changes after that -/
  stays : ∀ later, (start config).applyEach (p ++ event :: later)
    = ⟨(((Recorder.start config .unknown).recordAll p).1.record event).1, p.length, some fault⟩
  refusesLater : ∀ later next, (((start config).applyEach (p ++ event :: later)).apply next).2
    = some (.ofCause (.abandoned fault))
  finish : ∀ later, ((start config).applyEach (p ++ event :: later)).finish
    = .error ((Failure.ofCause (.record fault)).during .abandoned)

theorem abandonedBy {before : Recorder}
    (recorded : (Recorder.start config .unknown).recordAll p = (before, none))
    (refused : (before.record event).2 = some fault) : AbandonedBy config p event fault := by
  obtain ⟨reached, accepts⟩ := applyEach_of_recordAll recorded 0
  rw [Nat.zero_add] at reached
  have reached : (start config).applyEach p = ⟨before, p.length, none⟩ := reached
  have step : before.record event = ((before.record event).1, some fault) := Prod.ext rfl refused
  have applied : ((start config).applyEach p).apply event
      = (⟨(before.record event).1, p.length, some fault⟩,
          some ((Failure.ofCause (.record fault)).during (.event (p.length + 1) event.name))) := by
    rw [reached, apply, step]
  have stays (later : List Event) : (start config).applyEach (p ++ event :: later)
      = ⟨(before.record event).1, p.length, some fault⟩ := by
    rw [applyEach_append, applyEach_cons, applied]
    exact applyEach_of_abandoned rfl later
  refine ⟨fun n within => ?_, accepts, by rw [applied], ?_, ?_, ?_⟩
  · -- a beginning of what is recorded is recorded
    have whole := recorded
    rw [← List.take_append_drop n p, Recorder.recordAll_append] at whole
    cases beginning : (Recorder.start config .unknown).recordAll (p.take n) with
    | mk between stopped =>
      cases stopped with
      | some first => simp [beginning] at whole
      | none =>
        have reached := (applyEach_of_recordAll beginning 0).1
        rwa [Nat.zero_add, List.length_take, Nat.min_eq_left within] at reached
  · rw [recorded]
    exact stays
  · intro later next
    rw [stays later]
    rfl
  · intro later
    rw [stays later]
    rfl

/-! ## Sessions without a fault -/

/-- What becomes of a session whose recorder refuses nothing. -/
structure CompletedBy (config : Config) (events : List Event) (r : Recorder) : Prop where
  reaches : (start config).applyEach events = ⟨r, events.length, none⟩
  accepts : (start config).Accepts events
  ended : (∃ outcome, .evaluationEnd outcome ∈ events) →
    ((start config).applyEach events).finish = .ok r.toStepper
  unended : (∀ outcome, .evaluationEnd outcome ∉ events) →
    ((start config).applyEach events).finish
      = .error (.ofCause (.record (.missingEvaluationEnd {i | Unclosed events i}.ncard)))

theorem completedBy (recorded : (Recorder.start config .unknown).recordAll events = (r, none)) :
    CompletedBy config events r := by
  obtain ⟨reached, accepts⟩ := applyEach_of_recordAll recorded 0
  rw [Nat.zero_add] at reached
  have reached : (start config).applyEach events = ⟨r, events.length, none⟩ := reached
  refine ⟨reached, accepts, ?_, ?_⟩ <;> rw [reached]
  · rintro ⟨outcome, member⟩
    rcases Recorder.recorded_cases recorded with ⟨stack, follows⟩ | ⟨q, last, before, -, -, -, rfl⟩
    · exact absurd rfl (Brackets.role_ne_ends follows.nested _ member)
    · rfl
  · intro missing
    rcases Recorder.recorded_cases recorded with ⟨stack, follows⟩ | ⟨q, last, _, rfl, -, -, -⟩
    · have unfinished : r.graph.isFrozen = false := follows.not_frozen
      simp only [finish, graph, unfinished, Bool.false_eq_true, if_false]
      rw [Brackets.ncard_unclosed follows.nested, follows.opened.length_eq]
    · exact absurd (by simp) (missing last)

/-! ## Replaying -/

/-- The failure with which an item stops a session: it gives no event, or its event is refused. -/
def stopAt? (s : Session) : TraceItem → Option Failure
  | .error fault => some ((Failure.ofCause (.trace fault)).during .readingTrace)
  | .ok event => (s.apply event).2

theorem replayFrom_of_stopAt? {item : TraceItem} {failure : Failure}
    (stops : s.stopAt? item = some failure) (rest : List TraceItem) :
    s.replayFrom (item :: rest) = .error failure := by
  cases item with
  | error fault => exact congrArg Except.error (Option.some.inj stops)
  | ok event =>
    have step : s.apply event = ((s.apply event).1, some failure) := Prod.ext rfl stops
    rw [replayFrom, step]

/-- Items either hold one that stops the session, or are events that it accepts. -/
theorem exists_stop_or_accepts (s : Session) (items : List TraceItem) :
    (∃ p item rest failure, items = p.map .ok ++ item :: rest ∧ s.Accepts p
        ∧ (s.applyEach p).stopAt? item = some failure)
      ∨ ∃ p, items = p.map .ok ∧ s.Accepts p := by
  induction items generalizing s with
  | nil => exact .inr ⟨[], rfl, s.accepts_nil⟩
  | cons item items ih =>
    cases stop : s.stopAt? item with
    | some failure => exact .inl ⟨[], item, items, failure, rfl, s.accepts_nil, stop⟩
    | none =>
      cases item with
      | error fault => simp [stopAt?] at stop
      | ok event =>
        rcases ih (s.apply event).1 with ⟨p, item, rest, failure, rfl, accepts, stops⟩
          | ⟨p, rfl, accepts⟩
        · exact .inl ⟨event :: p, item, rest, failure, rfl, accepts_cons_iff.2 ⟨stop, accepts⟩,
            stops⟩
        · exact .inr ⟨event :: p, rfl, accepts_cons_iff.2 ⟨stop, accepts⟩⟩

/-- What becomes of a replay: the first item that stops the session decides, whatever comes after
it, and the session is finished if there is none. -/
theorem replayFrom_cases (s : Session) (items : List TraceItem) :
    (∃ p item rest failure, items = p.map .ok ++ item :: rest ∧ s.Accepts p
        ∧ (s.applyEach p).stopAt? item = some failure
        ∧ ∀ others, s.replayFrom (p.map .ok ++ item :: others) = .error failure)
      ∨ ∃ p, items = p.map .ok ∧ s.Accepts p ∧ s.replayFrom items = (s.applyEach p).finish := by
  rcases s.exists_stop_or_accepts items with ⟨p, item, rest, failure, rfl, accepts, stops⟩
    | ⟨p, rfl, accepts⟩
  · refine .inl ⟨p, item, rest, failure, rfl, accepts, stops, fun others => ?_⟩
    rw [replayFrom_of_accepts accepts, replayFrom_of_stopAt? stops]
  · refine .inr ⟨p, rfl, accepts, ?_⟩
    have whole := replayFrom_of_accepts accepts []
    rwa [List.append_nil] at whole

/-- A session is its recorder up to the first event that is refused, and abandoned after it; without
one it is finished when the evaluation has ended.  A replay has the failure of the first item that
gives no event or is refused, whatever comes after it, and finishes the session if there is none. -/
theorem session_follows_recorder (config : Config) (events : List Event)
    (items : List TraceItem) :
    ((∃ p event rest fault, events = p ++ event :: rest
          ∧ ((Recorder.start config .unknown).recordAll p).2 = none
          ∧ (((Recorder.start config .unknown).recordAll p).1.record event).2 = some fault
          ∧ AbandonedBy config p event fault)
        ∨ ∃ r, (Recorder.start config .unknown).recordAll events = (r, none)
          ∧ CompletedBy config events r)
      ∧ ((∃ p item rest failure, items = p.map .ok ++ item :: rest ∧ (start config).Accepts p
          ∧ ((start config).applyEach p).stopAt? item = some failure
          ∧ ∀ others, replay config (p.map .ok ++ item :: others) = .error failure)
        ∨ ∃ p, items = p.map .ok ∧ (start config).Accepts p
          ∧ replay config items = ((start config).applyEach p).finish) := by
  refine ⟨?_, replayFrom_cases (start config) items⟩
  cases outcome : ((Recorder.start config .unknown).recordAll events).2 with
  | some fault =>
    obtain ⟨p, event, rest, before, rfl, recorded, refused⟩ :=
      Recorder.exists_first_refused outcome
    refine .inl ⟨p, event, rest, fault, rfl, by rw [recorded], by rwa [recorded], ?_⟩
    exact abandonedBy recorded refused
  | none =>
    have recorded : (Recorder.start config .unknown).recordAll events
        = (((Recorder.start config .unknown).recordAll events).1, none) := Prod.ext rfl outcome
    exact .inr ⟨_, recorded, completedBy recorded⟩

/-- An event after the end of the evaluation takes the result away again. -/
example : ((start .default).applyEach [.evaluationEnd default, .templateEnd 1]).finish
    = .error ((Failure.ofCause (.record .frozen)).during .abandoned) := by
  rfl

end Session

end TemplateTrace
