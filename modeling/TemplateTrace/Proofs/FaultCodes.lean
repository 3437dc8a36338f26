import TemplateTrace.Proofs.Abandonment
set_option autoImplicit false

/-!
# Codes of the failures of a session

The event that abandons a session fails with the code of its fault, and so does finishing the
session later on.  An event that is offered in between fails as an argument
(`Session.failures_classified`): the codes of a session are those of its fault exactly when nothing
is offered to it after the fault.
-/

namespace TemplateTrace

namespace Session

variable {config : Config} {s : Session} {before rest events : List Event}
  {event : Event} {fault : RecordFault} {failure : Failure}

/-! ## The fault of a session -/

/-- A session keeps the fault with which its recorder stops. -/
theorem fault_applyEach (r : Recorder) (count : Nat) (events : List Event) :
    (applyEach ⟨r, count, none⟩ events).fault = (r.recordAll events).2 := by
  induction events generalizing r count with
  | nil => rfl
  | cons event rest ih =>
    rw [applyEach_cons]
    cases step : r.record event with
    | mk after refused =>
      cases refused with
      | none =>
        have applied : apply ⟨r, count, none⟩ event = (⟨after, count + 1, none⟩, none) := by
          simp only [apply, step]
        rw [applied, ih, Recorder.recordAll, step]
      | some fault =>
        have abandoned : (apply ⟨r, count, none⟩ event).1.fault = some fault := by
          simp only [apply, step]
        rw [applyEach_of_abandoned abandoned, abandoned, Recorder.recordAll, step]

theorem fault_of_start (config : Config) (events : List Event) :
    ((start config).applyEach events).fault
      = ((Recorder.start config .unknown).recordAll events).2 :=
  fault_applyEach _ 0 events

/-! ## One failure -/

/-- The first event that is refused fails with the code of the fault that the session has then. -/
theorem apply_classified_of_going (going : s.fault = none)
    (failed : (s.apply event).2 = some failure) :
    ∃ fault, (s.apply event).1.fault = some fault
      ∧ failure.cause.classify = (.build, fault.code) := by
  rw [apply, going] at failed ⊢
  cases step : s.recorder.record event with
  | mk after refused =>
    rw [step] at failed
    cases refused with
    | none => exact absurd failed (Option.some_ne_none _).symm
    | some fault =>
      obtain rfl := Option.some.inj failed
      exact ⟨fault, rfl, rfl⟩

/-- An event that is offered to an abandoned session fails as an argument. -/
theorem apply_classified_of_abandoned (abandoned : s.fault = some fault)
    (failed : (s.apply event).2 = some failure) :
    failure.cause.classify = (.args, "MTR-QRY-001") := by
  rw [apply, abandoned] at failed
  obtain rfl := Option.some.inj failed
  rfl

/-- Finishing fails with the code of the fault, or of a missing end of the evaluation. -/
theorem finish_classified (failed : s.finish = .error failure) :
    ∃ count, failure.cause.classify
      = (.build, (s.fault.getD (.missingEvaluationEnd count)).code) := by
  refine ⟨s.recorder.openEdges.length, ?_⟩
  cases state : s.fault with
  | some fault =>
    rw [finish, state] at failed
    obtain rfl := Except.error.inj failed
    rfl
  | none =>
    simp only [finish, state] at failed
    split at failed
    · cases failed
    · obtain rfl := Except.error.inj failed
      rfl

/-! ## All failures of a run -/

/-- Whatever fails of offering some events to a session and of finishing it has the code of the
fault that abandons the session, or of a missing end of the evaluation. -/
structure KeepsCode (config : Config) (events : List Event) : Prop where
  offered : ∀ before event rest failure, events = before ++ event :: rest →
    (((start config).applyEach before).apply event).2 = some failure →
      ∃ fault, ((start config).applyEach events).fault = some fault
        ∧ failure.cause.classify = (.build, fault.code)
  finished : ∀ failure, ((start config).applyEach events).finish = .error failure →
    ∃ count, failure.cause.classify
      = (.build, (((start config).applyEach events).fault.getD (.missingEvaluationEnd count)).code)

/-- A fault stays whatever is offered afterwards. -/
theorem fault_of_applyEach_append (abandoned : (s.applyEach before).fault = some fault)
    (rest : List Event) : (s.applyEach (before ++ rest)).fault = some fault := by
  rw [applyEach_append, applyEach_of_abandoned abandoned, abandoned]

/-- What any failure of an offered event is classified as. -/
theorem offered_classified (split : events = before ++ event :: rest)
    (failed : (((start config).applyEach before).apply event).2 = some failure) :
    ∃ fault, ((start config).applyEach events).fault = some fault
      ∧ (((start config).applyEach before).fault = none →
        failure.cause.classify = (.build, fault.code))
      ∧ (((start config).applyEach before).fault ≠ none →
        failure.cause.classify = (.args, "MTR-QRY-001")) := by
  subst split
  cases state : ((start config).applyEach before).fault with
  | some fault =>
    refine ⟨fault, fault_of_applyEach_append state _, nofun, fun _ => ?_⟩
    exact apply_classified_of_abandoned state failed
  | none =>
    obtain ⟨fault, reached, classified⟩ := apply_classified_of_going state failed
    refine ⟨fault, ?_, fun _ => classified, fun abandoned => absurd rfl abandoned⟩
    rw [applyEach_append, applyEach_cons, applyEach_of_abandoned reached, reached]

/-- The codes are those of the fault as long as nothing is offered after it. -/
theorem keepsCode_iff : KeepsCode config events
    ↔ ((start config).applyEach events.dropLast).fault = none := by
  constructor
  · intro keeps
    rcases List.eq_nil_or_concat' events with rfl | ⟨before, event, rfl⟩
    · rfl
    · rw [List.dropLast_concat]
      by_contra abandoned
      obtain ⟨fault, state⟩ := Option.ne_none_iff_exists'.1 abandoned
      -- the last event fails as an argument
      have refused : (((start config).applyEach before).apply event).2
          = some (.ofCause (.abandoned fault)) := by
        rw [apply, state]
      obtain ⟨later, -, classified⟩ := keeps.offered before event [] _ rfl refused
      cases classified
  · intro going
    refine ⟨fun before event rest failure split failed => ?_, fun failure failed => ?_⟩
    · obtain ⟨fault, state, whileGoing, -⟩ := offered_classified split failed
      refine ⟨fault, state, whileGoing ?_⟩
      cases earlier : ((start config).applyEach before).fault with
      | none => rfl
      | some first =>
        have beginning : events.dropLast = before ++ (event :: rest).dropLast := by
          rw [split, List.dropLast_append_of_ne_nil (List.cons_ne_nil event rest)]
        rw [beginning, fault_of_applyEach_append earlier] at going
        cases going
    · exact finish_classified failed

/-- A session has the fault with which its recorder stops.  The event that brings it fails with the
code of that fault, the events that are offered afterwards fail as arguments, and finishing fails
with the code of the fault again, or of a missing end of the evaluation where there is no fault.  So
the code is kept exactly as long as nothing is offered after the fault. -/
theorem failures_classified (config : Config) (events : List Event) :
    let fault? := ((Recorder.start config .unknown).recordAll events).2
    ((start config).applyEach events).fault = fault?
      ∧ (∀ before event rest failure, events = before ++ event :: rest →
        (((start config).applyEach before).apply event).2 = some failure →
          ∃ fault, fault? = some fault
            ∧ failure.cause.classify
              = if ((Recorder.start config .unknown).recordAll before).2.isNone
                then (.build, fault.code) else (.args, "MTR-QRY-001"))
      ∧ (∀ failure, ((start config).applyEach events).finish = .error failure →
        ∃ count, failure.cause.classify
          = (.build, (fault?.getD (.missingEvaluationEnd count)).code))
      ∧ (KeepsCode config events
        ↔ ((Recorder.start config .unknown).recordAll events.dropLast).2 = none) := by
  intro fault?
  have same : ((start config).applyEach events).fault = fault? := fault_of_start config events
  refine ⟨same, fun before event rest failure split failed => ?_, fun failure failed => ?_, ?_⟩
  · obtain ⟨fault, state, whileGoing, afterwards⟩ := offered_classified split failed
    refine ⟨fault, same ▸ state, ?_⟩
    rw [fault_of_start] at whileGoing afterwards
    cases earlier : ((Recorder.start config .unknown).recordAll before).2 with
    | none => exact whileGoing earlier
    | some first => exact afterwards (by simp [earlier])
  · rw [← same]
    exact finish_classified failed
  · rw [keepsCode_iff, fault_of_start]

/-- The second of two ends without a begin fails as an argument. -/
theorem not_keepsCode_unbalanced : ¬ KeepsCode .default [.templateEnd 0, .templateEnd 0] := by
  intro keeps
  have going : ((start .default).applyEach [.templateEnd 0]).fault = none := keepsCode_iff.1 keeps
  cases going

end Session

end TemplateTrace
