import TemplateTrace.Proofs.Abandonment
import TemplateTrace.Proofs.Growth
import TemplateTrace.Proofs.Text.Lines
set_option autoImplicit false

/-!
# The earliest fault of a trace

A line of a trace may have one of three faults: it is no text, it says something that is no event,
or its event is refused by the recorder that has recorded the events of the lines before it
(`LineFault`).  The earliest line with a fault decides what is reported, whatever lines follow it,
and only if no line has one, it is reported that the evaluation has not ended
(`Session.load_reports_earliest`).
-/

namespace TemplateTrace

namespace Trace

/-- Whether a text says something: its first character that is not blank is no `#`. -/
def Speaks (text : String) : Prop :=
  ∃ c, text.toList.find? (fun c => !Text.isBlank c) = some c ∧ c ≠ '#'

theorem speaks_iff (text : String) : Speaks text ↔ isSilent (Text.trim text) = false := by
  rw [Speaks, isSilent, Text.head?_toList_trim]
  cases text.toList.find? fun c => !Text.isBlank c <;> simp

/-- The event of a line, if it gives one. -/
def event? (line : List UInt8) : Option Event := do
  let text ← Text.lineText? line
  if isSilent (Text.trim text) then none else (Event.codec.decode (Text.trim text)).toOption

end Trace

/-- What is wrong with a line when a recorder has recorded the events before it: the cause, and the
area and the code under which it is reported. -/
inductive LineFault (r : Recorder) (number : Nat) (line : List UInt8) :
    Cause → Category → String → Prop where
  | noText (unread : Text.lineText? line = none) :
      LineFault r number line (.trace (.unreadable number .notUtf8)) .io "MTR-IO-003"
  | noEvent {text : String} {fault : Json.Fault} (read : Text.lineText? line = some text)
      (speaks : Trace.Speaks text)
      (malformed : Event.codec.decode (Text.trim text) = .error fault) :
      LineFault r number line (.trace (.malformed number fault)) .ingest "MTR-ING-001"
  | refused {text : String} {event : Event} {fault : RecordFault}
      (read : Text.lineText? line = some text) (speaks : Trace.Speaks text)
      (decoded : Event.codec.decode (Text.trim text) = .ok event)
      (refused : (r.record event).2 = some fault) :
      LineFault r number line (.record fault) .build fault.code

/-- What is wrong with the line at a place when the events of the lines before it came to a
recorder; `number` is that of the first line. -/
def FaultAt (r : Recorder) (number : Nat) (lines : List (List UInt8)) (place : Nat) (cause : Cause)
    (category : Category) (code : String) : Prop :=
  ∃ line, lines[place]? = some line
    ∧ LineFault (r.recordEach ((lines.take place).filterMap Trace.event?)) (number + place) line
        cause category code

/-- Whether nothing is wrong with the line at a place. -/
def FaultlessAt (r : Recorder) (number : Nat) (lines : List (List UInt8)) (place : Nat) : Prop :=
  ∀ cause category code, ¬ FaultAt r number lines place cause category code

/-- Whether the line at a place is the first with something wrong, and what that is. -/
structure EarliestFault (r : Recorder) (number : Nat) (lines : List (List UInt8)) (place : Nat)
    (cause : Cause) (category : Category) (code : String) : Prop where
  here : FaultAt r number lines place cause category code
  before : ∀ earlier < place, FaultlessAt r number lines earlier

variable {r : Recorder} {number count : Nat} {line : List UInt8} {lines rest : List (List UInt8)}
  {cause : Cause} {category : Category} {code : String}

/-! ## Single lines -/

theorem LineFault.classify (fault : LineFault r number line cause category code) :
    cause.classify = (category, code) := by
  cases fault <;> rfl

/-- A line has a fault that stops the session, or it gives nothing or an event that is recorded. -/
theorem lineFault_cases (r : Recorder) (number count : Nat) (line : List UInt8) :
    (∃ cause category code item failure, LineFault r number line cause category code
        ∧ Trace.item? number line = some item
        ∧ Session.stopAt? ⟨r, count, none⟩ item = some failure ∧ failure.cause = cause)
      ∨ (∀ cause category code, ¬ LineFault r number line cause category code)
        ∧ (Trace.item? number line = none ∧ Trace.event? line = none
          ∨ ∃ event, Trace.item? number line = some (.ok event) ∧ Trace.event? line = some event
            ∧ (r.record event).2 = none) := by
  cases read : Text.lineText? line with
  | none =>
    have item : Trace.item? number line = some (.error (.unreadable number .notUtf8)) := by
      simp only [Trace.item?, read]
    exact .inl ⟨_, _, _, _, _, .noText read, item, rfl, rfl⟩
  | some text =>
    cases silent : Trace.isSilent (Text.trim text) with
    | true =>
      refine .inr ⟨?_, .inl ⟨by simp [Trace.item?, read, silent], ?_⟩⟩
      · have quiet : ¬ Trace.Speaks text := by simp [Trace.speaks_iff, silent]
        intro cause category code fault
        cases fault with
        | noText unread => simp [read] at unread
        | noEvent same speaks => exact quiet (Option.some.inj (read.symm.trans same) ▸ speaks)
        | refused same speaks => exact quiet (Option.some.inj (read.symm.trans same) ▸ speaks)
      · simp [Trace.event?, read, silent]
    | false =>
      have speaks := (Trace.speaks_iff text).2 silent
      cases decoded : Event.codec.decode (Text.trim text) with
      | error fault =>
        have item : Trace.item? number line = some (.error (.malformed number fault)) := by
          simp [Trace.item?, read, silent, decoded, Except.mapError]
        exact .inl ⟨_, _, _, _, _, .noEvent read speaks decoded, item, rfl, rfl⟩
      | ok event =>
        have item : Trace.item? number line = some (.ok event) := by
          simp [Trace.item?, read, silent, decoded, Except.mapError]
        cases refused : (r.record event).2 with
        | some fault =>
          have step : r.record event = ((r.record event).1, some fault) := Prod.ext rfl refused
          refine .inl ⟨_, _, _, _, _, .refused read speaks decoded refused, item,
            by rw [Session.stopAt?, Session.apply, step], rfl⟩
        | none =>
          refine .inr ⟨?_, .inr ⟨event, item, ?_, refused⟩⟩
          · intro cause category code fault
            cases fault with
            | noText unread => simp [read] at unread
            | noEvent same _ malformed =>
              obtain rfl := Option.some.inj (read.symm.trans same)
              simp [decoded] at malformed
            | refused same _ again fault =>
              obtain rfl := Option.some.inj (read.symm.trans same)
              obtain rfl := Except.ok.inj (decoded.symm.trans again)
              simp [refused] at fault
          · simp [Trace.event?, read, silent, decoded, Except.toOption]

/-! ## Lines in order -/

theorem filterMap_event?_cons (line : List UInt8) (rest : List (List UInt8)) :
    (line :: rest).filterMap Trace.event?
      = (Trace.event? line).toList ++ rest.filterMap Trace.event? := by
  rw [List.filterMap_cons]
  cases Trace.event? line <;> rfl

theorem faultAt_zero_iff : FaultAt r number (line :: rest) 0 cause category code
    ↔ LineFault r number line cause category code := by
  simp [FaultAt, Recorder.recordEach]

/-- The fault of a later line is its fault after the event of the first one has come to the
recorder. -/
theorem faultAt_succ_iff {place : Nat} :
    FaultAt r number (line :: rest) (place + 1) cause category code
      ↔ FaultAt (r.recordEach (Trace.event? line).toList) (number + 1) rest place cause category
          code := by
  have shift : number + (place + 1) = number + 1 + place := by omega
  simp only [FaultAt, List.getElem?_cons_succ, List.take_succ_cons, filterMap_event?_cons,
    Recorder.recordEach, List.foldl_append, shift]

theorem faultlessAt_zero (faultless : ∀ cause category code,
    ¬ LineFault r number line cause category code) : FaultlessAt r number (line :: rest) 0 :=
  fun cause category code fault => faultless cause category code (faultAt_zero_iff.1 fault)

theorem faultlessAt_succ {place : Nat}
    (faultless : FaultlessAt (r.recordEach (Trace.event? line).toList) (number + 1) rest place) :
    FaultlessAt r number (line :: rest) (place + 1) :=
  fun cause category code fault => faultless cause category code (faultAt_succ_iff.1 fault)

namespace Session

/-- A line without a fault brings the session to the lines after it. -/
theorem exists_step_of_faultless
    (next : Trace.item? number line = none ∧ Trace.event? line = none
      ∨ ∃ event, Trace.item? number line = some (.ok event) ∧ Trace.event? line = some event
        ∧ (r.record event).2 = none) (count : Nat) :
    ∃ later, r.recordAll (Trace.event? line).toList
        = (r.recordEach (Trace.event? line).toList, none)
      ∧ ∀ rest, replayFrom ⟨r, count, none⟩ (Trace.itemsFrom number (line :: rest))
        = replayFrom ⟨r.recordEach (Trace.event? line).toList, later, none⟩
            (Trace.itemsFrom (number + 1) rest) := by
  rcases next with ⟨item, silent⟩ | ⟨event, item, event?, recorded⟩
  · rw [silent]
    exact ⟨count, rfl, fun rest => by rw [Trace.itemsFrom, item]; rfl⟩
  · have step : r.record event = ((r.record event).1, none) := Prod.ext rfl recorded
    rw [event?]
    refine ⟨count + 1, ?_, fun rest => ?_⟩
    · simp only [Option.toList_some, Recorder.recordAll, Recorder.recordEach, List.foldl_cons,
        List.foldl_nil]
      rw [step]
    · simp only [Trace.itemsFrom, item, replayFrom, apply]
      rw [step]
      rfl

/-- The earliest line with a fault decides what becomes of a replay, whatever lines follow it; if
there is none, the events of the lines are recorded and the session is finished. -/
theorem replayFrom_lines_cases (r : Recorder) (number count : Nat) (lines : List (List UInt8)) :
    (∃ place cause category code failure, EarliestFault r number lines place cause category code
        ∧ failure.cause = cause
        ∧ ∀ others, others.take (place + 1) = lines.take (place + 1) →
          replayFrom ⟨r, count, none⟩ (Trace.itemsFrom number others) = .error failure)
      ∨ (∀ place, FaultlessAt r number lines place)
        ∧ ∃ after, r.recordAll (lines.filterMap Trace.event?) = (after, none)
          ∧ ∃ later, replayFrom ⟨r, count, none⟩ (Trace.itemsFrom number lines)
            = finish ⟨after, later, none⟩ := by
  induction lines generalizing r number count with
  | nil =>
    refine .inr ⟨?_, r, rfl, count, rfl⟩
    rintro place cause category code ⟨line, found, -⟩
    simp at found
  | cons line rest ih =>
    rcases lineFault_cases r number count line with
      ⟨cause, category, code, item, failure, fault, gives, stops, blamed⟩ | ⟨faultless, next⟩
    · refine .inl ⟨0, cause, category, code, failure, ⟨faultAt_zero_iff.2 fault,
        fun _ before => absurd before (Nat.not_lt_zero _)⟩, blamed, fun others same => ?_⟩
      cases others with
      | nil => simp at same
      | cons other others =>
        obtain rfl : other = line := by simpa using same
        rw [Trace.itemsFrom, gives]
        exact replayFrom_of_stopAt? stops _
    · obtain ⟨later, recorded, step⟩ := exists_step_of_faultless next count
      rcases ih (r.recordEach (Trace.event? line).toList) (number + 1) later with
        ⟨place, cause, category, code, failure, ⟨fault, earliest⟩, blamed, replayed⟩
        | ⟨sound, after, recordedRest, last, replayed⟩
      · refine .inl ⟨place + 1, cause, category, code, failure, ⟨faultAt_succ_iff.2 fault, ?_⟩,
          blamed, fun others same => ?_⟩
        · intro earlier before
          cases earlier with
          | zero => exact faultlessAt_zero faultless
          | succ earlier =>
            exact faultlessAt_succ (earliest earlier (Nat.lt_of_succ_lt_succ before))
        · cases others with
          | nil => simp at same
          | cons other others =>
            obtain ⟨rfl, sameRest⟩ :
                other = line ∧ others.take (place + 1) = rest.take (place + 1) := by
              simpa using same
            rw [step, replayed others sameRest]
      · refine .inr ⟨?_, after, ?_, last, (step rest).trans replayed⟩
        · intro place
          cases place with
          | zero => exact faultlessAt_zero faultless
          | succ place => exact faultlessAt_succ (sound place)
        · rw [filterMap_event?_cons, Recorder.recordAll_append, recorded]
          exact recordedRest

/-! ## Loading -/

/-- A session that was not abandoned never fails for the arguments it was started with. -/
theorem category_ne_args_of_replayFrom {s : Session} (going : s.fault = none)
    {items : List TraceItem} {failure : Failure} (failed : s.replayFrom items = .error failure) :
    failure.category ≠ .args := by
  induction items generalizing s with
  | nil =>
    simp only [replayFrom, finish, going] at failed
    split at failed
    · cases failed
    · obtain rfl := Except.error.inj failed
      intro same
      cases same
  | cons item rest ih =>
    cases item with
    | error fault =>
      obtain rfl := Except.error.inj failed
      intro same
      cases fault <;> cases same
    | ok event =>
      simp only [replayFrom, apply, going] at failed
      cases step : s.recorder.record event with
      | mk after refused =>
        cases refused with
        | none =>
          simp only [step] at failed
          exact ih rfl failed
        | some fault =>
          simp only [step] at failed
          obtain rfl := Except.error.inj failed
          intro same
          cases same

theorem load_of_replay_error {config : Config} (content : Trace.Content) {failure : Failure}
    (failed : replay config content.items = .error failure) (path : String) :
    load config path (.ok content) = .error (failure.during (.replaying path)) := by
  rw [load, failed]
  rfl

theorem category_ne_args_of_load {config : Config} {path : String}
    {opened : Except FileFault Trace.Content} {failure : Failure}
    (failed : load config path opened = .error failure) : failure.category ≠ .args := by
  cases opened with
  | error fault =>
    obtain rfl := Except.error.inj failed
    intro same
    cases same
  | ok content =>
    cases replayed : replay config content.items with
    | ok g =>
      rw [load, replayed] at failed
      cases failed
    | error inner =>
      obtain rfl :=
        Except.error.inj ((load_of_replay_error content replayed path).symm.trans failed)
      change inner.category ≠ .args
      exact category_ne_args_of_replayFrom (show (start config).fault = none from rfl) replayed

/-- What is reported of a trace that can be read is what is wrong with the earliest line that has
something wrong, with the number of that line, whatever lines follow it; only if there is none, it
is reported that the evaluation has not ended.  Nothing that is reported of a trace, whether it can
be read or not, is laid on the arguments. -/
theorem load_reports_earliest (config : Config) (path : String) :
    (∀ bytes,
      (∃ place cause category code failure,
          EarliestFault (Recorder.start config .unknown) 1 (Text.physicalLines bytes) place cause
            category code
          ∧ load config path (.ok (.readable bytes)) = .error failure
          ∧ failure.cause = cause ∧ failure.category = category ∧ failure.code = code
          ∧ ∀ other, (Text.physicalLines other).take (place + 1)
              = (Text.physicalLines bytes).take (place + 1) →
            load config path (.ok (.readable other)) = .error failure)
        ∨ (∀ place, FaultlessAt (Recorder.start config .unknown) 1 (Text.physicalLines bytes) place)
          ∧ ((∃ outcome, .evaluationEnd outcome
                  ∈ (Text.physicalLines bytes).filterMap Trace.event?)
                ∧ (∃ g, load config path (.ok (.readable bytes)) = .ok g)
              ∨ (∀ outcome, .evaluationEnd outcome
                  ∉ (Text.physicalLines bytes).filterMap Trace.event?)
                ∧ ∃ count failure, load config path (.ok (.readable bytes)) = .error failure
                  ∧ failure.cause = .record (.missingEvaluationEnd count)
                  ∧ failure.category = .build ∧ failure.code = "MTR-BLD-006"))
      ∧ ∀ opened failure, load config path opened = .error failure → failure.category ≠ .args := by
  refine ⟨fun bytes => ?_, fun opened failure => category_ne_args_of_load⟩
  rcases replayFrom_lines_cases (Recorder.start config .unknown) 1 0 (Text.physicalLines bytes) with
    ⟨place, cause, category, code, failure, fault, rfl, replayed⟩
    | ⟨faultless, after, recorded, count, replayed⟩
  · have loads (other : List UInt8) (same : (Text.physicalLines other).take (place + 1)
        = (Text.physicalLines bytes).take (place + 1)) :
        load config path (.ok (.readable other)) = .error (failure.during (.replaying path)) :=
      load_of_replay_error (.readable other) (replayed _ same) path
    obtain ⟨line, -, here⟩ := fault.here
    have classified := here.classify
    exact .inl ⟨place, _, category, code, failure.during (.replaying path), fault, loads bytes rfl,
      rfl, congrArg Prod.fst classified, congrArg Prod.snd classified, loads⟩
  · refine .inr ⟨faultless, ?_⟩
    have completed := completedBy recorded
    have replayed : replay config (Trace.Content.readable bytes).items
        = ((start config).applyEach
            ((Text.physicalLines bytes).filterMap Trace.event?)).finish := by
      rw [completed.reaches]
      exact replayed
    by_cases ended : ∃ outcome, .evaluationEnd outcome
        ∈ (Text.physicalLines bytes).filterMap Trace.event?
    · refine .inl ⟨ended, after.toStepper, ?_⟩
      rw [load, replayed, completed.ended ended]
      rfl
    · have missing := not_exists.1 ended
      rw [completed.unended missing] at replayed
      exact .inr ⟨missing, _, _, load_of_replay_error _ replayed path, rfl, rfl, rfl⟩

/-- A second line that is not UTF-8, as the trace at the path `t` reports it. -/
def unreadableSecond : Failure :=
  ⟨[.replaying "t", .readingTrace], .trace (.unreadable 2 .notUtf8)⟩

/-- A remark, a line that is not UTF-8 and the beginning of an event: what is reported is the second
line, also without the third. -/
theorem load_reports_earliest_unreadable :
    load .default "t" (.ok (.readable [35, 10, 255, 10, 123])) = .error unreadableSecond
      ∧ unreadableSecond.category ≠ .args
      ∧ load .default "t" (.ok (.readable [35, 10, 255, 10])) = .error unreadableSecond := by
  have loaded : load .default "t" (.ok (.readable [35, 10, 255, 10, 123]))
      = .error unreadableSecond := by decide +kernel
  obtain ⟨cases, notArgs⟩ := load_reports_earliest .default "t"
  refine ⟨loaded, notArgs _ _ loaded, ?_⟩
  rcases cases [35, 10, 255, 10, 123] with
    ⟨place, cause, category, code, failure, fault, failed, rfl, -, -, same⟩
    | ⟨-, ⟨-, g, finished⟩ | ⟨-, count, failure, failed, blamed, -⟩⟩
  · obtain rfl : failure = unreadableSecond := Except.error.inj (failed.symm.trans loaded)
    obtain ⟨line, -, here⟩ := fault.here
    obtain rfl : place = 1 := by
      generalize reported : unreadableSecond.cause = cause at here
      cases here with
      | noText =>
        have number : 2 = 1 + place := (TraceFault.unreadable.inj (Cause.trace.inj reported)).1
        omega
      | noEvent => cases reported
      | refused => cases reported
    exact same _ (by decide)
  · rw [loaded] at finished
    cases finished
  · obtain rfl : failure = unreadableSecond := Except.error.inj (failed.symm.trans loaded)
    cases blamed

end Session

end TemplateTrace
