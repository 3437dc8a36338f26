import TemplateTrace.Proofs.EventText
import TemplateTrace.Proofs.Json.Characters
import TemplateTrace.Proofs.Text.Lines
import TemplateTrace.Session
set_option autoImplicit false

/-!
# The text of traces

A trace is written with an event on each line, and any lines between them that say nothing.  What
is read of it are the events (`Session.replay_transcript`): no event is cut by a line end, since its
text has none; trimming takes nothing of it, since it stands between braces; and it is not taken
for a remark, since it starts with one of them.
-/

namespace TemplateTrace

open Json (Readable)

/-! ## Traces as they are written -/

/-- A line that says nothing: it is blank, or its first character that is not blank is `#`. -/
structure Remark where
  text : String
  oneLine : '\n' ∉ text.toList
  silent : ∀ c, text.toList.find? (fun c => !Text.isBlank c) = some c → c = '#'

/-- A line of a written trace. -/
inductive TraceLine where
  /-- an event in compact form -/
  | event (e : Event)
  | remark (r : Remark)

namespace TraceLine

/-- The text of a line, without its end. -/
def text : TraceLine → String
  | .event e => Event.codec.render e
  | .remark r => r.text

/-- The event on a line, if there is one. -/
def event? : TraceLine → Option Event
  | .event e => some e
  | .remark _ => none

end TraceLine

/-- The ends that a line may have. -/
inductive LineEnd where
  | feed
  | returnAndFeed

/-- The text of a line end. -/
def LineEnd.text : LineEnd → String
  | .feed => "\n"
  | .returnAndFeed => "\r\n"

/-- A trace as it is written: lines with their ends, and a last line without one.  A trace in which
every line has an end has the empty remark for its last line. -/
structure Transcript where
  lines : List (TraceLine × LineEnd)
  last : TraceLine

namespace Transcript

/-- The text of lines with their ends before some other text. -/
def textBefore (rest : String) : List (TraceLine × LineEnd) → String
  | [] => rest
  | (line, ending) :: lines => line.text ++ ending.text ++ textBefore rest lines

/-- The text of a trace. -/
def text (t : Transcript) : String :=
  textBefore t.last.text t.lines

/-- The events that are written, in order. -/
def events (t : Transcript) : List Event :=
  (t.lines.map Prod.fst ++ [t.last]).filterMap TraceLine.event?

/-- A trace with an event on each line, and nothing else. -/
def ofEvents (events : List Event) : Transcript where
  lines := events.map fun e => (.event e, .feed)
  last := .remark ⟨"", by decide, fun _ found => nomatch found⟩

theorem text_ofEvents (events : List Event) :
    (ofEvents events).text = String.join (events.map fun e => Event.codec.render e ++ "\n") := by
  induction events with
  | nil => rfl
  | cons e events ih =>
    rw [List.map_cons, String.join_cons, ← ih]
    rfl

/-- Every list of events has a trace that is written of it. -/
theorem events_ofEvents (events : List Event) : (ofEvents events).events = events := by
  induction events with
  | nil => rfl
  | cons e events ih => exact congrArg (e :: ·) ih

end Transcript

/-! ## The text of an event as a line -/

namespace Event

theorem render_ends (e : Event) :
    ∃ inner, (codec.render e).toList = '\x7b' :: (inner ++ ['\x7d']) := by
  refine ⟨(Json.compactMembers true (union.members e)).toList, ?_⟩
  change ("\x7b" ++ Json.compactMembers true (union.members e) ++ "\x7d").toList = _
  simp

theorem trim_render (e : Event) : Text.trim (codec.render e) = codec.render e := by
  obtain ⟨inner, ends⟩ := render_ends e
  exact Text.trim_of_ends ends (by decide) (by decide)

theorem isSilent_render (e : Event) : Trace.isSilent (codec.render e) = false := by
  obtain ⟨inner, ends⟩ := render_ends e
  simp [Trace.isSilent, ends]

/-- No line ends within the text of an event, whatever its texts hold. -/
theorem newline_not_mem_render {e : Event}
    (time : ∀ x, e.timestamp? = some x → PrintsBack x) : '\n' ∉ (codec.render e).toList := by
  have readable : Readable 127 (codec.encode e) :=
    .object (members_readable (fun x given => (time x given).legible) 125)
  intro member
  have printable : Json.isPrintable '\n' = true := Json.compact_printable readable '\n' member
  revert printable
  decide

end Event

/-! ## Reading lines -/

namespace TraceLine

/-- The time of the event on a line, if there is one, prints back. -/
def PrintsBack (line : TraceLine) : Prop :=
  ∀ e, line.event? = some e → ∀ x, e.timestamp? = some x → TemplateTrace.PrintsBack x

theorem newline_not_mem_text {line : TraceLine} (back : line.PrintsBack) :
    '\n' ∉ line.text.toList := by
  cases line with
  | event e => exact Event.newline_not_mem_render (back e rfl)
  | remark r => exact r.oneLine

/-- What is read of a line is its event, also if there are more blanks around it. -/
theorem item?_of_trim {line : TraceLine} (back : line.PrintsBack) {s : String}
    (same : Text.trim s = Text.trim line.text) (number : Nat) :
    Trace.item? number (Text.bytes s) = line.event?.map .ok := by
  simp only [Trace.item?, Text.lineText?_bytes, same]
  cases line with
  | event e =>
    simp only [text, Event.trim_render, Event.isSilent_render, Event.decode_render (back e rfl)]
    rfl
  | remark r =>
    have silent : Trace.isSilent (Text.trim r.text) = true := by
      rw [Trace.isSilent, Text.head?_toList_trim]
      split
      · rfl
      · next c found => simp [r.silent c found]
    simp [text, silent, event?]

end TraceLine

namespace Trace

/-- The text up to a line end gives its event, and the text after it is read on its own. -/
theorem itemsFrom_line {line : TraceLine} (back : line.PrintsBack) (ending : LineEnd)
    (rest : String) (number : Nat) :
    itemsFrom number (Text.physicalLines (Text.bytes (line.text ++ ending.text ++ rest)))
      = (line.event?.map .ok).toList
        ++ itemsFrom (number + 1) (Text.physicalLines (Text.bytes rest)) := by
  obtain ⟨s, whole, oneLine, trimmed⟩ : ∃ s, line.text ++ ending.text ++ rest = s ++ "\n" ++ rest
      ∧ '\n' ∉ s.toList ∧ Text.trim s = Text.trim line.text := by
    have oneLine := TraceLine.newline_not_mem_text back
    cases ending with
    | feed => exact ⟨line.text, rfl, oneLine, rfl⟩
    | returnAndFeed =>
      refine ⟨line.text ++ "\r", ?_, ?_, Text.trim_append_return line.text⟩
      · have both : LineEnd.returnAndFeed.text = "\r" ++ "\n" := by decide
        simp only [both, String.append_assoc]
      · simpa using oneLine
  obtain ⟨t, closed, same⟩ := Text.exists_closeLine s
  have item := TraceLine.item?_of_trim back (same.trans trimmed) number
  rw [whole, Text.physicalLines_line oneLine, closed]
  cases event : line.event?.map (Except.ok (ε := TraceFault)) with
  | none => simp [itemsFrom, item, event]
  | some read => simp [itemsFrom, item, event]

theorem itemsFrom_last {line : TraceLine} (back : line.PrintsBack) (number : Nat) :
    itemsFrom number (Text.physicalLines (Text.bytes line.text))
      = (line.event?.map .ok).toList := by
  have item := TraceLine.item?_of_trim back rfl number
  rw [Text.physicalLines_last (TraceLine.newline_not_mem_text back)]
  split
  · next empty =>
    -- an empty line is none, but it would give nothing either
    have nothing : item? number (Text.bytes "") = none := by
      simp only [item?, Text.lineText?_bytes]
      rfl
    rw [List.isEmpty_iff.1 empty] at item
    rw [← item]
    exact (congrArg Option.toList nothing).symm
  · cases event : line.event?.map (Except.ok (ε := TraceFault)) with
    | none => simp [itemsFrom, item, event]
    | some read => simp [itemsFrom, item, event]

theorem itemsFrom_textBefore {lines : List (TraceLine × LineEnd)} {last : TraceLine}
    (back : ∀ line ∈ lines.map Prod.fst ++ [last], line.PrintsBack) (number : Nat) :
    itemsFrom number (Text.physicalLines (Text.bytes (Transcript.textBefore last.text lines)))
      = (Transcript.events ⟨lines, last⟩).map .ok := by
  have step (line : TraceLine) (more : List Event) :
      (line.event?.toList ++ more).map (Except.ok (ε := TraceFault))
        = (line.event?.map .ok).toList ++ more.map .ok := by
    cases line <;> rfl
  induction lines generalizing number with
  | nil =>
    rw [Transcript.textBefore, itemsFrom_last (back last (by simp)) number]
    cases last <;> rfl
  | cons entry lines ih =>
    obtain ⟨line, ending⟩ := entry
    obtain ⟨first, later⟩ := List.forall_mem_cons.1 back
    rw [Transcript.textBefore, itemsFrom_line first ending _ number, ih later (number + 1),
      ← step line]
    cases line <;> rfl

/-- What is read of a trace are its events, in order. -/
theorem items_transcript {t : Transcript}
    (back : ∀ e ∈ t.events, ∀ x, e.timestamp? = some x → PrintsBack x) :
    items (Text.bytes t.text) = t.events.map .ok := by
  refine itemsFrom_textBefore (fun line member e onLine => back e ?_) 1
  exact List.mem_filterMap.2 ⟨line, member, onLine⟩

end Trace

/-! ## Replaying -/

namespace Session

/-- The session after some events, up to the first one that is refused. -/
def applyAll (s : Session) : List Event → Except Failure Session
  | [] => .ok s
  | event :: rest =>
      match s.apply event with
      | (after, none) => after.applyAll rest
      | (_, some failure) => .error failure

theorem replayFrom_map_ok (s : Session) (events : List Event) :
    s.replayFrom (events.map .ok) = s.applyAll events >>= finish := by
  induction events generalizing s with
  | nil => rfl
  | cons event rest ih =>
    simp only [List.map_cons, replayFrom, applyAll]
    cases s.apply event with
    | mk after refused =>
      cases refused with
      | none => exact ih after
      | some failure => rfl

/-- What is read of a written trace are its events, in order and without a fault, if their times
print back; so replaying its text comes to the same as applying the events. -/
theorem replay_transcript (t : Transcript)
    (back : ∀ e ∈ t.events, ∀ x, e.timestamp? = some x → PrintsBack x) :
    Trace.items (Text.bytes t.text) = t.events.map .ok
      ∧ ∀ config, replay config (Trace.items (Text.bytes t.text))
          = (start config).applyAll t.events >>= finish := by
  have read := Trace.items_transcript back
  refine ⟨read, fun config => ?_⟩
  rw [read]
  exact replayFrom_map_ok (start config) t.events

/-- A trace with remarks and two kinds of line ends; the name of its step has a line end, quotation
marks, a number sign and blanks around it. -/
def annotated : Transcript where
  lines :=
    [(.remark ⟨"# a step", by decide, fun _ found => (Option.some.inj found).symm⟩, .feed),
      (.event (.templateBegin .memoization " \"a\"\n# b " ⟨"a.cpp", 3, 7⟩ .unknown 0.5),
        .returnAndFeed),
      (.remark ⟨"\t ", by decide, fun _ found => nomatch found⟩, .feed),
      (.event (.templateEnd 0.5), .feed)]
  last := .event (.evaluationEnd ⟨.type, "\x00"⟩)

theorem replay_transcript_annotated :
    (∀ e ∈ annotated.events, ∀ x, e.timestamp? = some x → PrintsBack x)
      ∧ Trace.items (Text.bytes annotated.text)
        = [.ok (.templateBegin .memoization " \"a\"\n# b " ⟨"a.cpp", 3, 7⟩ .unknown 0.5),
          .ok (.templateEnd 0.5), .ok (.evaluationEnd ⟨.type, "\x00"⟩)]
      ∧ ∀ config, replay config (Trace.items (Text.bytes annotated.text))
          = (start config).applyAll annotated.events >>= finish := by
  have back : ∀ e ∈ annotated.events, ∀ x, e.timestamp? = some x → PrintsBack x := by
    intro e member x given
    have half : e.timestamp? = some 0.5 ∨ e.timestamp? = none := by
      simp only [annotated, Transcript.events, List.map_cons, List.map_nil, List.cons_append,
        List.nil_append, List.filterMap_cons, List.filterMap_nil, TraceLine.event?,
        List.mem_cons, List.not_mem_nil, or_false] at member
      rcases member with rfl | rfl | rfl
      · exact .inl rfl
      · exact .inl rfl
      · exact .inr rfl
    rcases half with half | none
    · obtain rfl := Option.some.inj (half.symm.trans given)
      exact printsBack_half
    · rw [none] at given
      cases given
  obtain ⟨items, replayed⟩ := replay_transcript annotated back
  exact ⟨back, items, replayed⟩

end Session

end TemplateTrace
