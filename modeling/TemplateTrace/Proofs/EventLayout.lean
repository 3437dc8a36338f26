import TemplateTrace.Proofs.Codec.Layout
import TemplateTrace.Proofs.EventText
set_option autoImplicit false

/-!
# Events in any layout

A producer of traces need not write events as this library does.  The members of an event may stand
in any order, the name of the event among them, fields that have a default may be left out when they
have it, members of other names may be added, and the text may hold blanks anywhere between tokens:
it decodes to the same event (`Event.decode_of_laysOut`).
-/

namespace TemplateTrace

open Json (Fits LaysOut MemberSlot Writes)

/-! ## Slots of events -/

namespace Json.MemberSlot

/-- A truth value, which may be left out if it is the default. -/
def flag (name : String) (b : Bool) (optional : Prop) : MemberSlot :=
  ⟨name, (· = .bool b), optional⟩

/-- A natural number. -/
def natural (name : String) (n : UInt32) : MemberSlot :=
  ⟨name, (· = .nat n.toNat), False⟩

/-- A time, as a float or as an integer that is nearest to it; zero may be left out. -/
def time (x : Float) : MemberSlot :=
  ⟨"timestamp", fun j => j = .float x ∨ ∃ n, j = .int n ∧ Decimal.floatOfInt n = x, x = 0.0⟩

/-- A location, as an object in any layout; the unknown one may be left out. -/
def place (name : String) (l : Location) : MemberSlot where
  name := name
  holds := fun j => ∃ ms, j = .object ms
    ∧ LaysOut [text "name" l.name, natural "row" l.row, natural "column" l.column] ms
  optional := l = .unknown

/-- An argument list, which may be left out if there is none. -/
def arguments (args : Option (List String)) : MemberSlot :=
  ⟨"args", (· = Json.ofOption (fun names => .array (names.map .string)) args), args = none⟩

/-- An outcome, as an object in any layout. -/
def outcome (o : Outcome) : MemberSlot where
  name := "result"
  holds := fun j => ∃ ms, j = .object ms
    ∧ LaysOut [text "result" o.kind.name, text "value" o.text] ms
  optional := False

end Json.MemberSlot

namespace Event

/-- What an object may hold beside the name of an event. -/
def fieldSlots : Event → List MemberSlot
  | .templateBegin kind name point location x =>
      [.text "kind" kind.name, .text "name" name, .place "point_of_event" point,
        .place "source_location" location, .time x]
  | .templateEnd x => [.time x]
  | .macroExpansionBegin name args point location x =>
      [.text "name" name, .arguments args, .place "point_of_event" point,
        .place "source_location" location, .time x]
  | .rescanning code x => [.text "code" code, .time x]
  | .expandedCode code point x => [.text "code" code, .place "point_of_event" point, .time x]
  | .macroExpansionEnd x => [.time x]
  | .tokenGeneration category value point location x =>
      [.text "category" category, .text "value" value, .place "point_of_event" point,
        .place "source_location" location, .time x]
  | .tokenSkipping category value point x =>
      [.text "category" category, .text "value" value, .place "point_of_event" point, .time x]
  | .includeBegin path system point x =>
      [.text "path" path, .flag "system" system (system = false), .place "point_of_event" point,
        .time x]
  | .includeEnd x => [.time x]
  | .define name args body point x =>
      [.text "name" name, .arguments args,
        { MemberSlot.text "body" body with optional := body = "" },
        .place "point_of_event" point, .time x]
  | .undefine name point x => [.text "name" name, .place "point_of_event" point, .time x]
  | .conditionBegin expression point x =>
      [.text "expression" expression, .place "point_of_event" point, .time x]
  | .conditionEnd result x => [.flag "result" result False, .time x]
  | .elseBranch point x => [.place "point_of_event" point, .time x]
  | .endif point x => [.place "point_of_event" point, .time x]
  | .errorDirective message point x =>
      [.text "message" message, .place "point_of_event" point, .time x]
  | .lineDirective argument point location x =>
      [.text "arg" argument, .place "point_of_event" point, .place "source_location" location,
        .time x]
  | .evaluationEnd result => [.outcome result]

/-- What an object may hold that stands for an event. -/
def slots (e : Event) : List MemberSlot :=
  .text "event" e.name :: e.fieldSlots

end Event

/-! ## Fields and their slots -/

theorem Location.ofJson_of_laysOut {l : Location} {ms : List (String × Json)}
    (laid : LaysOut [.text "name" l.name, .natural "row" l.row, .natural "column" l.column] ms) :
    Location.codec.ofJson (.object ms) = .ok l := by
  have text : (Field.required "name" Codec.string).Takes l.name (.text "name" l.name) :=
    ⟨rfl, fun j same => same ▸ rfl, False.elim⟩
  have natural (name : String) (n : UInt32) :
      (Field.required name Codec.uint32).Takes n (.natural name n) :=
    ⟨rfl, fun j same => same ▸ Codec.uint32_lawful n, False.elim⟩
  have takes : Location.record.fields.Takes (l.name, l.row, l.column, ())
      [.text "name" l.name, .natural "row" l.row, .natural "column" l.column] :=
    .cons text (.cons (natural "row" l.row) (.cons (natural "column" l.column) .nil))
  exact Record.ofJson_of_laysOut takes (by decide) laid

theorem Outcome.ofJson_of_laysOut {o : Outcome} {ms : List (String × Json)}
    (laid : LaysOut [.text "result" o.kind.name, .text "value" o.text] ms) :
    Outcome.codec.ofJson (.object ms) = .ok o := by
  have decodes : ∀ j, (MemberSlot.text "value" o.text).holds j →
      Codec.string.ofJson j = .ok o.text := by
    rintro j rfl
    rfl
  exact TaggedPair.ofJson_of_laysOut (OutcomeKind.named_name o.kind) (by decide) rfl id decodes laid

namespace Event

theorem textField_takes (name s : String) : (textField name).Takes s (.text name s) :=
  ⟨rfl, fun _ same => same ▸ rfl, False.elim⟩

theorem kindField_takes (k : Kind) :
    (Field.required "kind" Kind.codec).Takes k (.text "kind" k.name) :=
  ⟨rfl, fun _ same => same ▸ Kind.named_name k, False.elim⟩

theorem placeField_takes (name : String) (l : Location) :
    (Location.field name).Takes l (.place name l) where
  name := rfl
  decodes := by
    rintro j ⟨ms, rfl, laid⟩
    exact Location.ofJson_of_laysOut laid
  absent := fun unknown => unknown ▸ rfl

theorem timestampField_takes (x : Float) : timestampField.Takes x (.time x) where
  name := rfl
  decodes := by
    rintro j (rfl | ⟨n, rfl, rfl⟩) <;> rfl
  absent := fun zero => zero ▸ rfl

theorem argumentField_takes (args : Option (List String)) :
    argumentField.Takes args (.arguments args) where
  name := rfl
  decodes := by
    rintro j rfl
    have law := argumentField_lawful args
    exact law
  absent := fun none => none ▸ rfl

/-- Every event is of a kind whose fields get their values from the slots of the event. -/
theorem exists_variant_takes (e : Event) : ∃ v ∈ variants, ∃ values, v.tag = e.name
    ∧ v.build values = e ∧ v.fields.Takes values e.fieldSlots := by
  have text := textField_takes
  have place := placeField_takes
  have time := timestampField_takes
  have args := argumentField_takes
  -- the kinds stand in the order of the constructors
  have kind (i : Fin 19) (values : (variants.get i).parts) (tag : (variants.get i).tag = e.name)
      (built : (variants.get i).build values = e)
      (takes : (variants.get i).fields.Takes values e.fieldSlots) :
      ∃ v ∈ variants, ∃ values, v.tag = e.name ∧ v.build values = e
        ∧ v.fields.Takes values e.fieldSlots :=
    ⟨_, List.get_mem variants i, values, tag, built, takes⟩
  cases e with
  | templateBegin k name point location x =>
    exact kind 0 (k, name, point, location, x, ()) rfl rfl
      (.cons (kindField_takes k) (.cons (text _ _) (.cons (place _ _) (.cons (place _ _)
        (.cons (time _) .nil)))))
  | templateEnd x => exact kind 1 (x, ()) rfl rfl (.cons (time _) .nil)
  | macroExpansionBegin name names point location x =>
    exact kind 2 (name, names, point, location, x, ()) rfl rfl
      (.cons (text _ _) (.cons (args _) (.cons (place _ _) (.cons (place _ _)
        (.cons (time _) .nil)))))
  | rescanning code x => exact kind 3 (code, x, ()) rfl rfl (.cons (text _ _) (.cons (time _) .nil))
  | expandedCode code point x =>
    exact kind 4 (code, point, x, ()) rfl rfl
      (.cons (text _ _) (.cons (place _ _) (.cons (time _) .nil)))
  | macroExpansionEnd x => exact kind 5 (x, ()) rfl rfl (.cons (time _) .nil)
  | tokenGeneration category value point location x =>
    exact kind 6 (category, value, point, location, x, ()) rfl rfl
      (.cons (text _ _) (.cons (text _ _) (.cons (place _ _) (.cons (place _ _)
        (.cons (time _) .nil)))))
  | tokenSkipping category value point x =>
    exact kind 7 (category, value, point, x, ()) rfl rfl
      (.cons (text _ _) (.cons (text _ _) (.cons (place _ _) (.cons (time _) .nil))))
  | includeBegin path system point x =>
    have flag : (Field.withDefault "system" Codec.bool false).Takes system
        (.flag "system" system (system = false)) :=
      ⟨rfl, fun _ same => same ▸ rfl, fun no => no ▸ rfl⟩
    exact kind 8 (path, system, point, x, ()) rfl rfl
      (.cons (text _ _) (.cons flag (.cons (place _ _) (.cons (time _) .nil))))
  | includeEnd x => exact kind 9 (x, ()) rfl rfl (.cons (time _) .nil)
  | define name names body point x =>
    have body : (Field.withDefault "body" Codec.string "").Takes body
        { MemberSlot.text "body" body with optional := body = "" } :=
      ⟨rfl, fun _ same => same ▸ rfl, fun empty => empty ▸ rfl⟩
    exact kind 10 (name, names, _, point, x, ()) rfl rfl
      (.cons (text _ _) (.cons (args _) (.cons body (.cons (place _ _) (.cons (time _) .nil)))))
  | undefine name point x =>
    exact kind 11 (name, point, x, ()) rfl rfl
      (.cons (text _ _) (.cons (place _ _) (.cons (time _) .nil)))
  | conditionBegin expression point x =>
    exact kind 12 (expression, point, x, ()) rfl rfl
      (.cons (text _ _) (.cons (place _ _) (.cons (time _) .nil)))
  | conditionEnd result x =>
    have flag : (Field.required "result" Codec.bool).Takes result (.flag "result" result False) :=
      ⟨rfl, fun _ same => same ▸ rfl, False.elim⟩
    exact kind 13 (result, x, ()) rfl rfl (.cons flag (.cons (time _) .nil))
  | elseBranch point x =>
    exact kind 14 (point, x, ()) rfl rfl (.cons (place _ _) (.cons (time _) .nil))
  | endif point x =>
    exact kind 15 (point, x, ()) rfl rfl (.cons (place _ _) (.cons (time _) .nil))
  | errorDirective message point x =>
    exact kind 16 (message, point, x, ()) rfl rfl
      (.cons (text _ _) (.cons (place _ _) (.cons (time _) .nil)))
  | lineDirective argument point location x =>
    exact kind 17 (argument, point, location, x, ()) rfl rfl
      (.cons (text _ _) (.cons (place _ _) (.cons (place _ _) (.cons (time _) .nil))))
  | evaluationEnd result =>
    have outcome : (Field.required "result" Outcome.codec).Takes result (.outcome result) := by
      refine ⟨rfl, ?_, False.elim⟩
      rintro j ⟨ms, rfl, laid⟩
      exact Outcome.ofJson_of_laysOut laid
    exact kind 18 (result, ()) rfl rfl (.cons outcome .nil)

/-- An event decodes from every text of an object that fills its slots, whatever the order of the
members and whatever other members there are. -/
theorem decode_of_laysOut {e : Event} {text : String} {ms : List (String × Json)}
    (writes : Writes text (.object ms)) (fits : Fits Json.roomAtStart (.object ms))
    (laid : LaysOut e.slots ms) : codec.decode text = .ok e := by
  obtain ⟨v, known, values, tag, built, takes⟩ := exists_variant_takes e
  have decoded : union.codec.ofJson (.object ms) = .ok e := by
    rw [slots, ← tag] at laid
    rw [Union.ofJson_of_laysOut union_lawful known takes laid, built]
  cases fits with
  | object members =>
    have read := union.read_spelling members []
    rw [decoded, List.append_nil] at read
    exact Json.wholeText_of_writes writes read

/-- A text with blanks, an unknown member, an integer for the time, the name of the event at the
end, and nothing said of its point. -/
theorem decode_of_laysOut_undefine :
    let text := "\x7b \"extra\":[null] ,\"name\":\"A\",\"timestamp\": 3,\"event\":\"undefine\"\x7d"
    let ms : List (String × Json) := [("extra", .array [.null]), ("name", .string "A"),
      ("timestamp", .int 3), ("event", .string "undefine")]
    let e : Event := .undefine "A" .unknown (Decimal.floatOfInt 3)
    Writes text (.object ms) ∧ Fits Json.roomAtStart (.object ms) ∧ LaysOut e.slots ms
      ∧ codec.decode text = .ok e := by
  intro text ms e
  have none := Json.blank_nil
  have space : Json.Blank [' '] := List.forall_mem_singleton.2 rfl
  have three : Json.ValueText (.int 3) (Json.NumberText.render (.integer 3)).toList :=
    .number (Json.NumberText.legible_nat (by decide))
  have value : Json.ValueText (.object ms) _ :=
    .object (.cons true space (Json.quotes_quoted "extra") none none
        (.array (.cons true none .null none (.nil false none))) space
      (.cons false none (Json.quotes_quoted "name") none none
        (.string (Json.quotes_quoted "A")) none
      (.cons false none (Json.quotes_quoted "timestamp") none space three none
      (.cons false none (Json.quotes_quoted "event") none none
        (.string (Json.quotes_quoted "undefine")) none (.nil false none)))))
  have writes : Writes text (.object ms) := by
    refine ⟨[], _, [], ?_, none, value, none⟩
    decide +kernel
  have fits : Fits Json.roomAtStart (.object ms) := by
    refine .object ?_
    simp only [ms, List.forall_mem_cons, List.not_mem_nil, false_implies, implies_true, and_true]
    exact ⟨.array (List.forall_mem_singleton.2 (.null _)), .string _ _, .number _ _, .string _ _⟩
  have laid : LaysOut e.slots ms := by
    simp only [LaysOut, e, slots, fieldSlots, List.forall_mem_cons, List.not_mem_nil, false_implies,
      implies_true, and_true]
    refine ⟨⟨by decide, fun j member => ?_, .inl (by decide)⟩,
      ⟨by decide, fun j member => ?_, .inl (by decide)⟩, ⟨by decide, fun j member => ?_, .inr rfl⟩,
      ⟨by decide, fun j member => .inr ⟨3, ?_, rfl⟩, .inl (by decide)⟩⟩
    · simpa [ms, MemberSlot.text, name] using member
    · simpa [ms, MemberSlot.text] using member
    · simp [ms, MemberSlot.place] at member
    · simpa [ms, MemberSlot.time] using member
  exact ⟨writes, fits, laid, decode_of_laysOut writes fits laid⟩

end Event

end TemplateTrace
