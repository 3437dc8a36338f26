import TemplateTrace.Event
set_option autoImplicit false

/-!
# Events as JSON

An event is an object whose member `event` has the name of the event, beside the fields of the
event.  Locations, timestamps and argument lists may be left out.
-/

namespace TemplateTrace.Event

/-- The title of a kind of event in messages. -/
def variantTitle (name : String) : String :=
  "struct variant Event::" ++ name

/-- The time of an event, zero when it is left out. -/
def timestampField : Field Float :=
  .withDefault "timestamp" .float 0.0

/-- The place from which a step was reached. -/
def pointField : Field Location :=
  Location.field "point_of_event"

/-- The place where a step is defined. -/
def locationField : Field Location :=
  Location.field "source_location"

/-- An argument list, absent when it is left out. -/
def argumentField : Field (Option (List String)) :=
  .withDefault "args" (.option (.list .string)) none

/-- A text that must be there. -/
def textField (name : String) : Field String :=
  .required name .string

/-- The variant of an event that only has a time. -/
def timedVariant (tag title : String) (build : Float → Event) (split : Event → Option Float) :
    Variant Event where
  tag := tag
  title := variantTitle title
  fields := .cons timestampField .nil
  build := fun (timestamp, _) => build timestamp
  split := fun e => (split e).map fun timestamp => (timestamp, ())

/-- The variant of an event that has a place and a time. -/
def placedVariant (tag title : String) (build : Location → Float → Event)
    (split : Event → Option (Location × Float)) : Variant Event where
  tag := tag
  title := variantTitle title
  fields := .cons pointField (.cons timestampField .nil)
  build := fun (point, timestamp, _) => build point timestamp
  split := fun e => (split e).map fun (point, timestamp) => (point, timestamp, ())

/-- The variant of an event that has a text, a place and a time. -/
def textVariant (tag title field : String) (build : String → Location → Float → Event)
    (split : Event → Option (String × Location × Float)) : Variant Event where
  tag := tag
  title := variantTitle title
  fields := .cons (textField field) (.cons pointField (.cons timestampField .nil))
  build := fun (text, point, timestamp, _) => build text point timestamp
  split := fun e => (split e).map fun (text, point, timestamp) => (text, point, timestamp, ())

/-- The variants of events, in the order in which messages list them. -/
def variants : List (Variant Event) :=
  [{ tag := "template_begin", title := variantTitle "TemplateBegin"
     fields := .cons (.required "kind" Kind.codec) (.cons (textField "name") (.cons pointField
       (.cons locationField (.cons timestampField .nil))))
     build := fun (kind, name, point, location, timestamp, _) =>
       .templateBegin kind name point location timestamp
     split := fun
       | .templateBegin kind name point location timestamp =>
           some (kind, name, point, location, timestamp, ())
       | _ => none },
   timedVariant "template_end" "TemplateEnd" .templateEnd fun
     | .templateEnd timestamp => some timestamp
     | _ => none,
   { tag := "macro_expansion_begin", title := variantTitle "MacroExpansionBegin"
     fields := .cons (textField "name") (.cons argumentField (.cons pointField
       (.cons locationField (.cons timestampField .nil))))
     build := fun (name, args, point, location, timestamp, _) =>
       .macroExpansionBegin name args point location timestamp
     split := fun
       | .macroExpansionBegin name args point location timestamp =>
           some (name, args, point, location, timestamp, ())
       | _ => none },
   { tag := "rescanning", title := variantTitle "Rescanning"
     fields := .cons (textField "code") (.cons timestampField .nil)
     build := fun (text, timestamp, _) => .rescanning text timestamp
     split := fun
       | .rescanning text timestamp => some (text, timestamp, ())
       | _ => none },
   textVariant "expanded_code" "ExpandedCode" "code" .expandedCode fun
     | .expandedCode text point timestamp => some (text, point, timestamp)
     | _ => none,
   timedVariant "macro_expansion_end" "MacroExpansionEnd" .macroExpansionEnd fun
     | .macroExpansionEnd timestamp => some timestamp
     | _ => none,
   { tag := "token_generation", title := variantTitle "TokenGeneration"
     fields := .cons (textField "category") (.cons (textField "value") (.cons pointField
       (.cons locationField (.cons timestampField .nil))))
     build := fun (category, value, point, location, timestamp, _) =>
       .tokenGeneration category value point location timestamp
     split := fun
       | .tokenGeneration category value point location timestamp =>
           some (category, value, point, location, timestamp, ())
       | _ => none },
   { tag := "token_skipping", title := variantTitle "TokenSkipping"
     fields := .cons (textField "category") (.cons (textField "value") (.cons pointField
       (.cons timestampField .nil)))
     build := fun (category, value, point, timestamp, _) =>
       .tokenSkipping category value point timestamp
     split := fun
       | .tokenSkipping category value point timestamp =>
           some (category, value, point, timestamp, ())
       | _ => none },
   { tag := "include_begin", title := variantTitle "IncludeBegin"
     fields := .cons (textField "path") (.cons (.withDefault "system" .bool false)
       (.cons pointField (.cons timestampField .nil)))
     build := fun (path, system, point, timestamp, _) => .includeBegin path system point timestamp
     split := fun
       | .includeBegin path system point timestamp => some (path, system, point, timestamp, ())
       | _ => none },
   timedVariant "include_end" "IncludeEnd" .includeEnd fun
     | .includeEnd timestamp => some timestamp
     | _ => none,
   { tag := "define", title := variantTitle "Define"
     fields := .cons (textField "name") (.cons argumentField
       (.cons (.withDefault "body" .string "") (.cons pointField (.cons timestampField .nil))))
     build := fun (name, args, body, point, timestamp, _) => .define name args body point timestamp
     split := fun
       | .define name args body point timestamp => some (name, args, body, point, timestamp, ())
       | _ => none },
   textVariant "undefine" "Undefine" "name" .undefine fun
     | .undefine name point timestamp => some (name, point, timestamp)
     | _ => none,
   textVariant "condition_begin" "ConditionBegin" "expression" .conditionBegin fun
     | .conditionBegin expression point timestamp => some (expression, point, timestamp)
     | _ => none,
   { tag := "condition_end", title := variantTitle "ConditionEnd"
     fields := .cons (.required "result" .bool) (.cons timestampField .nil)
     build := fun (result, timestamp, _) => .conditionEnd result timestamp
     split := fun
       | .conditionEnd result timestamp => some (result, timestamp, ())
       | _ => none },
   placedVariant "else" "Else" .elseBranch fun
     | .elseBranch point timestamp => some (point, timestamp)
     | _ => none,
   placedVariant "endif" "Endif" .endif fun
     | .endif point timestamp => some (point, timestamp)
     | _ => none,
   textVariant "error_directive" "ErrorDirective" "message" .errorDirective fun
     | .errorDirective message point timestamp => some (message, point, timestamp)
     | _ => none,
   { tag := "line_directive", title := variantTitle "LineDirective"
     fields := .cons (textField "arg") (.cons pointField
       (.cons locationField (.cons timestampField .nil)))
     build := fun (argument, point, location, timestamp, _) =>
       .lineDirective argument point location timestamp
     split := fun
       | .lineDirective argument point location timestamp =>
           some (argument, point, location, timestamp, ())
       | _ => none },
   { tag := "evaluation_end", title := variantTitle "EvaluationEnd"
     fields := .cons (.required "result" Outcome.codec) .nil
     build := fun (result, _) => .evaluationEnd result
     split := fun
       | .evaluationEnd result => some (result, ())
       | _ => none }]

/-- Events as a union. -/
def union : Union Event where
  title := "internally tagged enum Event"
  tagName := "event"
  variants := variants

/-- The codec of events. -/
def codec : Codec Event := union.codec

/-- The tags are the names of the events. -/
theorem members_head (e : Event) : (union.members e).head? = some ("event", .string e.name) := by
  cases e <;> rfl

end TemplateTrace.Event
