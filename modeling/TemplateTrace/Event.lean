import TemplateTrace.Kind
import TemplateTrace.Location
import TemplateTrace.Outcome
set_option autoImplicit false

/-!
# Trace events

What a compiler front end reports while it evaluates templates and preprocesses.  Four kinds of
events begin a step that an event of its own ends; one event ends the evaluation; all others report
a step as a whole.
-/

namespace TemplateTrace

/-- An event of a trace. -/
inductive Event where
  | templateBegin (kind : Kind) (name : String) (pointOfEvent location : Location)
      (timestamp : Float)
  | templateEnd (timestamp : Float)
  | macroExpansionBegin (name : String) (args : Option (List String))
      (pointOfEvent location : Location) (timestamp : Float)
  | rescanning (code : String) (timestamp : Float)
  | expandedCode (code : String) (pointOfEvent : Location) (timestamp : Float)
  | macroExpansionEnd (timestamp : Float)
  | tokenGeneration (category value : String) (pointOfEvent location : Location)
      (timestamp : Float)
  | tokenSkipping (category value : String) (pointOfEvent : Location) (timestamp : Float)
  | includeBegin (path : String) (system : Bool) (pointOfEvent : Location) (timestamp : Float)
  | includeEnd (timestamp : Float)
  | define (name : String) (args : Option (List String)) (body : String) (pointOfEvent : Location)
      (timestamp : Float)
  | undefine (name : String) (pointOfEvent : Location) (timestamp : Float)
  | conditionBegin (expression : String) (pointOfEvent : Location) (timestamp : Float)
  | conditionEnd (result : Bool) (timestamp : Float)
  | elseBranch (pointOfEvent : Location) (timestamp : Float)
  | endif (pointOfEvent : Location) (timestamp : Float)
  | errorDirective (message : String) (pointOfEvent : Location) (timestamp : Float)
  | lineDirective (argument : String) (pointOfEvent location : Location) (timestamp : Float)
  | evaluationEnd (result : Outcome)
  deriving DecidableEq, Repr, Inhabited

namespace Event

/-- The name of an event in traces. -/
def name : Event → String
  | .templateBegin .. => "template_begin"
  | .templateEnd .. => "template_end"
  | .macroExpansionBegin .. => "macro_expansion_begin"
  | .rescanning .. => "rescanning"
  | .expandedCode .. => "expanded_code"
  | .macroExpansionEnd .. => "macro_expansion_end"
  | .tokenGeneration .. => "token_generation"
  | .tokenSkipping .. => "token_skipping"
  | .includeBegin .. => "include_begin"
  | .includeEnd .. => "include_end"
  | .define .. => "define"
  | .undefine .. => "undefine"
  | .conditionBegin .. => "condition_begin"
  | .conditionEnd .. => "condition_end"
  | .elseBranch .. => "else"
  | .endif .. => "endif"
  | .errorDirective .. => "error_directive"
  | .lineDirective .. => "line_directive"
  | .evaluationEnd .. => "evaluation_end"

end Event

end TemplateTrace
