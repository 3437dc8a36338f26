import TemplateTrace.Event
import TemplateTrace.Node
set_option autoImplicit false

/-!
# What an event does

Nineteen events, three actions: an event arrives at a step, closes the step that is open, or
finishes the evaluation.  `Event.action` fixes for each event what is evaluated at the step, where
that is defined and of which kind the step is.
-/

namespace TemplateTrace

/-- The arrival at a step. -/
structure Arrival where
  kind : Kind
  node : Node
  location : Location
  pointOfEvent : Location
  timestamp : Float
  /-- whether the step stays open; one that does not has ended as it is reached -/
  opens : Bool
  deriving DecidableEq, Repr, Inhabited

/-- What identifies a template step: the same name at the same place is the same step. -/
structure TemplateKey where
  name : String
  location : Location
  deriving DecidableEq, Repr, Inhabited

namespace TemplateKey

/-- Name, then place. -/
def compare : TemplateKey → TemplateKey → Ordering :=
  compareLex (compareOn TemplateKey.name) (compareOn TemplateKey.location)

instance : Ord TemplateKey := ⟨compare⟩

instance : Std.TransOrd TemplateKey :=
  inferInstanceAs (Std.TransCmp (compareLex (compareOn TemplateKey.name)
    (compareOn TemplateKey.location)))

instance : Std.LawfulEqOrd TemplateKey where
  eq_of_compare {a b} h := by
    have both : (compareOn TemplateKey.name a b).then (compareOn TemplateKey.location a b) = .eq :=
      h
    rw [Ordering.then_eq_eq] at both
    have name := Std.LawfulEqOrd.eq_of_compare (α := String) both.1
    have location := Std.LawfulEqOrd.eq_of_compare (α := Location) both.2
    cases a
    cases b
    simp_all

end TemplateKey

/-- The key of the step, if it is a template step; all other steps happen once. -/
def Arrival.key? (a : Arrival) : Option TemplateKey :=
  match a.node with
  | .typeName name => some ⟨name, a.location⟩
  | _ => none

/-- What closes an open step. -/
inductive Closing where
  | template
  | macroExpansion
  | inclusion
  | condition
  deriving DecidableEq, Repr, Inhabited

namespace Closing

/-- The name of a closing in messages. -/
def text : Closing → String
  | .template => "template end"
  | .macroExpansion => "macro expansion end"
  | .inclusion => "include end"
  | .condition => "preprocessing condition end"

/-- Whether a step of some kind is closed in this way. -/
def closes : Closing → Kind → Bool
  | .template, kind => kind.isTemplate
  | .macroExpansion, kind => kind == .macroExpansion
  | .inclusion, kind => kind == .quoteInclude || kind == .sysInclude
  | .condition, kind => kind == .preprocessingCondition

end Closing

/-- What an event does. -/
inductive Action where
  | arrive (arrival : Arrival)
  /-- closes the open step; a preprocessing condition also has an outcome -/
  | close (closing : Closing) (timestamp : Float) (condition : Option Bool)
  | finish (outcome : Outcome)
  deriving DecidableEq, Repr, Inhabited

namespace Event

/-- What an event does.  Events of preprocessing that name one place only happen at the place where
they are defined; the place of a rescanning is not known. -/
def action : Event → Action
  | .templateBegin kind name point location timestamp =>
      .arrive ⟨kind, .typeName name, location, point, timestamp, true⟩
  | .templateEnd timestamp => .close .template timestamp none
  | .macroExpansionBegin name args point location timestamp =>
      .arrive ⟨.macroExpansion, .expansion name args, location, point, timestamp, true⟩
  | .rescanning code timestamp =>
      .arrive ⟨.rescanning, .code code, .unknown, .unknown, timestamp, false⟩
  | .expandedCode code point timestamp =>
      .arrive ⟨.expandedCode, .code code, point, point, timestamp, false⟩
  | .macroExpansionEnd timestamp => .close .macroExpansion timestamp none
  | .tokenGeneration category value point location timestamp =>
      .arrive ⟨.generatedToken, .token category value, location, point, timestamp, false⟩
  | .tokenSkipping category value point timestamp =>
      .arrive ⟨.skippedToken, .token category value, point, point, timestamp, false⟩
  | .includeBegin path system point timestamp =>
      let kind := if system then .sysInclude else .quoteInclude
      .arrive ⟨kind, .inclusion path system, point, point, timestamp, true⟩
  | .includeEnd timestamp => .close .inclusion timestamp none
  | .define name args body point timestamp =>
      .arrive ⟨.macroDefinition, .definition name args body, point, point, timestamp, false⟩
  | .undefine name point timestamp =>
      .arrive ⟨.macroDeletion, .code ("#undef " ++ name), point, point, timestamp, false⟩
  | .conditionBegin expression point timestamp =>
      .arrive ⟨.preprocessingCondition, .code expression, point, point, timestamp, true⟩
  | .conditionEnd result timestamp => .close .condition timestamp (some result)
  | .elseBranch point timestamp =>
      .arrive ⟨.preprocessingElse, .code "#else", point, point, timestamp, false⟩
  | .endif point timestamp =>
      .arrive ⟨.preprocessingEndif, .code "#endif", point, point, timestamp, false⟩
  | .errorDirective message point timestamp =>
      .arrive ⟨.errorDirective, .message message, point, point, timestamp, false⟩
  | .lineDirective argument point location timestamp =>
      .arrive ⟨.lineDirective, .code ("#line " ++ argument), location, point, timestamp, false⟩
  | .evaluationEnd result => .finish result

end Event

end TemplateTrace
