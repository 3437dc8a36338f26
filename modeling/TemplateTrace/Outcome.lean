import TemplateTrace.Codec.Union
set_option autoImplicit false

/-!
# Outcomes

What an evaluation came to: a type, a piece of code, or an error.
-/

namespace TemplateTrace

/-- The kinds of outcomes. -/
inductive OutcomeKind where
  | type
  | code
  | error
  deriving DecidableEq, Repr, Inhabited

/-- The name of a kind of outcome. -/
def OutcomeKind.name : OutcomeKind → String
  | .type => "type"
  | .code => "code"
  | .error => "error"

/-- The kinds of outcomes by name. -/
def OutcomeKind.choice : Choice OutcomeKind := ⟨[.type, .code, .error], name⟩

theorem OutcomeKind.named_name (k : OutcomeKind) : choice.named k.name = .ok k := by
  cases k <;> rfl

/-- What an evaluation came to, with its text. -/
structure Outcome where
  kind : OutcomeKind
  text : String
  deriving DecidableEq, Repr, Inhabited

namespace Outcome

/-- Whether an evaluation failed. -/
def isError (o : Outcome) : Bool :=
  o.kind == .error

/-- The outcome of an evaluation for a reader, if there is one yet. -/
def describe : Option Outcome → String
  | none => "(none)"
  | some o => if o.isError then "error: " ++ o.text else o.text

/-- The codec of outcomes: the kind beside the text. -/
def codec : Codec Outcome :=
  TaggedPair.codec {
    title := "adjacently tagged enum EvaluationResult"
    tagName := "result"
    contentName := "value"
    tag := OutcomeKind.choice
    content := .string
    build := fun kind text => ⟨kind, text⟩
    split := fun o => (o.kind, o.text) }

end Outcome

end TemplateTrace
