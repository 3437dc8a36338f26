import TemplateTrace.Codec.Choice
set_option autoImplicit false

/-!
# Kinds of events

What a compiler was doing when it reached a step of a compile-time evaluation.  A kind belongs
either to the evaluation of templates or to preprocessing.
-/

namespace TemplateTrace

/-- What the compiler was doing. -/
inductive Kind where
  | templateInstantiation
  | memoization
  | explicitTemplateArgumentSubstitution
  | deducedTemplateArgumentSubstitution
  | defaultTemplateArgumentInstantiation
  | defaultFunctionArgumentInstantiation
  | priorTemplateArgumentSubstitution
  | exceptionSpecInstantiation
  | declaringSpecialMember
  | definingSynthesizedFunction
  | nonTemplateType
  | macroExpansion
  | rescanning
  | expandedCode
  | generatedToken
  | skippedToken
  | quoteInclude
  | sysInclude
  | macroDefinition
  | macroDeletion
  | preprocessingCondition
  | preprocessingElse
  | preprocessingEndif
  | errorDirective
  | lineDirective
  deriving DecidableEq, Repr, Inhabited

namespace Kind

/-- All kinds, those of templates first. -/
def all : List Kind :=
  [.templateInstantiation, .memoization, .explicitTemplateArgumentSubstitution,
   .deducedTemplateArgumentSubstitution, .defaultTemplateArgumentInstantiation,
   .defaultFunctionArgumentInstantiation, .priorTemplateArgumentSubstitution,
   .exceptionSpecInstantiation, .declaringSpecialMember, .definingSynthesizedFunction,
   .nonTemplateType, .macroExpansion, .rescanning, .expandedCode, .generatedToken, .skippedToken,
   .quoteInclude, .sysInclude, .macroDefinition, .macroDeletion, .preprocessingCondition,
   .preprocessingElse, .preprocessingEndif, .errorDirective, .lineDirective]

/-- Whether a kind belongs to the evaluation of templates. -/
def isTemplate : Kind → Bool
  | .templateInstantiation | .memoization | .explicitTemplateArgumentSubstitution
  | .deducedTemplateArgumentSubstitution | .defaultTemplateArgumentInstantiation
  | .defaultFunctionArgumentInstantiation | .priorTemplateArgumentSubstitution
  | .exceptionSpecInstantiation | .declaringSpecialMember | .definingSynthesizedFunction
  | .nonTemplateType => true
  | .macroExpansion | .rescanning | .expandedCode | .generatedToken | .skippedToken
  | .quoteInclude | .sysInclude | .macroDefinition | .macroDeletion | .preprocessingCondition
  | .preprocessingElse | .preprocessingEndif | .errorDirective | .lineDirective => false

/-- Whether a kind belongs to preprocessing. -/
def isPreprocessor (k : Kind) : Bool := !k.isTemplate

/-- The name of a kind in traces. -/
def name : Kind → String
  | .templateInstantiation => "template_instantiation"
  | .memoization => "memoization"
  | .explicitTemplateArgumentSubstitution => "explicit_template_argument_substitution"
  | .deducedTemplateArgumentSubstitution => "deduced_template_argument_substitution"
  | .defaultTemplateArgumentInstantiation => "default_template_argument_instantiation"
  | .defaultFunctionArgumentInstantiation => "default_function_argument_instantiation"
  | .priorTemplateArgumentSubstitution => "prior_template_argument_substitution"
  | .exceptionSpecInstantiation => "exception_spec_instantiation"
  | .declaringSpecialMember => "declaring_special_member"
  | .definingSynthesizedFunction => "defining_synthesized_function"
  | .nonTemplateType => "non_template_type"
  | .macroExpansion => "macro_expansion"
  | .rescanning => "rescanning"
  | .expandedCode => "expanded_code"
  | .generatedToken => "generated_token"
  | .skippedToken => "skipped_token"
  | .quoteInclude => "quote_include"
  | .sysInclude => "sys_include"
  | .macroDefinition => "macro_definition"
  | .macroDeletion => "macro_deletion"
  | .preprocessingCondition => "preprocessing_condition"
  | .preprocessingElse => "preprocessing_else"
  | .preprocessingEndif => "preprocessing_endif"
  | .errorDirective => "error_directive"
  | .lineDirective => "line_directive"

/-- The name of a kind in frames and messages. -/
def text : Kind → String
  | .templateInstantiation => "TemplateInstantiation"
  | .memoization => "Memoization"
  | .explicitTemplateArgumentSubstitution => "ExplicitTemplateArgumentSubstitution"
  | .deducedTemplateArgumentSubstitution => "DeducedTemplateArgumentSubstitution"
  | .defaultTemplateArgumentInstantiation => "DefaultTemplateArgumentInstantiation"
  | .defaultFunctionArgumentInstantiation => "DefaultFunctionArgumentInstantiation"
  | .priorTemplateArgumentSubstitution => "PriorTemplateArgumentSubstitution"
  | .exceptionSpecInstantiation => "ExceptionSpecInstantiation"
  | .declaringSpecialMember => "DeclaringSpecialMember"
  | .definingSynthesizedFunction => "DefiningSynthesizedFunction"
  | .nonTemplateType => "NonTemplateType"
  | .macroExpansion => "MacroExpansion"
  | .rescanning => "Rescanning"
  | .expandedCode => "ExpandedCode"
  | .generatedToken => "GeneratedToken"
  | .skippedToken => "SkippedToken"
  | .quoteInclude => "QuoteInclude"
  | .sysInclude => "SysInclude"
  | .macroDefinition => "MacroDefinition"
  | .macroDeletion => "MacroDeletion"
  | .preprocessingCondition => "PreprocessingCondition"
  | .preprocessingElse => "PreprocessingElse"
  | .preprocessingEndif => "PreprocessingEndif"
  | .errorDirective => "ErrorDirective"
  | .lineDirective => "LineDirective"

/-- The kinds by name. -/
def choice : Choice Kind := ⟨all, name⟩

/-- A name stands for the kind that has it. -/
theorem named_name (k : Kind) : choice.named k.name = .ok k := by
  cases k <;> rfl

/-- The codec of kinds. -/
def codec : Codec Kind := choice.codec

end Kind

end TemplateTrace
