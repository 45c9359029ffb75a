/-
  TarnLang/Resolution/SemanticError.lean
  ======================================
  **Semantic errors.**  What can be wrong with the names of a program that parses.  Apart
  from a missing main function, every error keeps the token it is about, and the symbol
  that the name was found to mean.
-/
import TarnLang.Symbol

namespace TarnLang

inductive SemanticError
  | callToVariable (name : Token) (span : Span) (target : Symbol)
  | assignmentToCallable (name : Token) (span : Span) (target : Symbol)
  | procedureAsValue (usage : Token) (target : Symbol)
  | redefinition (name : Token) (previous : Symbol)
  | missingMain
  | useBeforeDefinition (usage : Token) (definition : Option Symbol)
deriving Repr, Inhabited

namespace SemanticError

def kindName : SemanticError → String
  | callToVariable .. => "call-to-variable"
  | assignmentToCallable .. => "assignment-to-callable"
  | procedureAsValue .. => "procedure-as-value"
  | redefinition .. => "redefinition"
  | missingMain => "missing-main"
  | useBeforeDefinition .. => "use-before-definition"

def message : SemanticError → String
  | callToVariable name _ _ => "`" ++ name.text ++ "` is a variable and cannot be called"
  | assignmentToCallable name _ target =>
    "cannot assign to " ++ target.kind.describe ++ " `" ++ name.text ++ "`"
  | procedureAsValue usage _ => "procedure `" ++ usage.text ++ "` does not produce a value"
  | redefinition name previous =>
    "`" ++ name.text ++ "` is already defined in this scope (previously defined at "
      ++ previous.span.display ++ ")"
  | missingMain => "no `main` function defined at the top level"
  | useBeforeDefinition usage (some definition) =>
    "`" ++ usage.text ++ "` is used before its definition at " ++ definition.span.display
  | useBeforeDefinition usage none => "undefined symbol: `" ++ usage.text ++ "`"

def site? : SemanticError → Option Token
  | callToVariable name _ _ => some name
  | assignmentToCallable name _ _ => some name
  | procedureAsValue usage _ => some usage
  | redefinition name _ => some name
  | missingMain => none
  | useBeforeDefinition usage _ => some usage

/-- Span of the whole call or assignment that an error is about. -/
def nodeSpan? : SemanticError → Option Span
  | callToVariable _ span _ => some span
  | assignmentToCallable _ span _ => some span
  | _ => none

/-- The other symbol that an error refers to. -/
def symbol? : SemanticError → Option Symbol
  | callToVariable _ _ target => some target
  | assignmentToCallable _ _ target => some target
  | procedureAsValue _ target => some target
  | redefinition _ previous => some previous
  | missingMain => none
  | useBeforeDefinition _ definition => definition

end SemanticError

end TarnLang
