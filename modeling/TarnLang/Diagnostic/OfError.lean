/-
  TarnLang/Diagnostic/OfError.lean
  ================================
  **How each error is shown.**  Every error of the front end becomes one diagnostic.  A use
  of a name that is declared nowhere gets a suggestion from all names of the program.
-/
import TarnLang.Diagnostic.Basic
import TarnLang.Diagnostic.Code
import TarnLang.Diagnostic.Suggestion
import TarnLang.Lexer
import TarnLang.Resolution.Basic

namespace TarnLang

/-! ### Lexical errors -/

def LexFault.code : LexFault → ErrorCode
  | unexpectedChar _ => .unexpectedCharacter
  | unterminatedString => .unterminatedString
  | unterminatedComment => .unterminatedComment
  | invalidEscape => .invalidEscape
  | invalidNumber => .invalidNumber

def LexFault.label : LexFault → String
  | unexpectedChar _ => "unexpected character"
  | unterminatedString => "string starts here"
  | unterminatedComment => "comment starts here"
  | invalidEscape => "in this string"
  | invalidNumber => "number out of range"

def LexError.diagnostic (e : LexError) : Diagnostic where
  code := e.fault.code.text
  message := e.fault.message
  primary := some ⟨e.span, e.fault.label⟩
  help := e.fault.hint

/-! ### Parse failures -/

def ParseFailure.diagnostic (f : ParseFailure) : Diagnostic where
  code := ErrorCode.unexpectedToken.text
  message := f.message
  primary := some ⟨f.span, "expected " ++ f.construct⟩
  help := f.advice

/-! ### Semantic errors -/

namespace SemanticError

def code : SemanticError → ErrorCode
  | callToVariable .. => .callToVariable
  | assignmentToCallable .. => .assignmentToCallable
  | procedureAsValue .. => .procedureAsValue
  | redefinition .. => .redefinition
  | missingMain => .missingMain
  | useBeforeDefinition .. => .useBeforeDefinition

/-- Help for a name that is used before its definition. -/
def definitionHelp (usage : Token) (definition : Symbol) : String :=
  if definition.kind = .var then "move the declaration before its first use"
  else "define " ++ definition.kind.describe ++ " `" ++ usage.text ++ "` before the code that calls it"

def diagnostic (e : SemanticError) : Diagnostic :=
  let bare : Diagnostic := { code := e.code.text, message := e.message }
  match e with
  | callToVariable name _ target =>
    { bare with
      primary := some ⟨name.span, "called here"⟩
      related := some ⟨target.span, "declared as a variable here"⟩ }
  | assignmentToCallable name _ target =>
    { bare with
      primary := some ⟨name.span, "assigned here"⟩
      related := some ⟨target.span, target.kind.describe ++ " defined here"⟩
      help := some "declare a variable with `let` to hold the value" }
  | procedureAsValue usage target =>
    { bare with
      primary := some ⟨usage.span, "used as a value"⟩
      related := some ⟨target.span, "procedure defined here"⟩
      note := some "procedures can only be called as statements"
      help := some ("define `" ++ usage.text ++ "` with `fn` if it should return a value") }
  | redefinition name previous =>
    { bare with
      primary := some ⟨name.span, "redefined here"⟩
      related := some ⟨previous.span, "previously defined here"⟩ }
  | missingMain => { bare with help := some "add `fn main() \x7b \x7d` at the top level" }
  | useBeforeDefinition usage (some definition) =>
    { bare with
      primary := some ⟨usage.span, "used here"⟩
      related := some ⟨definition.span, "defined later here"⟩
      help := some (definitionHelp usage definition) }
  | useBeforeDefinition usage none =>
    { bare with primary := some ⟨usage.span, "not found in this scope"⟩ }

end SemanticError

namespace Resolution

def names (r : Resolution) : List String := r.symbols.entries.toList.map (·.id.name)

def diagnosticFor (r : Resolution) (e : SemanticError) : Diagnostic :=
  match e with
  | .useBeforeDefinition usage none =>
    match didYouMean usage.text r.names with
    | some suggestion => { e.diagnostic with help := some suggestion }
    | none => e.diagnostic
  | e => e.diagnostic

/-- Diagnostics for all errors of a resolution, in order. -/
def diagnostics (r : Resolution) : List Diagnostic := r.errors.toList.map r.diagnosticFor

end Resolution

end TarnLang
