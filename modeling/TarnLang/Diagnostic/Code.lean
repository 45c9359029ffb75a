/-
  TarnLang/Diagnostic/Code.lean
  =============================
  **Error codes.**  Every kind of error has a code, a title and a category.  Codes of the
  lexer start with `E00`, those of the parser with `E01` and those of name resolution
  with `E02`.
-/

namespace TarnLang

inductive ErrorCategory
  | structural
  | resolution
deriving DecidableEq, Repr

def ErrorCategory.label : ErrorCategory → String
  | structural => "Syntax"
  | resolution => "Resolution"

/-- The kinds of error that have a code. -/
inductive ErrorCode
  | unexpectedCharacter
  | unterminatedString
  | invalidEscape
  | invalidNumber
  | unterminatedComment
  | unexpectedToken
  | callToVariable
  | assignmentToCallable
  | procedureAsValue
  | redefinition
  | missingMain
  | useBeforeDefinition
deriving DecidableEq, Repr

namespace ErrorCode

/-- All kinds of error, by increasing code. -/
def all : List ErrorCode :=
  [unexpectedCharacter, unterminatedString, invalidEscape, invalidNumber, unterminatedComment,
    unexpectedToken, callToVariable, assignmentToCallable, procedureAsValue, redefinition,
    missingMain, useBeforeDefinition]

def text : ErrorCode → String
  | unexpectedCharacter => "E0001"
  | unterminatedString => "E0002"
  | invalidEscape => "E0003"
  | invalidNumber => "E0004"
  | unterminatedComment => "E0005"
  | unexpectedToken => "E0100"
  | callToVariable => "E0200"
  | assignmentToCallable => "E0201"
  | procedureAsValue => "E0202"
  | redefinition => "E0203"
  | missingMain => "E0204"
  | useBeforeDefinition => "E0205"

def title : ErrorCode → String
  | unexpectedCharacter => "unexpected character"
  | unterminatedString => "unterminated string literal"
  | invalidEscape => "invalid escape sequence"
  | invalidNumber => "invalid number format"
  | unterminatedComment => "unterminated block comment"
  | unexpectedToken => "unexpected token"
  | callToVariable => "call to a variable"
  | assignmentToCallable => "assignment to a function or procedure"
  | procedureAsValue => "procedure used as a value"
  | redefinition => "symbol redefined in the same scope"
  | missingMain => "missing main function"
  | useBeforeDefinition => "use before definition"

def category : ErrorCode → ErrorCategory
  | unexpectedCharacter => .structural
  | unterminatedString => .structural
  | invalidEscape => .structural
  | invalidNumber => .structural
  | unterminatedComment => .structural
  | unexpectedToken => .structural
  | _ => .resolution

def ofText? (code : String) : Option ErrorCode := all.find? (·.text = code)

end ErrorCode

end TarnLang
