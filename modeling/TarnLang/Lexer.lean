/-
  TarnLang/Lexer.lean
  ===================
  **From a text to tokens.**  A lexer holds a text, its line map and the errors that
  it has recorded so far.  A run turns the lexemes of the text into tokens and
  errors, gives every one its span, and closes the tokens with one end-of-file token
  at the end of the text.  When `maxErrors` errors are recorded, the next lexeme ends
  the run.  A run hands over the errors that it has recorded, so that the next run of
  the same lexer starts with none.
-/
import TarnLang.Lexeme

namespace TarnLang

/-! ### Errors -/

namespace LexFault

def kindName : LexFault → String
  | unexpectedChar _ => "UnexpectedChar"
  | unterminatedString => "UnterminatedString"
  | unterminatedComment => "UnterminatedComment"
  | invalidEscape => "InvalidEscape"
  | invalidNumber => "InvalidNumber"

def message : LexFault → String
  | unexpectedChar c => "Unexpected character '" ++ c.toString ++ "'"
  | unterminatedString => "Unterminated string"
  | unterminatedComment => "Unterminated block comment"
  | invalidEscape => "Invalid escape sequence"
  | invalidNumber => "Invalid number"

def hint : LexFault → Option String
  | unexpectedChar _ => none
  | unterminatedString => some "Add a closing '\"' on the same line"
  | unterminatedComment => some "Close the comment with '*/'"
  | invalidEscape => some "Valid: \\n \\t \\\\ \\\""
  | invalidNumber => some "integers must fit in 64 bits"

end LexFault

structure LexError where
  fault : LexFault
  span : Span
deriving DecidableEq, Repr

structure LexResult where
  tokens : Array Token
  errors : Array LexError
deriving Repr

def LexResult.isOk (r : LexResult) : Bool := r.errors.isEmpty

/-- Number of errors after which a run goes no further. -/
def maxErrors : Nat := 20

/-! ### Runs -/

/-- A text ready to be turned into tokens. -/
structure Lexer where
  text : List Char
  lines : LineMap
  recorded : Array LexError

namespace Lexer

def ofText (text : List Char) : Lexer := ⟨text, LineMap.ofText text, #[]⟩

def ofString (text : String) : Lexer := ofText text.toList

def spanOf (lx : Lexer) (l : Lexeme) : Span := lx.lines.span l.start l.stop

/-- Sorts lexemes into tokens and errors, in order, until the errors reach the limit
    and another lexeme follows. -/
def gather (lx : Lexer) (tokens : Array Token) (errors : Array LexError) :
    List Lexeme → Array Token × Array LexError
  | [] => (tokens, errors)
  | l :: ls =>
    if maxErrors ≤ errors.size then (tokens, errors)
    else
      match l.verdict with
      | .skip => lx.gather tokens errors ls
      | .token kind => lx.gather (tokens.push ⟨kind, String.ofList l.text, lx.spanOf l⟩) errors ls
      | .fault fault => lx.gather tokens (errors.push ⟨fault, lx.spanOf l⟩) ls

/-- The end-of-file token, an empty span at the end of the text. -/
def eofToken (lx : Lexer) : Token :=
  let length := utf8Length lx.text
  ⟨.eof, "", lx.lines.span length length⟩

/-- Runs the lexer.  The result takes the recorded errors with it. -/
def tokenize (lx : Lexer) : LexResult × Lexer :=
  let (tokens, errors) := lx.gather #[] lx.recorded (scan lx.text)
  (⟨tokens.push lx.eofToken, errors⟩, { lx with recorded := #[] })

end Lexer

/-- Tokens and errors of a string. -/
def tokenize (text : String) : LexResult := (Lexer.ofString text).tokenize.1

end TarnLang
