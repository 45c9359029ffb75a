/-
  TarnLang/Failure.lean
  =====================
  **Parse failures.**  A failure names the construct that was expected and the token
  that stood there instead.  Its offset is the index of that token; failures are
  compared by their offset to find the one that got furthest.

  `ParseFailure.advice` suggests a remedy for common mistakes.  It looks at the name
  of the construct and the kind of the token found, and at nothing else.
-/
import TarnLang.Token

namespace TarnLang

/-- A construct that was expected, the token found instead, and the index of that
    token. -/
structure ParseFailure where
  construct : String
  found : Token
  offset : Nat
deriving DecidableEq, Repr, Inhabited

namespace ParseFailure

def span (f : ParseFailure) : Span := f.found.span

def message (f : ParseFailure) : String :=
  "expected " ++ f.construct ++ ", found " ++ f.found.describe

/-- The failure that got further; of two that got equally far, the later one. -/
def furthest (earlier later : ParseFailure) : ParseFailure :=
  if earlier.offset ≤ later.offset then later else earlier

theorem furthest_of_le {earlier later : ParseFailure} (h : earlier.offset ≤ later.offset) :
    earlier.furthest later = later :=
  if_pos h

theorem furthest_of_lt {earlier later : ParseFailure} (h : later.offset < earlier.offset) :
    earlier.furthest later = earlier :=
  if_neg (Nat.not_le.mpr h)

/-! ### Advice -/

def adviceForExpression : TokenKind → String
  | .semi => "statement is incomplete"
  | .rParen => "put a value inside the parentheses"
  | _ => "try a value, variable, or function call"

def adviceForName (kind : TokenKind) : String :=
  match kind with
  | .int => "names can't start with a number"
  | .rParen => "remove the trailing ','"
  | _ => if kind.isKeyword then "keywords can't be used as names" else "names start with a letter or '_'"

/-- Advice for a construct that was expected and the kind of token that was found. -/
def adviceFor (construct : String) (found : TokenKind) : Option String :=
  match construct with
  | "';'" =>
    if found = .rBrace ∨ found = .eof then some "statements end with ';'"
    else some "end the statement with ';'"
  | "'\x7b'" => some "bodies start with '\x7b'"
  | "'\x7d'" => if found = .eof then some "every '\x7b' needs a matching '\x7d'" else none
  | "'('" => some "conditions and parameter lists go in parentheses"
  | "')'" => if found = .eof then some "add ')' to close the parenthesis" else none
  | "'='" => if found = .semi then none else some "use '=' to give a value"
  | "an expression" => some (adviceForExpression found)
  | "a name" => some (adviceForName found)
  | "a declaration" => some "start with 'fn', 'proc' or 'let'"
  | "a statement" => some "try a declaration, assignment, call or control statement"
  | "end of file" => if found = .rBrace then some "this '\x7d' has no matching '\x7b'" else none
  | _ => none

/-- Advice on a failure, where there is any. -/
def advice (f : ParseFailure) : Option String := adviceFor f.construct f.found.kind

end ParseFailure

end TarnLang
