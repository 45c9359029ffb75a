/-
  TarnLang/FrontEnd.lean
  ======================
  **The phases in a row.**  A text is turned into tokens, the tokens into a tree, and the
  names of the tree are resolved.  A phase that finds errors is the last one.  `diagnoseIn`
  names the phase that was reached and gives the diagnostics it made.
-/
import TarnLang.Diagnostic.OfError
import TarnLang.Grammar.Program

namespace TarnLang

/-- What the front end is asked to do: one of its phases, or all of them. -/
inductive Phase
  | lex
  | parse
  | resolve
  | check
deriving DecidableEq, Repr

namespace Phase

/-- Name of a phase in reports and on the command line. -/
def label : Phase → String
  | lex => "lex"
  | parse => "parse"
  | resolve => "resolve"
  | check => "check"

def title : Phase → String
  | lex => "Lex"
  | parse => "Parse"
  | resolve => "Resolve"
  | check => "Check"

end Phase

/-- Diagnostics for the tokens of a text: a parse failure, or the semantic errors.  `order`
    is that of the symbols of the program, among which names to suggest are looked for. -/
def diagnoseTokens (order : TableOrder) (tokens : Array Token) : Phase × List Diagnostic :=
  match parse tokens with
  | .error failure => (.parse, [failure.diagnostic])
  | .ok program => (.resolve, ((resolve program).arranged order).diagnostics)

/-- The last phase that a text reaches, and the diagnostics of that phase. -/
def diagnoseIn (order : TableOrder) (source : String) : Phase × List Diagnostic :=
  let lexed := tokenize source
  if lexed.isOk then diagnoseTokens order lexed.tokens
  else (.lex, lexed.errors.toList.map (·.diagnostic))

/-- The last phase that a text reaches, and the diagnostics of that phase, with symbols in the
    order of their insertion. -/
def diagnose (source : String) : Phase × List Diagnostic := diagnoseIn .inserted source

end TarnLang
