/-
  TarnLang/Grammar/Program.lean
  =============================
  **The grammar as a whole.**  `Rules.next` gives the rules for a place from the rules for
  the places behind it.  A stream of `n` tokens has `n + 1` places, so `n + 1` rounds of
  it, from rules that never succeed, give rules that are right at every place: each
  round serves the places with one more token left.

  `parse` reads declarations up to the first end-of-file token; what follows that is
  never looked at.
-/
import TarnLang.Grammar.Statement

namespace TarnLang

open TarnLang.Parser

/-- The rules for a place, from the rules for later places. -/
def Rules.next {ts : Array Token} (later : Rules ts) : Rules ts where
  expression := Grammar.expressionRule later
  unary := Grammar.unary later
  statement := Grammar.statementRule later
  block := Grammar.blockRule later
  alternative := Grammar.alternativeRule later

/-- Rules that are right wherever fewer than `n` tokens are left. -/
def Rules.upTo (ts : Array Token) (n : Nat) : Rules ts := Nat.repeat Rules.next n Rules.stuck

/-- The rules of the grammar for a stream. -/
def grammar (ts : Array Token) : Rules ts := Rules.upTo ts (ts.size + 1)

namespace Grammar

def expression (ts : Array Token) : Parser ts Node := (grammar ts).expression

def statement (ts : Array Token) : Parser ts Node := (grammar ts).statement

def block (ts : Array Token) : Parser ts (Block Node) := (grammar ts).block

/-- A whole program, up to the end of file. -/
def program (ts : Array Token) : Parser ts Program := withSpan do
  let (declarations, _) ← manyUntil (declarationRule (grammar ts)) (token .eof)
  pure fun span => { declarations, span }

end Grammar

/-- Parses a token stream as a program. -/
def parse (ts : Array Token) : Except ParseFailure Program :=
  (Grammar.program ts (Place.first ts)).map (·.1)

end TarnLang
