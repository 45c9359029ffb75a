/-
  TarnLang/Grammar/Rules.lean
  ===========================
  **The grammar refers to itself.**  Five rules are recursive.  Wherever one of them is
  used inside another, at least one token has been read before; so the rules for a place
  need the rules for later places only.

  `Rules` collects the five.  Every rule of the grammar is a function of the `Rules` to
  use behind its first token.
-/
import TarnLang.Node.Basic
import TarnLang.Parser.Repetition

namespace TarnLang

structure Rules (ts : Array Token) where
  expression : Parser ts Node
  unary : Parser ts Node
  statement : Parser ts Node
  block : Parser ts (Block Node)
  alternative : Parser ts Node

namespace Rules

variable {ts : Array Token}

/-- Rules that never succeed: nothing can be read where no tokens are left. -/
def stuck : Rules ts where
  expression := .fail "an expression"
  unary := .fail "an expression"
  statement := .fail "a statement"
  block := .fail TokenKind.lBrace.displayName
  alternative := .fail TokenKind.elseKw.displayName

end Rules

end TarnLang
