/-
  TarnLang/Grammar/Expression.lean
  ================================
  **Expressions.**  From loosest to tightest: `or`, `and`, comparisons, sums, products,
  prefix operators, and the primary expressions: calls, literals, names, and expressions
  in parentheses.  Binary operators of one level group to the left.

  The span of a binary operation covers the tokens of both operands, parentheses
  included, although parentheses leave no node of their own.
-/
import TarnLang.Grammar.Rules

namespace TarnLang.Grammar

open TarnLang.Parser

variable {ts : Array Token}

/-- Arguments of a call, in parentheses. -/
def argumentList (later : Rules ts) : Parser ts (ArgumentList Node) := withSpan do
  let (_, arguments, _) ← surrounded (token .lParen) (token .rParen)
    (optional (separated (token .comma) later.expression))
  pure fun span => { arguments, span }

def call (later : Rules ts) : Parser ts (Call Node) := withSpan do
  let name ← token .ident
  let arguments ← argumentList later
  pure fun span => { name, arguments, span }

def literal : Parser ts Node :=
  Node.leaf <$> oneOf [.int, .str, .trueKw, .falseKw, .ident]

def grouped (later : Rules ts) : Parser ts Node := do
  let (_, inner, _) ← surrounded (token .lParen) (token .rParen) later.expression
  pure inner

/-- An expression without operators outside parentheses. -/
def primary (later : Rules ts) : Parser ts Node :=
  named "an expression" (Node.call <$> call later <|> literal <|> grouped later)

def prefixed (later : Rules ts) : Parser ts Node := withSpan do
  let operator ← oneOf [.minus, .notKw]
  let operand ← later.unary
  pure fun span => .unary operator operand span

/-- A primary expression under any number of prefix operators. -/
def unary (later : Rules ts) : Parser ts Node := prefixed later <|> primary later

/-! ### Binary operators -/

/-- Groups operands to the left.  Each operand comes with the span of its tokens. -/
def groupLeft : Node × Span → List (Token × Node × Span) → Node
  | (node, _), [] => node
  | (node, span), (operator, right, rightSpan) :: rest =>
    let whole := span.through rightSpan
    groupLeft (.binary node operator right whole, whole) rest

def leftAssoc (operand : Parser ts Node) (operators : List TokenKind) : Parser ts Node := do
  let first ← spanned operand
  let rest ← many do
    let operator ← oneOf operators
    let right ← spanned operand
    pure (operator, right)
  pure (groupLeft first rest)

def multiplicativeOperators : List TokenKind := [.star, .slash, .percent]

def additiveOperators : List TokenKind := [.plus, .minus]

def comparisonOperators : List TokenKind := [.eqEq, .bangEq, .ltEq, .gtEq, .lt, .gt]

def multiplicative (later : Rules ts) : Parser ts Node :=
  leftAssoc (unary later) multiplicativeOperators

def additive (later : Rules ts) : Parser ts Node :=
  leftAssoc (multiplicative later) additiveOperators

def comparison (later : Rules ts) : Parser ts Node :=
  leftAssoc (additive later) comparisonOperators

def conjunction (later : Rules ts) : Parser ts Node := leftAssoc (comparison later) [.andKw]

def disjunction (later : Rules ts) : Parser ts Node := leftAssoc (conjunction later) [.orKw]

def expressionRule (later : Rules ts) : Parser ts Node := named "an expression" (disjunction later)

end TarnLang.Grammar
