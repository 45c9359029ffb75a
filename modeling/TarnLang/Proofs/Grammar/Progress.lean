/-
  TarnLang/Proofs/Grammar/Progress.lean
  =====================================
  **The rules of the grammar go on and never back.**  Each rule is put together from combinators
  that keep to this, and the recursive rules do so together, round by round.
-/
import TarnLang.Grammar.Program
import TarnLang.Proofs.Parser.Progress

namespace TarnLang

open TarnLang.Parser

variable {ts : Array Token}

/-- Recursive rules that never go back. -/
structure Rules.Onward (r : Rules ts) : Prop where
  expression : r.expression.Onward
  unary : r.unary.Onward
  statement : r.statement.Onward
  block : r.block.Onward
  alternative : r.alternative.Onward

namespace Grammar

variable {later : Rules ts}

/-! ### Expressions -/

theorem onward_argumentList (h : later.Onward) : (argumentList later).Onward :=
  have hlist := Onward.separated (fun h => (token_ok (k := .comma).mp h).lt) h.expression
  .withSpan (.bind (.surrounded (.token .lParen) (.token .rParen) hlist.optional) fun _ => .pure _)

theorem onward_call (h : later.Onward) : (call later).Onward :=
  .withSpan (.bind (.token .ident) fun _ => .bind (onward_argumentList h) fun _ => .pure _)

theorem onward_literal : (literal : Parser ts Node).Onward := .map (.oneOf) _

theorem onward_parens (h : later.Onward) :
    (surrounded (token .lParen) (token .rParen) later.expression).Onward :=
  .surrounded (.token .lParen) (.token .rParen) h.expression

theorem onward_primary (h : later.Onward) : (primary later).Onward :=
  have hgrouped : (grouped later).Onward := .bind (onward_parens h) fun _ => .pure _
  .named (.orElse (.map (onward_call h) _) (.orElse onward_literal hgrouped)) _

theorem onward_unary (h : later.Onward) : (unary later).Onward :=
  have hprefixed : (prefixed later).Onward :=
    .withSpan (.bind (.oneOf) fun _ => .bind h.unary fun _ => .pure _)
  .orElse hprefixed (onward_primary h)

theorem onward_leftAssoc {operand : Parser ts Node} (h : operand.Onward) (ks : List TokenKind) :
    (leftAssoc operand ks).Onward :=
  .bind h.spanned fun _ => .bind (.many _) fun _ => .pure _

theorem onward_expressionRule (h : later.Onward) : (expressionRule later).Onward := by
  have hproduct := onward_leftAssoc (onward_unary h) multiplicativeOperators
  have hsum := onward_leftAssoc hproduct additiveOperators
  have hcomparison := onward_leftAssoc hsum comparisonOperators
  have hconjunction := onward_leftAssoc hcomparison [.andKw]
  exact .named (onward_leftAssoc hconjunction [.orKw]) _

/-! ### Definitions -/

theorem onward_parameterList : (parameterList : Parser ts ParameterList).Onward :=
  have hlist := Onward.separated (fun h => (token_ok (k := .comma).mp h).lt) (.token .ident)
  .withSpan (.bind (.surrounded (.token .lParen) (.token .rParen) hlist.optional) fun _ => .pure _)

theorem onward_signature : (signature : Parser ts Signature).Onward :=
  .withSpan (.bind (.token .ident) fun _ => .bind onward_parameterList fun _ => .pure _)

theorem onward_functionDef (h : later.Onward) : (functionDef later).Onward :=
  .withSpan (.bind (.token .fnKw) fun _ => .bind onward_signature fun _ => .bind h.block fun _ =>
    .pure _)

theorem onward_procedureDef (h : later.Onward) : (procedureDef later).Onward :=
  .withSpan (.bind (.token .procKw) fun _ => .bind onward_signature fun _ => .bind h.block fun _ =>
    .pure _)

theorem onward_varDecl : (varDecl : Parser ts Node).Onward :=
  .withSpan (.bind (.token .letKw) fun _ => .bind (.token .ident) fun _ => .bind (.token .semi)
    fun _ => .pure _)

theorem onward_varInit (h : later.Onward) : (varInit later).Onward :=
  .withSpan (.bind (.token .letKw) fun _ => .bind (.token .ident) fun _ => .bind (.token .eq)
    fun _ => .bind h.expression fun _ => .bind (.token .semi) fun _ => .pure _)

/-! ### Simple statements -/

theorem onward_assignment (h : later.Onward) : (assignment later).Onward :=
  .withSpan (.bind (.token .ident) fun _ => .bind (.token .eq) fun _ => .bind h.expression fun _ =>
    .pure _)

theorem onward_assignmentStatement (h : later.Onward) : (assignmentStatement later).Onward :=
  .bind (onward_assignment h) fun _ => .bind (.token .semi) fun _ => .pure _

theorem onward_callStatement (h : later.Onward) : (callStatement later).Onward :=
  .bind (onward_call h) fun _ => .bind (.token .semi) fun _ => .pure _

theorem onward_returnStatement (h : later.Onward) : (returnStatement later).Onward :=
  .withSpan (.bind (.token .returnKw) fun _ => .bind h.expression.optional fun _ =>
    .bind (.token .semi) fun _ => .pure _)

/-! ### Control statements -/

theorem onward_condition (h : later.Onward) : (condition later).Onward :=
  .bind (onward_parens h) fun _ => .pure _

theorem onward_ifStatement (h : later.Onward) : (ifStatement later).Onward :=
  .withSpan (.bind (.token .ifKw) fun _ => .bind (onward_condition h) fun _ => .bind h.block
    fun _ => .bind h.alternative.optional fun _ => .pure _)

theorem onward_alternativeRule (h : later.Onward) : (alternativeRule later).Onward :=
  have helseIf : (elseIf later).Onward :=
    .withSpan (.bind (.token .elseKw) fun _ => .bind (.token .ifKw) fun _ =>
      .bind (onward_condition h) fun _ => .bind h.block fun _ => .bind h.alternative.optional
        fun _ => .pure _)
  have helse : (elseClause later).Onward :=
    .withSpan (.bind (.token .elseKw) fun _ => .bind h.block fun _ => .pure _)
  .orElse helseIf helse

theorem onward_forInit (h : later.Onward) : (forInit later).Onward :=
  have hdeclaration : (forDeclaration later).Onward :=
    .withSpan (.bind (.token .letKw) fun _ => .bind (.token .ident) fun _ => .bind (.token .eq)
      fun _ => .bind h.expression fun _ => .pure _)
  .orElse hdeclaration (onward_assignment h)

theorem onward_forStatement (h : later.Onward) : (forStatement later).Onward :=
  .withSpan (.bind (.token .forKw) fun _ => .bind (.token .lParen) fun _ =>
    .bind (onward_forInit h).optional fun _ => .bind (.token .semi) fun _ =>
      .bind h.expression.optional fun _ => .bind (.token .semi) fun _ =>
        .bind (onward_assignment h).optional fun _ => .bind (.token .rParen) fun _ =>
          .bind h.block fun _ => .pure _)

theorem onward_whileStatement (h : later.Onward) : (whileStatement later).Onward :=
  .withSpan (.bind (.token .whileKw) fun _ => .bind (onward_condition h) fun _ => .bind h.block
    fun _ => .pure _)

theorem onward_caseClause (h : later.Onward) : (caseClause later).Onward :=
  .withSpan (.bind (.token .caseKw) fun _ => .bind h.expression fun _ => .bind h.block fun _ =>
    .pure _)

theorem onward_switchStatement (h : later.Onward) : (switchStatement later).Onward :=
  .withSpan (.bind (.token .switchKw) fun _ => .bind (onward_condition h) fun _ =>
    .bind (.token .lBrace) fun _ =>
      .bind (.manyUntil (onward_caseClause h) (.token .rBrace)) fun _ => .pure _)

/-! ### Blocks and statements -/

theorem onward_blockRule (h : later.Onward) : (blockRule later).Onward :=
  .withSpan (.bind (.token .lBrace) fun _ => .bind (.manyUntil h.statement (.token .rBrace))
    fun _ => .pure _)

theorem onward_statementRule (h : later.Onward) : (statementRule later).Onward :=
  .named (.orElse (onward_functionDef h) (.orElse (onward_procedureDef h)
    (.orElse (onward_varInit h) (.orElse onward_varDecl (.orElse (onward_assignmentStatement h)
    (.orElse (onward_callStatement h) (.orElse (onward_returnStatement h)
    (.orElse (onward_ifStatement h) (.orElse (onward_forStatement h)
    (.orElse (onward_whileStatement h) (.orElse (onward_switchStatement h)
    (.map (onward_blockRule h) _)))))))))))) _

end Grammar

/-! ### All rounds -/

namespace Rules

theorem onward_stuck : (stuck : Rules ts).Onward where
  expression := .fail _
  unary := .fail _
  statement := .fail _
  block := .fail _
  alternative := .fail _

theorem Onward.next {later : Rules ts} (h : later.Onward) : later.next.Onward where
  expression := Grammar.onward_expressionRule h
  unary := Grammar.onward_unary h
  statement := Grammar.onward_statementRule h
  block := Grammar.onward_blockRule h
  alternative := Grammar.onward_alternativeRule h

end Rules

end TarnLang
