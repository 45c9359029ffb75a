/-
  TarnLang/Proofs/Grammar/Acceptance.lean
  =======================================
  **A rule reads every phrase it is for.**  The parser commits to the first alternative that
  succeeds and repeats as often as it can; the grammar does neither.  They agree because
  each alternative fails on the phrases of the later ones, and because the token behind a
  phrase is never one that the phrase could have gone on with.

  An expression would go on with an operator, or with an opening parenthesis behind its
  last name, and an `if` with an `else`; nothing else is ever ahead.
-/
import TarnLang.Proofs.Grammar.Soundness
import TarnLang.Proofs.Parser.Acceptance

namespace TarnLang

open TarnLang.Parser

variable {ts : Array Token} {n : Nat}

/-- Kinds that an expression goes on with. -/
def aheadOfExpression : List TokenKind :=
  [.orKw, .andKw, .eqEq, .bangEq, .lt, .gt, .ltEq, .gtEq, .plus, .minus, .star, .slash, .percent,
    .lParen]

/-- Recursive rules that fail on the spot where their phrase cannot start. -/
structure Rules.Rejecting (r : Rules ts) : Prop where
  expression : Rejects r.expression firstOfExpression
  statement : Rejects r.statement Nonterminal.statement.first
  alternative : Rejects r.alternative [.elseKw]

/-- Recursive rules that read every phrase that starts where fewer than `n` tokens are left. -/
structure Rules.Complete (n : Nat) (r : Rules ts) : Prop where
  expression : Reads n r.expression (.ref .expression) aheadOfExpression
  unary : Reads n r.unary (.ref .unary) [.lParen]
  statement : Reads n r.statement (.ref .statement) [.elseKw]
  block : Reads n r.block (.ref .block) []
  alternative : Reads n r.alternative (.ref .alternative) [.elseKw]

namespace Grammar

variable {later : Rules ts} {F : List TokenKind}

/-! ### Where rules fail on the spot -/

theorem rejects_leftAssoc {operand : Parser ts Node} {ks ops : List TokenKind}
    (h : Rejects operand ks) : Rejects (leftAssoc operand ops) ks :=
  h.spanned.bind

theorem rejects_call : Rejects (call later) [.ident] := Rejects.withSpan Rejects.token.bind

theorem rejects_literal :
    Rejects (literal : Parser ts Node) [.int, .str, .trueKw, .falseKw, .ident] :=
  Rejects.oneOf.map

theorem rejects_primary : Rejects (primary later) [.ident, .int, .str, .trueKw, .falseKw, .lParen] := by
  refine Rejects.named (.orElse ?_ (.orElse ?_ ?_))
  · exact rejects_call.map.mono (by decide)
  · exact rejects_literal.mono (by decide)
  · exact Rejects.mono Rejects.token.surrounded.bind (by decide)

theorem rejects_unary : Rejects (unary later) firstOfExpression := by
  refine Rejects.orElse ?_ (rejects_primary.mono (by decide))
  exact (Rejects.withSpan Rejects.oneOf.bind).mono (by decide)

theorem rejects_expressionRule : Rejects (expressionRule later) firstOfExpression := by
  refine Rejects.named (rejects_leftAssoc (rejects_leftAssoc (rejects_leftAssoc ?_)))
  exact rejects_leftAssoc (rejects_leftAssoc rejects_unary)

theorem rejects_functionDef : Rejects (functionDef later) [.fnKw] := .withSpan Rejects.token.bind

theorem rejects_procedureDef : Rejects (procedureDef later) [.procKw] :=
  .withSpan Rejects.token.bind

theorem rejects_varInit : Rejects (varInit later) [.letKw] := .withSpan Rejects.token.bind

theorem rejects_varDecl : Rejects (varDecl : Parser ts Node) [.letKw] := .withSpan Rejects.token.bind

theorem rejects_assignment : Rejects (assignment later) [.ident] := .withSpan Rejects.token.bind

theorem rejects_statementRule : Rejects (statementRule later) Nonterminal.statement.first := by
  have hcontrol {k : TokenKind} {f : Token → Parser ts (Span → Node)} :
      Rejects (withSpan (token k >>= f)) [k] := .withSpan Rejects.token.bind
  refine Rejects.named (.orElse ?_ (.orElse ?_ (.orElse ?_ (.orElse ?_ (.orElse ?_ (.orElse ?_
    (.orElse ?_ (.orElse ?_ (.orElse ?_ (.orElse ?_ (.orElse ?_ ?_)))))))))))
  · exact rejects_functionDef.mono (by decide)
  · exact rejects_procedureDef.mono (by decide)
  · exact rejects_varInit.mono (by decide)
  · exact rejects_varDecl.mono (by decide)
  · exact rejects_assignment.bind.mono (by decide)
  · exact rejects_call.bind.mono (by decide)
  · exact hcontrol.mono (by decide)
  · exact hcontrol.mono (by decide)
  · exact hcontrol.mono (by decide)
  · exact hcontrol.mono (by decide)
  · exact hcontrol.mono (by decide)
  · exact (Rejects.withSpan Rejects.token.bind).map.mono (by decide)

theorem rejects_alternativeRule : Rejects (alternativeRule later) [.elseKw] :=
  .orElse (.withSpan Rejects.token.bind) (.withSpan Rejects.token.bind)

theorem rejects_caseClause : Rejects (caseClause later) [.caseKw] := .withSpan Rejects.token.bind

theorem rejects_declarationRule : Rejects (declarationRule later) Nonterminal.global.first := by
  refine Rejects.named (.orElse ?_ (.orElse ?_ (.orElse ?_ ?_)))
  · exact rejects_functionDef.mono (by decide)
  · exact rejects_procedureDef.mono (by decide)
  · exact rejects_varInit.mono (by decide)
  · exact rejects_varDecl.mono (by decide)

theorem rejects_forInit : Rejects (forInit later) [.letKw, .ident] := by
  refine Rejects.orElse ?_ (rejects_assignment.mono (by decide))
  exact (Rejects.withSpan Rejects.token.bind).mono (by decide)

/-! ### Expressions -/

theorem reads_argumentList (h : later.Complete n) (hr : later.Rejecting) :
    Reads (n + 1) (argumentList later) (.ref .parameterPass) [] := by
  have hitems := (h.expression.separated rfl (by decide)).optional hr.expression.separated
  exact .ref (.withSpan (.bind_nil (hitems.surrounded (by decide)) fun _ => .pure))

theorem reads_call (h : later.Complete n) (hr : later.Rejecting) :
    Reads (n + 1) (call later) (.ref .call) [] := by
  have hlist := (reads_argumentList h hr).earlier
  exact .ref (.withSpan (.keyword fun _ => hlist.bind (fun _ => .pure) (by decide)))

/-- A name alone is not a call, as long as no parenthesis stands behind it. -/
theorem fails_call :
    Fails n (call later) (.alt [.kind .int, .kind .str, .kind .trueKw, .kind .falseKw, .kind .ident,
      .parens (.ref .expression)]) [.lParen] := by
  have hname : Fails n (call later) (.kind .ident) [.lParen] :=
    .withSpan (.token_only fun _ => Rejects.bind (.withSpan Rejects.token.surrounded.bind))
  have hlast : Fails n (call later) (.parens (.ref .expression)) [.lParen] :=
    .of_rejects rejects_call (by decide)
  have hliteral {k : TokenKind} (hk : k ≠ .ident) : Fails n (call later) (.kind k) [.lParen] :=
    .of_rejects rejects_call fun k' hk' => by
      obtain rfl := List.mem_singleton.mp hk'
      exact ⟨fun hmem => hk (List.mem_singleton.mp hmem).symm, fun h => nomatch h⟩
  exact .alt (hliteral (by decide)) (.alt (hliteral (by decide)) (.alt (hliteral (by decide))
    (.alt (hliteral (by decide)) (.alt hname (.alt hlast .nil_alt)))))

theorem reads_grouped (h : later.Complete n) :
    Reads (n + 1) (grouped later) (.parens (.ref .expression)) F :=
  .bind_nil (h.expression.surrounded (by decide)) fun _ => .pure

theorem reads_primary (h : later.Complete n) (hr : later.Rejecting) :
    Reads (n + 1) (primary later) (.ref .primary) [.lParen] := by
  have hliteral : Reads (n + 1) (literal : Parser ts Node)
      (.alt [.kind .int, .kind .str, .kind .trueKw, .kind .falseKw, .kind .ident]) [.lParen] :=
    Reads.map (.oneOf (F := [.int, .str, .trueKw, .falseKw, .ident]) fun _ hk => hk)
  -- calls come first, so a name is read as one only where no parenthesis is ahead
  refine .ref (.named (.orElse_cons (reads_call h hr).map.anyAhead ?_ fails_call.map))
  refine hliteral.orElse (reads_grouped h).alt ?_
  exact .of_rejects rejects_literal (by decide)

theorem reads_unary (h : later.Complete n) (hr : later.Rejecting) :
    Reads (n + 1) (unary later) (.ref .unary) [.lParen] := by
  have hprefixed : Reads (n + 1) (prefixed later)
      (.seq [.oneOf [.minus, .notKw], .ref .unary]) [.lParen] := by
    refine .withSpan (.step (.oneOf fun _ hk => hk) rfl fun _ => ?_)
    exact h.unary.bind (fun _ => .pure) (by decide)
  refine .ref (.orElse_cons hprefixed (reads_primary h hr).alt ?_)
  exact .of_rejects (Rejects.withSpan Rejects.oneOf.bind) (by decide)

/-- An operator of a level and the operand behind it. -/
theorem reads_operation {operand : Parser ts Node} {e : Ebnf} {ks ops : List TokenKind}
    (h : Reads n operand e F) (hks : ∀ k ∈ ops, k ∈ ks) :
    Reads n (operation operand ks) (.seq [.oneOf ops, e]) F := by
  refine (Reads.oneOf (G := []) hks).bind (fun _ => ?_) fun _ hk => nomatch hk
  exact h.spanned.bind (fun _ => .pure) fun _ hk => ⟨List.not_mem_nil, fun _ => hk⟩

/-- Operands of a tighter level, with the operators of a level between them.  An operator that
    stands behind the last operand would have been read. -/
theorem reads_leftAssoc {operand : Parser ts Node} {e : Ebnf} {ks ops : List TokenKind}
    (h : Reads n operand e F) (hks : ∀ k ∈ ops, k ∈ ks)
    (he : (Ebnf.seq [.oneOf ops, e]).nullable = false)
    (hF : ∀ k ∈ F, k ∉ (Ebnf.seq [.oneOf ops, e]).first) :
    Reads n (leftAssoc operand ks) (.infixed e ops) (ks ++ F) := by
  -- the repetition stops in front of what no operator is
  have hrest := (reads_operation h hks).many he hF Rejects.oneOf.bind
  refine h.spanned.bind (fun _ => hrest.bind (fun _ => .pure) ?_) ?_
  · exact fun _ hk => ⟨List.not_mem_nil, fun _ => hk⟩
  · intro k hk
    refine ⟨?_, fun _ => List.mem_append_right ks hk⟩
    have hfirst : (Ebnf.seq [.star (.seq [.oneOf ops, e])]).first
        = (Ebnf.seq [.oneOf ops, e]).first ++ [] := rfl
    rw [hfirst, List.append_nil]
    exact hF k hk

theorem reads_expressionRule (h : later.Complete n) (hr : later.Rejecting) :
    Reads (n + 1) (expressionRule later) (.ref .expression) aheadOfExpression := by
  -- from the tightest level to the loosest, each with its own operators ahead as well
  have hproduct : Reads (n + 1) (multiplicative later) (.ref .multiplicative) _ :=
    .ref (reads_leftAssoc (reads_unary h hr) (fun _ hk => hk) rfl (by decide))
  have hsum : Reads (n + 1) (additive later) (.ref .additive) _ :=
    .ref (reads_leftAssoc hproduct (fun _ hk => hk) rfl (by decide))
  have hcomparison : Reads (n + 1) (comparison later) (.ref .comparison) _ :=
    .ref (reads_leftAssoc hsum (by decide) rfl (by decide))
  have hconjunction : Reads (n + 1) (conjunction later) (.ref .conjunction) _ :=
    .ref (reads_leftAssoc hcomparison (fun _ hk => hk) rfl (by decide))
  have hdisjunction : Reads (n + 1) (disjunction later) (.ref .disjunction) _ :=
    .ref (reads_leftAssoc hconjunction (fun _ hk => hk) rfl (by decide))
  exact .ref (.named (hdisjunction.mono (Nat.le_refl _) (by decide)))

/-! ### Definitions -/

theorem reads_parameterList :
    Reads n (parameterList : Parser ts ParameterList) (.ref .parameterDef) [] := by
  have hnames : Reads n (optional (separated (token .comma) (token .ident)) : Parser ts _)
      (.opt (.commaList (.kind .ident))) ([.ident] ++ [.comma]) :=
    (Reads.token.separated rfl List.not_mem_nil).optional Rejects.token.separated
  exact .earlier (.ref (.withSpan (.bind_nil (hnames.surrounded (by decide)) fun _ => .pure)))

theorem reads_signature : Reads n (signature : Parser ts Signature) (.ref .signature) [] := by
  refine .ref (.withSpan (.token_bind fun _ => ?_))
  exact reads_parameterList.bind (fun _ => .pure) (by decide)

theorem reads_functionDef (h : later.Complete n) :
    Reads (n + 1) (functionDef later) (.ref .functionDef) [] := by
  refine .ref (.withSpan (.keyword fun _ => reads_signature.bind (fun _ => ?_) (by decide)))
  exact h.block.bind (fun _ => .pure) (by decide)

theorem reads_procedureDef (h : later.Complete n) :
    Reads (n + 1) (procedureDef later) (.ref .procedureDef) [] := by
  refine .ref (.withSpan (.keyword fun _ => reads_signature.bind (fun _ => ?_) (by decide)))
  exact h.block.bind (fun _ => .pure) (by decide)

theorem reads_varDecl : Reads n (varDecl : Parser ts Node) (.ref .varDecl) [] :=
  .ref (.withSpan (.token_bind fun _ => .token_bind fun _ => .token_bind fun _ => .pure))

theorem reads_varInit (h : later.Complete n) :
    Reads (n + 1) (varInit later) (.ref .varInit) [] := by
  refine .ref (.withSpan (.keyword fun _ => .token_bind fun _ => .token_bind fun _ => ?_))
  exact h.expression.bind (fun _ => .token_bind fun _ => .pure) (by decide)

/-- A declaration without a value ends where a value would be announced. -/
theorem fails_varInit : Fails n (varInit later) (.ref .varDecl) [] := by
  refine .ref (.withSpan (.token fun _ => .token fun _ => ?_))
  exact .of_rejects Rejects.token.bind (by decide)

theorem reads_declarationRule (h : later.Complete n) :
    Reads (n + 1) (declarationRule later) (.ref .global) [] := by
  refine .ref (.named (.orElse_cons (reads_functionDef h) ?_ ?_))
  · refine .orElse_cons (reads_procedureDef h) ?_ ?_
    · exact .orElse_cons (reads_varInit h) reads_varDecl.alt (.alt fails_varInit .nil_alt)
    · exact .of_rejects rejects_procedureDef (by decide)
  · exact .of_rejects rejects_functionDef (by decide)

/-! ### Simple statements -/

theorem reads_assignment (h : later.Complete n) :
    Reads (n + 1) (assignment later) (.ref .assignment) aheadOfExpression := by
  refine .ref (.withSpan (.keyword fun _ => .token_bind fun _ => ?_))
  exact h.expression.bind (fun _ => .pure) (by decide)

theorem reads_assignmentStatement (h : later.Complete n) :
    Reads (n + 1) (assignmentStatement later) (.seq [.ref .assignment, .kind .semi]) [] :=
  (reads_assignment h).bind (fun _ => .token_bind fun _ => .pure) (by decide)

/-- A call has no equals sign behind its name. -/
theorem fails_assignment : Fails n (assignment later) (.ref .call) [] := by
  refine .ref (.withSpan (.token fun _ => ?_))
  exact .of_rejects Rejects.token.bind (by decide)

theorem reads_callStatement (h : later.Complete n) (hr : later.Rejecting) :
    Reads (n + 1) (callStatement later) (.seq [.ref .call, .kind .semi]) [] :=
  (reads_call h hr).bind (fun _ => .token_bind fun _ => .pure) (by decide)

theorem reads_returnStatement (h : later.Complete n) (hr : later.Rejecting) :
    Reads (n + 1) (returnStatement later) (.ref .returnStmt) [] := by
  have hvalue := h.expression.optional hr.expression
  refine .ref (.withSpan (.keyword fun _ => ?_))
  exact hvalue.bind (fun _ => .token_bind fun _ => .pure) (by decide)

/-! ### Control statements -/

theorem reads_condition (h : later.Complete n) :
    Reads n (condition later) (.parens (.ref .expression)) [] :=
  .earlier (.bind_nil (h.expression.surrounded (by decide)) fun _ => .pure)

theorem reads_ifStatement (h : later.Complete n) (hr : later.Rejecting) :
    Reads (n + 1) (ifStatement later) (.ref .ifStmt) [.elseKw] := by
  have halternative := h.alternative.optional hr.alternative
  refine .ref (.withSpan (.keyword fun _ => (reads_condition h).bind (fun _ => ?_) (by decide)))
  refine h.block.bind (fun _ => ?_) (by decide)
  exact halternative.bind (fun _ => .pure) (by decide)

theorem reads_elseIf (h : later.Complete n) (hr : later.Rejecting) :
    Reads (n + 1) (elseIf later) (.seq [.kind .elseKw, .kind .ifKw, .parens (.ref .expression),
      .ref .block, .opt (.ref .alternative)]) [.elseKw] := by
  have halternative := h.alternative.optional hr.alternative
  refine .withSpan (.keyword fun _ => .token_bind fun _ => ?_)
  refine (reads_condition h).bind (fun _ => h.block.bind (fun _ => ?_) (by decide)) (by decide)
  exact halternative.bind (fun _ => .pure) (by decide)

theorem reads_elseClause (h : later.Complete n) :
    Reads (n + 1) (elseClause later) (.seq [.kind .elseKw, .ref .block]) [.elseKw] :=
  .withSpan (.keyword fun _ => h.block.bind (fun _ => .pure) (by decide))

theorem reads_alternativeRule (h : later.Complete n) (hr : later.Rejecting) :
    Reads (n + 1) (alternativeRule later) (.ref .alternative) [.elseKw] := by
  refine .ref (.orElse_cons (reads_elseIf h hr) (reads_elseClause h).alt (.alt ?_ .nil_alt))
  exact .withSpan (.token fun _ => .of_rejects Rejects.token.bind (by decide))

theorem reads_forInit (h : later.Complete n) :
    Reads (n + 1) (forInit later) (.ref .forInit) aheadOfExpression := by
  have hdeclaration : Reads (n + 1) (forDeclaration later)
      (.seq [.kind .letKw, .kind .ident, .kind .eq, .ref .expression]) aheadOfExpression := by
    refine .withSpan (.keyword fun _ => .token_bind fun _ => .token_bind fun _ => ?_)
    exact h.expression.bind (fun _ => .pure) (by decide)
  refine .ref (.orElse_cons hdeclaration (reads_assignment h).alt ?_)
  exact .of_rejects (.withSpan Rejects.token.bind) (by decide)

theorem reads_forStatement (h : later.Complete n) (hr : later.Rejecting) :
    Reads (n + 1) (forStatement later) (.ref .forStmt) [] := by
  have hinit := (reads_forInit h).earlier.optional rejects_forInit
  have htest := h.expression.optional hr.expression
  have hupdate := (reads_assignment h).earlier.optional rejects_assignment
  refine .ref (.withSpan (.keyword fun _ => .token_bind fun _ => ?_))
  refine hinit.bind (fun _ => .token_bind fun _ => ?_) (by decide)
  refine htest.bind (fun _ => .token_bind fun _ => ?_) (by decide)
  refine hupdate.bind (fun _ => .token_bind fun _ => ?_) (by decide)
  exact h.block.bind (fun _ => .pure) (by decide)

theorem reads_whileStatement (h : later.Complete n) :
    Reads (n + 1) (whileStatement later) (.ref .whileStmt) [] := by
  refine .ref (.withSpan (.keyword fun _ => (reads_condition h).bind (fun _ => ?_) (by decide)))
  exact h.block.bind (fun _ => .pure) (by decide)

theorem reads_caseClause (h : later.Complete n) :
    Reads (n + 1) (caseClause later) (.ref .caseClause) [] := by
  refine .ref (.withSpan (.keyword fun _ => h.expression.bind (fun _ => ?_) (by decide)))
  exact h.block.bind (fun _ => .pure) (by decide)

theorem reads_switchStatement (h : later.Complete n) :
    Reads (n + 1) (switchStatement later) (.ref .switchStmt) [] := by
  have hcases := (reads_caseClause h).earlier.untilToken (k := .rBrace) rfl (by decide)
    rejects_caseClause (by decide)
  refine .ref (.withSpan (.keyword fun _ => (reads_condition h).bind (fun _ => ?_) (by decide)))
  exact .token_bind fun _ => hcases.bind_nil fun _ => .pure

/-! ### Blocks and statements -/

theorem reads_blockRule (h : later.Complete n) (hr : later.Rejecting) :
    Reads (n + 1) (blockRule later) (.ref .block) [] := by
  have hstatements := h.statement.untilToken (k := .rBrace) rfl (by decide) hr.statement (by decide)
  exact .ref (.withSpan (.keyword fun _ => hstatements.bind_nil fun _ => .pure))

theorem reads_statementRule (h : later.Complete n) (hr : later.Rejecting) :
    Reads (n + 1) (statementRule later) (.ref .statement) [.elseKw] := by
  have hblock : Reads (n + 1) (Node.block <$> blockRule later) (.ref .block) [.elseKw] :=
    (reads_blockRule h hr).anyAhead.map
  -- from the last alternative to the first: each fails on those that come behind it
  have hswitch := (reads_switchStatement h).anyAhead.orElse_cons hblock.alt
    (.of_rejects (.withSpan Rejects.token.bind) (by decide))
  have hwhile := (reads_whileStatement h).anyAhead.orElse_cons hswitch
    (.of_rejects (.withSpan Rejects.token.bind) (by decide))
  have hfor := (reads_forStatement h hr).anyAhead.orElse_cons hwhile
    (.of_rejects (.withSpan Rejects.token.bind) (by decide))
  have hif := (reads_ifStatement h hr).orElse_cons hfor
    (.of_rejects (.withSpan Rejects.token.bind) (by decide))
  have hreturn := (reads_returnStatement h hr).anyAhead.orElse_cons hif
    (.of_rejects (.withSpan Rejects.token.bind) (by decide))
  have hcall := (reads_callStatement h hr).anyAhead.orElse_cons hreturn
    (.of_rejects rejects_call.bind (by decide))
  have hassignment := (reads_assignmentStatement h).anyAhead.orElse_cons hcall
    (.alt fails_assignment.bind (.of_rejects rejects_assignment.bind (by decide)))
  have hvarDecl := (reads_varDecl (n := n + 1)).anyAhead.orElse_cons hassignment
    (.of_rejects rejects_varDecl (by decide))
  have hvarInit := (reads_varInit h).anyAhead.orElse_cons hvarDecl
    (.alt fails_varInit.anyAhead (.of_rejects rejects_varInit (by decide)))
  have hprocedure := (reads_procedureDef h).anyAhead.orElse_cons hvarInit
    (.of_rejects rejects_procedureDef (by decide))
  have hfunction := (reads_functionDef h).anyAhead.orElse_cons hprocedure
    (.of_rejects rejects_functionDef (by decide))
  exact .ref (.named hfunction)

end Grammar

/-! ### All rounds -/

namespace Rules

theorem rejecting_stuck : (stuck : Rules ts).Rejecting where
  expression := .fail
  statement := .fail
  alternative := .fail

/-- Whatever the rules for later places are, those for a place look at its token first. -/
theorem rejecting_next (later : Rules ts) : later.next.Rejecting where
  expression := Grammar.rejects_expressionRule
  statement := Grammar.rejects_statementRule
  alternative := Grammar.rejects_alternativeRule

theorem rejecting_upTo (n : Nat) : (upTo ts n).Rejecting := by
  cases n with
  | zero => exact rejecting_stuck
  | succ n => exact rejecting_next (upTo ts n)

/-- No place has fewer than no tokens left. -/
theorem complete_stuck : (stuck : Rules ts).Complete 0 where
  expression := fun i _ hi => absurd hi (Nat.not_lt_zero i.left)
  unary := fun i _ hi => absurd hi (Nat.not_lt_zero i.left)
  statement := fun i _ hi => absurd hi (Nat.not_lt_zero i.left)
  block := fun i _ hi => absurd hi (Nat.not_lt_zero i.left)
  alternative := fun i _ hi => absurd hi (Nat.not_lt_zero i.left)

/-- Each round serves the places with one more token left. -/
theorem Complete.next {later : Rules ts} (h : later.Complete n) (hr : later.Rejecting) :
    later.next.Complete (n + 1) where
  expression := Grammar.reads_expressionRule h hr
  unary := Grammar.reads_unary h hr
  statement := Grammar.reads_statementRule h hr
  block := Grammar.reads_blockRule h hr
  alternative := Grammar.reads_alternativeRule h hr

theorem complete_upTo (n : Nat) : (upTo ts n).Complete n := by
  induction n with
  | zero => exact complete_stuck
  | succ n ih => exact ih.next (rejecting_upTo n)

end Rules

/-- **The grammar is complete.** -/
theorem complete_grammar (ts : Array Token) : (grammar ts).Complete (ts.size + 1) :=
  Rules.complete_upTo _

/-! ### Programs -/

/-- A program is read where declarations stand with an end of file behind them. -/
theorem Grammar.program_ok_iff {i j : Place ts} :
    (∃ p, program ts i = .ok (p, j)) ↔
      ∃ k t, Stands (.star (.ref .global)) i k ∧ k.Takes .eof t j := by
  constructor
  · rintro ⟨p, hp⟩
    obtain ⟨k, t, hwritten, ht, -⟩ := written_program hp
    exact ⟨k, t, hwritten.stands, ht⟩
  · rintro ⟨k, t, hphrase, ht⟩
    have hdeclarations := (reads_declarationRule (complete_grammar ts)).untilToken (k := .eof) rfl
      (by decide) rejects_declarationRule (by decide)
    have hleft : i.left < ts.size + 1 + 1 := by
      simp only [Place.left]
      omega
    have hprogram := hphrase.cons (Stands.kind ht).last
    obtain ⟨p, hp⟩ := Reads.withSpan (hdeclarations.bind_nil fun _ => .pure) i j hleft hprogram
      Place.avoids_nil
    exact ⟨p, hp⟩

/-- **The parser accepts exactly the grammar.** -/
theorem parse_succeeds_iff (ts : Array Token) :
    (∃ p, parse ts = .ok p) ↔
      (∃ t ∈ ts, t.kind = .eof) ∧
        Derives (.star (.ref .global)) ((tokensBeforeEof ts).map (·.kind)) := by
  constructor
  · rintro ⟨p, hp⟩
    obtain ⟨j, hp⟩ := parse_ok.mp hp
    obtain ⟨k, t, hphrase, ht⟩ := Grammar.program_ok_iff.mp ⟨p, hp⟩
    obtain ⟨u, hu, hw, heof⟩ := hphrase.exists_row rfl
    rw [tokensBeforeEof_eq hu ht heof]
    exact ⟨⟨t, ht.mem, ht.kind_eq⟩, hw⟩
  · rintro ⟨⟨t, ht, hkind⟩, hw⟩
    obtain ⟨k, eof, j, heof, hfirst⟩ := exists_first_eof ht hkind
    have hkinds : (Place.first ts).kinds = (tokensBeforeEof ts).map (·.kind) ++ k.kinds := by
      rw [Place.kinds, hfirst, List.map_append]
      rfl
    obtain ⟨p, hp⟩ := Grammar.program_ok_iff.mpr ⟨k, eof, ⟨_, hw, hkinds⟩, heof⟩
    exact ⟨p, parse_ok.mpr ⟨j, hp⟩⟩

end TarnLang
