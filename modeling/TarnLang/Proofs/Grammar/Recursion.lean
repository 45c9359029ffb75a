/-
  TarnLang/Proofs/Grammar/Recursion.lean
  ======================================
  **The grammar as a system of equations.**  A table holds a parser for each nonterminal.
  `RuleTable.rule` is the right-hand side of each nonterminal's equation: wherever it needs
  another nonterminal it asks a table, so every call of the grammar can be seen in it.

  Some calls are made at the very place where a rule starts, others behind a token.  A call
  at the same place is always to a nonterminal of smaller height.  So what a rule gives at a
  place is settled by what others give at pairs of a number of tokens left and a height that
  are smaller in lexicographic order (`body_eq_of_agree`), and the equations have one
  solution: the rules of the grammar.
-/
import TarnLang.Proofs.Grammar.Soundness
import TarnLang.Proofs.Parser.Locality

namespace TarnLang

open TarnLang.Parser

variable {ts : Array Token} {n : Nat}

/-! ### Tables -/

/-- What a nonterminal is read as. -/
abbrev Nonterminal.Value : Nonterminal → Type
  | signature => Signature
  | parameterDef => ParameterList
  | block => Block Node
  | caseClause => Case Node
  | call => Call Node
  | parameterPass => ArgumentList Node
  | _ => Node

/-- A parser for each nonterminal.  None of them goes back. -/
structure RuleTable (ts : Array Token) where
  run : (k : Nonterminal) → Parser ts k.Value
  onward : ∀ k, (run k).Onward

namespace RuleTable

/-- The recursive rules among those of a table. -/
def recursive (T : RuleTable ts) : Rules ts where
  expression := T.run .expression
  unary := T.run .unary
  statement := T.run .statement
  block := T.run .block
  alternative := T.run .alternative

theorem onward_recursive (T : RuleTable ts) : T.recursive.Onward where
  expression := T.onward .expression
  unary := T.onward .unary
  statement := T.onward .statement
  block := T.onward .block
  alternative := T.onward .alternative

/-- The rule for each nonterminal: what it needs of the recursive rules behind a token comes
    from `later`, and all else that it needs from the table. -/
def rule (T : RuleTable ts) (later : Rules ts) : (k : Nonterminal) → Parser ts k.Value
  | .global => named "a declaration"
    (T.run .functionDef <|> T.run .procedureDef <|> T.run .varInit <|> T.run .varDecl)
  | .functionDef => withSpan do
    let _ ← token .fnKw
    let signature ← T.run .signature
    let body ← later.block
    pure fun span => Node.functionDef signature body span
  | .procedureDef => withSpan do
    let _ ← token .procKw
    let signature ← T.run .signature
    let body ← later.block
    pure fun span => Node.procedureDef signature body span
  | .signature => withSpan do
    let name ← token .ident
    let parameters ← T.run .parameterDef
    pure fun span => Signature.mk name parameters span
  | .parameterDef => Grammar.parameterList
  | .varDecl => Grammar.varDecl
  | .varInit => Grammar.varInit later
  | .statement => named "a statement"
    (T.run .functionDef <|> T.run .procedureDef <|> T.run .varInit <|> T.run .varDecl
      <|> (do
        let node ← T.run .assignment
        let _ ← token .semi
        pure node)
      <|> (do
        let c ← T.run .call
        let _ ← token .semi
        pure (Node.call c))
      <|> T.run .returnStmt <|> T.run .ifStmt <|> T.run .forStmt <|> T.run .whileStmt
      <|> T.run .switchStmt <|> Node.block <$> T.run .block)
  | .assignment => Grammar.assignment later
  | .returnStmt => Grammar.returnStatement later
  | .block => Grammar.blockRule later
  | .ifStmt => Grammar.ifStatement later
  | .alternative => Grammar.alternativeRule later
  | .forStmt => withSpan do
    let _ ← token .forKw
    let _ ← token .lParen
    let init ← optional (T.run .forInit)
    let _ ← token .semi
    let test ← optional later.expression
    let _ ← token .semi
    let update ← optional (T.run .assignment)
    let _ ← token .rParen
    let body ← later.block
    pure fun span => Node.forLoop init test update body span
  | .forInit => Grammar.forDeclaration later <|> T.run .assignment
  | .whileStmt => Grammar.whileStatement later
  | .switchStmt => withSpan do
    let _ ← token .switchKw
    let subject ← Grammar.condition later
    let _ ← token .lBrace
    let (cases, _) ← manyUntil (T.run .caseClause) (token .rBrace)
    pure fun span => Node.switchStmt subject cases span
  | .caseClause => Grammar.caseClause later
  | .call => withSpan do
    let name ← token .ident
    let arguments ← T.run .parameterPass
    pure fun span => Call.mk name arguments span
  | .parameterPass => Grammar.argumentList later
  | .expression => named "an expression" (T.run .disjunction)
  | .disjunction => Grammar.leftAssoc (T.run .conjunction) [.orKw]
  | .conjunction => Grammar.leftAssoc (T.run .comparison) [.andKw]
  | .comparison => Grammar.leftAssoc (T.run .additive) Grammar.comparisonOperators
  | .additive => Grammar.leftAssoc (T.run .multiplicative) Grammar.additiveOperators
  | .multiplicative => Grammar.leftAssoc (T.run .unary) Grammar.multiplicativeOperators
  | .unary => Grammar.prefixed later <|> T.run .primary
  | .primary => named "an expression"
    (Node.call <$> T.run .call <|> Grammar.literal <|> Grammar.grouped later)

/-- One round of the equations: every call is answered by the table. -/
def body (T : RuleTable ts) (k : Nonterminal) : Parser ts k.Value := T.rule T.recursive k

end RuleTable

/-- How many calls a nonterminal may go through at the place where it starts. -/
def Nonterminal.height : Nonterminal → Nat
  | primary | global | statement | forInit => 1
  | unary => 2
  | multiplicative => 3
  | additive => 4
  | comparison => 5
  | conjunction => 6
  | disjunction => 7
  | expression => 8
  | _ => 0

/-! ### Rules that agree -/

/-- Recursive rules that give the same wherever fewer than `n` tokens are left. -/
structure Rules.Agree (n : Nat) (r r' : Rules ts) : Prop where
  expression : Parser.Agree n r.expression r'.expression
  unary : Parser.Agree n r.unary r'.unary
  statement : Parser.Agree n r.statement r'.statement
  block : Parser.Agree n r.block r'.block
  alternative : Parser.Agree n r.alternative r'.alternative

theorem Rules.Agree.mono {m : Nat} {r r' : Rules ts} (h : r.Agree n r') (hm : m ≤ n) :
    r.Agree m r' where
  expression := h.expression.mono hm
  unary := h.unary.mono hm
  statement := h.statement.mono hm
  block := h.block.mono hm
  alternative := h.alternative.mono hm

namespace Grammar

variable {r r' : Rules ts}

/-! ### Rules that call behind a token only -/

theorem agree_condition (h : r.Agree n r') : Agree (n + 1) (condition r) (condition r') :=
  h.expression.surrounded.bind_same _

theorem agree_argumentList (h : r.Agree n r') :
    Agree (n + 1) (argumentList r) (argumentList r') :=
  .withSpan ((h.expression.separated (token .comma)).optional.surrounded.bind_same _)

theorem agree_grouped (h : r.Agree n r') : Agree (n + 1) (grouped r) (grouped r') :=
  h.expression.surrounded.bind_same _

theorem agree_prefixed (h : r.Agree n r') : Agree (n + 1) (prefixed r) (prefixed r') :=
  .withSpan (.step (fun h => (oneOf_ok.mp h).1.lt) fun _ => h.unary.bind_same _)

theorem agree_varInit (h : r.Agree n r') : Agree (n + 1) (varInit r) (varInit r') :=
  .withSpan (.keyword fun _ => .token_bind fun _ => .token_bind fun _ => h.expression.bind_same _)

theorem agree_assignment (h : r.Agree n r') : Agree (n + 1) (assignment r) (assignment r') :=
  .withSpan (.keyword fun _ => .token_bind fun _ => h.expression.bind_same _)

theorem agree_returnStatement (h : r.Agree n r') :
    Agree (n + 1) (returnStatement r) (returnStatement r') :=
  .withSpan (.keyword fun _ => h.expression.optional.bind_same _)

theorem agree_ifStatement (h : r.Agree n r') (ho : r.Onward) :
    Agree (n + 1) (ifStatement r) (ifStatement r') := by
  have hcondition := (agree_condition h).mono (Nat.le_succ n)
  refine .withSpan (.keyword fun _ => hcondition.bind (onward_condition ho) fun _ => ?_)
  exact h.block.bind ho.block fun _ => h.alternative.optional.bind_same _

theorem agree_alternativeRule (h : r.Agree n r') (ho : r.Onward) :
    Agree (n + 1) (alternativeRule r) (alternativeRule r') := by
  have hcondition := (agree_condition h).mono (Nat.le_succ n)
  refine .orElse (.withSpan (.keyword fun _ => .token_bind fun _ => ?_)) ?_
  · refine hcondition.bind (onward_condition ho) fun _ => ?_
    exact h.block.bind ho.block fun _ => h.alternative.optional.bind_same _
  · exact .withSpan (.keyword fun _ => h.block.bind_same _)

theorem agree_forDeclaration (h : r.Agree n r') :
    Agree (n + 1) (forDeclaration r) (forDeclaration r') :=
  .withSpan (.keyword fun _ => .token_bind fun _ => .token_bind fun _ => h.expression.bind_same _)

theorem agree_whileStatement (h : r.Agree n r') (ho : r.Onward) :
    Agree (n + 1) (whileStatement r) (whileStatement r') := by
  have hcondition := (agree_condition h).mono (Nat.le_succ n)
  refine .withSpan (.keyword fun _ => hcondition.bind (onward_condition ho) fun _ => ?_)
  exact h.block.bind_same _

theorem agree_caseClause (h : r.Agree n r') (ho : r.Onward) :
    Agree (n + 1) (caseClause r) (caseClause r') :=
  .withSpan (.keyword fun _ => h.expression.bind ho.expression fun _ => h.block.bind_same _)

theorem agree_blockRule (h : r.Agree n r') : Agree (n + 1) (blockRule r) (blockRule r') :=
  .withSpan (.keyword fun _ => (h.statement.manyUntil (token .rBrace)).bind_same _)

theorem agree_leftAssoc {operand operand' : Parser ts Node} (h : Agree n operand operand')
    (ho : operand.Onward) (ks : List TokenKind) :
    Agree n (leftAssoc operand ks) (leftAssoc operand' ks) := by
  refine h.spanned.bind ho.spanned fun _ => (Agree.many ?_).bind_same _
  have hitem := Agree.step (p := (oneOf ks : Parser ts Token)) (fun h => (oneOf_ok.mp h).1.lt)
    fun op => h.spanned.bind_same fun right => pure (op, right)
  exact hitem.mono (Nat.le_succ n)

end Grammar

namespace RuleTable

variable {T T' : RuleTable ts} {r r' : Rules ts}

theorem agree_rule (k : Nonterminal) (h : r.Agree n r') (ho : r.Onward)
    (hall : ∀ m, Agree n (T.run m) (T'.run m))
    (hbelow : ∀ m : Nonterminal, m.height < k.height → Agree (n + 1) (T.run m) (T'.run m)) :
    Agree (n + 1) (T.rule r k) (T'.rule r' k) := by
  cases k with
  | global =>
    refine .named (.orElse (hbelow .functionDef ?_) (.orElse (hbelow .procedureDef ?_)
      (.orElse (hbelow .varInit ?_) (hbelow .varDecl ?_)))) _
    all_goals decide
  | functionDef =>
    refine .withSpan (.keyword fun _ => (hall .signature).bind (T.onward .signature) fun _ => ?_)
    exact h.block.bind_same _
  | procedureDef =>
    refine .withSpan (.keyword fun _ => (hall .signature).bind (T.onward .signature) fun _ => ?_)
    exact h.block.bind_same _
  | signature => exact .withSpan (.keyword fun _ => (hall .parameterDef).bind_same _)
  | parameterDef => exact .refl _
  | varDecl => exact .refl _
  | varInit => exact Grammar.agree_varInit h
  | statement =>
    refine .named (.orElse (hbelow .functionDef ?_) (.orElse (hbelow .procedureDef ?_)
      (.orElse (hbelow .varInit ?_) (.orElse (hbelow .varDecl ?_)
      (.orElse ((hbelow .assignment ?_).bind_same _) (.orElse ((hbelow .call ?_).bind_same _)
      (.orElse (hbelow .returnStmt ?_) (.orElse (hbelow .ifStmt ?_) (.orElse (hbelow .forStmt ?_)
      (.orElse (hbelow .whileStmt ?_) (.orElse (hbelow .switchStmt ?_)
      ((hbelow .block ?_).map _)))))))))))) _
    all_goals decide
  | assignment => exact Grammar.agree_assignment h
  | returnStmt => exact Grammar.agree_returnStatement h
  | block => exact Grammar.agree_blockRule h
  | ifStmt => exact Grammar.agree_ifStatement h ho
  | alternative => exact Grammar.agree_alternativeRule h ho
  | forStmt =>
    have hinit := (T.onward .forInit).optional
    have hupdate := (T.onward .assignment).optional
    refine .withSpan (.keyword fun _ => .token_bind fun _ => ?_)
    refine (hall .forInit).optional.bind hinit fun _ => .token_bind fun _ => ?_
    refine h.expression.optional.bind ho.expression.optional fun _ => .token_bind fun _ => ?_
    refine (hall .assignment).optional.bind hupdate fun _ => .token_bind fun _ => ?_
    exact h.block.bind_same _
  | forInit => exact .orElse (Grammar.agree_forDeclaration h) (hbelow .assignment (by decide))
  | whileStmt => exact Grammar.agree_whileStatement h ho
  | switchStmt =>
    have hcondition := (Grammar.agree_condition h).mono (Nat.le_succ n)
    refine .withSpan (.keyword fun _ => ?_)
    refine hcondition.bind (Grammar.onward_condition ho) fun _ => .token_bind fun _ => ?_
    exact ((hall .caseClause).manyUntil _).bind_same _
  | caseClause => exact Grammar.agree_caseClause h ho
  | call => exact .withSpan (.keyword fun _ => (hall .parameterPass).bind_same _)
  | parameterPass => exact Grammar.agree_argumentList h
  | expression => exact .named (hbelow .disjunction (by decide)) _
  | disjunction =>
    exact Grammar.agree_leftAssoc (hbelow .conjunction (by decide)) (T.onward .conjunction) _
  | conjunction =>
    exact Grammar.agree_leftAssoc (hbelow .comparison (by decide)) (T.onward .comparison) _
  | comparison =>
    exact Grammar.agree_leftAssoc (hbelow .additive (by decide)) (T.onward .additive) _
  | additive =>
    exact Grammar.agree_leftAssoc (hbelow .multiplicative (by decide)) (T.onward .multiplicative) _
  | multiplicative => exact Grammar.agree_leftAssoc (hbelow .unary (by decide)) (T.onward .unary) _
  | unary => exact .orElse (Grammar.agree_prefixed h) (hbelow .primary (by decide))
  | primary =>
    exact .named (.orElse ((hbelow .call (by decide)).map _)
      (.orElse (.refl _) (Grammar.agree_grouped h))) _

/-- **A rule calls downwards.**  What it gives at a place is settled by what the nonterminals
    give with fewer tokens left, and by what those of smaller height give with equally many. -/
theorem body_eq_of_agree {k : Nonterminal} {i : Place ts}
    (h : ∀ m j, Prod.Lex (· < ·) (· < ·) (j.left, m.height) (i.left, k.height) →
      T.run m j = T'.run m j) : T.body k i = T'.body k i := by
  have hall : ∀ m, Agree i.left (T.run m) (T'.run m) := fun m j hj => h m j (.left _ _ hj)
  have hbelow : ∀ m : Nonterminal, m.height < k.height →
      Agree (i.left + 1) (T.run m) (T'.run m) := by
    intro m hm j hj
    rcases Nat.lt_or_eq_of_le (Nat.le_of_lt_succ hj) with hlt | heq
    · exact hall m j hlt
    · refine h m j ?_
      rw [heq]
      exact .right _ hm
  have hrec : T.recursive.Agree i.left T'.recursive :=
    ⟨hall .expression, hall .unary, hall .statement, hall .block, hall .alternative⟩
  exact agree_rule k hrec T.onward_recursive hall hbelow i (Nat.lt_succ_self i.left)

/-! ### Solutions -/

/-- A table that answers each call as its own rules say. -/
def Solves (T : RuleTable ts) : Prop := ∀ k, T.run k = T.body k

/-- Two solutions are equal: by induction along the calls, they agree everywhere. -/
theorem Solves.unique (h : T.Solves) (h' : T'.Solves) : T = T' := by
  have hwf : WellFounded (Prod.Lex (· < ·) (· < ·) : Nat × Nat → Nat × Nat → Prop) :=
    (Prod.lex Nat.lt_wfRel Nat.lt_wfRel).wf
  have hrun : ∀ (x : Nat × Nat) (k : Nonterminal) (i : Place ts), (i.left, k.height) = x →
      T.run k i = T'.run k i := by
    intro x
    induction x using hwf.induction with
    | _ x ih =>
      rintro k i rfl
      rw [h k, h' k]
      exact body_eq_of_agree fun m j hlt => ih _ hlt m j rfl
  obtain ⟨run, honward⟩ := T
  obtain ⟨run', honward'⟩ := T'
  have heq : run = run' := by
    funext k i
    exact hrun _ k i rfl
  subst heq
  rfl

end RuleTable

/-! ### The tables of the grammar -/

/-- The rules of all nonterminals, from the recursive ones for later places. -/
def Rules.table (r : Rules ts) (h : r.Onward) : RuleTable ts where
  run
    | .global => Grammar.declarationRule r
    | .functionDef => Grammar.functionDef r
    | .procedureDef => Grammar.procedureDef r
    | .signature => Grammar.signature
    | .parameterDef => Grammar.parameterList
    | .varDecl => Grammar.varDecl
    | .varInit => Grammar.varInit r
    | .statement => Grammar.statementRule r
    | .assignment => Grammar.assignment r
    | .returnStmt => Grammar.returnStatement r
    | .block => Grammar.blockRule r
    | .ifStmt => Grammar.ifStatement r
    | .alternative => Grammar.alternativeRule r
    | .forStmt => Grammar.forStatement r
    | .forInit => Grammar.forInit r
    | .whileStmt => Grammar.whileStatement r
    | .switchStmt => Grammar.switchStatement r
    | .caseClause => Grammar.caseClause r
    | .call => Grammar.call r
    | .parameterPass => Grammar.argumentList r
    | .expression => Grammar.expressionRule r
    | .disjunction => Grammar.disjunction r
    | .conjunction => Grammar.conjunction r
    | .comparison => Grammar.comparison r
    | .additive => Grammar.additive r
    | .multiplicative => Grammar.multiplicative r
    | .unary => Grammar.unary r
    | .primary => Grammar.primary r
  onward k := by
    have hunary := Grammar.onward_unary h
    have hproduct := Grammar.onward_leftAssoc hunary Grammar.multiplicativeOperators
    have hsum := Grammar.onward_leftAssoc hproduct Grammar.additiveOperators
    have hcomparison := Grammar.onward_leftAssoc hsum Grammar.comparisonOperators
    have hconjunction := Grammar.onward_leftAssoc hcomparison [.andKw]
    cases k with
    | global =>
      exact .named (.orElse (Grammar.onward_functionDef h) (.orElse (Grammar.onward_procedureDef h)
        (.orElse (Grammar.onward_varInit h) Grammar.onward_varDecl))) _
    | functionDef => exact Grammar.onward_functionDef h
    | procedureDef => exact Grammar.onward_procedureDef h
    | signature => exact Grammar.onward_signature
    | parameterDef => exact Grammar.onward_parameterList
    | varDecl => exact Grammar.onward_varDecl
    | varInit => exact Grammar.onward_varInit h
    | statement => exact Grammar.onward_statementRule h
    | assignment => exact Grammar.onward_assignment h
    | returnStmt => exact Grammar.onward_returnStatement h
    | block => exact Grammar.onward_blockRule h
    | ifStmt => exact Grammar.onward_ifStatement h
    | alternative => exact Grammar.onward_alternativeRule h
    | forStmt => exact Grammar.onward_forStatement h
    | forInit => exact Grammar.onward_forInit h
    | whileStmt => exact Grammar.onward_whileStatement h
    | switchStmt => exact Grammar.onward_switchStatement h
    | caseClause => exact Grammar.onward_caseClause h
    | call => exact Grammar.onward_call h
    | parameterPass => exact Grammar.onward_argumentList h
    | expression => exact Grammar.onward_expressionRule h
    | disjunction => exact Grammar.onward_leftAssoc hconjunction [.orKw]
    | conjunction => exact hconjunction
    | comparison => exact hcomparison
    | additive => exact hsum
    | multiplicative => exact hproduct
    | unary => exact Grammar.onward_unary h
    | primary => exact Grammar.onward_primary h

namespace Rules

variable {r r' : Rules ts}

/-- The rules of the grammar are the equations, with the recursive rules for later places left
    open. -/
theorem run_table (h : r.Onward) (k : Nonterminal) :
    (r.table h).run k = (r.table h).rule r k := by
  cases k <;> rfl

/-- At one place more, nonterminals agree one height after the other. -/
theorem Agree.table_step (hr : r.Onward) (hr' : r'.Onward) (h : r.Agree n r')
    (hall : ∀ k, Parser.Agree n ((r.table hr).run k) ((r'.table hr').run k)) (k : Nonterminal) :
    Parser.Agree (n + 1) ((r.table hr).run k) ((r'.table hr').run k) := by
  induction hk : k.height using Nat.strongRecOn generalizing k with
  | ind height ih =>
    rw [run_table hr k, run_table hr' k]
    exact RuleTable.agree_rule k h hr hall fun m hm => ih m.height (hk ▸ hm) m rfl

theorem Agree.table (hr : r.Onward) (hr' : r'.Onward) (h : r.Agree n r') (k : Nonterminal) :
    Parser.Agree (n + 1) ((r.table hr).run k) ((r'.table hr').run k) := by
  induction n generalizing k with
  | zero => exact h.table_step hr hr' (fun _ => .zero) k
  | succ n ih => exact h.table_step hr hr' (ih (h.mono (Nat.le_succ n))) k

/-- Each round extends agreement by one token. -/
theorem Agree.next (hr : r.Onward) (hr' : r'.Onward) (h : r.Agree n r') :
    r.next.Agree (n + 1) r'.next where
  expression := h.table hr hr' .expression
  unary := h.table hr hr' .unary
  statement := h.table hr hr' .statement
  block := h.table hr hr' .block
  alternative := h.table hr hr' .alternative

theorem agree_zero : r.Agree 0 r' := ⟨.zero, .zero, .zero, .zero, .zero⟩

theorem Agree.eq (h : r.Agree (ts.size + 1) r') : r = r' := by
  obtain ⟨expression, unary, statement, block, alternative⟩ := r
  obtain ⟨expression', unary', statement', block', alternative'⟩ := r'
  obtain rfl : expression = expression' := h.expression.eq
  obtain rfl : unary = unary' := h.unary.eq
  obtain rfl : statement = statement' := h.statement.eq
  obtain rfl : block = block' := h.block.eq
  obtain rfl : alternative = alternative' := h.alternative.eq
  rfl

/-- After a number of rounds, further rounds change nothing where fewer tokens are left. -/
theorem agree_upTo {m : Nat} (h : n ≤ m) : (upTo ts n).Agree n (upTo ts m) := by
  induction n generalizing m with
  | zero => exact agree_zero
  | succ n ih =>
    obtain ⟨m, rfl⟩ := Nat.exists_eq_add_of_le' h
    have hrounds := ih (m := m + n) (Nat.le_add_left n m)
    exact hrounds.next (sound_upTo n).onward (sound_upTo (m + n)).onward

/-- As many rounds as there are places are enough. -/
theorem upTo_eq_grammar (h : ts.size + 1 ≤ n) : upTo ts n = grammar ts :=
  (agree_upTo h).eq.symm

end Rules

/-- The rules of the grammar are the rules for a place and for later places at once. -/
theorem next_grammar (ts : Array Token) : (grammar ts).next = grammar ts :=
  Rules.upTo_eq_grammar (n := ts.size + 2) (Nat.le_succ _)

namespace Grammar

/-- The rules that parse a stream, one for each nonterminal. -/
def table (ts : Array Token) : RuleTable ts := (grammar ts).table (sound_grammar ts).onward

theorem recursive_table (ts : Array Token) : (table ts).recursive = grammar ts := next_grammar ts

theorem solves_table (ts : Array Token) : (table ts).Solves := by
  intro k
  rw [RuleTable.body, recursive_table]
  exact Rules.run_table _ k

end Grammar

end TarnLang
