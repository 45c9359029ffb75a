/-
  TarnLang/Proofs/Grammar/Termination.lean
  ========================================
  **The grammar terminates.**  The equations of the grammar call downwards in the lexicographic
  order of tokens left and height, and the rules that parse are their only solution.  Whatever
  succeeds has read a token, so no item of a loop succeeds without going on; and further
  rounds of `Rules.next` than there are places change nothing.
-/
import TarnLang.Proofs.Grammar.Recursion

namespace TarnLang

open TarnLang.Parser

variable {ts : Array Token}

namespace Grammar

/-! ### Every success reads something -/

theorem lt_of_run_table {k : Nonterminal} {i j : Place ts} {x : k.Value}
    (h : (table ts).run k i = .ok (x, j)) : i < j := by
  have hs := sound_grammar ts
  have hproduct {i j : Place ts} {n : Node} (h : multiplicative (grammar ts) i = .ok (n, j)) :
      Written (.binary .multiplicative n) i j :=
    written_leftAssoc .multiplicative (written_unary hs) (by decide) h
  have hsum {i j : Place ts} {n : Node} (h : additive (grammar ts) i = .ok (n, j)) :
      Written (.binary .additive n) i j :=
    written_leftAssoc .additive hproduct (by decide) h
  have hcomparison {i j : Place ts} {n : Node} (h : comparison (grammar ts) i = .ok (n, j)) :
      Written (.binary .comparison n) i j :=
    written_leftAssoc .comparison hsum (by decide) h
  have hconjunction {i j : Place ts} {n : Node} (h : conjunction (grammar ts) i = .ok (n, j)) :
      Written (.binary .conjunction n) i j :=
    written_leftAssoc .conjunction hcomparison (by decide) h
  cases k with
  | global => exact (written_declarationRule hs h).lt rfl
  | functionDef => exact (written_functionDef hs h).lt rfl
  | procedureDef => exact (written_procedureDef hs h).lt rfl
  | signature => exact (written_signature h).lt rfl
  | parameterDef => exact (written_parameterList h).lt rfl
  | varDecl => exact (written_varDecl h).lt rfl
  | varInit => exact (written_varInit hs h).lt rfl
  | statement => exact (written_statementRule hs h).lt rfl
  | assignment => exact (written_assignment hs h).lt rfl
  | returnStmt => exact (written_returnStatement hs h).lt rfl
  | block => exact (written_blockRule hs h).lt rfl
  | ifStmt => exact (written_ifStatement hs h).lt rfl
  | alternative => exact (written_alternativeRule hs h).lt rfl
  | forStmt => exact (written_forStatement hs h).lt rfl
  | forInit => exact (written_forInit hs h).lt rfl
  | whileStmt => exact (written_whileStatement hs h).lt rfl
  | switchStmt => exact (written_switchStatement hs h).lt rfl
  | caseClause => exact (written_caseClause hs h).lt rfl
  | call => exact (written_call hs h).lt rfl
  | parameterPass => exact (written_argumentList hs h).lt rfl
  | expression => exact (written_expressionRule hs h).lt rfl
  | disjunction => exact (written_leftAssoc .disjunction hconjunction (by decide) h).lt rfl
  | conjunction => exact (hconjunction h).lt rfl
  | comparison => exact (hcomparison h).lt rfl
  | additive => exact (hsum h).lt rfl
  | multiplicative => exact (hproduct h).lt rfl
  | unary => exact (written_unary hs h).lt rfl
  | primary => exact (written_primary hs h).lt rfl

end Grammar

/-! ### Levels and loops -/

namespace Level

/-- Operators of a level, in the order in which they are tried. -/
def tried : Level → List TokenKind
  | disjunction => [.orKw]
  | conjunction => [.andKw]
  | comparison => Grammar.comparisonOperators
  | additive => Grammar.additiveOperators
  | multiplicative => Grammar.multiplicativeOperators

/-- What reads the operands of a level. -/
def parseOperand (ts : Array Token) : Level → Parser ts Node
  | disjunction => Grammar.conjunction (grammar ts)
  | conjunction => Grammar.comparison (grammar ts)
  | comparison => Grammar.additive (grammar ts)
  | additive => Grammar.multiplicative (grammar ts)
  | multiplicative => Grammar.unary (grammar ts)

theorem lt_of_parseOperand {level : Level} {i j : Place ts} {n : Node}
    (h : level.parseOperand ts i = .ok (n, j)) : i < j := by
  cases level with
  | disjunction => exact Grammar.lt_of_run_table (k := .conjunction) h
  | conjunction => exact Grammar.lt_of_run_table (k := .comparison) h
  | comparison => exact Grammar.lt_of_run_table (k := .additive) h
  | additive => exact Grammar.lt_of_run_table (k := .multiplicative) h
  | multiplicative => exact Grammar.lt_of_run_table (k := .unary) h

end Level

/-- The loops of the grammar: operators with operands at each level, lists with commas, and
    what stands in a row up to a closing brace or the end of file. -/
inductive Loop
  | operands (level : Level)
  | arguments | parameters
  | statements | cases | declarations
deriving DecidableEq, Repr

namespace Loop

/-- What one round of a loop reads. -/
abbrev Value : Loop → Type
  | operands _ => Token × Node × Span
  | parameters => Token
  | cases => Case Node
  | _ => Node

/-- The item that a loop repeats. -/
def item (ts : Array Token) : (l : Loop) → Parser ts l.Value
  | operands level => Grammar.operation (level.parseOperand ts) level.tried
  | arguments => Grammar.expression ts
  | parameters => token .ident
  | statements => Grammar.statement ts
  | cases => Grammar.caseClause (grammar ts)
  | declarations => Grammar.declarationRule (grammar ts)

/-- The guard of a loop never stops it: an item that succeeds goes on. -/
theorem lt_of_item {l : Loop} {i j : Place ts} {x : l.Value} (h : l.item ts i = .ok (x, j)) :
    i < j := by
  have hs := sound_grammar ts
  cases l with
  | operands level =>
    obtain ⟨k, hop, -, hright, -⟩ := Grammar.operation_ok.mp h
    exact Fin.lt_trans hop.lt (Level.lt_of_parseOperand hright)
  | arguments => exact (hs.expression h).lt rfl
  | parameters => exact (token_ok.mp h).lt
  | statements => exact (hs.statement h).lt rfl
  | cases => exact Grammar.lt_of_run_table (k := .caseClause) h
  | declarations => exact Grammar.lt_of_run_table (k := .global) h

end Loop

/-! ### Rounds -/

/-- A whole program, with given rules. -/
def Rules.program (r : Rules ts) : Parser ts Program := withSpan do
  let (declarations, _) ← manyUntil (Grammar.declarationRule r) (token .eof)
  pure fun span => { declarations, span }

/-- **The grammar terminates**, from every place of every list of tokens. -/
theorem grammar_terminates (ts : Array Token) :
    -- what a rule gives at a place is settled by calls that are smaller
    (∀ (T T' : RuleTable ts) (k : Nonterminal) (i : Place ts),
      (∀ m j, Prod.Lex (· < ·) (· < ·) (j.left, m.height) (i.left, k.height) →
        T.run m j = T'.run m j) → T.body k i = T'.body k i) ∧
    -- the rules that parse are what this recursion defines
    (∀ T : RuleTable ts, T.Solves ↔ T = Grammar.table ts) ∧
    (Grammar.table ts).run .expression = Grammar.expression ts ∧
    (Grammar.table ts).run .statement = Grammar.statement ts ∧
    (Grammar.table ts).run .block = Grammar.block ts ∧
    -- whatever succeeds reads something, so no loop sees an item that does not
    (∀ k i j x, (Grammar.table ts).run k i = .ok (x, j) → i < j) ∧
    (∀ (l : Loop) i j x, l.item ts i = .ok (x, j) → i < j) ∧
    -- more rounds than there are places change nothing
    ∀ n, ts.size + 1 ≤ n →
      Rules.upTo ts n = grammar ts ∧ (Rules.upTo ts n).program = Grammar.program ts := by
  have hnext := next_grammar ts
  refine ⟨fun T T' k i h => RuleTable.body_eq_of_agree h, fun T => ⟨fun h => ?_, ?_⟩,
    congrArg Rules.expression hnext, congrArg Rules.statement hnext, congrArg Rules.block hnext,
    fun k i j x h => Grammar.lt_of_run_table h, fun l i j x h => l.lt_of_item h, fun n hn => ?_⟩
  · exact h.unique (Grammar.solves_table ts)
  · rintro rfl
    exact Grammar.solves_table ts
  · have hrounds := Rules.upTo_eq_grammar hn
    refine ⟨hrounds, ?_⟩
    rw [hrounds]
    rfl

end TarnLang
