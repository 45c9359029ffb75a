/-
  TarnLang/Proofs/Layout/Grammar.lean
  ===================================
  **The grammar does not look at positions.**  Rules carry trees over to relocated trees when
  the rules for later places do; so after any number of rounds all five recursive rules do,
  and `parse` of relocated tokens is the relocated result of `parse`.
-/
import TarnLang.Grammar.Program
import TarnLang.Proofs.Grammar.Progress
import TarnLang.Proofs.Layout.Parser

namespace TarnLang

open TarnLang.Parser

variable {ts : Array Token} {g : Position → Position}

/-- Rules on a stream and on the relocated stream that give the same trees, relocated. -/
structure Rules.Carried (g : Position → Position) (later : Rules ts)
    (later' : Rules (ts.map (Token.relocate g))) : Prop where
  onward : later.Onward
  expression : Carries g (Node.relocate g) later.expression later'.expression
  unary : Carries g (Node.relocate g) later.unary later'.unary
  statement : Carries g (Node.relocate g) later.statement later'.statement
  block : Carries g (Block.relocate g) later.block later'.block
  alternative : Carries g (Node.relocate g) later.alternative later'.alternative

theorem relocateAll_eq (g : Position → Position) :
    Node.relocateAll g = List.map (Node.relocate g) :=
  funext (Node.relocateAll_eq_map g)

theorem relocateCases_eq (g : Position → Position) :
    Node.relocateCases g = List.map (Case.relocate g) :=
  funext (Node.relocateCases_eq_map g)

namespace Grammar

variable (horigin : g .origin = .origin) {later : Rules ts}
  {later' : Rules (ts.map (Token.relocate g))} (h : later.Carried g later')
include horigin h

/-! ### Expressions -/

theorem carries_argumentList :
    Carries g (ArgumentList.relocate g) (argumentList later) (argumentList later') := by
  have hitems := h.expression.separated (carries_token horigin .comma)
    (advances_of_le_of_lt h.onward.expression.le fun h => (token_ok.mp h).lt)
  rw [← relocateAll_eq] at hitems
  apply Matches.withSpan horigin
  apply Carries.bind ((carries_token horigin .lParen).surrounded (carries_token horigin .rParen)
    (hitems.optional fun _ => rfl))
  rintro ⟨_, arguments, _⟩
  exact Matches.pure fun _ => rfl

theorem carries_call : Carries g (Call.relocate g) (call later) (call later') := by
  apply Matches.withSpan horigin
  apply (carries_token horigin .ident).bind
  intro name
  apply (carries_argumentList horigin h).bind
  intro arguments
  exact Matches.pure fun _ => rfl

omit h in
theorem carries_literal :
    Carries g (Node.relocate g) (literal : Parser ts Node) literal :=
  (carries_oneOf horigin _).map fun _ => rfl

theorem carries_grouped : Carries g (Node.relocate g) (grouped later) (grouped later') := by
  apply Carries.bind ((carries_token horigin .lParen).surrounded (carries_token horigin .rParen)
    h.expression)
  rintro ⟨_, inner, _⟩
  exact Matches.pure rfl

theorem carries_primary : Carries g (Node.relocate g) (primary later) (primary later') := by
  apply Matches.named
  apply Matches.orElse
  · exact (carries_call horigin h).map fun _ => rfl
  · exact (carries_literal horigin).orElse (carries_grouped horigin h)

theorem carries_prefixed : Carries g (Node.relocate g) (prefixed later) (prefixed later') := by
  apply Matches.withSpan horigin
  apply (carries_oneOf horigin _).bind
  intro operator
  apply h.unary.bind
  intro operand
  exact Matches.pure fun _ => rfl

theorem carries_unary : Carries g (Node.relocate g) (unary later) (unary later') :=
  (carries_prefixed horigin h).orElse (carries_primary horigin h)

omit horigin h in
theorem groupLeft_relocate (first : Node × Span) (rest : List (Token × Node × Span)) :
    groupLeft (Prod.map (Node.relocate g) (Span.relocate g) first)
      (rest.map (Prod.map (Token.relocate g) (Prod.map (Node.relocate g) (Span.relocate g)))) =
        (groupLeft first rest).relocate g := by
  induction rest generalizing first with
  | nil => rfl
  | cons part rest ih =>
    obtain ⟨operator, right, rightSpan⟩ := part
    obtain ⟨node, span⟩ := first
    exact ih (.binary node operator right (span.through rightSpan), span.through rightSpan)

omit h in
theorem carries_leftAssoc {operand : Parser ts Node}
    {operand' : Parser (ts.map (Token.relocate g)) Node} (operators : List TokenKind)
    (hoperand : Carries g (Node.relocate g) operand operand') :
    Carries g (Node.relocate g) (leftAssoc operand operators) (leftAssoc operand' operators) := by
  have hspanned := hoperand.spanned horigin
  apply hspanned.bind
  intro first
  apply Carries.bind
    (m := List.map (Prod.map (Token.relocate g) (Prod.map (Node.relocate g) (Span.relocate g))))
  · apply Carries.many
    apply (carries_oneOf horigin operators).bind
    intro operator
    apply hspanned.bind
    intro right
    exact Matches.pure rfl
  · intro rest
    exact Matches.pure (groupLeft_relocate first rest)

/-- All levels of binary operators. -/
theorem carries_disjunction :
    Carries g (Node.relocate g) (disjunction later) (disjunction later') := by
  apply carries_leftAssoc horigin
  apply carries_leftAssoc horigin
  apply carries_leftAssoc horigin
  apply carries_leftAssoc horigin
  apply carries_leftAssoc horigin
  exact carries_unary horigin h

theorem carries_expressionRule :
    Carries g (Node.relocate g) (expressionRule later) (expressionRule later') :=
  (carries_disjunction horigin h).named "an expression"

/-! ### Definitions -/

omit h in
theorem carries_parameterList :
    Carries g (ParameterList.relocate g) (parameterList : Parser ts ParameterList)
      parameterList := by
  have hname : Carries g (Token.relocate g) (token .ident : Parser ts Token) (token .ident) :=
    carries_token horigin .ident
  have hnames := hname.separated (carries_token horigin .comma)
    (advances_of_le_of_lt (Onward.token .ident).le fun h => (token_ok.mp h).lt)
  apply Matches.withSpan horigin
  apply Carries.bind ((carries_token horigin .lParen).surrounded (carries_token horigin .rParen)
    (hnames.optional fun _ => rfl))
  rintro ⟨_, names, _⟩
  exact Matches.pure fun _ => rfl

omit h in
theorem carries_signature :
    Carries g (Signature.relocate g) (signature : Parser ts Signature) signature := by
  apply Matches.withSpan horigin
  apply (carries_token horigin .ident).bind
  intro name
  apply (carries_parameterList horigin).bind
  intro parameters
  exact Matches.pure fun _ => rfl

theorem carries_functionDef :
    Carries g (Node.relocate g) (functionDef later) (functionDef later') := by
  apply Matches.withSpan horigin
  apply (carries_token horigin .fnKw).bind
  intro _
  apply (carries_signature horigin).bind
  intro signature
  apply h.block.bind
  intro body
  exact Matches.pure fun _ => rfl

theorem carries_procedureDef :
    Carries g (Node.relocate g) (procedureDef later) (procedureDef later') := by
  apply Matches.withSpan horigin
  apply (carries_token horigin .procKw).bind
  intro _
  apply (carries_signature horigin).bind
  intro signature
  apply h.block.bind
  intro body
  exact Matches.pure fun _ => rfl

omit h in
theorem carries_varDecl : Carries g (Node.relocate g) (varDecl : Parser ts Node) varDecl := by
  apply Matches.withSpan horigin
  apply (carries_token horigin .letKw).bind
  intro _
  apply (carries_token horigin .ident).bind
  intro name
  apply (carries_token horigin .semi).bind
  intro _
  exact Matches.pure fun _ => rfl

theorem carries_varInit : Carries g (Node.relocate g) (varInit later) (varInit later') := by
  apply Matches.withSpan horigin
  apply (carries_token horigin .letKw).bind
  intro _
  apply (carries_token horigin .ident).bind
  intro name
  apply (carries_token horigin .eq).bind
  intro _
  apply h.expression.bind
  intro value
  apply (carries_token horigin .semi).bind
  intro _
  exact Matches.pure fun _ => rfl

/-! ### Simple statements -/

theorem carries_assignment :
    Carries g (Node.relocate g) (assignment later) (assignment later') := by
  apply Matches.withSpan horigin
  apply (carries_token horigin .ident).bind
  intro name
  apply (carries_token horigin .eq).bind
  intro _
  apply h.expression.bind
  intro value
  exact Matches.pure fun _ => rfl

theorem carries_assignmentStatement :
    Carries g (Node.relocate g) (assignmentStatement later) (assignmentStatement later') := by
  apply (carries_assignment horigin h).bind
  intro node
  apply (carries_token horigin .semi).bind
  intro _
  exact Matches.pure rfl

theorem carries_callStatement :
    Carries g (Node.relocate g) (callStatement later) (callStatement later') := by
  apply (carries_call horigin h).bind
  intro c
  apply (carries_token horigin .semi).bind
  intro _
  exact Matches.pure rfl

theorem carries_returnStatement :
    Carries g (Node.relocate g) (returnStatement later) (returnStatement later') := by
  apply Matches.withSpan horigin
  apply (carries_token horigin .returnKw).bind
  intro _
  apply Carries.bind (h.expression.optional fun _ => rfl)
  intro value
  apply (carries_token horigin .semi).bind
  intro _
  exact Matches.pure fun _ => rfl

/-! ### Control statements -/

theorem carries_condition :
    Carries g (Node.relocate g) (condition later) (condition later') := by
  apply Carries.bind ((carries_token horigin .lParen).surrounded (carries_token horigin .rParen)
    h.expression)
  rintro ⟨_, inner, _⟩
  exact Matches.pure rfl

theorem carries_ifStatement :
    Carries g (Node.relocate g) (ifStatement later) (ifStatement later') := by
  apply Matches.withSpan horigin
  apply (carries_token horigin .ifKw).bind
  intro _
  apply (carries_condition horigin h).bind
  intro condition
  apply h.block.bind
  intro body
  apply Carries.bind (h.alternative.optional fun _ => rfl)
  intro alternative
  exact Matches.pure fun _ => rfl

theorem carries_elseIf : Carries g (Node.relocate g) (elseIf later) (elseIf later') := by
  apply Matches.withSpan horigin
  apply (carries_token horigin .elseKw).bind
  intro _
  apply (carries_token horigin .ifKw).bind
  intro _
  apply (carries_condition horigin h).bind
  intro condition
  apply h.block.bind
  intro body
  apply Carries.bind (h.alternative.optional fun _ => rfl)
  intro alternative
  exact Matches.pure fun _ => rfl

theorem carries_elseClause :
    Carries g (Node.relocate g) (elseClause later) (elseClause later') := by
  apply Matches.withSpan horigin
  apply (carries_token horigin .elseKw).bind
  intro _
  apply h.block.bind
  intro body
  exact Matches.pure fun _ => rfl

theorem carries_alternativeRule :
    Carries g (Node.relocate g) (alternativeRule later) (alternativeRule later') :=
  (carries_elseIf horigin h).orElse (carries_elseClause horigin h)

theorem carries_forDeclaration :
    Carries g (Node.relocate g) (forDeclaration later) (forDeclaration later') := by
  apply Matches.withSpan horigin
  apply (carries_token horigin .letKw).bind
  intro _
  apply (carries_token horigin .ident).bind
  intro name
  apply (carries_token horigin .eq).bind
  intro _
  apply h.expression.bind
  intro value
  exact Matches.pure fun _ => rfl

theorem carries_forStatement :
    Carries g (Node.relocate g) (forStatement later) (forStatement later') := by
  have hinit := (carries_forDeclaration horigin h).orElse (carries_assignment horigin h)
  apply Matches.withSpan horigin
  apply (carries_token horigin .forKw).bind
  intro _
  apply (carries_token horigin .lParen).bind
  intro _
  apply Carries.bind (hinit.optional fun _ => rfl)
  intro init
  apply (carries_token horigin .semi).bind
  intro _
  apply Carries.bind (h.expression.optional fun _ => rfl)
  intro test
  apply (carries_token horigin .semi).bind
  intro _
  apply Carries.bind ((carries_assignment horigin h).optional fun _ => rfl)
  intro update
  apply (carries_token horigin .rParen).bind
  intro _
  apply h.block.bind
  intro body
  exact Matches.pure fun _ => rfl

theorem carries_whileStatement :
    Carries g (Node.relocate g) (whileStatement later) (whileStatement later') := by
  apply Matches.withSpan horigin
  apply (carries_token horigin .whileKw).bind
  intro _
  apply (carries_condition horigin h).bind
  intro condition
  apply h.block.bind
  intro body
  exact Matches.pure fun _ => rfl

theorem carries_caseClause :
    Carries g (Case.relocate g) (caseClause later) (caseClause later') := by
  apply Matches.withSpan horigin
  apply (carries_token horigin .caseKw).bind
  intro _
  apply h.expression.bind
  intro value
  apply h.block.bind
  intro body
  exact Matches.pure fun _ => rfl

theorem carries_switchStatement :
    Carries g (Node.relocate g) (switchStatement later) (switchStatement later') := by
  have hcases := (carries_caseClause horigin h).manyUntil (carries_token horigin .rBrace)
  rw [← relocateCases_eq] at hcases
  apply Matches.withSpan horigin
  apply (carries_token horigin .switchKw).bind
  intro _
  apply (carries_condition horigin h).bind
  intro subject
  apply (carries_token horigin .lBrace).bind
  intro _
  apply hcases.bind
  rintro ⟨cases, _⟩
  exact Matches.pure fun _ => rfl

/-! ### Blocks, statements and declarations -/

theorem carries_blockRule : Carries g (Block.relocate g) (blockRule later) (blockRule later') := by
  have hstatements := h.statement.manyUntil (carries_token horigin .rBrace)
  rw [← relocateAll_eq] at hstatements
  apply Matches.withSpan horigin
  apply (carries_token horigin .lBrace).bind
  intro _
  apply hstatements.bind
  rintro ⟨statements, _⟩
  exact Matches.pure fun _ => rfl

theorem carries_statementRule :
    Carries g (Node.relocate g) (statementRule later) (statementRule later') := by
  apply Matches.named
  apply (carries_functionDef horigin h).orElse
  apply (carries_procedureDef horigin h).orElse
  apply (carries_varInit horigin h).orElse
  apply (carries_varDecl horigin).orElse
  apply (carries_assignmentStatement horigin h).orElse
  apply (carries_callStatement horigin h).orElse
  apply (carries_returnStatement horigin h).orElse
  apply (carries_ifStatement horigin h).orElse
  apply (carries_forStatement horigin h).orElse
  apply (carries_whileStatement horigin h).orElse
  apply (carries_switchStatement horigin h).orElse
  exact (carries_blockRule horigin h).map fun _ => rfl

theorem carries_declarationRule :
    Carries g (Node.relocate g) (declarationRule later) (declarationRule later') := by
  apply Matches.named
  apply (carries_functionDef horigin h).orElse
  apply (carries_procedureDef horigin h).orElse
  exact (carries_varInit horigin h).orElse (carries_varDecl horigin)

end Grammar

/-! ### Whole programs -/

section

variable (horigin : g .origin = .origin)
include horigin

theorem Rules.carried_stuck : (stuck : Rules ts).Carried g stuck where
  onward := onward_stuck
  expression := carries_fail horigin _
  unary := carries_fail horigin _
  statement := carries_fail horigin _
  block := carries_fail horigin _
  alternative := carries_fail horigin _

theorem Rules.Carried.next {later : Rules ts} {later' : Rules (ts.map (Token.relocate g))}
    (h : later.Carried g later') : later.next.Carried g later'.next where
  onward := h.onward.next
  expression := Grammar.carries_expressionRule horigin h
  unary := Grammar.carries_unary horigin h
  statement := Grammar.carries_statementRule horigin h
  block := Grammar.carries_blockRule horigin h
  alternative := Grammar.carries_alternativeRule horigin h

theorem Rules.carried_upTo (n : Nat) :
    (Rules.upTo ts n).Carried g (Rules.upTo (ts.map (Token.relocate g)) n) := by
  induction n with
  | zero => exact carried_stuck horigin
  | succ n ih => exact ih.next horigin

theorem carried_grammar : (grammar ts).Carried g (grammar (ts.map (Token.relocate g))) := by
  rw [grammar, grammar, Array.size_map]
  exact Rules.carried_upTo horigin _

theorem Grammar.carries_program :
    Carries g (Program.relocate g) (program ts) (program (ts.map (Token.relocate g))) := by
  have hgrammar : (grammar ts).Carried g (grammar (ts.map (Token.relocate g))) :=
    carried_grammar horigin
  have hdeclarations := (carries_declarationRule horigin hgrammar).manyUntil
    (carries_token horigin .eof)
  rw [← relocateAll_eq] at hdeclarations
  apply Matches.withSpan horigin
  apply hdeclarations.bind
  rintro ⟨declarations, _⟩
  exact Matches.pure fun _ => rfl

/-- **Parsing relocated tokens gives the relocated result.** -/
theorem parse_relocate (ts : Array Token) :
    parse (ts.map (Token.relocate g)) =
      ((parse ts).map (Program.relocate g)).mapError (ParseFailure.relocate g) := by
  have hprogram := (Grammar.carries_program horigin).eq (Place.first ts)
  have hfirst : (Place.first ts).relocate g = Place.first (ts.map (Token.relocate g)) := rfl
  rw [parse, parse, ← hfirst, hprogram]
  cases Grammar.program ts (Place.first ts) with
  | ok r => rfl
  | error e => rfl

end

end TarnLang
