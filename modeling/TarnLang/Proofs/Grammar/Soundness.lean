/-
  TarnLang/Proofs/Grammar/Soundness.lean
  ======================================
  **A rule that succeeds has read its phrase.**  For each rule of the grammar: when it goes
  from one place to another with some value, the tokens between them spell that value.  The
  recursive rules are sound together, because each round of `Rules.next` makes sound rules
  from sound rules and the rules before the first round never succeed.
-/
import TarnLang.Proofs.Grammar.Derivation
import TarnLang.Proofs.Grammar.Progress

namespace TarnLang

open TarnLang.Parser

variable {ts : Array Token}

/-- Recursive rules that read nothing but their phrases. -/
structure Rules.Sound (r : Rules ts) : Prop where
  onward : r.Onward
  expression : ∀ {i j n}, r.expression i = .ok (n, j) → Written (.expression n) i j
  unary : ∀ {i j n}, r.unary i = .ok (n, j) → Written (.unary n) i j
  statement : ∀ {i j n}, r.statement i = .ok (n, j) → Written (.statement n) i j
  block : ∀ {i j b}, r.block i = .ok (b, j) → Written (.block b) i j
  alternative : ∀ {i j n}, r.alternative i = .ok (n, j) → Written (.alternative n) i j

namespace Grammar

variable {later : Rules ts} {i j l : Place ts}

/-! ### Expressions -/

theorem written_arguments (h : later.Sound) {ns : List Node}
    (hp : SeparatedItems (token .comma) later.expression i ns j) : Written (.arguments ns) i j := by
  induction hp with
  | last hturn =>
    obtain ⟨hn, -⟩ := separatedTurn_last.mp hturn
    exact .lastArgument (h.expression hn)
  | more hturn _ _ ih =>
    obtain ⟨k, t, hn, ht⟩ := separatedTurn_more.mp hturn
    exact .moreArguments (h.expression hn) (token_ok.mp ht) ih

/-- A list of arguments stands between parentheses, and may be missing there. -/
theorem argumentList_ok {a : ArgumentList Node} :
    argumentList later i = .ok (a, l) ↔
      ∃ t j k t', i.Takes .lParen t j ∧
        optional (separated (token .comma) later.expression) j = .ok (a.arguments, k) ∧
        k.Takes .rParen t' l ∧ a.span = i.spanTo l := by
  simp only [argumentList, withSpan_ok, bind_ok, surrounded_ok, pure_ok, token_ok]
  constructor
  · rintro ⟨_, ⟨⟨t, ns, t'⟩, _, ⟨j, k, ht, hns, ht'⟩, rfl, rfl⟩, rfl⟩
    exact ⟨t, j, k, t', ht, hns, ht', rfl⟩
  · rintro ⟨t, j, k, t', ht, hns, ht', hspan⟩
    exact ⟨_, ⟨(t, a.arguments, t'), l, ⟨j, k, ht, hns, ht'⟩, rfl, rfl⟩, by rw [← hspan]⟩

theorem written_argumentList (h : later.Sound) {a : ArgumentList Node}
    (hp : argumentList later i = .ok (a, j)) : Written (.argumentList a) i j := by
  obtain ⟨ns, span⟩ := a
  obtain ⟨t, k, m, t', ht, hns, ht', rfl⟩ := argumentList_ok.mp hp
  rcases optional_ok.mp hns with hns | ⟨e, -, -, rfl, rfl⟩
  · have hadvances : Advances (token .comma) later.expression :=
      advances_of_le_of_lt h.onward.expression.le fun h => (token_ok.mp h).lt
    exact .argumentList ht (written_arguments h ((separated_ok hadvances).mp hns)) ht'
  · exact .noArguments ht ht'

theorem written_call (h : later.Sound) {c : Call Node} (hp : call later i = .ok (c, j)) :
    Written (.call c) i j := by
  simp only [call, withSpan_ok, bind_ok, pure_ok, token_ok] at hp
  obtain ⟨_, ⟨name, k, hname, a, _, ha, rfl, rfl⟩, rfl⟩ := hp
  exact .call hname (written_argumentList h ha)

theorem written_primary (h : later.Sound) {n : Node} (hp : primary later i = .ok (n, j)) :
    Written (.primary n) i j := by
  simp only [primary, named_ok, orElse_ok] at hp
  rcases hp with hcall | ⟨-, hliteral | ⟨-, hgrouped⟩⟩
  · obtain ⟨c, hc, rfl⟩ := map_ok.mp hcall
    exact .callValue (written_call h hc)
  · obtain ⟨t, ht, rfl⟩ := map_ok.mp hliteral
    obtain ⟨htakes, hmem⟩ := oneOf_ok.mp ht
    exact .literal htakes hmem
  · simp only [grouped, bind_ok, surrounded_ok, pure_ok, token_ok] at hgrouped
    obtain ⟨⟨t, x, t'⟩, _, ⟨k, m, ht, hn, ht'⟩, rfl, rfl⟩ := hgrouped
    exact .grouped ht (h.expression hn) ht'

theorem written_unary (h : later.Sound) {n : Node} (hp : unary later i = .ok (n, j)) :
    Written (.unary n) i j := by
  rcases orElse_ok.mp hp with hprefixed | ⟨-, hprimary⟩
  · simp only [prefixed, withSpan_ok, bind_ok, oneOf_ok, pure_ok] at hprefixed
    obtain ⟨_, ⟨op, k, ⟨hop, hmem⟩, operand, _, hoperand, rfl, rfl⟩, rfl⟩ := hprefixed
    exact .prefixed hop hmem (h.unary hoperand)
  · exact .primaryUnary (written_primary h hprimary)

/-- An operator and the operand behind it, with its span. -/
def operation (operand : Parser ts Node) (ks : List TokenKind) :
    Parser ts (Token × Node × Span) := do
  let operator ← oneOf ks
  let right ← spanned operand
  pure (operator, right)

theorem operation_ok {operand : Parser ts Node} {ks : List TokenKind} {x : Token × Node × Span} :
    operation operand ks i = .ok (x, l) ↔
      ∃ j, i.Takes x.1.kind x.1 j ∧ x.1.kind ∈ ks ∧ operand j = .ok (x.2.1, l) ∧
        x.2.2 = j.spanTo l := by
  simp only [operation, bind_ok, oneOf_ok, spanned_ok, pure_ok]
  constructor
  · rintro ⟨operator, j, ⟨hop, hmem⟩, right, _, ⟨hright, hspan⟩, rfl, rfl⟩
    exact ⟨j, hop, hmem, hright, hspan⟩
  · rintro ⟨j, hop, hmem, hright, hspan⟩
    exact ⟨x.1, j, ⟨hop, hmem⟩, x.2, l, ⟨hright, hspan⟩, rfl, rfl⟩

/-- Operands grouped to the left: a first one, and operations as long as there are any. -/
theorem leftAssoc_ok {operand : Parser ts Node} {ks : List TokenKind} {n : Node} :
    leftAssoc operand ks i = .ok (n, l) ↔
      ∃ first j rest, operand i = .ok (first, j) ∧ Runs (operation operand ks) j rest l ∧
        groupLeft (first, i.spanTo j) rest = n := by
  simp only [leftAssoc, bind_ok, spanned_ok, many_ok, pure_ok]
  constructor
  · rintro ⟨⟨first, _⟩, j, ⟨hfirst, rfl⟩, rest, _, hruns, rfl, rfl⟩
    exact ⟨first, j, rest, hfirst, hruns, rfl⟩
  · rintro ⟨first, j, rest, hfirst, hruns, rfl⟩
    exact ⟨(first, i.spanTo j), j, ⟨hfirst, rfl⟩, rest, l, hruns, rfl, rfl⟩

/-- Grouping to the left keeps spelling an operation of the level, as long as the span that
    is carried along is the span of the tokens read. -/
theorem written_groupLeft {level : Level} {operand : Parser ts Node} {ks : List TokenKind}
    (hoperand : ∀ {i j n}, operand i = .ok (n, j) → Written (.operand level n) i j)
    (hks : ∀ k ∈ ks, k ∈ level.operators)
    {rest : List (Token × Node × Span)} {node : Node}
    (hitems : Items (operation operand ks) j rest l)
    (hij : i < j) (hnode : Written (.binary level node) i j) :
    Written (.binary level (groupLeft (node, i.spanTo j) rest)) i l := by
  induction hitems generalizing node with
  | nil => exact hnode
  | @cons j k l x xs hx hjk hxs ih =>
    obtain ⟨op, right, span⟩ := x
    obtain ⟨m, hop, hmem, hright, rfl⟩ := operation_ok.mp hx
    have hwritten := Written.operation hnode hop (hks _ hmem) (hoperand hright)
    have hmk := (hoperand hright).lt_operand
    have hik := Fin.lt_trans hij hjk
    have hspan := Place.spanTo_through hij hmk hik
    rw [groupLeft, hspan]
    exact ih hik hwritten

theorem written_leftAssoc (level : Level) {operand : Parser ts Node} {ks : List TokenKind}
    (hoperand : ∀ {i j n}, operand i = .ok (n, j) → Written (.operand level n) i j)
    (hks : ∀ k ∈ ks, k ∈ level.operators) {n : Node}
    (hp : leftAssoc operand ks i = .ok (n, j)) : Written (.binary level n) i j := by
  obtain ⟨first, k, rest, hfirst, ⟨hitems, -⟩, rfl⟩ := leftAssoc_ok.mp hp
  exact written_groupLeft hoperand hks hitems (hoperand hfirst).lt_operand
    (.operand (hoperand hfirst))

theorem written_expressionRule (h : later.Sound) {n : Node}
    (hp : expressionRule later i = .ok (n, j)) : Written (.expression n) i j := by
  refine written_leftAssoc .disjunction ?_ (by simp [Level.operators]) (named_ok.mp hp)
  refine written_leftAssoc .conjunction ?_ (by simp [Level.operators])
  refine written_leftAssoc .comparison ?_ (by decide)
  refine written_leftAssoc .additive ?_ (by decide)
  refine written_leftAssoc .multiplicative ?_ (by decide)
  exact written_unary h

/-! ### Definitions -/

theorem written_names {names : List Token}
    (hp : SeparatedItems (token .comma) (token .ident) i names j) : Written (.names names) i j := by
  induction hp with
  | last hturn =>
    obtain ⟨hname, -⟩ := separatedTurn_last.mp hturn
    exact .lastName (token_ok.mp hname)
  | more hturn _ _ ih =>
    obtain ⟨k, t, hname, ht⟩ := separatedTurn_more.mp hturn
    exact .moreNames (token_ok.mp hname) (token_ok.mp ht) ih

theorem written_parameterList {p : ParameterList} (hp : parameterList i = .ok (p, j)) :
    Written (.parameterList p) i j := by
  have hadvances : Advances (token .comma) (token .ident : Parser ts Token) :=
    advances_of_le_of_lt (Onward.token .ident).le fun h => (token_ok.mp h).lt
  simp only [parameterList, withSpan_ok, bind_ok, surrounded_ok, pure_ok, token_ok, optional_ok,
    separated_ok hadvances] at hp
  obtain ⟨_, ⟨⟨t, names, t'⟩, _, ⟨k, m, ht, hnames, ht'⟩, rfl, rfl⟩, rfl⟩ := hp
  rcases hnames with hnames | ⟨e, -, -, rfl, rfl⟩
  · exact .parameterList ht (written_names hnames) ht'
  · exact .noParameters ht ht'

theorem written_signature {s : Signature} (hp : signature i = .ok (s, j)) :
    Written (.signature s) i j := by
  simp only [signature, withSpan_ok, bind_ok, pure_ok, token_ok] at hp
  obtain ⟨_, ⟨name, k, hname, p, _, hparameters, rfl, rfl⟩, rfl⟩ := hp
  exact .signature hname (written_parameterList hparameters)

theorem written_functionDef (h : later.Sound) {n : Node} (hp : functionDef later i = .ok (n, j)) :
    Written (.declaration n) i j := by
  simp only [functionDef, withSpan_ok, bind_ok, pure_ok, token_ok] at hp
  obtain ⟨_, ⟨t, k, ht, s, m, hs, b, _, hb, rfl, rfl⟩, rfl⟩ := hp
  exact .functionDef ht (written_signature hs) (h.block hb)

theorem written_procedureDef (h : later.Sound) {n : Node}
    (hp : procedureDef later i = .ok (n, j)) : Written (.declaration n) i j := by
  simp only [procedureDef, withSpan_ok, bind_ok, pure_ok, token_ok] at hp
  obtain ⟨_, ⟨t, k, ht, s, m, hs, b, _, hb, rfl, rfl⟩, rfl⟩ := hp
  exact .procedureDef ht (written_signature hs) (h.block hb)

theorem written_varInit (h : later.Sound) {n : Node} (hp : varInit later i = .ok (n, j)) :
    Written (.declaration n) i j := by
  simp only [varInit, withSpan_ok, bind_ok, pure_ok, token_ok] at hp
  obtain ⟨_, ⟨t, k, ht, name, l, hname, t', m, ht', value, o, hvalue, t'', _, ht'', rfl, rfl⟩, rfl⟩ :=
    hp
  exact .varInit ht hname ht' (h.expression hvalue) ht''

theorem written_varDecl {n : Node} (hp : varDecl i = .ok (n, j)) :
    Written (.declaration n) i j := by
  simp only [varDecl, withSpan_ok, bind_ok, pure_ok, token_ok] at hp
  obtain ⟨_, ⟨t, k, ht, name, l, hname, t', _, ht', rfl, rfl⟩, rfl⟩ := hp
  exact .varDecl ht hname ht'

theorem written_declarationRule (h : later.Sound) {n : Node}
    (hp : declarationRule later i = .ok (n, j)) : Written (.declaration n) i j := by
  simp only [declarationRule, named_ok, orElse_ok] at hp
  rcases hp with hp | ⟨-, hp | ⟨-, hp | ⟨-, hp⟩⟩⟩
  · exact written_functionDef h hp
  · exact written_procedureDef h hp
  · exact written_varInit h hp
  · exact written_varDecl hp

/-! ### Simple statements -/

theorem written_assignment (h : later.Sound) {n : Node} (hp : assignment later i = .ok (n, j)) :
    Written (.assignment n) i j := by
  simp only [assignment, withSpan_ok, bind_ok, pure_ok, token_ok] at hp
  obtain ⟨_, ⟨name, k, hname, t, l, ht, value, _, hvalue, rfl, rfl⟩, rfl⟩ := hp
  exact .assignment hname ht (h.expression hvalue)

theorem written_assignmentStatement (h : later.Sound) {n : Node}
    (hp : assignmentStatement later i = .ok (n, j)) : Written (.statement n) i j := by
  simp only [assignmentStatement, bind_ok, pure_ok, token_ok] at hp
  obtain ⟨a, k, ha, t, _, ht, rfl, rfl⟩ := hp
  exact .assignmentStatement (written_assignment h ha) ht

theorem written_callStatement (h : later.Sound) {n : Node}
    (hp : callStatement later i = .ok (n, j)) : Written (.statement n) i j := by
  simp only [callStatement, bind_ok, pure_ok, token_ok] at hp
  obtain ⟨c, k, hc, t, _, ht, rfl, rfl⟩ := hp
  exact .callStatement (written_call h hc) ht

/-- A part that may be missing, from what its parser reads where it is not. -/
theorem written_optional {part : OptionalPart} {p : Parser ts Node} (honward : p.Onward)
    (hpart : ∀ {i j n}, p i = .ok (n, j) → Written (Phrase.part part n) i j) {n : Node}
    (hp : p i = .ok (n, j) ∨
      ∃ e, p i = .error e ∧ e.offset = i.val ∧ Absent.absent e = n ∧ i = j) :
    Written (.optional part n) i j := by
  rcases hp with hp | ⟨e, he, hoffset, rfl, rfl⟩
  · exact .present (hpart hp)
  · obtain ⟨k, -, hk⟩ := honward.failure he
    rw [hk] at hoffset
    rw [Fin.ext hoffset] at hk
    exact .absent hk

theorem written_returnStatement (h : later.Sound) {n : Node}
    (hp : returnStatement later i = .ok (n, j)) : Written (.statement n) i j := by
  simp only [returnStatement, withSpan_ok, bind_ok, pure_ok, token_ok, optional_ok] at hp
  obtain ⟨_, ⟨t, k, ht, value, l, hvalue, t', _, ht', rfl, rfl⟩, rfl⟩ := hp
  exact .returnStmt ht (written_optional h.onward.expression h.expression hvalue) ht'

/-! ### Control statements -/

/-- A condition is an expression in parentheses. -/
theorem condition_ok {n : Node} :
    condition later i = .ok (n, l) ↔
      ∃ t j k t', i.Takes .lParen t j ∧ later.expression j = .ok (n, k) ∧ k.Takes .rParen t' l := by
  simp only [condition, bind_ok, surrounded_ok, pure_ok, token_ok]
  constructor
  · rintro ⟨⟨t, n', t'⟩, l', ⟨j, k, ht, hn, ht'⟩, rfl, rfl⟩
    exact ⟨t, j, k, t', ht, hn, ht'⟩
  · rintro ⟨t, j, k, t', ht, hn, ht'⟩
    exact ⟨(t, n, t'), l, ⟨j, k, ht, hn, ht'⟩, rfl, rfl⟩

theorem written_ifStatement (h : later.Sound) {n : Node} (hp : ifStatement later i = .ok (n, j)) :
    Written (.statement n) i j := by
  simp only [ifStatement, withSpan_ok, bind_ok, pure_ok, token_ok, condition_ok, optional_ok] at hp
  obtain ⟨_, ⟨t, k, ht, c, l, ⟨t₁, k', l', t₂, ht₁, hc, ht₂⟩, b, m, hb, a, _, ha, rfl, rfl⟩, rfl⟩ := hp
  exact .ifStmt ht ht₁ (h.expression hc) ht₂ (h.block hb)
    (written_optional h.onward.alternative h.alternative ha)

theorem written_alternativeRule (h : later.Sound) {n : Node}
    (hp : alternativeRule later i = .ok (n, j)) : Written (.alternative n) i j := by
  rcases orElse_ok.mp hp with hp | ⟨-, hp⟩
  · simp only [elseIf, withSpan_ok, bind_ok, pure_ok, token_ok, condition_ok, optional_ok] at hp
    obtain ⟨_, ⟨t, k, ht, t', l, ht', c, m, ⟨t₁, k', l', t₂, ht₁, hc, ht₂⟩, b, o, hb, a, _, ha, rfl,
      rfl⟩, rfl⟩ := hp
    exact .elseIf ht ht' ht₁ (h.expression hc) ht₂ (h.block hb)
      (written_optional h.onward.alternative h.alternative ha)
  · simp only [elseClause, withSpan_ok, bind_ok, pure_ok, token_ok] at hp
    obtain ⟨_, ⟨t, k, ht, b, _, hb, rfl, rfl⟩, rfl⟩ := hp
    exact .elseClause ht (h.block hb)

theorem written_forInit (h : later.Sound) {n : Node} (hp : forInit later i = .ok (n, j)) :
    Written (.forInit n) i j := by
  rcases orElse_ok.mp hp with hp | ⟨-, hp⟩
  · simp only [forDeclaration, withSpan_ok, bind_ok, pure_ok, token_ok] at hp
    obtain ⟨_, ⟨t, k, ht, name, l, hname, t', m, ht', value, _, hvalue, rfl, rfl⟩, rfl⟩ := hp
    exact .forDeclaration ht hname ht' (h.expression hvalue)
  · exact .forAssignment (written_assignment h hp)

theorem written_forStatement (h : later.Sound) {n : Node}
    (hp : forStatement later i = .ok (n, j)) : Written (.statement n) i j := by
  simp only [forStatement, withSpan_ok, bind_ok, pure_ok, token_ok, optional_ok] at hp
  obtain ⟨_, ⟨t, k, ht, t₁, l, ht₁, init, m, hinit, t₂, m', ht₂, test, o, htest, t₃, o', ht₃, update,
    q, hupdate, t₄, q', ht₄, b, _, hb, rfl, rfl⟩, rfl⟩ := hp
  exact .forLoop ht ht₁ (written_optional (onward_forInit h.onward) (written_forInit h) hinit) ht₂
    (written_optional h.onward.expression h.expression htest) ht₃
    (written_optional (onward_assignment h.onward) (written_assignment h) hupdate) ht₄ (h.block hb)

theorem written_whileStatement (h : later.Sound) {n : Node}
    (hp : whileStatement later i = .ok (n, j)) : Written (.statement n) i j := by
  simp only [whileStatement, withSpan_ok, bind_ok, pure_ok, token_ok, condition_ok] at hp
  obtain ⟨_, ⟨t, k, ht, c, l, ⟨t₁, k', l', t₂, ht₁, hc, ht₂⟩, b, _, hb, rfl, rfl⟩, rfl⟩ := hp
  exact .whileLoop ht ht₁ (h.expression hc) ht₂ (h.block hb)

theorem written_caseClause (h : later.Sound) {c : Case Node}
    (hp : caseClause later i = .ok (c, j)) : Written (.caseClause c) i j := by
  simp only [caseClause, withSpan_ok, bind_ok, pure_ok, token_ok] at hp
  obtain ⟨_, ⟨t, k, ht, value, l, hvalue, b, _, hb, rfl, rfl⟩, rfl⟩ := hp
  exact .caseClause ht (h.expression hvalue) (h.block hb)

theorem written_cases (h : later.Sound) {cs : List (Case Node)}
    (hp : Items (caseClause later) i cs j) : Written (.cases cs) i j := by
  induction hp with
  | nil => exact .noCases
  | cons hx _ _ ih => exact .moreCases (written_caseClause h hx) ih

theorem written_switchStatement (h : later.Sound) {n : Node}
    (hp : switchStatement later i = .ok (n, j)) : Written (.statement n) i j := by
  simp only [switchStatement, withSpan_ok, bind_ok, pure_ok, token_ok, condition_ok] at hp
  obtain ⟨_, ⟨t, k, ht, subject, l, ⟨t₁, k', l', t₂, ht₁, hc, ht₂⟩, t₃, m, ht₃, ⟨cs, t₄⟩, _, hcases, rfl,
    rfl⟩, rfl⟩ := hp
  obtain ⟨o, ⟨hitems, -⟩, ht₄⟩ := manyUntil_ok.mp hcases
  exact .switchStmt ht ht₁ (h.expression hc) ht₂ ht₃ (written_cases h hitems) (token_ok.mp ht₄)

/-! ### Blocks, statements and declarations -/

theorem written_statements {p : Parser ts Node}
    (hp : ∀ {i j n}, p i = .ok (n, j) → Written (.statement n) i j) {ns : List Node}
    (hitems : Items p i ns j) : Written (.statements ns) i j := by
  induction hitems with
  | nil => exact .noStatements
  | cons hx _ _ ih => exact .moreStatements (hp hx) ih

theorem written_declarations {p : Parser ts Node}
    (hp : ∀ {i j n}, p i = .ok (n, j) → Written (.declaration n) i j) {ns : List Node}
    (hitems : Items p i ns j) : Written (.declarations ns) i j := by
  induction hitems with
  | nil => exact .noDeclarations
  | cons hx _ _ ih => exact .moreDeclarations (hp hx) ih

theorem written_blockRule (h : later.Sound) {b : Block Node}
    (hp : blockRule later i = .ok (b, j)) : Written (.block b) i j := by
  simp only [blockRule, withSpan_ok, bind_ok, pure_ok, token_ok] at hp
  obtain ⟨_, ⟨t, k, ht, ⟨ns, t'⟩, _, hstatements, rfl, rfl⟩, rfl⟩ := hp
  obtain ⟨m, ⟨hitems, -⟩, ht'⟩ := manyUntil_ok.mp hstatements
  exact .block ht (written_statements h.statement hitems) (token_ok.mp ht')

theorem written_statementRule (h : later.Sound) {n : Node}
    (hp : statementRule later i = .ok (n, j)) : Written (.statement n) i j := by
  simp only [statementRule, named_ok, orElse_ok, map_ok] at hp
  rcases hp with hp | ⟨-, hp | ⟨-, hp | ⟨-, hp | ⟨-, hp | ⟨-, hp | ⟨-, hp | ⟨-, hp | ⟨-, hp | ⟨-, hp |
    ⟨-, hp | ⟨-, b, hb, rfl⟩⟩⟩⟩⟩⟩⟩⟩⟩⟩⟩
  · exact .declarationStatement (written_functionDef h hp)
  · exact .declarationStatement (written_procedureDef h hp)
  · exact .declarationStatement (written_varInit h hp)
  · exact .declarationStatement (written_varDecl hp)
  · exact written_assignmentStatement h hp
  · exact written_callStatement h hp
  · exact written_returnStatement h hp
  · exact written_ifStatement h hp
  · exact written_forStatement h hp
  · exact written_whileStatement h hp
  · exact written_switchStatement h hp
  · exact .blockStatement (written_blockRule h hb)

end Grammar

/-! ### All rounds -/

namespace Rules

theorem sound_stuck : (stuck : Rules ts).Sound where
  onward := onward_stuck
  expression h := nomatch h
  unary h := nomatch h
  statement h := nomatch h
  block h := nomatch h
  alternative h := nomatch h

theorem Sound.next {later : Rules ts} (h : later.Sound) : later.next.Sound where
  onward := h.onward.next
  expression := Grammar.written_expressionRule h
  unary := Grammar.written_unary h
  statement := Grammar.written_statementRule h
  block := Grammar.written_blockRule h
  alternative := Grammar.written_alternativeRule h

theorem sound_upTo (n : Nat) : (upTo ts n).Sound := by
  induction n with
  | zero => exact sound_stuck
  | succ n ih => exact ih.next

end Rules

/-- **The grammar is sound.** -/
theorem sound_grammar (ts : Array Token) : (grammar ts).Sound := Rules.sound_upTo _

/-! ### Programs -/

/-- The tokens in front of the first end of file. -/
def tokensBeforeEof (ts : Array Token) : List Token := ts.toList.takeWhile (·.kind ≠ .eof)

theorem tokens_first (ts : Array Token) : (Place.first ts).tokens = ts.toList := rfl

theorem Place.Takes.mem {i j : Place ts} {k : TokenKind} {t : Token} (h : i.Takes k t j) :
    t ∈ ts := by
  have hmem : t ∈ ts.toList.drop i.val := by
    show t ∈ i.tokens
    rw [h.tokens_eq]
    exact List.mem_cons_self ..
  exact Array.mem_toList_iff.mp (List.mem_of_mem_drop hmem)

/-- Up to the first end of file is all there is in front of a place where one stands, as long
    as none comes before. -/
theorem tokensBeforeEof_eq {k j : Place ts} {eof : Token} {u : List Token}
    (hfirst : (Place.first ts).tokens = u ++ k.tokens) (heof : k.Takes .eof eof j)
    (hu : ∀ t ∈ u, t.kind ≠ .eof) : tokensBeforeEof ts = u := by
  rw [tokensBeforeEof, ← tokens_first, hfirst, heof.tokens_eq,
    List.takeWhile_append_of_pos (fun t ht => decide_eq_true (hu t ht)),
    List.takeWhile_cons_of_neg (by simp [heof.kind_eq]), List.append_nil]

/-- Where an end of file stands somewhere, a first one stands. -/
theorem exists_first_eof {t : Token} (ht : t ∈ ts) (hkind : t.kind = .eof) :
    ∃ (k : Place ts) (eof : Token) (j : Place ts), k.Takes .eof eof j ∧
      (Place.first ts).tokens = tokensBeforeEof ts ++ k.tokens := by
  have hsplit := (ts.toList.takeWhile_append_dropWhile (p := (·.kind ≠ .eof))).symm
  obtain ⟨k, hk⟩ := Place.exists_of_append (i := Place.first ts) hsplit
  rw [← hk] at hsplit
  rcases k.eq_end_or_takes with hend | ⟨eof, j, heof⟩
  · rw [Place.peek?_eq_head?, List.head?_eq_none_iff] at hend
    rw [hend, List.append_nil] at hsplit
    have hmem : t ∈ ts.toList.takeWhile (·.kind ≠ .eof) := hsplit ▸ Array.mem_toList_iff.mpr ht
    have hall := List.all_eq_true.mp (List.all_takeWhile (p := fun t => t.kind ≠ .eof)) t hmem
    simp [hkind] at hall
  · refine ⟨k, eof, j, ⟨heof.tokens_eq, ?_⟩, hsplit⟩
    have hhead := ts.toList.head?_dropWhile_not (·.kind ≠ .eof)
    rw [← hk, heof.tokens_eq] at hhead
    simpa using hhead

theorem parse_ok {p : Program} :
    parse ts = .ok p ↔ ∃ j, Grammar.program ts (Place.first ts) = .ok (p, j) := by
  unfold parse
  cases Grammar.program ts (Place.first ts) with
  | error e => simp [Except.map]
  | ok r => simp [Except.map, Prod.ext_iff]

/-- What is read off the program of tokens shows that they parse. -/
theorem exists_of_map_parse {α : Type} {read : Program → α} {x : α}
    (h : (parse ts).toOption.map read = some x) : ∃ p, parse ts = .ok p ∧ read p = x := by
  cases hp : parse ts with
  | ok p =>
    rw [hp] at h
    exact ⟨p, rfl, Option.some.inj h⟩
  | error e =>
    rw [hp] at h
    cases h

/-- **What a program that parses consists of.**  Its declarations are written from the first
    place on, and an end of file stands behind them. -/
theorem Grammar.written_program {ts : Array Token} {p : Program} {i j : Place ts}
    (hp : program ts i = .ok (p, j)) :
    ∃ k t, Written (.declarations p.declarations) i k ∧ k.Takes .eof t j ∧ p.span = i.spanTo j := by
  simp only [program, withSpan_ok, bind_ok, pure_ok] at hp
  obtain ⟨_, ⟨⟨ns, t⟩, _, hdeclarations, rfl, rfl⟩, rfl⟩ := hp
  obtain ⟨k, ⟨hitems, -⟩, ht⟩ := manyUntil_ok.mp hdeclarations
  have hwritten := written_declarations (written_declarationRule (sound_grammar ts)) hitems
  exact ⟨k, t, hwritten, token_ok.mp ht, rfl⟩

/-- **What a list of tokens that parses consists of**: declarations, an end of file, and tokens
    that are never looked at. -/
theorem exists_written_of_parse {p : Program} (hp : parse ts = .ok p) :
    ∃ (k : Place ts) (eof : Token) (j : Place ts),
      Written (.declarations p.declarations) (Place.first ts) k ∧ k.Takes .eof eof j ∧
        p.span = (Place.first ts).spanTo j ∧
        (Place.first ts).tokens = tokensBeforeEof ts ++ k.tokens := by
  obtain ⟨j, hp⟩ := parse_ok.mp hp
  obtain ⟨k, eof, hwritten, heof, hspan⟩ := Grammar.written_program hp
  obtain ⟨u, hu, -, hkinds⟩ := hwritten.stands.exists_row rfl
  rw [tokensBeforeEof_eq hu heof hkinds]
  exact ⟨k, eof, j, hwritten, heof, hspan, hu⟩

end TarnLang
