/-
  TarnLang/Proofs/Grammar/Advice.lean
  ===================================
  **Where advice is given.**  Advice depends on the construct that was expected and on the kind of
  the token found instead, but two pieces of it speak of what stands in front: of a trailing comma,
  and of parentheses that want a value.  The rules of the grammar ask for names and values in the
  contexts of `ParseFailure.InContext` only, and by induction on the rounds all rules do.

  So a missing name stands behind a comma or behind `fn`, `proc` or `let`, and advice to remove a
  comma may be given where there is none.  A missing value stands inside open parentheses or where
  something else wants one, and there are no parentheses to put it in.
-/
import TarnLang.Proofs.Grammar.Failure
import TarnLang.Proofs.Parser.Context

namespace TarnLang

open TarnLang.Parser

variable {ts : Array Token}

/-- Recursive rules that fail in context: expressions where a value has to come, and all other
    rules where no parenthesis is closed that was not opened. -/
structure Rules.FailInContext (r : Rules ts) : Prop where
  fair : r.Fair
  expression : ∀ {i}, ValueMissed i.before → FailsInContext r.expression i
  unary : ∀ {i}, ValueMissed i.before → FailsInContext r.unary i
  statement : ∀ {i : Place ts}, 0 ≤ i.depth → FailsInContext r.statement i
  block : ∀ {i : Place ts}, 0 ≤ i.depth → FailsInContext r.block i
  alternative : ∀ {i : Place ts}, 0 ≤ i.depth → FailsInContext r.alternative i

namespace Place.Takes

variable {i j : Place ts} {k : TokenKind} {t : Token}

theorem nameMissed (h : i.Takes k t j) (hk : k ∈ nameWanted) : NameMissed j.before :=
  h.before_eq ▸ nameMissed_snoc hk

theorem valueMissed (h : i.Takes k t j) (hk : k ∈ valueWanted) (hi : 0 ≤ i.depth) :
    ValueMissed j.before :=
  h.before_eq ▸ valueMissed_snoc hi hk

/-- A token that closes no parenthesis closes none too many. -/
theorem nonneg (h : i.Takes k t j) (hk : k ≠ .rParen) (hi : 0 ≤ i.depth) : 0 ≤ j.depth :=
  Int.le_trans hi (h.depth_le hk)

/-- Behind an opening parenthesis a value has to come, whatever stands in front. -/
theorem valueMissed_of_paren (h : i.Takes .lParen t j) (hi : 0 ≤ i.depth) :
    ValueMissed j.before :=
  Or.inl (Int.lt_of_le_of_lt hi h.depth_lt)

end Place.Takes

namespace Grammar

variable {later : Rules ts} {i : Place ts}

/-! ### Expressions -/

theorem inContext_argumentList (h : later.FailInContext) (hi : 0 ≤ i.depth) :
    FailsInContext (argumentList later) i := by
  refine .withSpan (.last (.parens fun t j ht => ?_) fun _ => ⟨_, rfl⟩)
  refine (FailsInContext.behind ?_).optional
  -- all arguments stand inside the parentheses
  refine .separated (P := fun j => 0 < j.depth) (fun hx => (h.fair.expression.stands hx).le)
    (fun j hj => h.expression (Or.inl hj)) (fun x t j l m hj hx ht => ?_)
    (Int.lt_of_le_of_lt hi ht.depth_lt)
  have hsame : l.depth = j.depth := (h.fair.expression.stands hx).depth_eq rfl
  exact Int.lt_of_lt_of_le (hsame ▸ hj) (ht.depth_le (by decide))

theorem inContext_call (h : later.FailInContext) (hi : 0 ≤ i.depth) :
    FailsInContextBehind (call later) i := by
  refine .withSpan (.token_bind fun t j ht => ?_)
  exact (inContext_argumentList h (ht.nonneg (by decide) hi)).last fun _ => ⟨_, rfl⟩

theorem inContext_primary (h : later.FailInContext) (hi : ValueMissed i.before) :
    FailsInContext (primary later) i := by
  have hlevel : 0 ≤ i.depth := hi.openParens_nonneg
  have hcall : FailsInContextBehind (Node.call <$> call later) i :=
    (inContext_call h hlevel).map
  have hliteral : FailsInContextBehind literal i :=
    (failsInContextBehind_oneOf (by decide) i).map
  have hgrouped : FailsInContext (grouped later) i := by
    refine .last (.parens fun t j ht => ?_) fun _ => ⟨_, rfl⟩
    exact h.expression (ht.valueMissed_of_paren hlevel)
  exact (hcall.orElse (hliteral.orElse hgrouped.behind)).named hi.inContext

theorem inContext_unary (h : later.FailInContext) (hi : ValueMissed i.before) :
    FailsInContext (unary later) i := by
  refine .orElse (.withSpan (.bind (failsInContext_oneOf (by decide) (by decide) i) ?_))
    (inContext_primary h hi)
  intro op j hop
  obtain ⟨ht, hmem⟩ := oneOf_ok.mp hop
  have hj : ValueMissed j.before := ht.before_eq ▸ hi.prefixed hmem
  exact (h.unary hj).last fun _ => ⟨_, rfl⟩

/-- Operands fail at the first one or not at all. -/
theorem inContext_leftAssoc {operand : Parser ts Node} {ks : List TokenKind}
    (hoperand : FailsInContext operand i) : FailsInContext (leftAssoc operand ks) i := by
  refine hoperand.spanned.bind fun _ j _ f hfails => ?_
  rcases bind_error.mp hfails with hfails | ⟨_, _, -, hfails⟩
  · cases hfails
  · exact absurd hfails pure_ne_error

theorem inContext_expressionRule (h : later.FailInContext) (hi : ValueMissed i.before) :
    FailsInContext (expressionRule later) i := by
  have hproduct : FailsInContext (multiplicative later) i :=
    inContext_leftAssoc (inContext_unary h hi)
  have hcomparison : FailsInContext (comparison later) i :=
    inContext_leftAssoc (inContext_leftAssoc hproduct)
  have hdisjunction : FailsInContext (disjunction later) i :=
    inContext_leftAssoc (inContext_leftAssoc hcomparison)
  exact hdisjunction.behind.named hi.inContext

/-! ### Definitions -/

theorem inContext_parameterList (i : Place ts) : FailsInContext parameterList i :=
  .withSpan (.last (.parens fun _ j _ => (failsInContextBehind_names j).optional)
    fun _ => ⟨_, rfl⟩)

theorem inContext_signature (hi : NameMissed i.before) : FailsInContext signature i :=
  .withSpan (.name_bind hi fun _ j _ => (inContext_parameterList j).last fun _ => ⟨_, rfl⟩)

/-- A signature and a body. -/
theorem inContext_definition {make : Signature → Block Node → Span → Node} (h : later.FailInContext)
    (hi : 0 ≤ i.depth) (hname : NameMissed i.before) :
    FailsInContext (signature >>= fun s => later.block >>= fun b => pure (make s b)) i := by
  refine (inContext_signature hname).phrase_bind keeps_signature rfl fun s j hj => ?_
  exact (h.block (hj ▸ hi)).last fun _ => ⟨_, rfl⟩

theorem inContext_functionDef (h : later.FailInContext) (hi : 0 ≤ i.depth) :
    FailsInContextBehind (functionDef later) i :=
  .withSpan (.token_bind fun _ _ ht =>
    inContext_definition h (ht.nonneg (by decide) hi) (ht.nameMissed (by decide)))

theorem inContext_procedureDef (h : later.FailInContext) (hi : 0 ≤ i.depth) :
    FailsInContextBehind (procedureDef later) i :=
  .withSpan (.token_bind fun _ _ ht =>
    inContext_definition h (ht.nonneg (by decide) hi) (ht.nameMissed (by decide)))

theorem inContext_varDecl (i : Place ts) : FailsInContextBehind varDecl i := by
  refine .withSpan (.token_bind fun _ j hlet => ?_)
  refine .name_bind (hlet.nameMissed (by decide)) fun _ k _ => ?_
  exact (failsInContext_token (by decide) k).last fun _ => ⟨_, rfl⟩

/-- A new variable with its first value, and the parts behind it. -/
theorem inContext_initialised {α : Type} {q : Token → Node → Parser ts α}
    (h : later.FailInContext) (hi : 0 ≤ i.depth) (hq : ∀ t x j, FailsInContext (q t x) j) :
    FailsInContextBehind (token .letKw >>= fun _ => token .ident >>= fun t =>
      token .eq >>= fun _ => later.expression >>= fun x => q t x) i := by
  refine .token_bind fun _ j hlet => ?_
  refine .name_bind (hlet.nameMissed (by decide)) fun t k hname => ?_
  refine .token_bind (by decide) fun _ l heq => ?_
  have hk : 0 ≤ k.depth := hname.nonneg (by decide) (hlet.nonneg (by decide) hi)
  exact (h.expression (heq.valueMissed (by decide) hk)).bind fun x m _ => hq t x m

theorem inContext_varInit (h : later.FailInContext) (hi : 0 ≤ i.depth) :
    FailsInContextBehind (varInit later) i :=
  .withSpan (inContext_initialised h hi fun _ _ j =>
    (failsInContext_token (by decide) j).last fun _ => ⟨_, rfl⟩)

theorem inContext_declarationRule (h : later.FailInContext) (hi : 0 ≤ i.depth) :
    FailsInContext (declarationRule later) i := by
  refine FailsInContextBehind.named ?_ (inContext_of_ne (by decide) (by decide) i)
  refine (inContext_functionDef h hi).orElse ((inContext_procedureDef h hi).orElse ?_)
  exact (inContext_varInit h hi).orElse (inContext_varDecl i)

/-! ### Simple statements -/

theorem inContext_assignment (h : later.FailInContext) (hi : 0 ≤ i.depth) :
    FailsInContextBehind (assignment later) i := by
  refine .withSpan (.token_bind fun _ j hname => .token_bind (by decide) fun _ k heq => ?_)
  have hj : 0 ≤ j.depth := hname.nonneg (by decide) hi
  exact (h.expression (heq.valueMissed (by decide) hj)).last fun _ => ⟨_, rfl⟩

theorem inContext_assignmentStatement (h : later.FailInContext) (hi : 0 ≤ i.depth) :
    FailsInContextBehind (assignmentStatement later) i :=
  (inContext_assignment h hi).bind fun _ j _ =>
    (failsInContext_token (by decide) j).last fun _ => ⟨_, rfl⟩

theorem inContext_callStatement (h : later.FailInContext) (hi : 0 ≤ i.depth) :
    FailsInContextBehind (callStatement later) i :=
  (inContext_call h hi).bind fun _ j _ =>
    (failsInContext_token (by decide) j).last fun _ => ⟨_, rfl⟩

theorem inContext_returnStatement (h : later.FailInContext) (hi : 0 ≤ i.depth) :
    FailsInContextBehind (returnStatement later) i := by
  refine .withSpan (.token_bind fun _ j ht => ?_)
  refine (h.expression (ht.valueMissed (by decide) hi)).behind.optional.bind fun _ k _ => ?_
  exact (failsInContext_token (by decide) k).last fun _ => ⟨_, rfl⟩

/-! ### Control statements -/

theorem inContext_condition (h : later.FailInContext) (hi : 0 ≤ i.depth) :
    FailsInContext (condition later) i := by
  refine .last (.parens fun _ j ht => ?_) fun _ => ⟨_, rfl⟩
  exact h.expression (ht.valueMissed_of_paren hi)

/-- A condition in parentheses and the parts behind it. -/
theorem inContext_condition_bind {α : Type} {q : Node → Parser ts α} (h : later.FailInContext)
    (hi : 0 ≤ i.depth) (hq : ∀ x (j : Place ts), 0 ≤ j.depth → FailsInContext (q x) j) :
    FailsInContext (condition later >>= q) i :=
  (inContext_condition h hi).phrase_bind (keeps_condition h.fair) rfl
    fun x j hj => hq x j (hj ▸ hi)

/-- A condition, a body and an alternative, if any. -/
theorem inContext_branch {make : Node → Block Node → Node → Span → Node} (h : later.FailInContext)
    (hi : 0 ≤ i.depth) :
    FailsInContext (condition later >>= fun c => later.block >>= fun b =>
      optional later.alternative >>= fun a => pure (make c b a)) i := by
  refine inContext_condition_bind h hi fun _ j hj => ?_
  refine (h.block hj).phrase_bind h.fair.block rfl fun _ k hk => ?_
  exact (h.alternative (hk ▸ hj)).behind.optional.last fun _ => ⟨_, rfl⟩

theorem inContext_ifStatement (h : later.FailInContext) (hi : 0 ≤ i.depth) :
    FailsInContextBehind (ifStatement later) i :=
  .withSpan (.token_bind fun _ _ ht => inContext_branch h (ht.nonneg (by decide) hi))

theorem inContext_alternativeRule (h : later.FailInContext) (hi : 0 ≤ i.depth) :
    FailsInContext (alternativeRule later) i := by
  have helseIf : FailsInContext (elseIf later) i := by
    refine .withSpan (.token_bind (by decide) fun _ j helse => ?_)
    refine .token_bind (by decide) fun _ k hif => inContext_branch h ?_
    exact hif.nonneg (by decide) (helse.nonneg (by decide) hi)
  have helseClause : FailsInContext (elseClause later) i :=
    .withSpan (.token_bind (by decide) fun _ j helse =>
      (h.block (helse.nonneg (by decide) hi)).last fun _ => ⟨_, rfl⟩)
  exact helseIf.orElse helseClause

theorem inContext_forInit (h : later.FailInContext) (hi : 0 ≤ i.depth) :
    FailsInContextBehind (forInit later) i := by
  have hdeclaration : FailsInContextBehind (forDeclaration later) i :=
    .withSpan (inContext_initialised h hi fun _ _ j => failsInContext_pure _ j)
  exact hdeclaration.orElse (inContext_assignment h hi)

/-- Each of the three clauses stands inside the parentheses. -/
theorem inContext_forStatement (h : later.FailInContext) (hi : 0 ≤ i.depth) :
    FailsInContextBehind (forStatement later) i := by
  refine .withSpan (.token_bind fun _ j hfor => .token_bind (by decide) fun _ k hopen => ?_)
  have hk : 0 < k.depth := Int.lt_of_le_of_lt (hfor.nonneg (by decide) hi) hopen.depth_lt
  refine (inContext_forInit h (Int.le_of_lt hk)).optional.phrase_bind
    (keeps_forInit h.fair).optional rfl fun _ l hl => .token_bind (by decide) fun _ m hsemi => ?_
  have hm : 0 < m.depth := Int.lt_of_lt_of_le (hl ▸ hk) (hsemi.depth_le (by decide))
  refine (h.expression (Or.inl hm)).behind.optional.phrase_bind h.fair.expression.optional rfl
    fun _ n hn => .token_bind (by decide) fun _ o hsemi => ?_
  have ho : 0 < o.depth := Int.lt_of_lt_of_le (hn ▸ hm) (hsemi.depth_le (by decide))
  refine (inContext_assignment h (Int.le_of_lt ho)).optional.phrase_bind
    (keeps_assignment h.fair).optional rfl fun _ p hp =>
      .token_bind (by decide) fun _ q hclose => ?_
  exact (h.block (hclose.depth_nonneg (hp ▸ ho))).last fun _ => ⟨_, rfl⟩

theorem inContext_whileStatement (h : later.FailInContext) (hi : 0 ≤ i.depth) :
    FailsInContextBehind (whileStatement later) i := by
  refine .withSpan (.token_bind fun _ j ht => ?_)
  refine inContext_condition_bind h (ht.nonneg (by decide) hi) fun _ k hk => ?_
  exact (h.block hk).last fun _ => ⟨_, rfl⟩

theorem inContext_caseClause (h : later.FailInContext) (hi : 0 ≤ i.depth) :
    FailsInContext (caseClause later) i := by
  refine .withSpan (.token_bind (by decide) fun _ j ht => ?_)
  refine (h.expression (ht.valueMissed (by decide) hi)).phrase_bind h.fair.expression rfl
    fun _ k hk => ?_
  exact (h.block (hk ▸ ht.nonneg (by decide) hi)).last fun _ => ⟨_, rfl⟩

theorem inContext_switchStatement (h : later.FailInContext) (hi : 0 ≤ i.depth) :
    FailsInContextBehind (switchStatement later) i := by
  refine .withSpan (.token_bind fun _ j ht => ?_)
  refine inContext_condition_bind h (ht.nonneg (by decide) hi) fun _ k hk => ?_
  refine .token_bind (by decide) fun _ l hopen => .last ?_ fun _ => ⟨_, rfl⟩
  exact .manyUntil (by decide) (keeps_caseClause h.fair) rfl
    (fun m hm => inContext_caseClause h hm) (hopen.nonneg (by decide) hk)

/-! ### Blocks and statements -/

theorem inContext_blockRule (h : later.FailInContext) (hi : 0 ≤ i.depth) :
    FailsInContext (blockRule later) i := by
  refine .withSpan (.token_bind (by decide) fun _ j ht => .last ?_ fun _ => ⟨_, rfl⟩)
  exact .manyUntil (by decide) h.fair.statement rfl (fun k hk => h.statement hk)
    (ht.nonneg (by decide) hi)

theorem inContext_statementRule (h : later.FailInContext) (hi : 0 ≤ i.depth) :
    FailsInContext (statementRule later) i := by
  refine FailsInContextBehind.named ?_ (inContext_of_ne (by decide) (by decide) i)
  refine (inContext_functionDef h hi).orElse ((inContext_procedureDef h hi).orElse ?_)
  refine (inContext_varInit h hi).orElse ((inContext_varDecl i).orElse ?_)
  refine (inContext_assignmentStatement h hi).orElse ?_
  refine (inContext_callStatement h hi).orElse ((inContext_returnStatement h hi).orElse ?_)
  refine (inContext_ifStatement h hi).orElse ((inContext_forStatement h hi).orElse ?_)
  refine (inContext_whileStatement h hi).orElse ?_
  exact (inContext_switchStatement h hi).orElse (inContext_blockRule h hi).behind.map

end Grammar

/-! ### All rounds -/

namespace Rules

/-- The rules before the first round miss their construct where they are tried. -/
theorem failInContext_stuck : (stuck : Rules ts).FailInContext where
  fair := fair_stuck
  expression hi f hf := Except.error.inj hf ▸ hi.inContext
  unary hi f hf := Except.error.inj hf ▸ hi.inContext
  statement _ f hf := Except.error.inj hf ▸ inContext_of_ne (by decide) (by decide) _
  block _ f hf := Except.error.inj hf ▸ inContext_failure (by decide) _
  alternative _ f hf := Except.error.inj hf ▸ inContext_failure (by decide) _

theorem FailInContext.next {later : Rules ts} (hs : later.Sound) (h : later.FailInContext) :
    later.next.FailInContext where
  fair := h.fair.next hs
  expression := Grammar.inContext_expressionRule h
  unary := Grammar.inContext_unary h
  statement := Grammar.inContext_statementRule h
  block := Grammar.inContext_blockRule h
  alternative := Grammar.inContext_alternativeRule h

theorem failInContext_upTo (n : Nat) : (upTo ts n).FailInContext := by
  induction n with
  | zero => exact failInContext_stuck
  | succ n ih => exact ih.next (sound_upTo n)

end Rules

/-- **The grammar fails in context.** -/
theorem failInContext_grammar (ts : Array Token) : (grammar ts).FailInContext :=
  Rules.failInContext_upTo _

/-! ### Programs -/

/-- Declarations close their parentheses, so each is tried where none is open. -/
theorem Grammar.inContext_program {i : Place ts} (hi : 0 ≤ i.depth) :
    FailsInContext (program ts) i := by
  have h : (grammar ts).FailInContext := failInContext_grammar ts
  refine .withSpan (.last ?_ fun _ => ⟨_, rfl⟩)
  exact .manyUntil (by decide) (keeps_declarationRule h.fair) rfl
    (fun j hj => inContext_declarationRule h hj) hi

/-- A list of tokens that does not parse fails in context. -/
theorem inContext_of_parse_error {f : ParseFailure} (hf : parse ts = .error f) :
    f.InContext ts := by
  have hnone : (Place.first ts).depth = 0 := rfl
  exact Grammar.inContext_program (Int.le_of_eq hnone.symm) f (parse_error.mp hf)

/-- The failure of a parser that failed. -/
def failure? {α : Type} : Except ParseFailure α → Option ParseFailure
  | .ok _ => none
  | .error f => some f

theorem exists_of_failure? {α β : Type} {result : Except ParseFailure α}
    {report : ParseFailure → β} {b : β} (h : (failure? result).map report = some b) :
    ∃ f, result = .error f ∧ report f = b := by
  cases result with
  | ok x => cases h
  | error f => exact ⟨f, rfl, Option.some.inj h⟩

/-! ### Advice -/

namespace ParseFailure

theorem construct_of_comma {construct : String} {found : TokenKind}
    (h : adviceFor construct found = some "remove the trailing ','") : construct = "a name" := by
  revert h
  fun_cases adviceFor construct found
  all_goals simp [adviceForExpression]
  split <;> simp

theorem construct_of_parentheses {construct : String} {found : TokenKind}
    (h : adviceFor construct found = some "put a value inside the parentheses") :
    construct = "an expression" := by
  revert h
  fun_cases adviceFor construct found
  all_goals simp [adviceForName]
  split
  · simp
  · simp
  · split <;> simp

end ParseFailure

/-- **Where a program fails with advice on what stands in front.**  Where a trailing comma is to be
    removed, the token in front is a comma or it is `fn`, `proc` or `let`.  Where a value is to be
    put inside parentheses, parentheses are open in front; or as many are closed as are opened,
    and in front stands `=`, `case` or `return`, with prefix operators behind it or not. -/
theorem advice_given_in_context {f : ParseFailure} (hf : parse ts = .error f) :
    (f.advice = some "remove the trailing ','" →
      ∃ k ∈ [.comma, .fnKw, .procKw, .letKw], (kindsBefore ts f.offset).getLast? = some k) ∧
    (f.advice = some "put a value inside the parentheses" →
      let before := kindsBefore ts f.offset
      before.count .rParen < before.count .lParen ∨
        before.count .rParen = before.count .lParen ∧
          ∃ front k operators, before = front ++ k :: operators ∧
            k ∈ [.eq, .caseKw, .returnKw] ∧ ∀ op ∈ operators, op ∈ [.minus, .notKw]) := by
  obtain ⟨hname, hvalue⟩ := inContext_of_parse_error hf
  refine ⟨fun h => hname (ParseFailure.construct_of_comma h), fun h => ?_⟩
  rcases hvalue (ParseFailure.construct_of_parentheses h) with hopen | ⟨hlevel, hwanted⟩
  · left
    unfold openParens at hopen
    omega
  · refine Or.inr ⟨?_, hwanted⟩
    unfold openParens at hlevel
    omega

/-- Advice to remove a comma where there is none, and to put a value inside parentheses where none
    has been opened. -/
theorem advice_given_without_comma_or_parentheses :
    (∃ f, parse (tokenize "fn )").tokens = .error f ∧
      f.advice = some "remove the trailing ','" ∧
      kindsBefore (tokenize "fn )").tokens f.offset = [.fnKw] ∧
      NameMissed (kindsBefore (tokenize "fn )").tokens f.offset)) ∧
    ∃ f, parse (tokenize "let x = );").tokens = .error f ∧
      f.advice = some "put a value inside the parentheses" ∧
      kindsBefore (tokenize "let x = );").tokens f.offset = [.letKw, .ident, .eq] ∧
      EndsInValueWanted (kindsBefore (tokenize "let x = );").tokens f.offset) := by
  constructor
  · have hreport : (failure? (parse (tokenize "fn )").tokens)).map (fun f =>
        (f.advice, f.offset)) = some (some "remove the trailing ','", 1) := by
      decide +kernel
    obtain ⟨f, hf, hfields⟩ := exists_of_failure? hreport
    obtain ⟨hadvice, hoffset⟩ := Prod.mk.inj hfields
    refine ⟨f, hf, hadvice, ?_, (advice_given_in_context hf).1 hadvice⟩
    rw [hoffset]
    decide +kernel
  · have hreport : (failure? (parse (tokenize "let x = );").tokens)).map (fun f =>
        (f.advice, f.offset)) = some (some "put a value inside the parentheses", 3) := by
      decide +kernel
    obtain ⟨f, hf, hfields⟩ := exists_of_failure? hreport
    obtain ⟨hadvice, hoffset⟩ := Prod.mk.inj hfields
    have hbefore : kindsBefore (tokenize "let x = );").tokens f.offset =
        [.letKw, .ident, .eq] := by
      rw [hoffset]
      decide +kernel
    refine ⟨f, hf, hadvice, hbefore, ?_⟩
    rcases (advice_given_in_context hf).2 hadvice with hopen | ⟨-, hwanted⟩
    · rw [hbefore] at hopen
      exact absurd hopen (by decide)
    · exact hwanted

end TarnLang
