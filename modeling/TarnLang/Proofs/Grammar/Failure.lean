/-
  TarnLang/Proofs/Grammar/Failure.lean
  ====================================
  **A rule that fails says what could have come next.**  Each rule of the grammar keeps to the
  nonterminal it is for, so when a program does not parse, the tokens in front of the
  reported one start some program, and still do when what was expected follows them.

  Inside an expression the failures are fair to the expression as a whole, not to the operand
  at which they occur: behind a prefix operator any expression may follow, although only
  its first operand is the operand of the prefix.  Operands behind an infix operator never
  report anything, because a repetition drops the failure that ends it.
-/
import TarnLang.Lexer
import TarnLang.Proofs.Grammar.Soundness
import TarnLang.Proofs.Parser.Failure

namespace TarnLang

open TarnLang.Parser

variable {ts : Array Token}

/-! ### Expressions as a whole -/

/-- Operands, with nothing behind them, are phrases of their level. -/
theorem Derives.infixed_single {e : Ebnf} {ks : List TokenKind} {w : List TokenKind}
    (h : Derives e w) : Derives (.infixed e ks) w := by
  have hinfixed : Derives (.infixed e ks) (w ++ ([] ++ [])) := .cons h (.cons .done .nil)
  rw [List.append_nil, List.append_nil] at hinfixed
  exact hinfixed

theorem Derives.expression_of_unary {w : List TokenKind} (h : Derives (.ref .unary) w) :
    Derives (.ref .expression) w := by
  have hproduct : Derives (.ref .multiplicative) w := .ref h.infixed_single
  have hsum : Derives (.ref .additive) w := .ref hproduct.infixed_single
  have hcomparison : Derives (.ref .comparison) w := .ref hsum.infixed_single
  have hconjunction : Derives (.ref .conjunction) w := .ref hcomparison.infixed_single
  exact .ref (.ref hconjunction.infixed_single)

theorem Derives.expression_of_primary {w : List TokenKind} (h : Derives (.ref .primary) w) :
    Derives (.ref .expression) w :=
  .expression_of_unary (.ref (.alt (by simp) h))

/-- A kind may be put in front of every phrase of a right-hand side. -/
def Prefixable (k : TokenKind) (e : Ebnf) : Prop := ∀ w, Derives e w → Derives e (k :: w)

theorem Prefixable.ref {k : TokenKind} {n : Nonterminal} (h : Prefixable k n.rule) :
    Prefixable k (.ref n) := by
  intro w hw
  cases hw with
  | ref hw => exact .ref (h w hw)

/-- What may be put in front of the first operand may be put in front of all of them. -/
theorem Prefixable.infixed {k : TokenKind} {e : Ebnf} {ks : List TokenKind}
    (h : Prefixable k e) : Prefixable k (.infixed e ks) := by
  intro w hw
  cases hw with
  | @cons _ _ u v hu hv =>
    rw [← List.cons_append]
    exact .cons (h u hu) hv

/-- **A prefix operator may stand in front of any expression.** -/
theorem prefixable_expression {k : TokenKind} (hk : k ∈ [.minus, .notKw]) :
    Prefixable k (.ref .expression) := by
  have hunary : Prefixable k (.ref .unary) := by
    intro w hw
    have hop : Derives (.oneOf [.minus, .notKw]) [k] := .alt (List.mem_map_of_mem hk) .kind
    have hprefixed := hop.cons (.cons hw .nil)
    rw [List.append_nil] at hprefixed
    exact .ref (.alt (List.mem_cons_self ..) hprefixed)
  have hproduct : Prefixable k (.ref .multiplicative) := .ref hunary.infixed
  have hsum : Prefixable k (.ref .additive) := .ref hproduct.infixed
  have hcomparison : Prefixable k (.ref .comparison) := .ref hsum.infixed
  have hconjunction : Prefixable k (.ref .conjunction) := .ref hcomparison.infixed
  exact .ref (.ref hconjunction.infixed)

/-! ### Rules -/

/-- Recursive rules that keep to their nonterminals.  An operand fails fairly to the expression
    that it starts. -/
structure Rules.Fair (r : Rules ts) : Prop where
  expression : Keeps r.expression (.ref .expression)
  unary : ∀ {i f}, r.unary i = .error f → f.Expects (.ref .expression) i
  statement : Keeps r.statement (.ref .statement)
  block : Keeps r.block (.ref .block)
  alternative : Keeps r.alternative (.ref .alternative)

namespace Grammar

variable {later : Rules ts} {i : Place ts} {f : ParseFailure}

/-! ### Expressions -/

theorem keeps_argumentList (h : later.Fair) :
    Keeps (argumentList later) (.ref .parameterPass) := by
  have hlist := Keeps.surrounded .lParen .rParen (by decide) (by decide)
    h.expression.separated.optional rfl
  exact .ref (.withSpan (hlist.bind_pure fun _ => ⟨_, rfl⟩))

theorem keeps_call (h : later.Fair) : Keeps (call later) (.ref .call) := by
  refine .ref (.withSpan (.token_bind (by decide) (fun _ => ?_) rfl))
  exact (keeps_argumentList h).last fun _ => ⟨_, rfl⟩

theorem keeps_parens (h : later.Fair) :
    Keeps (surrounded (token .lParen) (token .rParen) later.expression)
      (.parens (.ref .expression)) :=
  .surrounded .lParen .rParen (by decide) (by decide) h.expression rfl

/-- Of the three primary expressions each starts an expression. -/
theorem expects_primary (h : later.Fair) (hf : primary later i = .error f) :
    f.Expects (.ref .expression) i := by
  refine expects_named rfl ?_ hf
  intro i f hf
  rcases orElse_error hf with hf | hf
  · -- a call
    apply ((keeps_call h).expects (map_error.mp hf)).mono
    intro w hw
    exact .expression_of_primary (.ref (.alt (List.mem_cons_self ..) hw))
  rcases orElse_error hf with hf | hf
  · -- a literal or a name
    apply (expects_oneOf (map_error.mp hf) (by decide) (by decide)).mono
    intro w hw
    cases hw with
    | alt hmem hw =>
      have hchoice := List.mem_cons_of_mem (.ref .call) (List.mem_append_left
        [Ebnf.parens (.ref .expression)] hmem)
      exact .expression_of_primary (.ref (.alt hchoice hw))
  · -- an expression in parentheses
    have hgrouped : Keeps (grouped later) (.parens (.ref .expression)) :=
      (keeps_parens h).bind_pure fun _ => ⟨_, rfl⟩
    apply (hgrouped.expects hf).mono
    intro w hw
    exact .expression_of_primary (.ref (.alt (by simp) hw))

theorem expects_unary (h : later.Fair) (hf : unary later i = .error f) :
    f.Expects (.ref .expression) i := by
  rcases orElse_error hf with hf | hf
  · rcases bind_error.mp (withSpan_error.mp hf) with hf | ⟨op, j, hop, hf⟩
    · -- the operator itself
      have hprefixed : f.Expects (.seq [.oneOf [.minus, .notKw], .ref .unary]) i :=
        (expects_oneOf hf (by decide) (by decide)).cons rfl
      have hunary : f.Expects Nonterminal.unary.rule i := hprefixed.alt (List.mem_cons_self ..)
      exact hunary.ref.mono fun _ => Derives.expression_of_unary
    · -- what stands behind it starts an expression too
      obtain ⟨htakes, hmem⟩ := oneOf_ok.mp hop
      rcases bind_error.mp hf with hf | ⟨_, _, -, hf⟩
      · obtain ⟨k, read, next, hk, hread, hnamed, hgoes⟩ := h.unary hf
        refine ⟨k, op.kind :: read, next, hk, ?_, hnamed, ?_⟩
        · rw [htakes.kinds_eq, hread, List.cons_append]
        · intro w hw
          obtain ⟨v, hv⟩ := hgoes w hw
          exact ⟨v, prefixable_expression hmem _ hv⟩
      · exact absurd hf pure_ne_error
  · exact expects_primary h hf

/-- Operands fail at the first one or not at all. -/
theorem expects_leftAssoc {operand : Parser ts Node} {ks : List TokenKind}
    (h : ∀ {i f}, operand i = .error f → f.Expects (.ref .expression) i)
    (hf : leftAssoc operand ks i = .error f) : f.Expects (.ref .expression) i := by
  rcases bind_error.mp hf with hf | ⟨_, j, -, hf⟩
  · exact h (spanned_error.mp hf)
  · rcases bind_error.mp hf with hf | ⟨_, _, -, hf⟩
    · cases hf
    · exact absurd hf pure_ne_error

theorem keeps_expressionRule (hs : later.Sound) (h : later.Fair) :
    Keeps (expressionRule later) (.ref .expression) := by
  constructor
  · intro i j n hn
    exact .ref (written_expressionRule hs hn).stands
  · intro i f hf
    refine expects_named rfl ?_ hf
    refine expects_leftAssoc (expects_leftAssoc (expects_leftAssoc ?_))
    exact expects_leftAssoc (expects_leftAssoc (expects_unary h))

/-! ### Definitions -/

theorem keeps_parameterList :
    Keeps (parameterList : Parser ts ParameterList) (.ref .parameterDef) := by
  have hnames : Keeps (token .ident : Parser ts Token) (.kind .ident) := .token (by decide)
  have hlist := Keeps.surrounded .lParen .rParen (by decide) (by decide)
    hnames.separated.optional rfl
  exact .ref (.withSpan (hlist.bind_pure fun _ => ⟨_, rfl⟩))

theorem keeps_signature : Keeps (signature : Parser ts Signature) (.ref .signature) := by
  refine .ref (.withSpan (.token_bind (by decide) (fun _ => ?_) rfl))
  exact keeps_parameterList.last fun _ => ⟨_, rfl⟩

theorem keeps_functionDef (h : later.Fair) : Keeps (functionDef later) (.ref .functionDef) := by
  refine .ref (.withSpan (.token_bind (by decide) (fun _ => ?_) rfl))
  exact keeps_signature.bind (fun _ => h.block.last fun _ => ⟨_, rfl⟩) rfl

theorem keeps_procedureDef (h : later.Fair) : Keeps (procedureDef later) (.ref .procedureDef) := by
  refine .ref (.withSpan (.token_bind (by decide) (fun _ => ?_) rfl))
  exact keeps_signature.bind (fun _ => h.block.last fun _ => ⟨_, rfl⟩) rfl

theorem keeps_varDecl : Keeps (varDecl : Parser ts Node) (.ref .varDecl) := by
  refine .ref (.withSpan (.token_bind (by decide) (fun _ => ?_) rfl))
  refine .token_bind (by decide) (fun _ => ?_) rfl
  exact (Keeps.token (by decide)).last fun _ => ⟨_, rfl⟩

theorem keeps_varInit (h : later.Fair) : Keeps (varInit later) (.ref .varInit) := by
  refine .ref (.withSpan (.token_bind (by decide) (fun _ => ?_) rfl))
  refine .token_bind (by decide) (fun _ => .token_bind (by decide) (fun _ => ?_) rfl) rfl
  refine h.expression.bind (fun _ => ?_) rfl
  exact (Keeps.token (by decide)).last fun _ => ⟨_, rfl⟩

theorem keeps_declarationRule (h : later.Fair) : Keeps (declarationRule later) (.ref .global) := by
  refine .named (.ref (.orElse ?_ (.orElse ?_ (.orElse ?_ ?_)))) rfl
  · exact .alt 0 rfl (keeps_functionDef h)
  · exact .alt 1 rfl (keeps_procedureDef h)
  · exact .alt 2 rfl (keeps_varInit h)
  · exact .alt 3 rfl keeps_varDecl

/-! ### Simple statements -/

theorem keeps_assignment (h : later.Fair) : Keeps (assignment later) (.ref .assignment) := by
  refine .ref (.withSpan (.token_bind (by decide) (fun _ => ?_) rfl))
  refine .token_bind (by decide) (fun _ => ?_) rfl
  exact h.expression.last fun _ => ⟨_, rfl⟩

theorem keeps_assignmentStatement (h : later.Fair) :
    Keeps (assignmentStatement later) (.seq [.ref .assignment, .kind .semi]) := by
  refine (keeps_assignment h).bind (fun _ => ?_) rfl
  exact (Keeps.token (by decide)).last fun _ => ⟨_, rfl⟩

theorem keeps_callStatement (h : later.Fair) :
    Keeps (callStatement later) (.seq [.ref .call, .kind .semi]) := by
  refine (keeps_call h).bind (fun _ => ?_) rfl
  exact (Keeps.token (by decide)).last fun _ => ⟨_, rfl⟩

theorem keeps_returnStatement (h : later.Fair) :
    Keeps (returnStatement later) (.ref .returnStmt) := by
  refine .ref (.withSpan (.token_bind (by decide) (fun _ => ?_) rfl))
  refine h.expression.optional.bind (fun _ => ?_) rfl
  exact (Keeps.token (by decide)).last fun _ => ⟨_, rfl⟩

/-! ### Control statements -/

theorem keeps_condition (h : later.Fair) :
    Keeps (condition later) (.parens (.ref .expression)) :=
  (keeps_parens h).bind_pure fun _ => ⟨_, rfl⟩

theorem keeps_ifStatement (h : later.Fair) : Keeps (ifStatement later) (.ref .ifStmt) := by
  refine .ref (.withSpan (.token_bind (by decide) (fun _ => ?_) rfl))
  refine (keeps_condition h).bind (fun _ => h.block.bind (fun _ => ?_) rfl) rfl
  exact h.alternative.optional.last fun _ => ⟨_, rfl⟩

theorem keeps_elseIf (h : later.Fair) :
    Keeps (elseIf later) (.seq [.kind .elseKw, .kind .ifKw, .parens (.ref .expression),
      .ref .block, .opt (.ref .alternative)]) := by
  refine .withSpan (.token_bind (by decide) (fun _ => ?_) rfl)
  refine .token_bind (by decide) (fun _ => ?_) rfl
  refine (keeps_condition h).bind (fun _ => h.block.bind (fun _ => ?_) rfl) rfl
  exact h.alternative.optional.last fun _ => ⟨_, rfl⟩

theorem keeps_elseClause (h : later.Fair) :
    Keeps (elseClause later) (.seq [.kind .elseKw, .ref .block]) := by
  refine .withSpan (.token_bind (by decide) (fun _ => ?_) rfl)
  exact h.block.last fun _ => ⟨_, rfl⟩

theorem keeps_alternativeRule (h : later.Fair) :
    Keeps (alternativeRule later) (.ref .alternative) :=
  .ref (.orElse (.alt 0 rfl (keeps_elseIf h)) (.alt 1 rfl (keeps_elseClause h)))

theorem keeps_forInit (h : later.Fair) : Keeps (forInit later) (.ref .forInit) := by
  have hdeclaration : Keeps (forDeclaration later)
      (.seq [.kind .letKw, .kind .ident, .kind .eq, .ref .expression]) := by
    refine .withSpan (.token_bind (by decide) (fun _ => ?_) rfl)
    refine .token_bind (by decide) (fun _ => .token_bind (by decide) (fun _ => ?_) rfl) rfl
    exact h.expression.last fun _ => ⟨_, rfl⟩
  exact .ref (.orElse (.alt 0 rfl hdeclaration) (.alt 1 rfl (keeps_assignment h)))

theorem keeps_forStatement (h : later.Fair) : Keeps (forStatement later) (.ref .forStmt) := by
  refine .ref (.withSpan (.token_bind (by decide) (fun _ => ?_) rfl))
  refine .token_bind (by decide) (fun _ => ?_) rfl
  refine (keeps_forInit h).optional.bind (fun _ => .token_bind (by decide) (fun _ => ?_) rfl) rfl
  refine h.expression.optional.bind (fun _ => .token_bind (by decide) (fun _ => ?_) rfl) rfl
  refine (keeps_assignment h).optional.bind (fun _ => ?_) rfl
  refine .token_bind (by decide) (fun _ => ?_) rfl
  exact h.block.last fun _ => ⟨_, rfl⟩

theorem keeps_whileStatement (h : later.Fair) :
    Keeps (whileStatement later) (.ref .whileStmt) := by
  refine .ref (.withSpan (.token_bind (by decide) (fun _ => ?_) rfl))
  exact (keeps_condition h).bind (fun _ => h.block.last fun _ => ⟨_, rfl⟩) rfl

theorem keeps_caseClause (h : later.Fair) : Keeps (caseClause later) (.ref .caseClause) := by
  refine .ref (.withSpan (.token_bind (by decide) (fun _ => ?_) rfl))
  exact h.expression.bind (fun _ => h.block.last fun _ => ⟨_, rfl⟩) rfl

theorem keeps_switchStatement (h : later.Fair) :
    Keeps (switchStatement later) (.ref .switchStmt) := by
  refine .ref (.withSpan (.token_bind (by decide) (fun _ => ?_) rfl))
  refine (keeps_condition h).bind (fun _ => .token_bind (by decide) (fun _ => ?_) rfl) rfl
  exact ((keeps_caseClause h).manyUntil (by decide)).bind_pure fun _ => ⟨_, rfl⟩

/-! ### Blocks and statements -/

theorem keeps_blockRule (h : later.Fair) : Keeps (blockRule later) (.ref .block) := by
  refine .ref (.withSpan (.token_bind (by decide) (fun _ => ?_) rfl))
  exact (h.statement.manyUntil (by decide)).bind_pure fun _ => ⟨_, rfl⟩

theorem keeps_statementRule (h : later.Fair) : Keeps (statementRule later) (.ref .statement) := by
  refine .named (.ref (.orElse ?_ (.orElse ?_ (.orElse ?_ (.orElse ?_ (.orElse ?_ (.orElse ?_
    (.orElse ?_ (.orElse ?_ (.orElse ?_ (.orElse ?_ (.orElse ?_ ?_)))))))))))) rfl
  · exact .alt 0 rfl (keeps_functionDef h)
  · exact .alt 1 rfl (keeps_procedureDef h)
  · exact .alt 2 rfl (keeps_varInit h)
  · exact .alt 3 rfl keeps_varDecl
  · exact .alt 4 rfl (keeps_assignmentStatement h)
  · exact .alt 5 rfl (keeps_callStatement h)
  · exact .alt 6 rfl (keeps_returnStatement h)
  · exact .alt 7 rfl (keeps_ifStatement h)
  · exact .alt 8 rfl (keeps_forStatement h)
  · exact .alt 9 rfl (keeps_whileStatement h)
  · exact .alt 10 rfl (keeps_switchStatement h)
  · exact .alt 11 rfl (keeps_blockRule h).map

end Grammar

/-! ### All rounds -/

namespace Rules

/-- The rules before the first round fail everywhere, each with a construct it could start with. -/
theorem fair_stuck : (stuck : Rules ts).Fair where
  expression := .fail rfl .self
  unary hf := (Keeps.fail rfl .self).expects hf
  statement := .fail rfl .self
  block := by
    have hblock : GoesOn Nonterminal.block.rule [] (.kind .lBrace) := GoesOn.self.cons rfl
    exact .fail rfl (hblock.mono fun _ hw => .ref hw)
  alternative := by
    have hclause : GoesOn (.seq [.kind .elseKw, .ref .block]) [] (.kind .elseKw) :=
      GoesOn.self.cons rfl
    exact .fail rfl (hclause.mono fun _ hw => .ref (.alt (by simp) hw))

theorem Fair.next {later : Rules ts} (hs : later.Sound) (h : later.Fair) : later.next.Fair where
  expression := Grammar.keeps_expressionRule hs h
  unary := Grammar.expects_unary h
  statement := Grammar.keeps_statementRule h
  block := Grammar.keeps_blockRule h
  alternative := Grammar.keeps_alternativeRule h

theorem fair_upTo (n : Nat) : (upTo ts n).Fair := by
  induction n with
  | zero => exact fair_stuck
  | succ n ih => exact ih.next (sound_upTo n)

end Rules

/-- **The grammar fails fairly.** -/
theorem fair_grammar (ts : Array Token) : (grammar ts).Fair := Rules.fair_upTo _

/-! ### Programs -/

/-- Some program starts with a row of kinds. -/
def StartsProgram (row : List TokenKind) : Prop :=
  ∃ rest, Derives (.star (.ref .global)) (row ++ rest)

theorem StartsProgram.left {u v : List TokenKind} (h : StartsProgram (u ++ v)) :
    StartsProgram u := by
  obtain ⟨rest, h⟩ := h
  rw [List.append_assoc] at h
  exact ⟨v ++ rest, h⟩

theorem StartsProgram.eof_not_mem {row : List TokenKind} (h : StartsProgram row) :
    TokenKind.eof ∉ row := by
  obtain ⟨rest, h⟩ := h
  intro hmem
  exact h.eof_not_mem rfl (List.mem_append_left rest hmem)

/-- A program fails in a declaration, or behind some declarations where it might have ended. -/
theorem Grammar.program_error {i : Place ts} {f : ParseFailure} (hf : program ts i = .error f) :
    f.Expects (.star (.ref .global)) i ∨
      ∃ k, Stands (.star (.ref .global)) i k ∧ f = k.failure TokenKind.eof.displayName := by
  have hitem := keeps_declarationRule (fair_grammar ts)
  rcases bind_error.mp (withSpan_error.mp hf) with hf | ⟨_, _, -, hf⟩
  · obtain ⟨xs, k, hitems, hfailure | hfailure⟩ := manyUntil_error hf
    · exact Or.inl (hitem.expects_items hitems (hitem.expects hfailure).item)
    · exact Or.inr ⟨k, hitem.items hitems, token_error_eq hfailure⟩
  · exact absurd hf pure_ne_error

theorem parse_error {f : ParseFailure} :
    parse ts = .error f ↔ Grammar.program ts (Place.first ts) = .error f := by
  unfold parse
  cases Grammar.program ts (Place.first ts) with
  | ok r => simp [Except.map]
  | error e => simp [Except.map]

/-- What a list of tokens that does not parse starts with, and what could have come next. -/
theorem exists_read_of_parse_error {f : ParseFailure} (hf : parse ts = .error f) :
    ∃ (k : Place ts) (read : List TokenKind), f = k.failure f.construct ∧
      (Place.first ts).kinds = read ++ k.kinds ∧ StartsProgram read ∧
        (f.construct = TokenKind.eof.displayName ∧ Derives (.star (.ref .global)) read ∨
          ∃ next, Ebnf.named? f.construct = some next ∧
            ∀ w, Derives next w → StartsProgram (read ++ w)) := by
  rcases Grammar.program_error (parse_error.mp hf) with hfair | ⟨k, ⟨w, hw, hkinds⟩, rfl⟩
  · obtain ⟨k, read, next, hk, hkinds, hnamed, hgoes⟩ := hfair
    have hstarts : StartsProgram read := hgoes.beginning (Ebnf.inhabited_of_named? hnamed)
    exact ⟨k, read, hk, hkinds, hstarts, Or.inr ⟨next, hnamed, hgoes⟩⟩
  · have hstarts : StartsProgram w := by
      refine ⟨[], ?_⟩
      rw [List.append_nil]
      exact hw
    exact ⟨k, w, rfl, hkinds, hstarts, Or.inl ⟨rfl, hw⟩⟩

theorem Place.kinds_first (k : Place ts) :
    (first ts).kinds = (ts.toList.take k.val).map (·.kind) ++ k.kinds := by
  rw [kinds, kinds, tokens_first, tokens, ← List.map_append, List.take_append_drop]

/-- What is reported at a place: the token there, else the last one of all. -/
theorem Place.found_eq (k : Place ts) :
    k.found = if h : k.val < ts.size then ts[k.val] else ts.back?.getD Token.emptyEof := by
  unfold found peek?
  split
  · rename_i h
    rw [Array.getElem?_eq_getElem h]
    rfl
  · rename_i h
    rw [Array.getElem?_eq_none (by omega)]
    rfl

/-- **Failures to parse are fair and never late.**  The tokens in front of the reported one start
    some program, so it stands no further on than the first token with which they no longer
    do.  Either they are a program already, and its end was expected; or they start a program
    still when they are followed by whatever phrase of the construct that was expected. -/
theorem parse_failure_fair {f : ParseFailure} (hf : parse ts = .error f) :
    let read := (ts.toList.take f.offset).map (·.kind)
    TokenKind.eof ∉ read ∧ StartsProgram read ∧
      (∀ n, ¬ StartsProgram ((ts.toList.take n).map (·.kind)) → f.offset < n) ∧
      (f.construct = TokenKind.eof.displayName ∧ Derives (.star (.ref .global)) read ∨
        ∃ next, Ebnf.named? f.construct = some next ∧
          ∀ w, Derives next w → StartsProgram (read ++ w)) ∧
      f.found = if h : f.offset < ts.size then ts[f.offset] else ts.back?.getD Token.emptyEof := by
  obtain ⟨k, read, hk, hkinds, hstarts, hexpected⟩ := exists_read_of_parse_error hf
  have hoffset : f.offset = k.val := by rw [hk]; rfl
  have hread : read = (ts.toList.take f.offset).map (·.kind) := by
    rw [hoffset]
    exact List.append_cancel_right (hkinds.symm.trans k.kinds_first)
  rw [hread] at hstarts hexpected
  refine ⟨hstarts.eof_not_mem, hstarts, ?_, hexpected, ?_⟩
  · intro n hn
    apply Nat.lt_of_not_le
    intro hle
    -- fewer tokens start a program as well
    apply hn
    have hfewer : (ts.toList.take f.offset).take n = ts.toList.take n := by
      rw [List.take_take, Nat.min_eq_left hle]
    rw [← hfewer, List.map_take]
    rw [← List.take_append_drop n ((ts.toList.take f.offset).map (·.kind))] at hstarts
    exact hstarts.left
  · have hfound : f.found = k.found := by rw [hk]; rfl
    simp only [hfound, hoffset]
    exact k.found_eq

/-- Behind a prefix operator any expression could have come. -/
theorem parse_failure_behind_operator :
    ∃ f, parse (tokenize "let x = not;").tokens = .error f ∧ f.construct = "an expression" ∧
      ∀ w, Derives (.ref .expression) w →
        StartsProgram ([.letKw, .ident, .eq, .notKw] ++ w) := by
  cases h : parse (tokenize "let x = not;").tokens with
  | ok p =>
    have hfails : (parse (tokenize "let x = not;").tokens).toOption.isNone = true := by
      decide +kernel
    rw [h] at hfails
    cases hfails
  | error f =>
    have hreport : (match parse (tokenize "let x = not;").tokens with
        | .ok _ => none
        | .error f => some (f.construct, f.offset)) = some ("an expression", 4) := by
      decide +kernel
    rw [h] at hreport
    obtain ⟨hconstruct, hoffset⟩ := Prod.mk.inj (Option.some.inj hreport)
    obtain ⟨-, -, -, hexpected, -⟩ := parse_failure_fair h
    refine ⟨f, rfl, hconstruct, ?_⟩
    rw [hconstruct, hoffset] at hexpected
    rcases hexpected with ⟨heof, -⟩ | ⟨next, hnamed, hgoes⟩
    · exact absurd heof (by decide)
    · obtain rfl := Option.some.inj hnamed
      intro w hw
      have hread : ((tokenize "let x = not;").tokens.toList.take 4).map (·.kind) =
          [.letKw, .ident, .eq, .notKw] := by
        decide +kernel
      rw [← hread]
      exact hgoes w hw

end TarnLang
