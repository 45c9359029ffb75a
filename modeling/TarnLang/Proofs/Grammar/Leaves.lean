/-
  TarnLang/Proofs/Grammar/Leaves.lean
  ===================================
  **The leaves of a tree are the content of the tokens it was read from.**  Keywords of
  statements, the equals sign, parentheses, braces, commas and semicolons give a program
  its shape; every other token is content.  `Row i j l` says that `l` is the content between
  two places.  Rows of neighbouring stretches are put together by `Row.append`, so that the
  leaves of a phrase are followed through `Written` part by part: what a rule takes apart
  and stores in the fields of a node, the leaves read back in the order of the text.
-/
import TarnLang.Node.Leaves
import TarnLang.Proofs.Grammar.Soundness
import TarnLang.Proofs.Text.Lexer

namespace TarnLang

/-! ### Content -/

/-- Kinds of tokens that shape a program and leave nothing in its tree. -/
def shapingKinds : List TokenKind :=
  [.letKw, .fnKw, .procKw, .returnKw, .ifKw, .elseKw, .forKw, .whileKw, .switchKw, .caseKw, .eq,
    .lParen, .rParen, .lBrace, .rBrace, .comma, .semi]

/-- Whether a token is content. -/
def Token.isContent (t : Token) : Bool := t.kind ∉ shapingKinds

/-- Leaves of a phrase, in the order in which the node that holds it lists them. -/
def Phrase.leaves : Phrase → List Token
  | .binary _ n | .unary n | .primary n | .declaration n | .assignment n | .forInit n
  | .alternative n | .optional _ n | .statement n => n.leaves
  | .arguments ns | .statements ns | .declarations ns => Node.leavesOfList ns
  | .argumentList a => Node.leavesOfList a.arguments
  | .call c => (Node.call c).leaves
  | .names ns => ns
  | .parameterList p => p.names
  | .signature s => s.leaves
  | .block b => (Node.block b).leaves
  | .caseClause c => Node.leavesOfCases [c]
  | .cases cs => Node.leavesOfCases cs

namespace Place

variable {ts : Array Token} {i j k l : Place ts}

/-- The content between two places, in order. -/
def Row (i j : Place ts) (content : List Token) : Prop :=
  ∃ u, i.tokens = u ++ j.tokens ∧ u.filter Token.isContent = content

namespace Row

theorem nil : Row i i [] := ⟨[], rfl, rfl⟩

theorem append {a b : List Token} (h : Row i j a) (h' : Row j k b) : Row i k (a ++ b) := by
  obtain ⟨u, hu, rfl⟩ := h
  obtain ⟨v, hv, rfl⟩ := h'
  refine ⟨u ++ v, ?_, List.filter_append ..⟩
  rw [hu, hv, List.append_assoc]

end Row

namespace Takes

variable {kind : TokenKind} {t : Token} {content : List Token}

theorem row (h : Takes kind i t j) (hkind : kind ∉ shapingKinds) : Row i j [t] := by
  have hcontent : t.isContent = true := by
    rw [Token.isContent, h.kind_eq]
    exact decide_eq_true hkind
  exact ⟨[t], h.tokens_eq, List.filter_cons_of_pos hcontent⟩

theorem row_nil (h : Takes kind i t j) (hkind : kind ∈ shapingKinds) : Row i j [] := by
  have hcontent : ¬ t.isContent = true := by
    rw [Token.isContent, h.kind_eq]
    simpa using hkind
  exact ⟨[t], h.tokens_eq, List.filter_cons_of_neg hcontent⟩

/-- A token that is content comes in front of the content behind it. -/
theorem row_cons (h : Takes kind i t j) (hkind : kind ∉ shapingKinds) (hrow : Row j k content) :
    Row i k (t :: content) :=
  (h.row hkind).append hrow

/-- A token that only shapes the program may stand in front of a row. -/
theorem before (h : Takes kind i t j) (hkind : kind ∈ shapingKinds) (hrow : Row j k content) :
    Row i k content :=
  (h.row_nil hkind).append hrow

end Takes

/-- A token that only shapes the program may stand behind a row. -/
theorem Row.behind {kind : TokenKind} {t : Token} {content : List Token} (hrow : Row i j content)
    (h : Takes kind j t k) (hkind : kind ∈ shapingKinds) : Row i k content := by
  have hwhole := hrow.append (h.row_nil hkind)
  rwa [List.append_nil] at hwhole

end Place

open Place

/-! ### Leaves of phrases -/

variable {ts : Array Token}

theorem operators_content {level : Level} {k : TokenKind} (h : k ∈ level.operators) :
    k ∉ shapingKinds := by
  have hlevel : ∀ k ∈ level.operators, k ∉ shapingKinds := by
    cases level <;> decide
  exact hlevel k h

theorem prefix_operators_content {k : TokenKind} (h : k ∈ [.minus, .notKw]) : k ∉ shapingKinds := by
  revert k
  decide

theorem Phrase.leaves_operand (level : Level) (n : Node) : (operand level n).leaves = n.leaves := by
  cases level <;> rfl

theorem Phrase.leaves_part (p : OptionalPart) (n : Node) : (part p n).leaves = n.leaves := by
  cases p <;> rfl

theorem Node.leavesOfCases_cons (c : Case Node) (cs : List (Case Node)) :
    leavesOfCases (c :: cs) = leavesOfCases [c] ++ leavesOfCases cs := by
  simp [leavesOfCases]

/-- **Where a phrase is written, its leaves are the content.** -/
theorem Written.row {p : Phrase} {i j : Place ts} (h : Written p i j) : Row i j p.leaves := by
  induction h with
  | callValue _ ih => exact ih
  | literal ht hk =>
    refine ht.row ?_
    revert hk
    generalize Token.kind _ = k
    revert k
    decide
  | grouped ht _ ht' ih => exact ht.before (by decide) (ih.behind ht' (by decide))
  | prefixed hop hk _ ih => exact hop.row_cons (prefix_operators_content hk) ih
  | primaryUnary _ ih => exact ih
  | operand _ ih =>
    rw [Phrase.leaves_operand] at ih
    exact ih
  | operation _ hop hk _ ih ih' =>
    rw [Phrase.leaves_operand] at ih'
    exact ih.append (hop.row_cons (operators_content hk) ih')
  | lastArgument _ ih =>
    show Row _ _ (Node.leavesOfList [_])
    rw [Node.leavesOfList, Node.leavesOfList, List.append_nil]
    exact ih
  | moreArguments _ ht _ ih ih' => exact ih.append (ht.before (by decide) ih')
  | noArguments ht ht' => exact ht.before (by decide) (ht'.row_nil (by decide))
  | argumentList ht _ ht' ih => exact ht.before (by decide) (ih.behind ht' (by decide))
  | call ht _ ih => exact ht.row_cons (by decide) ih
  | lastName ht => exact ht.row (by decide)
  | moreNames ht ht' _ ih => exact ht.row_cons (by decide) (ht'.before (by decide) ih)
  | noParameters ht ht' => exact ht.before (by decide) (ht'.row_nil (by decide))
  | parameterList ht _ ht' ih => exact ht.before (by decide) (ih.behind ht' (by decide))
  | signature ht _ ih => exact ht.row_cons (by decide) ih
  | functionDef ht _ _ ih ih' => exact ht.before (by decide) (ih.append ih')
  | procedureDef ht _ _ ih ih' => exact ht.before (by decide) (ih.append ih')
  | varDecl ht hname ht' =>
    exact ht.before (by decide) ((hname.row (by decide)).behind ht' (by decide))
  | varInit ht hname ht' _ ht'' ih =>
    have hvalue := ht'.before (by decide) (ih.behind ht'' (by decide))
    exact ht.before (by decide) (hname.row_cons (by decide) hvalue)
  | assignment hname ht _ ih => exact hname.row_cons (by decide) (ht.before (by decide) ih)
  | forDeclaration ht hname ht' _ ih =>
    exact ht.before (by decide) (hname.row_cons (by decide) (ht'.before (by decide) ih))
  | forAssignment _ ih => exact ih
  | elseIf ht ht' ht₁ _ ht₂ _ _ ihn ihb iha =>
    have hcondition := ht₁.before (by decide) (ihn.behind ht₂ (by decide))
    have hrest := (hcondition.append ihb).append iha
    exact ht.before (by decide) (ht'.before (by decide) hrest)
  | elseClause ht _ ih => exact ht.before (by decide) ih
  | absent => exact .nil
  | present _ ih =>
    rw [Phrase.leaves_part] at ih
    exact ih
  | declarationStatement _ ih => exact ih
  | assignmentStatement _ ht ih => exact ih.behind ht (by decide)
  | callStatement _ ht ih => exact ih.behind ht (by decide)
  | returnStmt ht _ ht' ih => exact ht.before (by decide) (ih.behind ht' (by decide))
  | ifStmt ht ht₁ _ ht₂ _ _ ihn ihb iha =>
    have hcondition := ht₁.before (by decide) (ihn.behind ht₂ (by decide))
    exact ht.before (by decide) ((hcondition.append ihb).append iha)
  | forLoop ht ht₁ _ ht₂ _ ht₃ _ ht₄ _ ihi iht ihu ihb =>
    have hinit := ht₁.before (by decide) (ihi.behind ht₂ (by decide))
    have htest := hinit.append (iht.behind ht₃ (by decide))
    have hupdate := htest.append (ihu.behind ht₄ (by decide))
    exact ht.before (by decide) (hupdate.append ihb)
  | whileLoop ht ht₁ _ ht₂ _ ihn ihb =>
    have hcondition := ht₁.before (by decide) (ihn.behind ht₂ (by decide))
    exact ht.before (by decide) (hcondition.append ihb)
  | switchStmt ht ht₁ _ ht₂ ht₃ _ ht₄ ihn ihc =>
    have hsubject := ht₁.before (by decide) (ihn.behind ht₂ (by decide))
    have hcases := ht₃.before (by decide) (ihc.behind ht₄ (by decide))
    exact ht.before (by decide) (hsubject.append hcases)
  | blockStatement _ ih => exact ih
  | noStatements => exact .nil
  | moreStatements _ _ ih ih' => exact ih.append ih'
  | block ht _ ht' ih => exact ht.before (by decide) (ih.behind ht' (by decide))
  | caseClause ht _ _ ih ih' =>
    have hrow := ht.before (by decide) (ih.append ih')
    rw [← List.append_nil (_ ++ _)] at hrow
    exact hrow
  | noCases => exact .nil
  | moreCases _ _ ih ih' =>
    show Row _ _ (Node.leavesOfCases (_ :: _))
    rw [Node.leavesOfCases_cons]
    exact ih.append ih'
  | noDeclarations => exact .nil
  | moreDeclarations _ _ ih ih' => exact ih.append ih'

/-! ### Leaves of programs -/

theorem leaves_of_parse {p : Program} (hp : parse ts = .ok p) :
    p.leaves = (tokensBeforeEof ts).filter Token.isContent := by
  obtain ⟨k, eof, j, hwritten, -, -, htokens⟩ := exists_written_of_parse hp
  obtain ⟨u, hu, hleaves⟩ := hwritten.row
  have hsame : u = tokensBeforeEof ts := List.append_cancel_right (hu.symm.trans htokens)
  rw [← hsame, hleaves]
  rfl

/-- The span of a program holds the spans of the tokens in front of the end of file, when tokens
    stand in order. -/
theorem contains_of_parse {p : Program} (hp : parse ts = .ok p) (horder : InOrder ts.toList)
    {t : Token} (ht : t ∈ tokensBeforeEof ts) : p.span.contains t.span = true := by
  obtain ⟨k, eof, j, -, heof, hspan, htokens⟩ := exists_written_of_parse hp
  have hlist : ts.toList = tokensBeforeEof ts ++ eof :: j.tokens := by
    rw [← heof.tokens_eq]
    exact htokens
  have hforward := horder.forward
  have hapart := horder.apart
  rw [hlist] at hforward hapart
  obtain ⟨hbefore, -, hcross⟩ := List.pairwise_append.mp hapart
  have hstop : t.span.stop ≤ eof.span.stop := by
    have hbehind := (hcross t ht eof (List.mem_cons_self ..)).2
    have heof_forward := hforward eof (List.mem_append_right _ (List.mem_cons_self ..))
    exact Position.le_trans hbehind heof_forward
  -- the span starts at the first token of all, which `t` is or stands behind
  obtain ⟨head, rest, hhead⟩ := List.exists_cons_of_ne_nil (List.ne_nil_of_mem ht)
  have hstart : head.span.start ≤ t.span.start := by
    rw [hhead] at ht hbefore
    rcases List.mem_cons.mp ht with rfl | hrest
    · exact Position.le_refl _
    · exact Position.le_of_lt ((List.pairwise_cons.mp hbefore).1 t hrest).1
  have hlt : first ts < j := Fin.lt_of_le_of_lt (Fin.zero_le k) heof.lt
  obtain ⟨head', i, hhead'⟩ := exists_takes_of_lt hlt
  have hsame : head' = head := by
    rw [hhead'.tokens_eq, hhead] at htokens
    exact (List.cons.inj htokens).1
  rw [hspan, spanTo_eq_through hhead' heof hlt, hsame]
  exact decide_eq_true ⟨hstart, hstop⟩

/-- **The leaves of a program are its content.**  They are the tokens in front of the first end
    of file that do not merely shape the program, in their order.  Leaves of a text stand
    one behind the other, within the span of the program. -/
theorem leaves_eq_content {p : Program} (hp : parse ts = .ok p) :
    p.leaves = (tokensBeforeEof ts).filter Token.isContent ∧
      ∀ source : String, source.utf8ByteSize ≤ 2 ^ 32 - 2 → (tokenize source).tokens = ts →
        p.leaves.Pairwise (fun a b => a.span.precedes b.span) ∧
          ∀ t ∈ p.leaves, p.span.contains t.span := by
  refine ⟨leaves_of_parse hp, ?_⟩
  rintro source hsize rfl
  have hlength : source.utf8ByteSize < 2 ^ 32 - 1 := by omega
  have horder := inOrder_tokenize hlength
  rw [leaves_of_parse hp]
  constructor
  · have hsublist := (List.filter_sublist (p := Token.isContent)).trans
      (List.takeWhile_sublist (l := (tokenize source).tokens.toList) (·.kind ≠ .eof))
    exact (horder.apart.sublist hsublist).imp fun hapart => decide_eq_true hapart.2
  · intro t ht
    exact contains_of_parse hp horder (List.mem_filter.mp ht).1

theorem leaves_of_declaration :
    ∃ p, parse (tokenize "let x = 1;").tokens = .ok p ∧ p.leaves.map (·.text) = ["x", "1"] ∧
      p.leaves.Pairwise (fun a b => a.span.precedes b.span) := by
  cases h : parse (tokenize "let x = 1;").tokens with
  | ok p =>
    obtain ⟨hcontent, hsource⟩ := leaves_eq_content h
    refine ⟨p, rfl, ?_, (hsource _ (by decide) rfl).1⟩
    rw [hcontent]
    decide +kernel
  | error e =>
    have hok : (parse (tokenize "let x = 1;").tokens).toOption.isSome = true := by
      decide +kernel
    rw [h] at hok
    cases hok

end TarnLang
