/-
  TarnLang/Proofs/Grammar/Ebnf.lean
  =================================
  **The context-free grammar of the language.**  Right-hand sides are written in the
  notation of the language description: kinds of tokens, nonterminals, sequences,
  choices, optional parts and repetitions.  `Nonterminal.rule` is the grammar itself, one
  line for each nonterminal.

  `Derives` says which rows of token kinds a right-hand side stands for.  It knows nothing
  of places, of the order of alternatives or of failures: whatever some choice of
  alternatives and repetitions gives is derivable.
-/
import TarnLang.Token

namespace TarnLang

/-! ### Right-hand sides -/

/-- The nonterminals of the grammar. -/
inductive Nonterminal
  | global | functionDef | procedureDef | signature | parameterDef | varDecl | varInit
  | statement | assignment | returnStmt | block | ifStmt | alternative | forStmt | forInit
  | whileStmt | switchStmt | caseClause | call | parameterPass
  | expression | disjunction | conjunction | comparison | additive | multiplicative | unary | primary
deriving DecidableEq, Repr

/-- Right-hand sides. -/
inductive Ebnf
  | kind (kind : TokenKind)
  | ref (name : Nonterminal)
  | seq (parts : List Ebnf)
  | alt (choices : List Ebnf)
  | opt (part : Ebnf)
  | star (part : Ebnf)

namespace Ebnf

/-- A part in parentheses. -/
def parens (part : Ebnf) : Ebnf := .seq [.kind .lParen, part, .kind .rParen]

/-- One or more parts with commas between them. -/
def commaList (part : Ebnf) : Ebnf := .seq [part, .star (.seq [.kind .comma, part])]

/-- One of several kinds of tokens. -/
def oneOf (kinds : List TokenKind) : Ebnf := .alt (kinds.map .kind)

/-- Operands with operators between them. -/
def infixed (operand : Ebnf) (operators : List TokenKind) : Ebnf :=
  .seq [operand, .star (.seq [oneOf operators, operand])]

end Ebnf

open Ebnf in
/-- The right-hand side of each nonterminal. -/
def Nonterminal.rule : Nonterminal → Ebnf
  | global => .alt [.ref functionDef, .ref procedureDef, .ref varInit, .ref varDecl]
  | functionDef => .seq [.kind .fnKw, .ref signature, .ref block]
  | procedureDef => .seq [.kind .procKw, .ref signature, .ref block]
  | signature => .seq [.kind .ident, .ref parameterDef]
  | parameterDef => parens (.opt (commaList (.kind .ident)))
  | varDecl => .seq [.kind .letKw, .kind .ident, .kind .semi]
  | varInit => .seq [.kind .letKw, .kind .ident, .kind .eq, .ref expression, .kind .semi]
  | statement =>
    .alt [.ref functionDef, .ref procedureDef, .ref varInit, .ref varDecl,
      .seq [.ref assignment, .kind .semi], .seq [.ref call, .kind .semi], .ref returnStmt,
      .ref ifStmt, .ref forStmt, .ref whileStmt, .ref switchStmt, .ref block]
  | assignment => .seq [.kind .ident, .kind .eq, .ref expression]
  | returnStmt => .seq [.kind .returnKw, .opt (.ref expression), .kind .semi]
  | block => .seq [.kind .lBrace, .star (.ref statement), .kind .rBrace]
  | ifStmt => .seq [.kind .ifKw, parens (.ref expression), .ref block, .opt (.ref alternative)]
  | alternative =>
    .alt [.seq [.kind .elseKw, .kind .ifKw, parens (.ref expression), .ref block,
        .opt (.ref alternative)],
      .seq [.kind .elseKw, .ref block]]
  | forStmt =>
    .seq [.kind .forKw, .kind .lParen, .opt (.ref forInit), .kind .semi, .opt (.ref expression),
      .kind .semi, .opt (.ref assignment), .kind .rParen, .ref block]
  | forInit => .alt [.seq [.kind .letKw, .kind .ident, .kind .eq, .ref expression], .ref assignment]
  | whileStmt => .seq [.kind .whileKw, parens (.ref expression), .ref block]
  | switchStmt =>
    .seq [.kind .switchKw, parens (.ref expression), .kind .lBrace, .star (.ref caseClause),
      .kind .rBrace]
  | caseClause => .seq [.kind .caseKw, .ref expression, .ref block]
  | call => .seq [.kind .ident, .ref parameterPass]
  | parameterPass => parens (.opt (commaList (.ref expression)))
  | expression => .ref disjunction
  | disjunction => infixed (.ref conjunction) [.orKw]
  | conjunction => infixed (.ref comparison) [.andKw]
  | comparison => infixed (.ref additive) [.eqEq, .bangEq, .lt, .gt, .ltEq, .gtEq]
  | additive => infixed (.ref multiplicative) [.plus, .minus]
  | multiplicative => infixed (.ref unary) [.star, .slash, .percent]
  | unary => .alt [.seq [oneOf [.minus, .notKw], .ref unary], .ref primary]
  | primary =>
    .alt [.ref call, .kind .int, .kind .str, .kind .trueKw, .kind .falseKw, .kind .ident,
      parens (.ref expression)]

/-! ### Derivations -/

/-- The rows of token kinds that a right-hand side derives. -/
inductive Derives : Ebnf → List TokenKind → Prop
  | kind {k : TokenKind} : Derives (.kind k) [k]
  | ref {n : Nonterminal} {w : List TokenKind} : Derives n.rule w → Derives (.ref n) w
  | nil : Derives (.seq []) []
  | cons {e : Ebnf} {es : List Ebnf} {u v : List TokenKind} :
      Derives e u → Derives (.seq es) v → Derives (.seq (e :: es)) (u ++ v)
  | alt {e : Ebnf} {es : List Ebnf} {w : List TokenKind} :
      e ∈ es → Derives e w → Derives (.alt es) w
  | absent {e : Ebnf} : Derives (.opt e) []
  | present {e : Ebnf} {w : List TokenKind} : Derives e w → Derives (.opt e) w
  | done {e : Ebnf} : Derives (.star e) []
  | more {e : Ebnf} {u v : List TokenKind} :
      Derives e u → Derives (.star e) v → Derives (.star e) (u ++ v)

/-! ### Kinds that a derivation may hold

`mentions`, `nullable` and `first` look at a right-hand side alone: a nonterminal counts as
mentioning nothing and as not empty, and what it may start with is read from a table.  That
the rules agree with this is checked rule by rule, and an induction over derivations does
the rest. -/

mutual

/-- Whether a right-hand side, its nonterminals aside, speaks of a kind of token. -/
def Ebnf.mentions (k : TokenKind) : Ebnf → Bool
  | .kind k' => k' = k
  | .ref _ => false
  | .seq es => Ebnf.anyMentions k es
  | .alt es => Ebnf.anyMentions k es
  | .opt e => e.mentions k
  | .star e => e.mentions k

def Ebnf.anyMentions (k : TokenKind) : List Ebnf → Bool
  | [] => false
  | e :: es => e.mentions k || Ebnf.anyMentions k es

end

mutual

/-- Whether a right-hand side may stand for nothing. -/
def Ebnf.nullable : Ebnf → Bool
  | .kind _ => false
  | .ref _ => false
  | .seq es => Ebnf.allNullable es
  | .alt es => Ebnf.anyNullable es
  | .opt _ => true
  | .star _ => true

def Ebnf.allNullable : List Ebnf → Bool
  | [] => true
  | e :: es => e.nullable && Ebnf.allNullable es

def Ebnf.anyNullable : List Ebnf → Bool
  | [] => false
  | e :: es => e.nullable || Ebnf.anyNullable es

end

/-- Kinds that an expression may start with. -/
def firstOfExpression : List TokenKind :=
  [.minus, .notKw, .ident, .int, .str, .trueKw, .falseKw, .lParen]

/-- Kinds that a phrase may start with. -/
def Nonterminal.first : Nonterminal → List TokenKind
  | global => [.fnKw, .procKw, .letKw]
  | functionDef => [.fnKw]
  | procedureDef => [.procKw]
  | signature | assignment | call => [.ident]
  | parameterDef | parameterPass => [.lParen]
  | varDecl | varInit => [.letKw]
  | statement =>
    [.fnKw, .procKw, .letKw, .ident, .returnKw, .ifKw, .forKw, .whileKw, .switchKw, .lBrace]
  | returnStmt => [.returnKw]
  | block => [.lBrace]
  | ifStmt => [.ifKw]
  | alternative => [.elseKw]
  | forStmt => [.forKw]
  | forInit => [.letKw, .ident]
  | whileStmt => [.whileKw]
  | switchStmt => [.switchKw]
  | caseClause => [.caseKw]
  | primary => [.ident, .int, .str, .trueKw, .falseKw, .lParen]
  | expression | disjunction | conjunction | comparison | additive | multiplicative | unary =>
    firstOfExpression

mutual

/-- Kinds that a right-hand side may start with. -/
def Ebnf.first : Ebnf → List TokenKind
  | .kind k => [k]
  | .ref n => n.first
  | .seq es => Ebnf.firstOfSeq es
  | .alt es => Ebnf.firstOfAlt es
  | .opt e => e.first
  | .star e => e.first

def Ebnf.firstOfSeq : List Ebnf → List TokenKind
  | [] => []
  | e :: es => if e.nullable then e.first ++ Ebnf.firstOfSeq es else e.first

def Ebnf.firstOfAlt : List Ebnf → List TokenKind
  | [] => []
  | e :: es => e.first ++ Ebnf.firstOfAlt es

end

theorem Nonterminal.not_mentions_eof (n : Nonterminal) : n.rule.mentions .eof = false := by
  cases n <;> decide +kernel

theorem Nonterminal.not_nullable (n : Nonterminal) : n.rule.nullable = false := by
  cases n <;> decide +kernel

theorem Nonterminal.first_rule (n : Nonterminal) : ∀ k ∈ n.rule.first, k ∈ n.first := by
  cases n <;> decide +kernel

theorem Ebnf.anyMentions_of_mem {k : TokenKind} {e : Ebnf} {es : List Ebnf} (he : e ∈ es)
    (hk : e.mentions k = true) : Ebnf.anyMentions k es = true := by
  induction es with
  | nil => cases he
  | cons e' es ih =>
    rcases List.mem_cons.mp he with rfl | he
    · simp [Ebnf.anyMentions, hk]
    · simp [Ebnf.anyMentions, ih he]

theorem Ebnf.anyNullable_of_mem {e : Ebnf} {es : List Ebnf} (he : e ∈ es)
    (hn : e.nullable = true) : Ebnf.anyNullable es = true := by
  induction es with
  | nil => cases he
  | cons e' es ih =>
    rcases List.mem_cons.mp he with rfl | he
    · simp [Ebnf.anyNullable, hn]
    · simp [Ebnf.anyNullable, ih he]

theorem Ebnf.first_subset_firstOfAlt {k : TokenKind} {e : Ebnf} {es : List Ebnf} (he : e ∈ es)
    (hk : k ∈ e.first) : k ∈ Ebnf.firstOfAlt es := by
  induction es with
  | nil => cases he
  | cons e' es ih =>
    rcases List.mem_cons.mp he with rfl | he
    · simp [Ebnf.firstOfAlt, hk]
    · simp [Ebnf.firstOfAlt, ih he]

/-- **What the grammar derives holds no end of file.** -/
theorem Derives.eof_not_mem {e : Ebnf} {w : List TokenKind} (h : Derives e w)
    (he : e.mentions .eof = false) : TokenKind.eof ∉ w := by
  have hmentions : TokenKind.eof ∈ w → e.mentions .eof = true := by
    clear he
    induction h with
    | kind =>
      intro hk
      simp [Ebnf.mentions, List.mem_singleton.mp hk]
    | @ref n w _ ih =>
      intro hk
      have := ih hk
      rw [n.not_mentions_eof] at this
      cases this
    | nil => exact fun hk => nomatch hk
    | cons _ _ ihe ihes =>
      intro hk
      simp only [Ebnf.mentions, Ebnf.anyMentions, Bool.or_eq_true]
      rcases List.mem_append.mp hk with hu | hv
      · exact Or.inl (ihe hu)
      · exact Or.inr (ihes hv)
    | alt he _ ih => exact fun hk => Ebnf.anyMentions_of_mem he (ih hk)
    | absent => exact fun hk => nomatch hk
    | present _ ih => exact ih
    | done => exact fun hk => nomatch hk
    | more _ _ ihe ihes =>
      intro hk
      rcases List.mem_append.mp hk with hu | hv
      · exact ihe hu
      · exact ihes hv
  intro hk
  rw [he] at hmentions
  cases hmentions hk

/-- A right-hand side that derives nothing is nullable. -/
theorem Derives.nullable {e : Ebnf} {w : List TokenKind} (h : Derives e w) (hw : w = []) :
    e.nullable = true := by
  induction h with
  | kind => cases hw
  | @ref n w _ ih =>
    have := ih hw
    rw [n.not_nullable] at this
    cases this
  | nil => rfl
  | cons _ _ ihe ihes =>
    obtain ⟨hu, hv⟩ := List.append_eq_nil_iff.mp hw
    simp only [Ebnf.nullable, Ebnf.allNullable, Bool.and_eq_true]
    exact ⟨ihe hu, ihes hv⟩
  | alt he _ ih => exact Ebnf.anyNullable_of_mem he (ih hw)
  | absent => rfl
  | present => rfl
  | done => rfl
  | more => rfl

/-- A derived row starts with a kind that its right-hand side may start with. -/
theorem Derives.head_mem_first {e : Ebnf} {w : List TokenKind} (h : Derives e w)
    {k : TokenKind} (hk : w.head? = some k) : k ∈ e.first := by
  induction h with
  | kind =>
    cases hk
    exact List.mem_singleton.mpr rfl
  | @ref n w _ ih => exact n.first_rule k (ih hk)
  | nil => cases hk
  | @cons e es u v he _ ihe ihes =>
    simp only [Ebnf.first, Ebnf.firstOfSeq]
    cases u with
    | nil =>
      rw [if_pos (he.nullable rfl)]
      exact List.mem_append_right _ (ihes hk)
    | cons k' u =>
      have := ihe hk
      split
      · exact List.mem_append_left _ this
      · exact this
  | alt he _ ih => exact Ebnf.first_subset_firstOfAlt he (ih hk)
  | absent => cases hk
  | present _ ih => exact ih hk
  | done => cases hk
  | @more e u v _ _ ihe ihes =>
    cases u with
    | nil => exact ihes hk
    | cons k' u => exact ihe hk

/-! ### Longer phrases -/

/-- A list with commas, longer by an item in front. -/
theorem Derives.commaList_cons {e : Ebnf} {u w : List TokenKind} (hu : Derives e u)
    (hw : Derives (.commaList e) w) : Derives (.commaList e) (u ++ .comma :: w) := by
  cases hw with
  | @cons _ _ a b hitem hrest =>
    cases hrest with
    | @cons _ _ b c hstar hnil =>
      have hsecond : Derives (.seq [.kind .comma, e]) (.comma :: (a ++ [])) :=
        .cons .kind (.cons hitem .nil)
      rw [List.append_nil] at hsecond
      have hlist := Derives.cons hu (.cons (.more hsecond hstar) hnil)
      rw [List.append_assoc, List.cons_append] at hlist
      exact hlist

end TarnLang
