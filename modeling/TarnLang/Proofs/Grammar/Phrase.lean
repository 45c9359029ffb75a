/-
  TarnLang/Proofs/Grammar/Phrase.lean
  ===================================
  **Which phrase stands where.**  A phrase is a node, or a part of one, in the role of a
  nonterminal.  `Written p i j` says that the tokens from place `i` up to place `j` are a
  spelling of `p`, spans included: it is the grammar with its trees.

  Operands and operators of one level are written from the left: an operation of a level
  has an operation of the same level on its left and one of the next tighter level on its
  right.  Parentheses leave no node, so a phrase may stand on more tokens than its node
  shows.
-/
import TarnLang.Grammar.Program
import TarnLang.Proofs.Parser.Success

namespace TarnLang

/-! ### Phrases -/

/-- Levels of binary operators, from the loosest to the tightest. -/
inductive Level
  | disjunction | conjunction | comparison | additive | multiplicative
deriving DecidableEq, Repr

/-- Operators of a level. -/
def Level.operators : Level → List TokenKind
  | disjunction => [.orKw]
  | conjunction => [.andKw]
  | comparison => [.eqEq, .bangEq, .lt, .gt, .ltEq, .gtEq]
  | additive => [.plus, .minus]
  | multiplicative => [.star, .slash, .percent]

/-- Parts of a statement that may be missing. -/
inductive OptionalPart
  | value | alternative | forInit | assignment
deriving DecidableEq, Repr

/-- A node or a part of one, in the role of a nonterminal. -/
inductive Phrase
  | binary (level : Level) (node : Node)
  | unary (node : Node)
  | primary (node : Node)
  | arguments (nodes : List Node)
  | argumentList (list : ArgumentList Node)
  | call (call : Call Node)
  | names (names : List Token)
  | parameterList (list : ParameterList)
  | signature (signature : Signature)
  | declaration (node : Node)
  | assignment (node : Node)
  | forInit (node : Node)
  | alternative (node : Node)
  | optional (part : OptionalPart) (node : Node)
  | statement (node : Node)
  | statements (nodes : List Node)
  | block (block : Block Node)
  | caseClause (case : Case Node)
  | cases (cases : List (Case Node))
  | declarations (nodes : List Node)

namespace Phrase

/-- A node as an expression. -/
def expression (n : Node) : Phrase := .binary .disjunction n

/-- A node as an operand of a level. -/
def operand : Level → Node → Phrase
  | .disjunction => .binary .conjunction
  | .conjunction => .binary .comparison
  | .comparison => .binary .additive
  | .additive => .binary .multiplicative
  | .multiplicative => .unary

/-- A node as a part that may be missing, where it is not. -/
def part : OptionalPart → Node → Phrase
  | .value => .expression
  | .alternative => .alternative
  | .forInit => .forInit
  | .assignment => .assignment

end Phrase

/-! ### Spellings -/

/-- The tokens from the first place up to the second spell a phrase. -/
inductive Written {ts : Array Token} : Phrase → Place ts → Place ts → Prop
  | callValue : Written (.call c) i j → Written (.primary (.call c)) i j
  | literal : i.Takes t.kind t j → t.kind ∈ [.int, .str, .trueKw, .falseKw, .ident] →
      Written (.primary (.leaf t)) i j
  | grouped : i.Takes .lParen t j → Written (.expression n) j k → k.Takes .rParen t' l →
      Written (.primary n) i l
  | prefixed : i.Takes op.kind op j → op.kind ∈ [.minus, .notKw] → Written (.unary n) j k →
      Written (.unary (.unary op n (i.spanTo k))) i k
  | primaryUnary : Written (.primary n) i j → Written (.unary n) i j
  | operand : Written (Phrase.operand level n) i j → Written (.binary level n) i j
  | operation : Written (.binary level a) i j → j.Takes op.kind op k → op.kind ∈ level.operators →
      Written (Phrase.operand level b) k l →
      Written (.binary level (.binary a op b (i.spanTo l))) i l
  | lastArgument : Written (.expression n) i j → Written (.arguments [n]) i j
  | moreArguments : Written (.expression n) i j → j.Takes .comma t k →
      Written (.arguments ns) k l → Written (.arguments (n :: ns)) i l
  | noArguments : i.Takes .lParen t j → j.Takes .rParen t' k →
      Written (.argumentList ⟨[], i.spanTo k⟩) i k
  | argumentList : i.Takes .lParen t j → Written (.arguments ns) j k → k.Takes .rParen t' l →
      Written (.argumentList ⟨ns, i.spanTo l⟩) i l
  | call : i.Takes .ident name j → Written (.argumentList list) j k →
      Written (.call ⟨name, list, i.spanTo k⟩) i k
  | lastName : i.Takes .ident name j → Written (.names [name]) i j
  | moreNames : i.Takes .ident name j → j.Takes .comma t k → Written (.names names) k l →
      Written (.names (name :: names)) i l
  | noParameters : i.Takes .lParen t j → j.Takes .rParen t' k →
      Written (.parameterList ⟨[], i.spanTo k⟩) i k
  | parameterList : i.Takes .lParen t j → Written (.names names) j k → k.Takes .rParen t' l →
      Written (.parameterList ⟨names, i.spanTo l⟩) i l
  | signature : i.Takes .ident name j → Written (.parameterList list) j k →
      Written (.signature ⟨name, list, i.spanTo k⟩) i k
  | functionDef : i.Takes .fnKw t j → Written (.signature s) j k → Written (.block b) k l →
      Written (.declaration (.functionDef s b (i.spanTo l))) i l
  | procedureDef : i.Takes .procKw t j → Written (.signature s) j k → Written (.block b) k l →
      Written (.declaration (.procedureDef s b (i.spanTo l))) i l
  | varDecl : i.Takes .letKw t j → j.Takes .ident name k → k.Takes .semi t' l →
      Written (.declaration (.varDecl name (i.spanTo l))) i l
  | varInit : i.Takes .letKw t j → j.Takes .ident name k → k.Takes .eq t' l →
      Written (.expression n) l m → m.Takes .semi t'' o →
      Written (.declaration (.varInit name n (i.spanTo o))) i o
  | assignment : i.Takes .ident name j → j.Takes .eq t k → Written (.expression n) k l →
      Written (.assignment (.assignment name n (i.spanTo l))) i l
  | forDeclaration : i.Takes .letKw t j → j.Takes .ident name k → k.Takes .eq t' l →
      Written (.expression n) l m → Written (.forInit (.varInit name n (i.spanTo m))) i m
  | forAssignment : Written (.assignment n) i j → Written (.forInit n) i j
  | elseIf : i.Takes .elseKw t j → j.Takes .ifKw t' k → k.Takes .lParen t₁ k' →
      Written (.expression n) k' l' → l'.Takes .rParen t₂ l → Written (.block b) l m →
      Written (.optional .alternative a) m o →
      Written (.alternative (.elseIf n b a (i.spanTo o))) i o
  | elseClause : i.Takes .elseKw t j → Written (.block b) j k →
      Written (.alternative (.elseClause b (i.spanTo k))) i k
  | absent : f = i.failure f.construct → Written (.optional part (.missing f)) i i
  | present : Written (Phrase.part part n) i j → Written (.optional part n) i j
  | declarationStatement : Written (.declaration n) i j → Written (.statement n) i j
  | assignmentStatement : Written (.assignment n) i j → j.Takes .semi t k →
      Written (.statement n) i k
  | callStatement : Written (.call c) i j → j.Takes .semi t k → Written (.statement (.call c)) i k
  | returnStmt : i.Takes .returnKw t j → Written (.optional .value n) j k → k.Takes .semi t' l →
      Written (.statement (.returnStmt n (i.spanTo l))) i l
  | ifStmt : i.Takes .ifKw t j → j.Takes .lParen t₁ j' → Written (.expression n) j' k' →
      k'.Takes .rParen t₂ k → Written (.block b) k l → Written (.optional .alternative a) l m →
      Written (.statement (.ifStmt n b a (i.spanTo m))) i m
  | forLoop : i.Takes .forKw t j → j.Takes .lParen t₁ k → Written (.optional .forInit init) k l →
      l.Takes .semi t₂ l' → Written (.optional .value test) l' m → m.Takes .semi t₃ m' →
      Written (.optional .assignment update) m' o → o.Takes .rParen t₄ o' →
      Written (.block b) o' q →
      Written (.statement (.forLoop init test update b (i.spanTo q))) i q
  | whileLoop : i.Takes .whileKw t j → j.Takes .lParen t₁ j' → Written (.expression n) j' k' →
      k'.Takes .rParen t₂ k → Written (.block b) k l →
      Written (.statement (.whileLoop n b (i.spanTo l))) i l
  | switchStmt : i.Takes .switchKw t j → j.Takes .lParen t₁ j' → Written (.expression n) j' k' →
      k'.Takes .rParen t₂ k → k.Takes .lBrace t₃ l → Written (.cases cs) l m →
      m.Takes .rBrace t₄ o → Written (.statement (.switchStmt n cs (i.spanTo o))) i o
  | blockStatement : Written (.block b) i j → Written (.statement (.block b)) i j
  | noStatements : Written (.statements []) i i
  | moreStatements : Written (.statement n) i j → Written (.statements ns) j k →
      Written (.statements (n :: ns)) i k
  | block : i.Takes .lBrace t j → Written (.statements ns) j k → k.Takes .rBrace t' l →
      Written (.block ⟨ns, i.spanTo l⟩) i l
  | caseClause : i.Takes .caseKw t j → Written (.expression n) j k → Written (.block b) k l →
      Written (.caseClause ⟨n, b, i.spanTo l⟩) i l
  | noCases : Written (.cases []) i i
  | moreCases : Written (.caseClause c) i j → Written (.cases cs) j k →
      Written (.cases (c :: cs)) i k
  | noDeclarations : Written (.declarations []) i i
  | moreDeclarations : Written (.declaration n) i j → Written (.declarations ns) j k →
      Written (.declarations (n :: ns)) i k

end TarnLang
