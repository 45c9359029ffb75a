/-
  TarnLang/Node/Basic.lean
  ========================
  **The syntax tree.**  A node is a declaration, a statement, an expression, or the
  mark of an optional part that is missing.  All of them are one type, so a node of any
  shape can stand in any position; which shapes stand where is a property of the trees
  that the grammar builds, not of the type.

  Parts with a fixed place in their parent (signatures, parameter and argument lists,
  blocks, cases) are embedded as structures.  Those that hold nodes take the type of
  nodes as a parameter.  A leaf is a token kept as it is: a name, a literal or an
  operator.
-/
import TarnLang.Failure
import TarnLang.Parser.Choice

namespace TarnLang

/-! ### Embedded parts -/

/-- Declared parameter names, with the parentheses. -/
structure ParameterList where
  names : List Token
  span : Span
deriving DecidableEq, Repr

/-- Name and parameters of a function or procedure. -/
structure Signature where
  name : Token
  parameters : ParameterList
  span : Span
deriving DecidableEq, Repr

structure Block (ν : Type) where
  statements : List ν
  span : Span
deriving Repr

/-- Arguments of a call, with the parentheses. -/
structure ArgumentList (ν : Type) where
  arguments : List ν
  span : Span
deriving Repr

structure Call (ν : Type) where
  name : Token
  arguments : ArgumentList ν
  span : Span
deriving Repr

/-- A value of a switch and what to do for it. -/
structure Case (ν : Type) where
  value : ν
  body : Block ν
  span : Span
deriving Repr

/-! ### Nodes -/

/-- A node of the syntax tree.  The alternative of an `if` or `else if`, the value of a
    `return` and the three clauses of a `for` may be missing. -/
inductive Node
  | functionDef (signature : Signature) (body : Block Node) (span : Span)
  | procedureDef (signature : Signature) (body : Block Node) (span : Span)
  | varDecl (name : Token) (span : Span)
  | varInit (name : Token) (value : Node) (span : Span)
  | assignment (name : Token) (value : Node) (span : Span)
  | call (call : Call Node)
  | block (block : Block Node)
  | returnStmt (value : Node) (span : Span)
  | ifStmt (condition : Node) (body : Block Node) (alternative : Node) (span : Span)
  | elseIf (condition : Node) (body : Block Node) (alternative : Node) (span : Span)
  | elseClause (body : Block Node) (span : Span)
  | forLoop (init test update : Node) (body : Block Node) (span : Span)
  | whileLoop (condition : Node) (body : Block Node) (span : Span)
  | switchStmt (subject : Node) (cases : List (Case Node)) (span : Span)
  | binary (left : Node) (operator : Token) (right : Node) (span : Span)
  | unary (operator : Token) (operand : Node) (span : Span)
  | leaf (token : Token)
  | missing (failure : ParseFailure)
deriving Repr

instance : Inhabited Node := ⟨.missing default⟩

instance : Absent Node := ⟨Node.missing⟩

/-- A whole program: its declarations, and the span of all its tokens. -/
structure Program where
  declarations : List Node
  span : Span
deriving Repr

/-! ### Asking a node -/

/-- Why a question to a node has no answer: the node is the mark of a missing part, or
    it is of another shape. -/
inductive AccessError
  | missing (expected : String) (failure : ParseFailure)
  | wrongShape (expected found : String)
deriving DecidableEq, Repr

def AccessError.message : AccessError → String
  | missing expected failure =>
    "expected " ++ expected ++ ", but the optional element is absent (" ++ failure.message ++ ")"
  | wrongShape expected found => "expected " ++ expected ++ ", found a " ++ found ++ " node"

namespace Node

def kindName : Node → String
  | functionDef .. => "function definition"
  | procedureDef .. => "procedure definition"
  | varDecl .. => "variable declaration"
  | varInit .. => "variable initialization"
  | assignment .. => "assignment"
  | call _ => "call"
  | block _ => "block"
  | returnStmt .. => "return statement"
  | ifStmt .. => "if statement"
  | elseIf .. => "else-if clause"
  | elseClause .. => "else clause"
  | forLoop .. => "for loop"
  | whileLoop .. => "while loop"
  | switchStmt .. => "switch statement"
  | binary .. => "binary operation"
  | unary .. => "unary operation"
  | leaf _ => "leaf"
  | missing _ => "missing"

def missingFailure? : Node → Option ParseFailure
  | missing failure => some failure
  | _ => none

def isMissing (n : Node) : Bool := n.missingFailure?.isSome

/-- Span of a node; a missing part has none. -/
def span : Node → Except AccessError Span
  | functionDef _ _ span => .ok span
  | procedureDef _ _ span => .ok span
  | varDecl _ span => .ok span
  | varInit _ _ span => .ok span
  | assignment _ _ span => .ok span
  | call c => .ok c.span
  | block b => .ok b.span
  | returnStmt _ span => .ok span
  | ifStmt _ _ _ span => .ok span
  | elseIf _ _ _ span => .ok span
  | elseClause _ span => .ok span
  | forLoop _ _ _ _ span => .ok span
  | whileLoop _ _ span => .ok span
  | switchStmt _ _ span => .ok span
  | binary _ _ _ span => .ok span
  | unary _ _ span => .ok span
  | leaf t => .ok t.span
  | missing failure => .error (.missing "a span" failure)

/-- Span of a node, if it has one. -/
def span? (n : Node) : Option Span := n.span.toOption

def declaredName : Node → Except AccessError Token
  | varDecl name _ => .ok name
  | varInit name _ _ => .ok name
  | functionDef signature _ _ => .ok signature.name
  | procedureDef signature _ _ => .ok signature.name
  | missing failure => .error (.missing "a declared symbol name" failure)
  | n => .error (.wrongShape "a declaration" n.kindName)

def leafToken : Node → Except AccessError Token
  | leaf t => .ok t
  | missing failure => .error (.missing "a leaf" failure)
  | n => .error (.wrongShape "a leaf" n.kindName)

end Node

end TarnLang
