/-
  TarnLang/Grammar/Statement.lean
  ===============================
  **Statements and declarations.**  Definitions of functions and procedures, variables,
  assignments, calls, control statements and blocks.  A definition may stand wherever a
  statement may.

  An assignment does not hold its semicolon, and a call used as a statement is the call
  itself, so neither span reaches the semicolon.
-/
import TarnLang.Grammar.Expression

namespace TarnLang.Grammar

open TarnLang.Parser

variable {ts : Array Token}

/-! ### Definitions -/

/-- Parameter names, in parentheses. -/
def parameterList : Parser ts ParameterList := withSpan do
  let (_, names, _) ← surrounded (token .lParen) (token .rParen)
    (optional (separated (token .comma) (token .ident)))
  pure fun span => { names, span }

def signature : Parser ts Signature := withSpan do
  let name ← token .ident
  let parameters ← parameterList
  pure fun span => { name, parameters, span }

def functionDef (later : Rules ts) : Parser ts Node := withSpan do
  let _ ← token .fnKw
  let signature ← signature
  let body ← later.block
  pure fun span => .functionDef signature body span

def procedureDef (later : Rules ts) : Parser ts Node := withSpan do
  let _ ← token .procKw
  let signature ← signature
  let body ← later.block
  pure fun span => .procedureDef signature body span

def varDecl : Parser ts Node := withSpan do
  let _ ← token .letKw
  let name ← token .ident
  let _ ← token .semi
  pure fun span => .varDecl name span

/-- Declaration of a variable with its first value. -/
def varInit (later : Rules ts) : Parser ts Node := withSpan do
  let _ ← token .letKw
  let name ← token .ident
  let _ ← token .eq
  let value ← later.expression
  let _ ← token .semi
  pure fun span => .varInit name value span

/-! ### Simple statements -/

/-- A name and the value it is given. -/
def assignment (later : Rules ts) : Parser ts Node := withSpan do
  let name ← token .ident
  let _ ← token .eq
  let value ← later.expression
  pure fun span => .assignment name value span

def assignmentStatement (later : Rules ts) : Parser ts Node := do
  let node ← assignment later
  let _ ← token .semi
  pure node

def callStatement (later : Rules ts) : Parser ts Node := do
  let c ← call later
  let _ ← token .semi
  pure (.call c)

/-- Return, with or without a value. -/
def returnStatement (later : Rules ts) : Parser ts Node := withSpan do
  let _ ← token .returnKw
  let value ← optional later.expression
  let _ ← token .semi
  pure fun span => .returnStmt value span

/-! ### Control statements -/

/-- A condition, in parentheses that leave no node. -/
def condition (later : Rules ts) : Parser ts Node := do
  let (_, inner, _) ← surrounded (token .lParen) (token .rParen) later.expression
  pure inner

/-- An `if` with its alternative, if any. -/
def ifStatement (later : Rules ts) : Parser ts Node := withSpan do
  let _ ← token .ifKw
  let condition ← condition later
  let body ← later.block
  let alternative ← optional later.alternative
  pure fun span => .ifStmt condition body alternative span

/-- An `else if` with its own alternative, if any. -/
def elseIf (later : Rules ts) : Parser ts Node := withSpan do
  let _ ← token .elseKw
  let _ ← token .ifKw
  let condition ← condition later
  let body ← later.block
  let alternative ← optional later.alternative
  pure fun span => .elseIf condition body alternative span

/-- A final `else`. -/
def elseClause (later : Rules ts) : Parser ts Node := withSpan do
  let _ ← token .elseKw
  let body ← later.block
  pure fun span => .elseClause body span

/-- What follows the body of an `if`. -/
def alternativeRule (later : Rules ts) : Parser ts Node := elseIf later <|> elseClause later

/-- Declaration in the first clause of a `for`. -/
def forDeclaration (later : Rules ts) : Parser ts Node := withSpan do
  let _ ← token .letKw
  let name ← token .ident
  let _ ← token .eq
  let value ← later.expression
  pure fun span => .varInit name value span

/-- First clause of a `for`. -/
def forInit (later : Rules ts) : Parser ts Node := forDeclaration later <|> assignment later

/-- A `for` with its three clauses, each of which may be missing. -/
def forStatement (later : Rules ts) : Parser ts Node := withSpan do
  let _ ← token .forKw
  let _ ← token .lParen
  let init ← optional (forInit later)
  let _ ← token .semi
  let test ← optional later.expression
  let _ ← token .semi
  let update ← optional (assignment later)
  let _ ← token .rParen
  let body ← later.block
  pure fun span => .forLoop init test update body span

/-- A `while`. -/
def whileStatement (later : Rules ts) : Parser ts Node := withSpan do
  let _ ← token .whileKw
  let condition ← condition later
  let body ← later.block
  pure fun span => .whileLoop condition body span

/-- A value of a switch and its body. -/
def caseClause (later : Rules ts) : Parser ts (Case Node) := withSpan do
  let _ ← token .caseKw
  let value ← later.expression
  let body ← later.block
  pure fun span => { value, body, span }

/-- A `switch` with its cases. -/
def switchStatement (later : Rules ts) : Parser ts Node := withSpan do
  let _ ← token .switchKw
  let subject ← condition later
  let _ ← token .lBrace
  let (cases, _) ← manyUntil (caseClause later) (token .rBrace)
  pure fun span => .switchStmt subject cases span

/-! ### Blocks and statements -/

def blockRule (later : Rules ts) : Parser ts (Block Node) := withSpan do
  let _ ← token .lBrace
  let (statements, _) ← manyUntil later.statement (token .rBrace)
  pure fun span => { statements, span }

def statementRule (later : Rules ts) : Parser ts Node :=
  named "a statement"
    (functionDef later <|> procedureDef later <|> varInit later <|> varDecl
      <|> assignmentStatement later <|> callStatement later <|> returnStatement later
      <|> ifStatement later <|> forStatement later <|> whileStatement later
      <|> switchStatement later <|> Node.block <$> blockRule later)

def declarationRule (later : Rules ts) : Parser ts Node :=
  named "a declaration"
    (functionDef later <|> procedureDef later <|> varInit later <|> varDecl)

end TarnLang.Grammar
