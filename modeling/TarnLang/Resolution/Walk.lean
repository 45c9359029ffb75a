/-
  TarnLang/Resolution/Walk.lean
  =============================
  **The walk over a tree.**  Names are resolved in one pass, in the order of the text with
  two exceptions: the value of a declared variable comes before its name, and the name of
  a function or procedure before its parameters and body.  A use that finds no
  declaration yet is put off, with the scope it stands in, until the walk is over.

  `Walk` is the state of the walk; the functions on it declare and use single names.
  `visitStatement` and `visitValue` walk over nodes.  A node of any shape may stand in any
  position: what has no names to resolve in a position is passed over.
-/
import TarnLang.Resolution.SemanticError

namespace TarnLang

/-- A use that was put off, and the scope that it stands in. -/
structure DeferredUse where
  usage : Token
  scope : ScopeId
deriving Repr

/-- State of a walk: what has been found so far. -/
structure Walk where
  scopes : ScopeTree
  symbols : SymbolTable
  errors : Array SemanticError
  deferred : Array DeferredUse

namespace Walk

def start : Walk := ⟨.fresh, .empty, #[], #[]⟩

def report (w : Walk) (e : SemanticError) : Walk := { w with errors := w.errors.push e }

/-! ### Scopes -/

def enter (w : Walk) (name : String) (kind : ScopeKind) : Walk :=
  { w with scopes := w.scopes.push name kind }

def leave (w : Walk) : Walk := { w with scopes := w.scopes.pop }

/-- Name of the scope of a construct that has no name of its own. -/
def scopeName (construct : String) (span : Span) : String := construct ++ "@" ++ span.display

/-- Opens the scope of a block or of the body of a control statement. -/
def enterBlock (w : Walk) (construct : String) (span : Span) : Walk :=
  w.enter (scopeName construct span) .block

/-! ### Declarations -/

/-- Declares a name in the current scope and says whether it did.  A name that the scope
    declares already is reported and keeps its declaration. -/
def declare (w : Walk) (name : Token) (kind : SymbolKind) (declaration : Declaration) :
    Bool × Walk :=
  let scope := w.scopes.current
  let id : SymbolId := ⟨name.text, scope, w.scopes.qualify scope name.text⟩
  match w.symbols.insert ⟨id, kind, name, declaration⟩ with
  | .ok symbols => (true, { w with symbols, scopes := (w.scopes.define name.text id).2 })
  | .error previous => (false, w.report (.redefinition name previous))

def declareVariable (w : Walk) (name : Token) (declaration : Declaration) : Walk :=
  (w.declare name .var declaration).2

def declareParameters (w : Walk) (names : List Token) : Walk :=
  names.foldl (fun w name => w.declareVariable name (.parameter name)) w

/-- Declares a function or procedure, opens its scope and declares its parameters.  The
    scope of one that could not be declared is named by its place as well. -/
def enterCallable (w : Walk) (signature : Signature) (kind : SymbolKind)
    (declaration : Declaration) : Walk :=
  let name := signature.name
  let (declared, w) := w.declare name kind declaration
  let scope := if declared then name.text else scopeName name.text name.span
  (w.enter scope .callable).declareParameters signature.parameters.names

/-- Kind of a function that is declared in the current scope. -/
def functionKind (w : Walk) (name : Token) : SymbolKind :=
  if name.text = "main" ∧ w.scopes.current = ScopeTree.root then .mainFunction else .function

/-! ### Uses -/

/-- Symbol that a name means in the current scope, as far as it is declared. -/
def lookup (w : Walk) (name : Token) : Option Symbol :=
  (w.scopes.lookup name.text).bind fun id => w.symbols.get? id.qualified

def defer (w : Walk) (usage : Token) : Walk :=
  { w with deferred := w.deferred.push ⟨usage, w.scopes.current⟩ }

def useName (w : Walk) (usage : Token) : Walk :=
  match w.lookup usage with
  | none => w.defer usage
  | some target =>
    if target.kind = .procedure then w.report (.procedureAsValue usage target) else w

/-- Uses a name in a call, whose result may be wanted as a value. -/
def useCall (w : Walk) (asValue : Bool) (name : Token) (span : Span) : Walk :=
  match w.lookup name with
  | none => w.defer name
  | some target =>
    if target.kind = .var then w.report (.callToVariable name span target)
    else if asValue ∧ target.kind = .procedure then w.report (.procedureAsValue name target)
    else w

/-- Uses a name as the target of an assignment. -/
def useAssigned (w : Walk) (name : Token) (span : Span) : Walk :=
  match w.lookup name with
  | none => w.defer name
  | some target =>
    if target.kind.isCallable then w.report (.assignmentToCallable name span target) else w

end Walk

/-! ### Walking over nodes -/

mutual

/-- Walks over a node that stands where a value is wanted. -/
def visitValue : Node → Walk → Walk
  | .leaf token, w => if token.kind = .ident then w.useName token else w
  | .call ⟨name, ⟨arguments, _⟩, span⟩, w => visitValues arguments (w.useCall true name span)
  | .binary left _ right _, w => visitValue right (visitValue left w)
  | .unary _ operand _, w => visitValue operand w
  | _, w => w

def visitValues : List Node → Walk → Walk
  | [], w => w
  | n :: ns, w => visitValues ns (visitValue n w)

end

mutual

/-- Walks over a node that stands where a statement is wanted. -/
def visitStatement : Node → Walk → Walk
  | .functionDef signature ⟨body, bodySpan⟩ span, w =>
    let declaration := Declaration.node (.functionDef signature ⟨body, bodySpan⟩ span)
    (visitStatements body
      (w.enterCallable signature (w.functionKind signature.name) declaration)).leave
  | .procedureDef signature ⟨body, bodySpan⟩ span, w =>
    let declaration := Declaration.node (.procedureDef signature ⟨body, bodySpan⟩ span)
    (visitStatements body (w.enterCallable signature .procedure declaration)).leave
  | .varDecl name span, w => w.declareVariable name (.node (.varDecl name span))
  | .varInit name value span, w =>
    (visitValue value w).declareVariable name (.node (.varInit name value span))
  | .assignment name value span, w => visitValue value (w.useAssigned name span)
  | .call ⟨name, ⟨arguments, _⟩, span⟩, w => visitValues arguments (w.useCall false name span)
  | .block ⟨body, span⟩, w => (visitStatements body (w.enterBlock "block" span)).leave
  | .returnStmt value _, w => visitValue value w
  | .ifStmt condition ⟨body, _⟩ alternative span, w =>
    let w := (visitStatements body ((visitValue condition w).enterBlock "if" span)).leave
    visitStatement alternative w
  | .elseIf condition ⟨body, _⟩ alternative span, w =>
    let w := (visitStatements body ((visitValue condition w).enterBlock "elseif" span)).leave
    visitStatement alternative w
  | .elseClause ⟨body, _⟩ span, w => (visitStatements body (w.enterBlock "else" span)).leave
  | .forLoop init test update ⟨body, _⟩ span, w =>
    let w := visitStatement init (w.enterBlock "for" span)
    (visitStatements body (visitStatement update (visitValue test w))).leave
  | .whileLoop condition ⟨body, _⟩ span, w =>
    (visitStatements body ((visitValue condition w).enterBlock "while" span)).leave
  | .switchStmt subject cases _, w => visitCases cases (visitValue subject w)
  | .binary left operator right span, w => visitValue (.binary left operator right span) w
  | .unary operator operand span, w => visitValue (.unary operator operand span) w
  | .leaf token, w => visitValue (.leaf token) w
  | .missing _, w => w

def visitStatements : List Node → Walk → Walk
  | [], w => w
  | n :: ns, w => visitStatements ns (visitStatement n w)

/-- Walks over the cases of a switch; the body of each has a scope of its own. -/
def visitCases : List (Case Node) → Walk → Walk
  | [], w => w
  | ⟨value, ⟨body, _⟩, span⟩ :: cs, w =>
    visitCases cs (visitStatements body ((visitValue value w).enterBlock "case" span)).leave

end

end TarnLang
