/-
  TarnLang/Proofs/Resolution/Script.lean
  ======================================
  **A walk is a run of steps.**  Which steps a walk takes is read off the tree alone: a name
  is used or declared, a scope is entered or left.  Only what a step does depends on what was
  found before.  So whatever every step keeps holds all along the walk, for trees of any shape,
  also where texts of names and places of scopes coincide.
-/
import TarnLang.Proofs.Resolution.Traversal

namespace TarnLang

/-! ### Declarations and their names -/

namespace Declaration

/-- The name that a declaration declares. -/
def name? : Declaration → Option Token
  | node n => n.declaredName.toOption
  | parameter name => some name

/-- What a declaration declares its name as, in a scope. -/
def kindIn (scope : ScopeId) : Declaration → SymbolKind
  | node (.functionDef signature _ _) =>
    if signature.name.text = "main" ∧ scope = ScopeTree.root then .mainFunction else .function
  | node (.procedureDef ..) => .procedure
  | _ => .var

/-- **The main function is the function `main` of the outermost scope**, and nothing else is. -/
theorem kindIn_eq_mainFunction_iff {d : Declaration} {scope : ScopeId} :
    d.kindIn scope = .mainFunction ↔ ∃ signature body span,
      d = .node (.functionDef signature body span) ∧ signature.name.text = "main" ∧
        scope = ScopeTree.root := by
  constructor
  · intro h
    cases d with
    | parameter name => cases h
    | node n =>
      cases n with
      | functionDef signature body span =>
        rw [kindIn] at h
        split at h
        case isTrue hmain => exact ⟨signature, body, span, rfl, hmain.1, hmain.2⟩
        case isFalse => cases h
      | _ => cases h
  · rintro ⟨signature, body, span, rfl, hname, rfl⟩
    simp [kindIn, hname]

end Declaration

/-- A declaration, together with the name that it declares. -/
structure Naming where
  name : Token
  declaration : Declaration
  named : declaration.name? = some name

namespace Naming

def ofFunction (signature : Signature) (body : Block Node) (span : Span) : Naming :=
  ⟨signature.name, .node (.functionDef signature body span), rfl⟩

def ofProcedure (signature : Signature) (body : Block Node) (span : Span) : Naming :=
  ⟨signature.name, .node (.procedureDef signature body span), rfl⟩

def ofParameter (name : Token) : Naming := ⟨name, .parameter name, rfl⟩

end Naming

/-! ### Steps -/

/-- One step of a walk.  A function or procedure `begins` with its declaration, and its scope
    is entered with it. -/
inductive Step
  | uses (usage : Usage) (name : Token)
  | declares (naming : Naming)
  | begins (naming : Naming)
  | enters (construct : String) (span : Span)
  | leaves

/-- What is declared at a step. -/
def Step.naming? : Step → Option Naming
  | .declares naming => some naming
  | .begins naming => some naming
  | _ => none

mutual

/-- Steps of the walk over a node that stands where a value is wanted. -/
def valueSteps : Node → List Step
  | .leaf token => if token.kind = .ident then [.uses .value token] else []
  | .call ⟨name, ⟨arguments, _⟩, span⟩ => .uses (.call true span) name :: valuesSteps arguments
  | .binary left _ right _ => valueSteps left ++ valueSteps right
  | .unary _ operand _ => valueSteps operand
  | _ => []

def valuesSteps : List Node → List Step
  | [] => []
  | n :: ns => valueSteps n ++ valuesSteps ns

end

def blockSteps (construct : String) (span : Span) (body : List Step) : List Step :=
  .enters construct span :: (body ++ [.leaves])

def callableSteps (naming : Naming) (signature : Signature) (body : List Step) : List Step :=
  .begins naming ::
    (signature.parameters.names.map (fun name => .declares (.ofParameter name)) ++
      (body ++ [.leaves]))

mutual

/-- Steps of the walk over a node that stands where a statement is wanted. -/
def statementSteps : Node → List Step
  | .functionDef signature ⟨body, bodySpan⟩ span =>
    callableSteps (.ofFunction signature ⟨body, bodySpan⟩ span) signature (statementsSteps body)
  | .procedureDef signature ⟨body, bodySpan⟩ span =>
    callableSteps (.ofProcedure signature ⟨body, bodySpan⟩ span) signature (statementsSteps body)
  | .varDecl name span => [.declares ⟨name, .node (.varDecl name span), rfl⟩]
  | .varInit name value span =>
    valueSteps value ++ [.declares ⟨name, .node (.varInit name value span), rfl⟩]
  | .assignment name value span => .uses (.assigned span) name :: valueSteps value
  | .call ⟨name, ⟨arguments, _⟩, span⟩ => .uses (.call false span) name :: valuesSteps arguments
  | .block ⟨body, span⟩ => blockSteps "block" span (statementsSteps body)
  | .returnStmt value _ => valueSteps value
  | .ifStmt condition ⟨body, _⟩ alternative span =>
    valueSteps condition ++ (blockSteps "if" span (statementsSteps body) ++
      statementSteps alternative)
  | .elseIf condition ⟨body, _⟩ alternative span =>
    valueSteps condition ++ (blockSteps "elseif" span (statementsSteps body) ++
      statementSteps alternative)
  | .elseClause ⟨body, _⟩ span => blockSteps "else" span (statementsSteps body)
  | .forLoop init test update ⟨body, _⟩ span =>
    blockSteps "for" span
      (statementSteps init ++ (valueSteps test ++ (statementSteps update ++ statementsSteps body)))
  | .whileLoop condition ⟨body, _⟩ span =>
    valueSteps condition ++ blockSteps "while" span (statementsSteps body)
  | .switchStmt subject cases _ => valueSteps subject ++ casesSteps cases
  | .binary left operator right span => valueSteps (.binary left operator right span)
  | .unary operator operand span => valueSteps (.unary operator operand span)
  | .leaf token => valueSteps (.leaf token)
  | .missing _ => []

def statementsSteps : List Node → List Step
  | [] => []
  | n :: ns => statementSteps n ++ statementsSteps ns

def casesSteps : List (Case Node) → List Step
  | [] => []
  | ⟨value, ⟨body, _⟩, span⟩ :: cs =>
    valueSteps value ++ (blockSteps "case" span (statementsSteps body) ++ casesSteps cs)

end

/-- All steps of the walk over a program. -/
def Program.script (p : Program) : List Step := statementsSteps p.declarations

/-! ### What steps do -/

namespace Walk

/-- Declares a name as what its declaration makes of it in the current scope. -/
def declareNaming (w : Walk) (naming : Naming) : Bool × Walk :=
  w.declare naming.name (naming.declaration.kindIn w.scopes.current) naming.declaration

def perform (w : Walk) : Step → Walk
  | .uses usage name => w.use usage name
  | .declares naming => (w.declareNaming naming).2
  | .begins naming =>
    w.beginCallable naming.name (naming.declaration.kindIn w.scopes.current) naming.declaration
  | .enters construct span => w.enterBlock construct span
  | .leaves => w.leave

def run (steps : List Step) (w : Walk) : Walk := steps.foldl perform w

theorem run_append (steps steps' : List Step) (w : Walk) :
    run (steps ++ steps') w = run steps' (run steps w) := List.foldl_append

theorem run_cons (step : Step) (steps : List Step) (w : Walk) :
    run (step :: steps) w = run steps (w.perform step) := rfl

/-- A function or procedure is declared before its scope is entered, which declares nothing. -/
theorem perform_begins (w : Walk) (naming : Naming) :
    ∃ scope, w.perform (.begins naming) = (w.declareNaming naming).2.enter scope .callable :=
  ⟨_, rfl⟩

theorem run_parameters (names : List Token) (w : Walk) :
    run (names.map fun name => .declares (.ofParameter name)) w = w.declareParameters names := by
  induction names generalizing w with
  | nil => rfl
  | cons name names ih => exact ih _

theorem run_blockSteps {body : List Step} {visit : Walk → Walk} (h : ∀ w, visit w = run body w)
    (construct : String) (span : Span) (w : Walk) :
    (visit (w.enterBlock construct span)).leave = run (blockSteps construct span body) w := by
  rw [blockSteps, run_cons, run_append, h]
  rfl

theorem run_callableSteps {body : List Step} {visit : Walk → Walk} (h : ∀ w, visit w = run body w)
    (naming : Naming) {signature : Signature} (hname : naming.name = signature.name) (w : Walk) :
    (visit (w.enterCallable signature (naming.declaration.kindIn w.scopes.current)
      naming.declaration)).leave = run (callableSteps naming signature body) w := by
  rw [callableSteps, run_cons, run_append, run_append, run_parameters, h, perform, hname]
  rfl

/-! ### The walk -/

mutual

theorem visitValue_eq_run (n : Node) (w : Walk) : visitValue n w = run (valueSteps n) w := by
  cases n with
  | leaf token =>
    rw [visitValue, valueSteps]
    split
    · rfl
    · rfl
  | call c =>
    obtain ⟨name, ⟨arguments, argumentsSpan⟩, span⟩ := c
    exact visitValues_eq_run arguments _
  | binary left operator right span =>
    rw [visitValue, valueSteps, run_append, visitValue_eq_run left, visitValue_eq_run right]
  | unary operator operand span => exact visitValue_eq_run operand w
  | _ => rfl

theorem visitValues_eq_run (ns : List Node) (w : Walk) :
    visitValues ns w = run (valuesSteps ns) w := by
  cases ns with
  | nil => rfl
  | cons n ns =>
    rw [visitValues, valuesSteps, run_append, visitValue_eq_run n, visitValues_eq_run ns]

end

mutual

theorem visitStatement_eq_run (n : Node) (w : Walk) :
    visitStatement n w = run (statementSteps n) w := by
  cases n with
  | functionDef signature body span =>
    obtain ⟨body, bodySpan⟩ := body
    exact run_callableSteps (visitStatements_eq_run body) (.ofFunction signature _ span) rfl w
  | procedureDef signature body span =>
    obtain ⟨body, bodySpan⟩ := body
    exact run_callableSteps (visitStatements_eq_run body) (.ofProcedure signature _ span) rfl w
  | varDecl name span => rfl
  | varInit name value span =>
    rw [visitStatement, statementSteps, run_append, visitValue_eq_run value]
    rfl
  | assignment name value span => exact visitValue_eq_run value _
  | call c =>
    obtain ⟨name, ⟨arguments, argumentsSpan⟩, span⟩ := c
    exact visitValues_eq_run arguments _
  | block b =>
    obtain ⟨body, span⟩ := b
    exact run_blockSteps (visitStatements_eq_run body) "block" span w
  | returnStmt value span => exact visitValue_eq_run value w
  | ifStmt condition body alternative span =>
    obtain ⟨body, bodySpan⟩ := body
    rw [visitStatement, statementSteps, run_append, run_append, ← visitValue_eq_run condition,
      ← run_blockSteps (visitStatements_eq_run body), visitStatement_eq_run alternative]
  | elseIf condition body alternative span =>
    obtain ⟨body, bodySpan⟩ := body
    rw [visitStatement, statementSteps, run_append, run_append, ← visitValue_eq_run condition,
      ← run_blockSteps (visitStatements_eq_run body), visitStatement_eq_run alternative]
  | elseClause body span =>
    obtain ⟨body, bodySpan⟩ := body
    exact run_blockSteps (visitStatements_eq_run body) "else" span w
  | forLoop init test update body span =>
    -- the clauses and the body stand in one scope
    obtain ⟨body, bodySpan⟩ := body
    have hinside : ∀ w, visitStatements body
          (visitStatement update (visitValue test (visitStatement init w))) =
        run (statementSteps init ++
          (valueSteps test ++ (statementSteps update ++ statementsSteps body))) w := by
      intro w
      rw [run_append, run_append, run_append, visitStatement_eq_run init, visitValue_eq_run test,
        visitStatement_eq_run update, visitStatements_eq_run body]
    exact run_blockSteps hinside "for" span w
  | whileLoop condition body span =>
    obtain ⟨body, bodySpan⟩ := body
    rw [visitStatement, statementSteps, run_append, ← visitValue_eq_run condition,
      ← run_blockSteps (visitStatements_eq_run body)]
  | switchStmt subject cases span =>
    rw [visitStatement, statementSteps, run_append, visitValue_eq_run subject,
      visitCases_eq_run cases]
  | binary left operator right span => exact visitValue_eq_run (.binary left operator right span) w
  | unary operator operand span => exact visitValue_eq_run (.unary operator operand span) w
  | leaf token => exact visitValue_eq_run (.leaf token) w
  | missing failure => rfl

theorem visitStatements_eq_run (ns : List Node) (w : Walk) :
    visitStatements ns w = run (statementsSteps ns) w := by
  cases ns with
  | nil => rfl
  | cons n ns =>
    rw [visitStatements, statementsSteps, run_append, visitStatement_eq_run n,
      visitStatements_eq_run ns]

theorem visitCases_eq_run (cs : List (Case Node)) (w : Walk) :
    visitCases cs w = run (casesSteps cs) w := by
  cases cs with
  | nil => rfl
  | cons c cs =>
    obtain ⟨value, ⟨body, bodySpan⟩, span⟩ := c
    rw [visitCases, casesSteps, run_append, run_append, ← visitValue_eq_run value,
      ← run_blockSteps (visitStatements_eq_run body), visitCases_eq_run cs]

end

/-- **The walk over a program runs its script.** -/
theorem resolve_eq_run (p : Program) : resolve p = (run p.script start).finish := by
  rw [resolve, visitStatements_eq_run, Program.script]

/-- What every step keeps holds behind any number of steps. -/
theorem run_keeps {I : Walk → Prop} (h : ∀ w step, I w → I (w.perform step)) {w : Walk} (hw : I w)
    (steps : List Step) : I (run steps w) := by
  induction steps generalizing w with
  | nil => exact hw
  | cons step steps ih => exact ih (h w step hw)

end Walk

end TarnLang
