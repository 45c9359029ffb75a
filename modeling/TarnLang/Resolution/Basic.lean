/-
  TarnLang/Resolution/Basic.lean
  ==============================
  **Resolution of a program.**  The walk over all declarations, followed by the uses that
  were put off.  Such a use found no declaration when it was met: either its name is
  declared later where it can be seen, or nowhere.  Last comes the check that there is a
  main function.
-/
import TarnLang.Resolution.Walk

namespace TarnLang

/-- Scopes, symbols and errors of a program.  Errors stand in the order of the walk, then
    come the uses without an earlier declaration, then a missing main function. -/
structure Resolution where
  scopes : ScopeTree
  symbols : SymbolTable
  errors : Array SemanticError

def Resolution.isOk (r : Resolution) : Bool := r.errors.isEmpty

/-- A resolution whose table gives its symbols in an order. -/
def Resolution.arranged (order : TableOrder) (r : Resolution) : Resolution :=
  { r with symbols := r.symbols.arranged order }

namespace Walk

/-- The error of a use that was put off, seen from the end of the walk. -/
def deferredError (w : Walk) (use : DeferredUse) : SemanticError :=
  .useBeforeDefinition use.usage
    ((w.scopes.lookupFrom use.scope use.usage.text).bind fun id => w.symbols.get? id.qualified)

def hasMain (w : Walk) : Bool :=
  match w.symbols.get? (w.scopes.qualify ScopeTree.root "main") with
  | some symbol => symbol.kind = .mainFunction
  | none => false

def finish (w : Walk) : Resolution where
  scopes := w.scopes
  symbols := w.symbols
  errors := w.errors ++ w.deferred.map w.deferredError ++ if w.hasMain then #[] else #[.missingMain]

end Walk

/-- Resolves the names of a program. -/
def resolve (p : Program) : Resolution := (visitStatements p.declarations Walk.start).finish

end TarnLang
