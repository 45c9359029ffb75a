/-
  TarnLang/Scope.lean
  ===================
  **Scopes.**  Scopes form a tree and are numbered in the order in which they were
  opened, so a scope's parent has a smaller number than the scope itself.  The tree also
  remembers the current scope.  Scopes are never taken away: leaving one only moves to
  its parent, and what it binds can still be looked up later.

  Lookups go outwards.  `ScopeTree.outward` lists the scopes from a given one to the
  root; the path of a scope and the binding of a name are read off this list.
-/

namespace TarnLang

abbrev ScopeId := Nat

/-- Identity of a symbol: its name, the scope it belongs to, and its qualified name.  Two
    identities are the same when their qualified names are. -/
structure SymbolId where
  name : String
  scope : ScopeId
  qualified : String
deriving DecidableEq, Repr, Inhabited

def SymbolId.same (a b : SymbolId) : Bool := a.qualified = b.qualified

/-- What a scope was opened for: the whole program, the parameters and body of a
    function or procedure, or a block or a control statement's body. -/
inductive ScopeKind
  | root
  | callable
  | block
deriving DecidableEq, Repr, Inhabited

def ScopeKind.label : ScopeKind → String
  | root => "Global"
  | callable => "Callable"
  | block => "Block"

/-- A scope: its number, name and kind, the scope around it, the scopes directly inside
    it, and what its names are bound to. -/
structure Scope where
  id : ScopeId
  name : String
  kind : ScopeKind
  parent : Option ScopeId
  children : Array ScopeId
  bindings : List (String × SymbolId)
deriving Repr, Inhabited

/-- What a scope binds a name to. -/
def Scope.binding? (s : Scope) (name : String) : Option SymbolId := s.bindings.lookup name

/-- The scopes of a program, by number, and the current one. -/
structure ScopeTree where
  scopes : Array Scope
  current : ScopeId
deriving Repr

namespace ScopeTree

def root : ScopeId := 0

def rootName : String := "global"

/-- The tree with the outermost scope alone. -/
def fresh : ScopeTree := ⟨#[⟨root, rootName, .root, none, #[], []⟩], root⟩

def size (t : ScopeTree) : Nat := t.scopes.size

def get? (t : ScopeTree) (id : ScopeId) : Option Scope := t.scopes[id]?

/-! ### Opening and leaving -/

/-- Opens a scope inside the current one and makes it the current one. -/
def push (t : ScopeTree) (name : String) (kind : ScopeKind) : ScopeTree :=
  let id := t.size
  let opened : Scope := ⟨id, name, kind, some t.current, #[], []⟩
  let adopt (s : Scope) : Scope := { s with children := s.children.push id }
  ⟨(t.scopes.push opened).modify t.current adopt, id⟩

/-- Goes back to the scope around the current one; the outermost scope is never left. -/
def pop (t : ScopeTree) : ScopeTree :=
  match (t.get? t.current).bind (·.parent) with
  | some parent => { t with current := parent }
  | none => t

/-! ### Looking outwards -/

/-- The scope with a given number and those around it, innermost first.  A parent has a
    smaller number, which is why the walk ends. -/
def outward (t : ScopeTree) (id : ScopeId) : List Scope :=
  match t.get? id with
  | none => []
  | some scope =>
    match scope.parent with
    | none => [scope]
    | some parent => if parent < id then scope :: t.outward parent else [scope]
termination_by id

/-- Names of the scopes from the root down to the given one. -/
def path (t : ScopeTree) (id : ScopeId) : List String := ((t.outward id).map (·.name)).reverse

/-- Qualified form of a name in a scope: the path of the scope and the name. -/
def qualify (t : ScopeTree) (id : ScopeId) (name : String) : String :=
  String.intercalate "::" (t.path id ++ [name])

/-- What a name means in a scope: the binding of the innermost scope that has one. -/
def lookupFrom (t : ScopeTree) (id : ScopeId) (name : String) : Option SymbolId :=
  (t.outward id).findSome? (·.binding? name)

/-- What a name means in the current scope. -/
def lookup (t : ScopeTree) (name : String) : Option SymbolId := t.lookupFrom t.current name

/-! ### Binding -/

/-- Binds a name in the current scope and says whether it did; a name that the scope
    binds already keeps its binding. -/
def define (t : ScopeTree) (name : String) (id : SymbolId) : Bool × ScopeTree :=
  match t.get? t.current with
  | none => (false, t)
  | some scope =>
    if (scope.binding? name).isSome then (false, t)
    else
      let bind (s : Scope) : Scope := { s with bindings := (name, id) :: s.bindings }
      (true, { t with scopes := t.scopes.modify t.current bind })

/-! ### Listing -/

/-- A scope and all scopes inside it in preorder, with their depth.  The nesting is at
    most `levels` deep. -/
def listing (t : ScopeTree) : Nat → Nat → ScopeId → List (Nat × Scope)
  | 0, _, _ => []
  | levels + 1, depth, id =>
    match t.get? id with
    | none => []
    | some scope =>
      (depth, scope) :: scope.children.toList.flatMap (t.listing levels (depth + 1))

/-- All scopes in preorder, with their depth.  No nesting is deeper than there are
    scopes. -/
def preorder (t : ScopeTree) : List (Nat × Scope) := t.listing t.size 0 root

end ScopeTree

end TarnLang
