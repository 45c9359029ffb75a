/-
  TarnLang/Symbol.lean
  ====================
  **Symbols.**  A symbol is a declared name: its identity, its kind, the token that
  declares it and the declaration that token stands in.  The table holds at most one
  symbol for a qualified name; what is inserted first stays.  It promises no order to those
  who ask for all symbols: they get them in any `TableOrder`.
-/
import TarnLang.Scope
import TarnLang.Node.Basic

namespace TarnLang

/-- What a name was declared as.  The main function is the function `main` declared in
    the outermost scope; a parameter is a variable. -/
inductive SymbolKind
  | procedure
  | function
  | mainFunction
  | var
deriving DecidableEq, Repr, Inhabited

namespace SymbolKind

/-- Functions and procedures can be called, variables cannot. -/
def isCallable : SymbolKind → Bool
  | var => false
  | _ => true

def describe : SymbolKind → String
  | procedure => "procedure"
  | function => "function"
  | mainFunction => "main function"
  | var => "variable"

/-- Short name of a kind, as listings show it. -/
def label : SymbolKind → String
  | procedure => "Procedure"
  | function => "Function"
  | mainFunction => "MainFunction"
  | var => "Variable"

end SymbolKind

/-- What declares a symbol: a declaration in the tree, or a name in a parameter list. -/
inductive Declaration
  | node (node : Node)
  | parameter (name : Token)
deriving Repr, Inhabited

namespace Declaration

def kindName : Declaration → String
  | node n => n.kindName
  | parameter _ => "parameter"

def span? : Declaration → Option Span
  | node n => n.span?
  | parameter name => some name.span

end Declaration

structure Symbol where
  id : SymbolId
  kind : SymbolKind
  name : Token
  declaration : Declaration
deriving Repr, Inhabited

namespace Symbol

def scope (s : Symbol) : ScopeId := s.id.scope

/-- Where the name of a symbol is declared. -/
def span (s : Symbol) : Span := s.name.span

end Symbol

structure SymbolTable where
  entries : Array Symbol
deriving Repr

namespace SymbolTable

def empty : SymbolTable := ⟨#[]⟩

def size (t : SymbolTable) : Nat := t.entries.size

def get? (t : SymbolTable) (qualified : String) : Option Symbol :=
  t.entries.find? fun s => s.id.qualified = qualified

/-- Adds a symbol.  Where its qualified name is taken, the symbol that has it is given
    instead of a table. -/
def insert (t : SymbolTable) (s : Symbol) : Except Symbol SymbolTable :=
  match t.get? s.id.qualified with
  | some previous => .error previous
  | none => .ok ⟨t.entries.push s⟩

end SymbolTable

/-- An order in which a table gives all its symbols.  Nothing is known of it but that it
    leaves none out and gives none twice. -/
structure TableOrder where
  arrange : List Symbol → List Symbol
  perm : ∀ symbols, (arrange symbols).Perm symbols

/-- The order in which symbols were inserted. -/
def TableOrder.inserted : TableOrder := ⟨id, fun _ => .refl _⟩

/-- A table that gives its symbols in an order. -/
def SymbolTable.arranged (order : TableOrder) (t : SymbolTable) : SymbolTable :=
  ⟨(order.arrange t.entries.toList).toArray⟩

end TarnLang
