/-
  TarnLang/Proofs/Layout/Events.lean
  ==================================
  **Scoping does not look at positions.**  Events of a relocated tree are the relocated events
  of the tree, so what names mean and what is wrong with them is the same.
-/
import TarnLang.Proofs.Layout.Relocation
import TarnLang.Proofs.Resolution.Order
import TarnLang.Proofs.Resolution.Record

namespace TarnLang

variable (g : Position → Position)

/-! ### Relocated events -/

def Declaration.relocate : Declaration → Declaration
  | .node n => .node (n.relocate g)
  | .parameter name => .parameter (name.relocate g)

def Usage.relocate : Usage → Usage
  | .value => .value
  | .call asValue span => .call asValue (span.relocate g)
  | .assigned span => .assigned (span.relocate g)

def Happening.relocate : Happening → Happening
  | .declares kind name declaration => .declares kind (name.relocate g) (declaration.relocate g)
  | .uses usage name => .uses (usage.relocate g) (name.relocate g)
  | .begins kind construct place => .begins kind construct (g place)

def Event.relocate (e : Event) : Event := ⟨e.nest, e.happening.relocate g⟩

def Declared.relocate (d : Declared) : Declared :=
  ⟨d.scope, d.kind, d.name.relocate g, d.declaration.relocate g⟩

theorem scopesIn_relocate (es : List Event) :
    scopesIn (es.map (Event.relocate g)) = scopesIn es := by
  rw [scopesIn, scopesIn, List.countP_map]
  apply List.countP_congr
  rintro ⟨nest, happening⟩ _
  cases happening with
  | declares kind name declaration => exact Iff.rfl
  | uses usage name => exact Iff.rfl
  | begins kind construct place => exact Iff.rfl

mutual

theorem valueEvents_relocate (nest : Nest) (n : Node) :
    valueEvents nest (n.relocate g) = (valueEvents nest n).map (Event.relocate g) := by
  cases n with
  | leaf token =>
    by_cases hident : token.kind = .ident
    · simp [Node.relocate, valueEvents, Token.relocate, hident, Event.relocate,
        Happening.relocate, Usage.relocate]
    · simp [Node.relocate, valueEvents, Token.relocate, hident]
  | call c =>
    simp only [Node.relocate, valueEvents, List.map_cons,
      valuesEvents_relocate nest c.arguments.arguments]
    rfl
  | binary left operator right span =>
    simp only [Node.relocate, valueEvents, List.map_append, valueEvents_relocate nest left,
      valueEvents_relocate nest right]
  | unary operator operand span =>
    simp only [Node.relocate, valueEvents, valueEvents_relocate nest operand]
  | _ => rfl

theorem valuesEvents_relocate (nest : Nest) (ns : List Node) :
    valuesEvents nest (Node.relocateAll g ns) = (valuesEvents nest ns).map (Event.relocate g) := by
  cases ns with
  | nil => rfl
  | cons n ns =>
    simp only [Node.relocateAll, valuesEvents, List.map_append, valueEvents_relocate nest n,
      valuesEvents_relocate nest ns]

end

theorem callableEvents_relocate (nest : Nest) (scope : ScopeId) (kind : SymbolKind)
    (signature : Signature) (declaration : Declaration) (body : List Event) :
    callableEvents nest scope kind (signature.relocate g) (declaration.relocate g)
        (body.map (Event.relocate g)) =
      (callableEvents nest scope kind signature declaration body).map (Event.relocate g) := by
  simp only [callableEvents, List.map_append, List.map_cons, List.map_map, Signature.relocate,
    ParameterList.relocate]
  rfl

/-- A block behind some values. -/
theorem branch_relocate (nest : Nest) (construct : String) (span : Span)
    (values body : List Event) :
    values.map (Event.relocate g) ++
        ⟨nest, .begins .block construct (span.relocate g).start⟩ :: body.map (Event.relocate g) =
      (values ++ ⟨nest, .begins .block construct span.start⟩ :: body).map (Event.relocate g) := by
  rw [List.map_append, List.map_cons]
  rfl

/-- A scope that begins with some events in it. -/
theorem loop_relocate (nest : Nest) (construct : String) (span : Span) (body : List Event) :
    ⟨nest, .begins .block construct (span.relocate g).start⟩ :: body.map (Event.relocate g) =
      (⟨nest, .begins .block construct span.start⟩ :: body).map (Event.relocate g) := by
  rw [List.map_cons]
  rfl

mutual

theorem statementEvents_relocate (nest : Nest) (next : ScopeId) (n : Node) :
    statementEvents nest next (n.relocate g) =
      (statementEvents nest next n).map (Event.relocate g) := by
  cases n with
  | functionDef signature body span =>
    obtain ⟨body, bodySpan⟩ := body
    simp only [Node.relocate, statementEvents, statementsEvents_relocate]
    exact callableEvents_relocate g nest next _ signature
      (.node (.functionDef signature ⟨body, bodySpan⟩ span)) _
  | procedureDef signature body span =>
    obtain ⟨body, bodySpan⟩ := body
    simp only [Node.relocate, statementEvents, statementsEvents_relocate]
    exact callableEvents_relocate g nest next _ signature
      (.node (.procedureDef signature ⟨body, bodySpan⟩ span)) _
  | varDecl name span => rfl
  | varInit name value span =>
    simp only [Node.relocate, statementEvents, valueEvents_relocate, List.map_append]
    rfl
  | assignment name value span =>
    simp only [Node.relocate, statementEvents, valueEvents_relocate, List.map_cons]
    rfl
  | call c =>
    simp only [Node.relocate, statementEvents, valuesEvents_relocate, List.map_cons]
    rfl
  | block b =>
    simp only [Node.relocate, statementEvents, statementsEvents_relocate, List.map_cons]
    rfl
  | returnStmt value span => exact valueEvents_relocate g nest value
  | ifStmt condition body alternative span =>
    simp only [Node.relocate, statementEvents, valueEvents_relocate, statementsEvents_relocate,
      branch_relocate, scopesIn_relocate, statementEvents_relocate]
    exact List.map_append.symm
  | elseIf condition body alternative span =>
    simp only [Node.relocate, statementEvents, valueEvents_relocate, statementsEvents_relocate,
      branch_relocate, scopesIn_relocate, statementEvents_relocate]
    exact List.map_append.symm
  | elseClause body span =>
    simp only [Node.relocate, statementEvents, statementsEvents_relocate, List.map_cons]
    rfl
  | forLoop init test update body span =>
    simp only [Node.relocate, statementEvents, valueEvents_relocate, statementsEvents_relocate,
      statementEvents_relocate, loop_relocate, scopesIn_relocate, ← List.map_append]
  | whileLoop condition body span =>
    simp only [Node.relocate, statementEvents, valueEvents_relocate, statementsEvents_relocate,
      List.map_append, List.map_cons]
    rfl
  | switchStmt subject cases span =>
    simp only [Node.relocate, statementEvents, valueEvents_relocate, casesEvents_relocate,
      List.map_append]
  | binary left operator right span =>
    exact valueEvents_relocate g nest (.binary left operator right span)
  | unary operator operand span => exact valueEvents_relocate g nest (.unary operator operand span)
  | leaf token => exact valueEvents_relocate g nest (.leaf token)
  | missing failure => rfl

theorem statementsEvents_relocate (nest : Nest) (next : ScopeId) (ns : List Node) :
    statementsEvents nest next (Node.relocateAll g ns) =
      (statementsEvents nest next ns).map (Event.relocate g) := by
  cases ns with
  | nil => rfl
  | cons n ns =>
    simp only [Node.relocateAll, statementsEvents, List.map_append, scopesIn_relocate,
      statementEvents_relocate nest next n, statementsEvents_relocate nest _ ns]

theorem casesEvents_relocate (nest : Nest) (next : ScopeId) (cs : List (Case Node)) :
    casesEvents nest next (Node.relocateCases g cs) =
      (casesEvents nest next cs).map (Event.relocate g) := by
  cases cs with
  | nil => rfl
  | cons c cs =>
    simp only [Node.relocateCases, casesEvents, valueEvents_relocate, statementsEvents_relocate,
      branch_relocate, scopesIn_relocate, casesEvents_relocate]
    exact List.map_append.symm

end

theorem Program.events_relocate (p : Program) :
    (p.relocate g).events = p.events.map (Event.relocate g) :=
  statementsEvents_relocate g .outermost (ScopeTree.root + 1) p.declarations

end TarnLang
