/-
  TarnLang/Node/Leaves.lean
  =========================
  **Leaves.**  The tokens kept in a tree, in the order of the text: names, literals and
  operators.  A missing part has none.
-/
import TarnLang.Node.Basic

namespace TarnLang

def Signature.leaves (s : Signature) : List Token := s.name :: s.parameters.names

mutual

def Node.leaves : Node → List Token
  | .functionDef signature ⟨body, _⟩ _ => signature.leaves ++ Node.leavesOfList body
  | .procedureDef signature ⟨body, _⟩ _ => signature.leaves ++ Node.leavesOfList body
  | .varDecl name _ => [name]
  | .varInit name value _ => name :: value.leaves
  | .assignment name value _ => name :: value.leaves
  | .call ⟨name, ⟨arguments, _⟩, _⟩ => name :: Node.leavesOfList arguments
  | .block ⟨body, _⟩ => Node.leavesOfList body
  | .returnStmt value _ => value.leaves
  | .ifStmt condition ⟨body, _⟩ alternative _ =>
    condition.leaves ++ Node.leavesOfList body ++ alternative.leaves
  | .elseIf condition ⟨body, _⟩ alternative _ =>
    condition.leaves ++ Node.leavesOfList body ++ alternative.leaves
  | .elseClause ⟨body, _⟩ _ => Node.leavesOfList body
  | .forLoop init test update ⟨body, _⟩ _ =>
    init.leaves ++ test.leaves ++ update.leaves ++ Node.leavesOfList body
  | .whileLoop condition ⟨body, _⟩ _ => condition.leaves ++ Node.leavesOfList body
  | .switchStmt subject cases _ => subject.leaves ++ Node.leavesOfCases cases
  | .binary left operator right _ => left.leaves ++ operator :: right.leaves
  | .unary operator operand _ => operator :: operand.leaves
  | .leaf token => [token]
  | .missing _ => []

def Node.leavesOfList : List Node → List Token
  | [] => []
  | n :: ns => n.leaves ++ Node.leavesOfList ns

def Node.leavesOfCases : List (Case Node) → List Token
  | [] => []
  | ⟨value, ⟨body, _⟩, _⟩ :: cs => value.leaves ++ Node.leavesOfList body ++ Node.leavesOfCases cs

end

def Program.leaves (p : Program) : List Token := Node.leavesOfList p.declarations

end TarnLang
