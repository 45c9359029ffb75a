/-
  TarnLang/Node/Outline.lean
  ==========================
  **Outlines.**  A uniform view of a tree.  Every node and every embedded part becomes
  an item with the role it plays in its parent, its shape, its span and its children in
  the order of the text.  A leaf shows its token, and a missing part, which has no span,
  the failure it keeps.

  `Outline.rows` lists the items in preorder with their depth.
-/
import TarnLang.Node.Basic

namespace TarnLang

inductive Detail
  | plain
  | leaf (token : Token)
  | missing (failure : ParseFailure)
deriving DecidableEq, Repr

inductive Outline
  | item (role shape : String) (span : Option Span) (detail : Detail) (children : List Outline)
deriving Repr

namespace Outline

/-- Item with children and a span of its own. -/
def part (role shape : String) (span : Span) (children : List Outline) : Outline :=
  item role shape (some span) .plain children

/-- Item for a token kept in the tree. -/
def ofToken (role : String) (t : Token) : Outline := item role "Leaf" (some t.span) (.leaf t) []

def ofParameters (role : String) (p : ParameterList) : Outline :=
  part role "ParameterDef" p.span (p.names.map (ofToken "parameter"))

def ofSignature (role : String) (s : Signature) : Outline :=
  part role "Signature" s.span [ofToken "name" s.name, ofParameters "parameters" s.parameters]

end Outline

section Building

open Outline

mutual

/-- Outline of a node in a given role. -/
def Node.outline (role : String) : Node → Outline
  | .functionDef signature ⟨body, bodySpan⟩ span =>
    part role "FunctionDef" span [ofSignature "signature" signature,
      part "body" "Block" bodySpan (Node.outlines "statement" body)]
  | .procedureDef signature ⟨body, bodySpan⟩ span =>
    part role "ProcedureDef" span [ofSignature "signature" signature,
      part "body" "Block" bodySpan (Node.outlines "statement" body)]
  | .varDecl name span => part role "VarDecl" span [ofToken "name" name]
  | .varInit name value span =>
    part role "VarInit" span [ofToken "name" name, value.outline "value"]
  | .assignment name value span =>
    part role "VarAssignment" span [ofToken "name" name, value.outline "value"]
  | .call ⟨name, ⟨arguments, argumentsSpan⟩, span⟩ =>
    part role "Call" span [ofToken "name" name,
      part "arguments" "ParameterPass" argumentsSpan (Node.outlines "argument" arguments)]
  | .block ⟨body, span⟩ => part role "Block" span (Node.outlines "statement" body)
  | .returnStmt value span => part role "Return" span [value.outline "value"]
  | .ifStmt condition ⟨body, bodySpan⟩ alternative span =>
    part role "If" span [condition.outline "condition",
      part "body" "Block" bodySpan (Node.outlines "statement" body),
      alternative.outline "alternative"]
  | .elseIf condition ⟨body, bodySpan⟩ alternative span =>
    part role "ElseIf" span [condition.outline "condition",
      part "body" "Block" bodySpan (Node.outlines "statement" body),
      alternative.outline "alternative"]
  | .elseClause ⟨body, bodySpan⟩ span =>
    part role "Else" span [part "body" "Block" bodySpan (Node.outlines "statement" body)]
  | .forLoop init test update ⟨body, bodySpan⟩ span =>
    part role "For" span [init.outline "init", test.outline "test", update.outline "update",
      part "body" "Block" bodySpan (Node.outlines "statement" body)]
  | .whileLoop condition ⟨body, bodySpan⟩ span =>
    part role "While" span [condition.outline "condition",
      part "body" "Block" bodySpan (Node.outlines "statement" body)]
  | .switchStmt subject cases span =>
    part role "Switch" span (subject.outline "subject" :: Node.outlinesOfCases cases)
  | .binary left operator right span =>
    part role "BinaryOp" span [left.outline "left", ofToken "operator" operator,
      right.outline "right"]
  | .unary operator operand span =>
    part role "UnaryOp" span [ofToken "operator" operator, operand.outline "operand"]
  | .leaf token => ofToken role token
  | .missing failure => item role "Missing" none (.missing failure) []

/-- Outlines of nodes in a row, all in one role. -/
def Node.outlines (role : String) : List Node → List Outline
  | [] => []
  | n :: ns => n.outline role :: Node.outlines role ns

def Node.outlinesOfCases : List (Case Node) → List Outline
  | [] => []
  | ⟨value, ⟨body, bodySpan⟩, span⟩ :: cs =>
    part "case" "Case" span [value.outline "value",
      part "body" "Block" bodySpan (Node.outlines "statement" body)] :: Node.outlinesOfCases cs

end

end Building

/-- Outline of a block in a given role. -/
def Block.outline (role : String) (b : Block Node) : Outline :=
  Outline.part role "Block" b.span (Node.outlines "statement" b.statements)

def Program.outline (p : Program) : Outline :=
  Outline.part "root" "Program" p.span (Node.outlines "declaration" p.declarations)

/-! ### Rows -/

structure OutlineRow where
  depth : Nat
  role : String
  shape : String
  span : Option Span
  detail : Detail
deriving DecidableEq, Repr

mutual

/-- Items of an outline in preorder, from a given depth on. -/
def Outline.rowsFrom (depth : Nat) : Outline → List OutlineRow
  | .item role shape span detail children =>
    ⟨depth, role, shape, span, detail⟩ :: Outline.rowsOfList (depth + 1) children

def Outline.rowsOfList (depth : Nat) : List Outline → List OutlineRow
  | [] => []
  | o :: os => o.rowsFrom depth ++ Outline.rowsOfList depth os

end

def Outline.rows (o : Outline) : List OutlineRow := o.rowsFrom 0

end TarnLang
