/-
  TarnLang/Node/Dump.lean
  =======================
  **Printed trees.**  A node is dumped as its shape around a record with the name of the
  shape; embedded parts are records of their own.  Every field of the tree is shown.
-/
import TarnLang.Node.Basic
import TarnLang.Text.Dump
import TarnLang.Text.Quoted

namespace TarnLang

open Text (Dump quoted)

def dumpNumber (n : Nat) : Dump := .atom (toString n)

def Span.dump (s : Span) : Dump :=
  .record "Span" [("start_line", dumpNumber s.start.line.toNat),
    ("start_col", dumpNumber s.start.column.toNat), ("end_line", dumpNumber s.stop.line.toNat),
    ("end_col", dumpNumber s.stop.column.toNat)]

/-- Dump of a token under the name of the part it plays. -/
def Token.dumpAs (name : String) (t : Token) : Dump :=
  .record name [("kind", .atom t.kind.label), ("text", .atom (quoted t.text)),
    ("span", t.span.dump)]

/-- Dump of a token kept in the tree. -/
def Token.dumpLeaf (t : Token) : Dump := t.dumpAs "Leaf"

def ParseFailure.dump (f : ParseFailure) : Dump :=
  .record "ParseFailure" [("construct", .atom (quoted f.construct)),
    ("found", f.found.dumpAs "Token"), ("offset", dumpNumber f.offset)]

def Signature.dump (s : Signature) : Dump :=
  let parameters := .record "ParameterDef"
    [("names", .list (s.parameters.names.map Token.dumpLeaf)), ("span", s.parameters.span.dump)]
  .record "Signature" [("name", s.name.dumpLeaf), ("parameters", parameters), ("span", s.span.dump)]

/-- Dump of a node of a given shape. -/
def dumpShape (name : String) (fields : List (String × Dump)) (span : Span) : Dump :=
  .tagged name (.record name (fields ++ [("span", span.dump)]))

/-- Dump of a block from the dumps of its statements. -/
def dumpBlock (statements : List Dump) (span : Span) : Dump :=
  .record "Block" [("statements", .list statements), ("span", span.dump)]

mutual

def Node.dump : Node → Dump
  | .functionDef signature ⟨body, bodySpan⟩ span =>
    dumpShape "FunctionDef" [("signature", signature.dump),
      ("body", dumpBlock (Node.dumps body) bodySpan)] span
  | .procedureDef signature ⟨body, bodySpan⟩ span =>
    dumpShape "ProcedureDef" [("signature", signature.dump),
      ("body", dumpBlock (Node.dumps body) bodySpan)] span
  | .varDecl name span => dumpShape "VarDecl" [("name", name.dumpLeaf)] span
  | .varInit name value span =>
    dumpShape "VarInit" [("name", name.dumpLeaf), ("value", value.dump)] span
  | .assignment name value span =>
    dumpShape "VarAssignment" [("name", name.dumpLeaf), ("value", value.dump)] span
  | .call ⟨name, ⟨arguments, argumentsSpan⟩, span⟩ =>
    dumpShape "Call" [("name", name.dumpLeaf), ("arguments", .record "ParameterPass"
      [("arguments", .list (Node.dumps arguments)), ("span", argumentsSpan.dump)])] span
  | .block ⟨body, span⟩ => .tagged "Block" (dumpBlock (Node.dumps body) span)
  | .returnStmt value span => dumpShape "Return" [("value", value.dump)] span
  | .ifStmt condition ⟨body, bodySpan⟩ alternative span =>
    dumpShape "If" [("condition", condition.dump), ("body", dumpBlock (Node.dumps body) bodySpan),
      ("alternative", alternative.dump)] span
  | .elseIf condition ⟨body, bodySpan⟩ alternative span =>
    dumpShape "ElseIf" [("condition", condition.dump),
      ("body", dumpBlock (Node.dumps body) bodySpan), ("alternative", alternative.dump)] span
  | .elseClause ⟨body, bodySpan⟩ span =>
    dumpShape "Else" [("body", dumpBlock (Node.dumps body) bodySpan)] span
  | .forLoop init test update ⟨body, bodySpan⟩ span =>
    dumpShape "For" [("init", init.dump), ("test", test.dump), ("update", update.dump),
      ("body", dumpBlock (Node.dumps body) bodySpan)] span
  | .whileLoop condition ⟨body, bodySpan⟩ span =>
    dumpShape "While" [("condition", condition.dump),
      ("body", dumpBlock (Node.dumps body) bodySpan)] span
  | .switchStmt subject cases span =>
    dumpShape "Switch" [("subject", subject.dump), ("cases", .list (Node.dumpsOfCases cases))] span
  | .binary left operator right span =>
    dumpShape "BinaryOp" [("left", left.dump), ("operator", operator.dumpLeaf),
      ("right", right.dump)] span
  | .unary operator operand span =>
    dumpShape "UnaryOp" [("operator", operator.dumpLeaf), ("operand", operand.dump)] span
  | .leaf token => .tagged "Leaf" token.dumpLeaf
  | .missing failure => .tagged "Missing" (.record "Missing" [("failure", failure.dump)])

def Node.dumps : List Node → List Dump
  | [] => []
  | n :: ns => n.dump :: Node.dumps ns

def Node.dumpsOfCases : List (Case Node) → List Dump
  | [] => []
  | ⟨value, ⟨body, bodySpan⟩, span⟩ :: cs =>
    .record "Case" [("value", value.dump), ("body", dumpBlock (Node.dumps body) bodySpan),
      ("span", span.dump)] :: Node.dumpsOfCases cs

end

end TarnLang
