/-
  TarnLang/Proofs/Layout/Relocation.lean
  ======================================
  **Trees without regard to positions.**  Relocating a tree sends every position in it
  somewhere else, in the spans of its nodes and in the tokens that it keeps, and leaves the
  rest alone.  Two trees are equal but for positions when they are equal once all
  positions have been sent to the origin; `Program.erase` does that.

  Relocations compose, and erasing undoes what they do.
-/
import TarnLang.Node.Basic
import TarnLang.Proofs.Text.Position

namespace TarnLang

variable (g h : Position → Position)

/-! ### Parts -/

def ParseFailure.relocate (e : ParseFailure) : ParseFailure :=
  { e with found := e.found.relocate g }

def ParameterList.relocate (p : ParameterList) : ParameterList :=
  ⟨p.names.map (Token.relocate g), p.span.relocate g⟩

def Signature.relocate (s : Signature) : Signature :=
  ⟨s.name.relocate g, s.parameters.relocate g, s.span.relocate g⟩

/-! ### Nodes -/

mutual

def Node.relocate : Node → Node
  | .functionDef signature ⟨body, bodySpan⟩ span =>
    .functionDef (signature.relocate g) ⟨Node.relocateAll body, bodySpan.relocate g⟩
      (span.relocate g)
  | .procedureDef signature ⟨body, bodySpan⟩ span =>
    .procedureDef (signature.relocate g) ⟨Node.relocateAll body, bodySpan.relocate g⟩
      (span.relocate g)
  | .varDecl name span => .varDecl (name.relocate g) (span.relocate g)
  | .varInit name value span => .varInit (name.relocate g) value.relocate (span.relocate g)
  | .assignment name value span => .assignment (name.relocate g) value.relocate (span.relocate g)
  | .call ⟨name, ⟨arguments, argumentsSpan⟩, span⟩ =>
    .call ⟨name.relocate g, ⟨Node.relocateAll arguments, argumentsSpan.relocate g⟩,
      span.relocate g⟩
  | .block ⟨body, span⟩ => .block ⟨Node.relocateAll body, span.relocate g⟩
  | .returnStmt value span => .returnStmt value.relocate (span.relocate g)
  | .ifStmt condition ⟨body, bodySpan⟩ alternative span =>
    .ifStmt condition.relocate ⟨Node.relocateAll body, bodySpan.relocate g⟩
      alternative.relocate (span.relocate g)
  | .elseIf condition ⟨body, bodySpan⟩ alternative span =>
    .elseIf condition.relocate ⟨Node.relocateAll body, bodySpan.relocate g⟩
      alternative.relocate (span.relocate g)
  | .elseClause ⟨body, bodySpan⟩ span =>
    .elseClause ⟨Node.relocateAll body, bodySpan.relocate g⟩ (span.relocate g)
  | .forLoop init test update ⟨body, bodySpan⟩ span =>
    .forLoop init.relocate test.relocate update.relocate
      ⟨Node.relocateAll body, bodySpan.relocate g⟩ (span.relocate g)
  | .whileLoop condition ⟨body, bodySpan⟩ span =>
    .whileLoop condition.relocate ⟨Node.relocateAll body, bodySpan.relocate g⟩ (span.relocate g)
  | .switchStmt subject cases span =>
    .switchStmt subject.relocate (Node.relocateCases cases) (span.relocate g)
  | .binary left operator right span =>
    .binary left.relocate (operator.relocate g) right.relocate (span.relocate g)
  | .unary operator operand span =>
    .unary (operator.relocate g) operand.relocate (span.relocate g)
  | .leaf token => .leaf (token.relocate g)
  | .missing failure => .missing (failure.relocate g)

def Node.relocateAll : List Node → List Node
  | [] => []
  | n :: ns => n.relocate :: Node.relocateAll ns

def Node.relocateCases : List (Case Node) → List (Case Node)
  | [] => []
  | ⟨value, ⟨body, bodySpan⟩, span⟩ :: cs =>
    ⟨value.relocate, ⟨Node.relocateAll body, bodySpan.relocate g⟩, span.relocate g⟩ ::
      Node.relocateCases cs

end

def Block.relocate (b : Block Node) : Block Node :=
  ⟨Node.relocateAll g b.statements, b.span.relocate g⟩

def ArgumentList.relocate (a : ArgumentList Node) : ArgumentList Node :=
  ⟨Node.relocateAll g a.arguments, a.span.relocate g⟩

def Call.relocate (c : Call Node) : Call Node :=
  ⟨c.name.relocate g, c.arguments.relocate g, c.span.relocate g⟩

def Case.relocate (c : Case Node) : Case Node :=
  ⟨c.value.relocate g, c.body.relocate g, c.span.relocate g⟩

def Program.relocate (p : Program) : Program :=
  ⟨Node.relocateAll g p.declarations, p.span.relocate g⟩

/-- A program with all positions at the origin. -/
def Program.erase (p : Program) : Program := p.relocate fun _ => .origin

theorem Node.relocateAll_eq_map (ns : List Node) :
    Node.relocateAll g ns = ns.map (Node.relocate g) := by
  induction ns with
  | nil => rfl
  | cons n ns ih => rw [Node.relocateAll, ih, List.map_cons]

theorem Node.relocateCases_eq_map (cs : List (Case Node)) :
    Node.relocateCases g cs = cs.map (Case.relocate g) := by
  induction cs with
  | nil => rfl
  | cons c cs ih =>
    obtain ⟨value, ⟨body, bodySpan⟩, span⟩ := c
    rw [Node.relocateCases, ih, List.map_cons]
    rfl

/-! ### Composition -/

@[simp] theorem Span.relocate_relocate (s : Span) :
    (s.relocate g).relocate h = s.relocate (h ∘ g) := rfl

@[simp] theorem Token.relocate_relocate (t : Token) :
    (t.relocate g).relocate h = t.relocate (h ∘ g) := rfl

@[simp] theorem Signature.relocate_relocate (s : Signature) :
    (s.relocate g).relocate h = s.relocate (h ∘ g) := by
  simp only [Signature.relocate, ParameterList.relocate, List.map_map]
  rfl

mutual

theorem Node.relocate_relocate (n : Node) :
    (n.relocate g).relocate h = n.relocate (h ∘ g) := by
  cases n with
  | functionDef signature body span =>
    have hbody := Node.relocateAll_relocateAll body.statements
    simp [Node.relocate, hbody]
  | procedureDef signature body span =>
    have hbody := Node.relocateAll_relocateAll body.statements
    simp [Node.relocate, hbody]
  | varDecl name span => rfl
  | varInit name value span =>
    have hvalue := Node.relocate_relocate value
    simp [Node.relocate, hvalue]
  | assignment name value span =>
    have hvalue := Node.relocate_relocate value
    simp [Node.relocate, hvalue]
  | call c =>
    have harguments := Node.relocateAll_relocateAll c.arguments.arguments
    simp [Node.relocate, harguments]
  | block b =>
    have hbody := Node.relocateAll_relocateAll b.statements
    simp [Node.relocate, hbody]
  | returnStmt value span =>
    have hvalue := Node.relocate_relocate value
    simp [Node.relocate, hvalue]
  | ifStmt condition body alternative span =>
    have hcondition := Node.relocate_relocate condition
    have hbody := Node.relocateAll_relocateAll body.statements
    have halternative := Node.relocate_relocate alternative
    simp [Node.relocate, hcondition, hbody, halternative]
  | elseIf condition body alternative span =>
    have hcondition := Node.relocate_relocate condition
    have hbody := Node.relocateAll_relocateAll body.statements
    have halternative := Node.relocate_relocate alternative
    simp [Node.relocate, hcondition, hbody, halternative]
  | elseClause body span =>
    have hbody := Node.relocateAll_relocateAll body.statements
    simp [Node.relocate, hbody]
  | forLoop init test update body span =>
    have hinit := Node.relocate_relocate init
    have htest := Node.relocate_relocate test
    have hupdate := Node.relocate_relocate update
    have hbody := Node.relocateAll_relocateAll body.statements
    simp [Node.relocate, hinit, htest, hupdate, hbody]
  | whileLoop condition body span =>
    have hcondition := Node.relocate_relocate condition
    have hbody := Node.relocateAll_relocateAll body.statements
    simp [Node.relocate, hcondition, hbody]
  | switchStmt subject cases span =>
    have hsubject := Node.relocate_relocate subject
    have hcases := Node.relocateCases_relocateCases cases
    simp [Node.relocate, hsubject, hcases]
  | binary left operator right span =>
    have hleft := Node.relocate_relocate left
    have hright := Node.relocate_relocate right
    simp [Node.relocate, hleft, hright]
  | unary operator operand span =>
    have hoperand := Node.relocate_relocate operand
    simp [Node.relocate, hoperand]
  | leaf token => rfl
  | missing failure => rfl

theorem Node.relocateAll_relocateAll (ns : List Node) :
    Node.relocateAll h (Node.relocateAll g ns) = Node.relocateAll (h ∘ g) ns := by
  cases ns with
  | nil => rfl
  | cons n ns =>
    have hfirst := Node.relocate_relocate n
    have hrest := Node.relocateAll_relocateAll ns
    simp [Node.relocateAll, hfirst, hrest]

theorem Node.relocateCases_relocateCases (cs : List (Case Node)) :
    Node.relocateCases h (Node.relocateCases g cs) = Node.relocateCases (h ∘ g) cs := by
  cases cs with
  | nil => rfl
  | cons c cs =>
    have hvalue := Node.relocate_relocate c.value
    have hbody := Node.relocateAll_relocateAll c.body.statements
    have hrest := Node.relocateCases_relocateCases cs
    simp [Node.relocateCases, hvalue, hbody, hrest]

end

/-- **What has been relocated looks the same when positions are erased.** -/
theorem Program.erase_relocate (p : Program) : (p.relocate g).erase = p.erase := by
  simp only [Program.erase, Program.relocate, Node.relocateAll_relocateAll]
  rfl

end TarnLang
