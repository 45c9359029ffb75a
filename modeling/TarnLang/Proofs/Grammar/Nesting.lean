/-
  TarnLang/Proofs/Grammar/Nesting.lean
  ====================================
  **Spans are those of the tokens that were read, and they nest.**  `Outline.Laid` gives every
  item of an outline a range of tokens: the span of the item is the union of the spans in its
  range, a leaf is the one token in its range, and the ranges of the children stand one behind
  the other in the range of the item.  A missing part has neither a span nor a range.

  An item may have a smaller range than the phrase that it was read from, because parentheses
  around a value and the semicolon behind a call belong to no item, or to the one around.
-/
import TarnLang.Node.Outline
import TarnLang.Proofs.Grammar.Soundness
import TarnLang.Proofs.Text.Lexer

namespace TarnLang

variable {ts : Array Token}

/-! ### Ranges of tokens -/

/-- A span is the union of the spans of a range of tokens that is not empty. -/
structure Covers (ts : Array Token) (i j : Nat) (span : Span) : Prop where
  lt : i < j
  ends : ∃ first last, ts[i]? = some first ∧ ts[j - 1]? = some last ∧
    span = first.span.through last.span

namespace Outline

mutual

/-- An item that is laid on the tokens from the first index up to the second. -/
inductive Laid (ts : Array Token) : Outline → Nat → Nat → Prop
  | leaf {role : String} {t : Token} {i : Nat} : ts[i]? = some t →
      Laid ts (.item role "Leaf" (some t.span) (.leaf t) []) i (i + 1)
  | part {role shape : String} {span : Span} {children : List Outline} {i j : Nat} :
      Covers ts i j span → LaidOut ts children i j →
      Laid ts (.item role shape (some span) .plain children) i j

/-- Items in a row that are laid one behind the other between two indices. -/
inductive LaidOut (ts : Array Token) : List Outline → Nat → Nat → Prop
  | nil {i j : Nat} : i ≤ j → LaidOut ts [] i j
  | missing {role : String} {f : ParseFailure} {os : List Outline} {i j : Nat} :
      LaidOut ts os i j → LaidOut ts (.item role "Missing" none (.missing f) [] :: os) i j
  | cons {o : Outline} {os : List Outline} {i j k l : Nat} :
      i ≤ k → Laid ts o k l → LaidOut ts os l j → LaidOut ts (o :: os) i j

end

/-- An item that is laid on tokens between two indices. -/
def Inside (ts : Array Token) (o : Outline) (i j : Nat) : Prop :=
  ∃ k l, i ≤ k ∧ l ≤ j ∧ Laid ts o k l

variable {o : Outline} {os os' : List Outline} {role shape : String} {t : Token}

theorem Laid.lt {i j : Nat} (h : Laid ts o i j) : i < j := by
  cases h with
  | leaf => exact Nat.lt_succ_self i
  | part hcovers _ => exact hcovers.lt

theorem Inside.lt {i j : Nat} (h : Inside ts o i j) : i < j := by
  obtain ⟨k, l, hik, hlj, hlaid⟩ := h
  exact Nat.lt_of_le_of_lt hik (Nat.lt_of_lt_of_le hlaid.lt hlj)

theorem Inside.widen {i i' j j' : Nat} (h : Inside ts o i j) (hi : i' ≤ i) (hj : j ≤ j') :
    Inside ts o i' j' := by
  obtain ⟨k, l, hk, hl, hlaid⟩ := h
  exact ⟨k, l, Nat.le_trans hi hk, Nat.le_trans hl hj, hlaid⟩

namespace LaidOut

variable {i j k : Nat}

theorem le (h : LaidOut ts os i j) : i ≤ j := by
  induction os generalizing i with
  | nil =>
    cases h with
    | nil hij => exact hij
  | cons o os ih =>
    cases h with
    | missing hrest => exact ih hrest
    | cons hik hlaid hrest =>
      exact Nat.le_trans hik (Nat.le_trans (Nat.le_of_lt hlaid.lt) (ih hrest))

theorem skip (hij : i ≤ j) (h : LaidOut ts os j k) : LaidOut ts os i k := by
  induction os with
  | nil => exact .nil (Nat.le_trans hij h.le)
  | cons o os ih =>
    cases h with
    | missing hrest => exact .missing (ih hrest)
    | cons hjk hlaid hrest => exact .cons (Nat.le_trans hij hjk) hlaid hrest

theorem append (h : LaidOut ts os i j) (h' : LaidOut ts os' j k) : LaidOut ts (os ++ os') i k := by
  induction os generalizing i with
  | nil => exact h'.skip h.le
  | cons o os ih =>
    cases h with
    | missing hrest => exact .missing (ih hrest)
    | cons hik hlaid hrest => exact .cons hik hlaid (ih hrest)

theorem upTo (h : LaidOut ts os i j) (hjk : j ≤ k) : LaidOut ts os i k := by
  have hnothing := h.append (.nil hjk)
  rwa [List.append_nil] at hnothing

/-- What is in a row is missing or laid within it. -/
theorem inside_of_mem (h : LaidOut ts os i j) (ho : o ∈ os) :
    (∃ role f, o = .item role "Missing" none (.missing f) []) ∨ Inside ts o i j := by
  induction os generalizing i with
  | nil => cases ho
  | cons o' os ih =>
    cases h with
    | missing hrest =>
      rcases List.mem_cons.mp ho with rfl | ho
      · exact Or.inl ⟨_, _, rfl⟩
      · exact ih hrest ho
    | cons hik hlaid hrest =>
      rcases List.mem_cons.mp ho with rfl | ho
      · exact Or.inr ⟨_, _, hik, hrest.le, hlaid⟩
      · have hil := Nat.le_trans hik (Nat.le_of_lt hlaid.lt)
        exact (ih hrest ho).imp_right fun hinside => hinside.widen hil (Nat.le_refl j)

end LaidOut

/-- An item in front of a row. -/
theorem Inside.cons {i j k : Nat} (h : Inside ts o i j) (hrest : LaidOut ts os j k) :
    LaidOut ts (o :: os) i k := by
  obtain ⟨i', j', hi, hj, hlaid⟩ := h
  exact .cons hi hlaid (hrest.skip hj)

theorem Inside.single {i j : Nat} (h : Inside ts o i j) : LaidOut ts [o] i j :=
  h.cons (.nil (Nat.le_refl j))

end Outline

/-! ### Items between places -/

open Outline

namespace Place

variable {i j k : Place ts} {kind : TokenKind} {t : Token} {o : Outline} {os : List Outline}

theorem covers_spanTo (h : i < j) : Covers ts i j (i.spanTo j) := by
  obtain ⟨first, i', hfirst⟩ := exists_takes_of_lt h
  obtain ⟨last, j', hlast⟩ := exists_takes_before h
  have hval := val_eq_add (u := [last]) hlast.tokens_eq
  have hprev : j.val - 1 = j'.val := by
    rw [List.length_singleton] at hval
    omega
  refine ⟨h, first, last, hfirst.peek?, ?_, spanTo_eq_through hfirst hlast h⟩
  rw [hprev]
  exact hlast.peek?

namespace Takes

/-- A token that the tree keeps. -/
theorem inside (h : i.Takes kind t j) (role : String) : Inside ts (ofToken role t) i j := by
  have hval : j.val = i.val + 1 := val_eq_add (u := [t]) h.tokens_eq
  refine ⟨i, i + 1, Nat.le_refl _, Nat.le_of_eq hval.symm, ?_⟩
  exact .leaf h.peek?

/-- A token that the tree does not keep, in front of a row. -/
theorem skip (h : i.Takes kind t j) (hrow : LaidOut ts os j k) : LaidOut ts os i k :=
  LaidOut.skip (Nat.le_of_lt h.lt) hrow

/-- A part that begins with a token that it does not keep. -/
theorem part (h : i.Takes kind t j) (hrow : LaidOut ts os j k) (role shape : String) :
    Inside ts (.part role shape (i.spanTo k) os) i k := by
  have hlt : i < k := Nat.lt_of_lt_of_le h.lt hrow.le
  exact ⟨i, k, Nat.le_refl _, Nat.le_refl _, .part (covers_spanTo hlt) (h.skip hrow)⟩

end Takes

end Place

/-- A token that the tree does not keep, behind a row. -/
theorem Outline.LaidOut.behind {i j k : Place ts} {kind : TokenKind} {t : Token}
    {os : List Outline} (hrow : LaidOut ts os i j) (h : j.Takes kind t k) : LaidOut ts os i k :=
  hrow.upTo (Nat.le_of_lt h.lt)

/-- A part that begins with its first child. -/
theorem Outline.Inside.part {i j k : Place ts} {o : Outline} {os : List Outline}
    (h : Inside ts o i j) (hrow : LaidOut ts os j k) (role shape : String) :
    Inside ts (.part role shape (i.spanTo k) (o :: os)) i k := by
  have hlt : i < k := Nat.lt_of_lt_of_le h.lt hrow.le
  exact ⟨i, k, Nat.le_refl _, Nat.le_refl _, .part (Place.covers_spanTo hlt) (h.cons hrow)⟩

/-! ### Phrases -/

/-- A phrase whose items are laid between two places. -/
def Phrase.LaidIn (p : Phrase) (i j : Place ts) : Prop :=
  match p with
  | .binary _ n | .unary n | .primary n | .declaration n | .assignment n | .forInit n
  | .alternative n | .statement n => ∀ role, Inside ts (n.outline role) i j
  | .optional _ n => ∀ role, LaidOut ts [n.outline role] i j
  | .arguments ns | .statements ns | .declarations ns =>
    ∀ role, LaidOut ts (Node.outlines role ns) i j
  | .argumentList a => Inside ts
      (.part "arguments" "ParameterPass" a.span (Node.outlines "argument" a.arguments)) i j
  | .call c => ∀ role, Inside ts ((Node.call c).outline role) i j
  | .names ns => LaidOut ts (ns.map (ofToken "parameter")) i j
  | .parameterList p => ∀ role, Inside ts (ofParameters role p) i j
  | .signature s => ∀ role, Inside ts (ofSignature role s) i j
  | .block b => ∀ role, Inside ts (b.outline role) i j
  | .caseClause c => LaidOut ts (Node.outlinesOfCases [c]) i j
  | .cases cs => LaidOut ts (Node.outlinesOfCases cs) i j

variable {i j : Place ts}

theorem Phrase.laidIn_operand {level : Level} {n : Node} :
    (operand level n).LaidIn i j ↔ ∀ role, Inside ts (n.outline role) i j := by
  cases level <;> rfl

theorem Phrase.laidIn_part {p : OptionalPart} {n : Node} :
    (part p n).LaidIn i j ↔ ∀ role, Inside ts (n.outline role) i j := by
  cases p <;> rfl

/-- **What is written between two places is laid between them.** -/
theorem Written.laidIn {p : Phrase} (h : Written p i j) : p.LaidIn i j := by
  induction h with
  | callValue _ ih => exact ih
  | literal ht _ => exact ht.inside
  | grouped ht _ ht' ih =>
    exact fun role => (ih role).widen (Nat.le_of_lt ht.lt) (Nat.le_of_lt ht'.lt)
  | prefixed hop _ _ ih =>
    exact fun role => (hop.inside "operator").part (ih "operand").single role "UnaryOp"
  | primaryUnary _ ih => exact ih
  | operand _ ih => exact Phrase.laidIn_operand.mp ih
  | operation _ hop _ _ ih ih' =>
    intro role
    have hright := (Phrase.laidIn_operand.mp ih' "right").single
    exact (ih "left").part ((hop.inside "operator").cons hright) role "BinaryOp"
  | lastArgument _ ih => exact fun role => (ih role).single
  | moreArguments _ ht _ ih ih' => exact fun role => (ih role).cons (ht.skip (ih' role))
  | noArguments ht ht' =>
    exact ht.part (.nil (Nat.le_of_lt ht'.lt)) "arguments" "ParameterPass"
  | argumentList ht _ ht' ih =>
    exact ht.part ((ih "argument").behind ht') "arguments" "ParameterPass"
  | call hname _ ih => exact fun role => (hname.inside "name").part ih.single role "Call"
  | lastName hname => exact (hname.inside "parameter").single
  | moreNames hname ht _ ih => exact (hname.inside "parameter").cons (ht.skip ih)
  | noParameters ht ht' =>
    exact fun role => ht.part (.nil (Nat.le_of_lt ht'.lt)) role "ParameterDef"
  | parameterList ht _ ht' ih => exact fun role => ht.part (ih.behind ht') role "ParameterDef"
  | signature hname _ ih =>
    exact fun role => (hname.inside "name").part (ih "parameters").single role "Signature"
  | functionDef ht _ _ ihs ihb =>
    exact fun role => ht.part ((ihs "signature").cons (ihb "body").single) role "FunctionDef"
  | procedureDef ht _ _ ihs ihb =>
    exact fun role => ht.part ((ihs "signature").cons (ihb "body").single) role "ProcedureDef"
  | varDecl ht hname ht' =>
    exact fun role => ht.part ((hname.inside "name").single.behind ht') role "VarDecl"
  | varInit ht hname ht' _ ht'' ih =>
    have hvalue := ht'.skip ((ih "value").single.behind ht'')
    exact fun role => ht.part ((hname.inside "name").cons hvalue) role "VarInit"
  | assignment hname ht _ ih =>
    exact fun role => (hname.inside "name").part (ht.skip (ih "value").single) role "VarAssignment"
  | forDeclaration ht hname ht' _ ih =>
    have hvalue := ht'.skip (ih "value").single
    exact fun role => ht.part ((hname.inside "name").cons hvalue) role "VarInit"
  | forAssignment _ ih => exact ih
  | elseIf ht ht' ht₁ _ ht₂ _ _ ihn ihb iha =>
    have hrest := ht₂.skip ((ihb "body").cons (iha "alternative"))
    exact fun role => ht.part (ht'.skip (ht₁.skip ((ihn "condition").cons hrest))) role "ElseIf"
  | elseClause ht _ ih => exact fun role => ht.part (ih "body").single role "Else"
  | absent => exact fun role => .missing (.nil (Nat.le_refl _))
  | present _ ih => exact fun role => (Phrase.laidIn_part.mp ih role).single
  | declarationStatement _ ih => exact ih
  | assignmentStatement _ ht ih =>
    exact fun role => (ih role).widen (Nat.le_refl _) (Nat.le_of_lt ht.lt)
  | callStatement _ ht ih =>
    exact fun role => (ih role).widen (Nat.le_refl _) (Nat.le_of_lt ht.lt)
  | returnStmt ht _ ht' ih => exact fun role => ht.part ((ih "value").behind ht') role "Return"
  | ifStmt ht ht₁ _ ht₂ _ _ ihn ihb iha =>
    have hrest := ht₂.skip ((ihb "body").cons (iha "alternative"))
    exact fun role => ht.part (ht₁.skip ((ihn "condition").cons hrest)) role "If"
  | forLoop ht ht₁ _ ht₂ _ ht₃ _ ht₄ _ ihi iht ihu ihb =>
    have hupdate := (ihu "update").append (ht₄.skip (ihb "body").single)
    have htest := (iht "test").append (ht₃.skip hupdate)
    have hinit := (ihi "init").append (ht₂.skip htest)
    exact fun role => ht.part (ht₁.skip hinit) role "For"
  | whileLoop ht ht₁ _ ht₂ _ ihn ihb =>
    have hrest := ht₂.skip (ihb "body").single
    exact fun role => ht.part (ht₁.skip ((ihn "condition").cons hrest)) role "While"
  | switchStmt ht ht₁ _ ht₂ ht₃ _ ht₄ ihn ihc =>
    have hrest := ht₂.skip (ht₃.skip (ihc.behind ht₄))
    exact fun role => ht.part (ht₁.skip ((ihn "subject").cons hrest)) role "Switch"
  | blockStatement _ ih => exact ih
  | noStatements => exact fun role => .nil (Nat.le_refl _)
  | moreStatements _ _ ih ih' => exact fun role => (ih role).cons (ih' role)
  | block ht _ ht' ih => exact fun role => ht.part ((ih "statement").behind ht') role "Block"
  | caseClause ht _ _ ihn ihb =>
    exact (ht.part ((ihn "value").cons (ihb "body").single) "case" "Case").single
  | noCases => exact .nil (Nat.le_refl _)
  | moreCases _ _ ih ih' => exact ih.append ih'
  | noDeclarations => exact fun role => .nil (Nat.le_refl _)
  | moreDeclarations _ _ ih ih' => exact fun role => (ih role).cons (ih' role)

/-! ### Nested spans -/

namespace Outline

variable {o o' c : Outline} {os : List Outline} {i j k l : Nat} {span span' : Span}

def span? : Outline → Option Span
  | item _ _ span _ _ => span

def children : Outline → List Outline
  | item _ _ _ _ children => children

/-- An item of an outline: the outline itself, or one in a child of it. -/
inductive Within : Outline → Outline → Prop
  | self {o : Outline} : Within o o
  | child {o c o' : Outline} : c ∈ o.children → Within o' c → Within o' o

/-- Every item's span holds those of its children, and of two children the span of the first
    ends no later than that of the second starts.  Missing parts have no span. -/
def Nested (o : Outline) : Prop :=
  ∀ o', Within o' o → (∀ c ∈ o'.children, ∀ s ∈ o'.span?, ∀ s' ∈ c.span?, s.contains s') ∧
    (o'.children.filterMap span?).Pairwise fun a b => a.precedes b

theorem Laid.covers (h : Laid ts o i j) : ∃ span, o.span? = some span ∧ Covers ts i j span := by
  cases h with
  | @leaf role t i ht => exact ⟨t.span, rfl, Nat.lt_succ_self i, t, t, ht, ht, rfl⟩
  | part hcovers _ => exact ⟨_, rfl, hcovers⟩

theorem Laid.children (h : Laid ts o i j) : LaidOut ts o.children i j := by
  cases h with
  | leaf => exact .nil (Nat.le_succ _)
  | part _ hchildren => exact hchildren

end Outline

namespace InOrder

variable {i k : Nat} {a b : Token}

/-- Of two tokens, the one with the smaller index starts before the other, and ends no later than
    the other starts. -/
theorem apart_of_lt (h : InOrder ts.toList) (hik : i < k) (ha : ts[i]? = some a)
    (hb : ts[k]? = some b) : a.span.start < b.span.start ∧ a.span.stop ≤ b.span.start := by
  rw [← Array.getElem?_toList, List.getElem?_eq_some_iff] at ha hb
  obtain ⟨hi, rfl⟩ := ha
  obtain ⟨hk, rfl⟩ := hb
  exact List.pairwise_iff_getElem.mp h.apart i k hi hk hik

theorem start_le (h : InOrder ts.toList) (hik : i ≤ k) (ha : ts[i]? = some a)
    (hb : ts[k]? = some b) : a.span.start ≤ b.span.start := by
  rcases Nat.lt_or_eq_of_le hik with hlt | rfl
  · exact Position.le_of_lt (h.apart_of_lt hlt ha hb).1
  · obtain rfl := Option.some.inj (ha.symm.trans hb)
    exact Position.le_refl _

theorem stop_le (h : InOrder ts.toList) (hik : i ≤ k) (ha : ts[i]? = some a)
    (hb : ts[k]? = some b) : a.span.stop ≤ b.span.stop := by
  rcases Nat.lt_or_eq_of_le hik with hlt | rfl
  · have hmem : b ∈ ts.toList := Array.mem_toList_iff.mpr (Array.mem_of_getElem? hb)
    exact Position.le_trans (h.apart_of_lt hlt ha hb).2 (h.forward b hmem)
  · obtain rfl := Option.some.inj (ha.symm.trans hb)
    exact Position.le_refl _

end InOrder

namespace Covers

variable {i j k l : Nat} {span span' : Span}

theorem contains (horder : InOrder ts.toList) (h : Covers ts i j span) (h' : Covers ts k l span')
    (hik : i ≤ k) (hlj : l ≤ j) : span.contains span' = true := by
  obtain ⟨first, last, hfirst, hlast, rfl⟩ := h.ends
  obtain ⟨first', last', hfirst', hlast', rfl⟩ := h'.ends
  have hstart := horder.start_le hik hfirst hfirst'
  have hstop := horder.stop_le (Nat.sub_le_sub_right hlj 1) hlast' hlast
  exact decide_eq_true ⟨hstart, hstop⟩

theorem precedes (horder : InOrder ts.toList) (h : Covers ts i j span) (h' : Covers ts k l span')
    (hjk : j ≤ k) : span.precedes span' = true := by
  obtain ⟨first, last, hfirst, hlast, rfl⟩ := h.ends
  obtain ⟨first', last', hfirst', hlast', rfl⟩ := h'.ends
  have hlt : j - 1 < k := Nat.lt_of_lt_of_le (Nat.sub_one_lt_of_lt h.lt) hjk
  exact decide_eq_true (horder.apart_of_lt hlt hlast hfirst').2

end Covers

namespace Outline

variable {o o' : Outline} {os : List Outline} {i j : Nat}

/-- What has a span in a row is laid within it. -/
theorem LaidOut.covers_of_mem (h : LaidOut ts os i j) (ho : o ∈ os) {span : Span}
    (hspan : o.span? = some span) : ∃ k l, i ≤ k ∧ l ≤ j ∧ Covers ts k l span := by
  rcases h.inside_of_mem ho with ⟨role, f, rfl⟩ | ⟨k, l, hik, hlj, hlaid⟩
  · cases hspan
  · obtain ⟨span', hspan', hcovers⟩ := hlaid.covers
    obtain rfl := Option.some.inj (hspan.symm.trans hspan')
    exact ⟨k, l, hik, hlj, hcovers⟩

theorem LaidOut.pairwise_precedes (horder : InOrder ts.toList) (h : LaidOut ts os i j) :
    (os.filterMap span?).Pairwise fun a b => a.precedes b := by
  induction os generalizing i with
  | nil => exact .nil
  | cons o os ih =>
    cases h with
    | missing hrest => exact ih hrest
    | cons hik hlaid hrest =>
      obtain ⟨span, hspan, hcovers⟩ := hlaid.covers
      rw [List.filterMap_cons_some hspan]
      refine List.pairwise_cons.mpr ⟨?_, ih hrest⟩
      intro span' hspan'
      obtain ⟨o', ho', hspan'⟩ := List.mem_filterMap.mp hspan'
      obtain ⟨k', l', hlk, -, hcovers'⟩ := hrest.covers_of_mem ho' hspan'
      exact hcovers.precedes horder hcovers' hlk

/-- Items of an outline that is laid are laid, or missing. -/
theorem Within.laid (h : Within o' o) (ho : Laid ts o i j) :
    (∃ role f, o' = .item role "Missing" none (.missing f) []) ∨ Inside ts o' i j := by
  induction h generalizing i j with
  | self => exact Or.inr ⟨i, j, Nat.le_refl i, Nat.le_refl j, ho⟩
  | @child o c o' hc hwithin ih =>
    rcases ho.children.inside_of_mem hc with ⟨role, f, rfl⟩ | ⟨k, l, hik, hlj, hlaid⟩
    · cases hwithin with
      | self => exact Or.inl ⟨role, f, rfl⟩
      | child hnone _ => cases hnone
    · exact (ih hlaid).imp_right fun hinside => hinside.widen hik hlj

/-- **Where tokens stand in order, spans nest.** -/
theorem Laid.nested (horder : InOrder ts.toList) (h : Laid ts o i j) : o.Nested := by
  intro o' ho'
  rcases ho'.laid h with ⟨role, f, rfl⟩ | ⟨k, l, -, -, hlaid⟩
  · refine ⟨?_, .nil⟩
    intro c hc
    cases hc
  · refine ⟨?_, hlaid.children.pairwise_precedes horder⟩
    intro c hc span hspan span' hspan'
    obtain ⟨whole, hwhole, hcovers⟩ := hlaid.covers
    obtain rfl := Option.some.inj (hwhole.symm.trans hspan)
    obtain ⟨k', l', hk, hl, hcovers'⟩ := hlaid.children.covers_of_mem hc hspan'
    exact hcovers.contains horder hcovers' hk hl

end Outline

/-! ### What is read -/

/-- Outlines of what a rule of the grammar reads between two places. -/
inductive Reading (ts : Array Token) (i j : Place ts) : Outline → Prop
  | program {p : Program} : Grammar.program ts i = .ok (p, j) → Reading ts i j p.outline
  | expression {n : Node} (role : String) : Grammar.expression ts i = .ok (n, j) →
      Reading ts i j (n.outline role)
  | statement {n : Node} (role : String) : Grammar.statement ts i = .ok (n, j) →
      Reading ts i j (n.outline role)
  | block {b : Block Node} (role : String) : Grammar.block ts i = .ok (b, j) →
      Reading ts i j (b.outline role)

theorem Reading.inside {o : Outline} (h : Reading ts i j o) : Inside ts o i j := by
  cases h with
  | @program p hp =>
    obtain ⟨k, t, hwritten, ht, hspan⟩ := Grammar.written_program hp
    have hrow := (hwritten.laidIn "declaration").behind ht
    have hlt : i < j := Fin.lt_of_le_of_lt (hwritten.laidIn "declaration").le ht.lt
    rw [Program.outline, hspan]
    exact ⟨i, j, Nat.le_refl _, Nat.le_refl _, .part (Place.covers_spanTo hlt) hrow⟩
  | expression role hn => exact ((sound_grammar ts).expression hn).laidIn role
  | statement role hn => exact ((sound_grammar ts).statement hn).laidIn role
  | block role hb => exact ((sound_grammar ts).block hb).laidIn role

/-- **Spans are those of the tokens that were read, and they nest.**  All items of what a rule
    reads are laid on the tokens that it reads.  For the tokens of a text, the span of an item
    holds the spans of its children, which stand one behind the other. -/
theorem reading_laid {o : Outline} (h : Reading ts i j o) :
    (∃ k l, i.val ≤ k ∧ k < l ∧ l ≤ j.val ∧ Laid ts o k l) ∧
      ∀ source : String, source.utf8ByteSize ≤ 2 ^ 32 - 2 → (tokenize source).tokens = ts →
        o.Nested := by
  obtain ⟨k, l, hik, hlj, hlaid⟩ := h.inside
  refine ⟨⟨k, l, hik, hlaid.lt, hlj, hlaid⟩, ?_⟩
  rintro source hsize rfl
  exact hlaid.nested (inOrder_tokenize (by omega))

/-- Parentheses belong to no item: the value of the variable is the number alone. -/
theorem reading_laid_of_declaration :
    ∃ p j, Grammar.program (tokenize "let x = (1);").tokens (Place.first _) = .ok (p, j) ∧
      (∃ k l, Laid (tokenize "let x = (1);").tokens p.outline k l) ∧ p.outline.Nested ∧
      p.outline.rows.map (fun row => (row.shape, row.span)) =
        [("Program", some (.ofWords 1 1 1 13)), ("VarInit", some (.ofWords 1 1 1 13)),
          ("Leaf", some (.ofWords 1 5 1 6)), ("Leaf", some (.ofWords 1 10 1 11))] := by
  have hread : (parse (tokenize "let x = (1);").tokens).toOption.map (fun p =>
      p.outline.rows.map fun row => (row.shape, row.span)) =
        some [("Program", some (.ofWords 1 1 1 13)), ("VarInit", some (.ofWords 1 1 1 13)),
          ("Leaf", some (.ofWords 1 5 1 6)), ("Leaf", some (.ofWords 1 10 1 11))] := by
    decide +kernel
  obtain ⟨p, h, hrows⟩ := exists_of_map_parse hread
  obtain ⟨j, hp⟩ := parse_ok.mp h
  obtain ⟨⟨k, l, -, -, -, hlaid⟩, hnested⟩ := reading_laid (.program hp)
  exact ⟨p, j, hp, ⟨k, l, hlaid⟩, hnested _ (by decide) rfl, hrows⟩

end TarnLang
