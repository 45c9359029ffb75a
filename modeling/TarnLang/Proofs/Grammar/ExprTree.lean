/-
  TarnLang/Proofs/Grammar/ExprTree.lean
  =====================================
  **Expressions and their trees, without places.**  `Spells p u` derives the row of tokens `u`
  from a piece of an expression, by the productions of the grammar, and gives the tree that
  the derivation stands for: operands and operators of one level are folded to the left, a
  call keeps its arguments in order, and parentheses leave nothing.

  A tree has no spans, but it keeps the tokens as they are.  `Node.tree?` reads the tree off a
  node; what the parser has written (`Written`) is spelled with the tree of its node.
-/
import TarnLang.Proofs.Grammar.Derivation

namespace TarnLang

/-! ### Trees -/

/-- The tree of an expression. -/
inductive ExprTree
  | leaf (token : Token)
  | call (name : Token) (arguments : List ExprTree)
  | unary (operator : Token) (operand : ExprTree)
  | binary (left : ExprTree) (operator : Token) (right : ExprTree)
deriving Repr

/-- Operations of one level, one after the other, grouped to the left. -/
def ExprTree.fold (first : ExprTree) (rest : List (Token × ExprTree)) : ExprTree :=
  rest.foldl (fun left operation => .binary left operation.1 operation.2) first

mutual

/-- The tree of a node, if the node is an expression. -/
def Node.tree? : Node → Option ExprTree
  | .leaf token => some (.leaf token)
  | .call ⟨name, ⟨arguments, _⟩, _⟩ => (Node.trees? arguments).map (ExprTree.call name)
  | .unary operator operand _ => operand.tree?.map (ExprTree.unary operator)
  | .binary left operator right _ =>
    match left.tree?, right.tree? with
    | some l, some r => some (.binary l operator r)
    | _, _ => none
  | _ => none

def Node.trees? : List Node → Option (List ExprTree)
  | [] => some []
  | n :: ns =>
    match n.tree?, Node.trees? ns with
    | some t, some ts => some (t :: ts)
    | _, _ => none

end

/-! ### Spellings -/

/-- A piece of an expression, with its tree or trees.  The operations of a level are what
    stands behind its first operand. -/
inductive Piece
  | infixed (level : Level) (tree : ExprTree)
  | operations (level : Level) (rest : List (Token × ExprTree))
  | unary (tree : ExprTree)
  | primary (tree : ExprTree)
  | arguments (trees : List ExprTree)
  | argumentList (trees : List ExprTree)

namespace Piece

def expression (t : ExprTree) : Piece := .infixed .disjunction t

/-- A tree as an operand of a level. -/
def operand : Level → ExprTree → Piece
  | .disjunction => .infixed .conjunction
  | .conjunction => .infixed .comparison
  | .comparison => .infixed .additive
  | .additive => .infixed .multiplicative
  | .multiplicative => .unary

end Piece

/-- The rows of tokens that spell a piece. -/
inductive Spells : Piece → List Token → Prop
  | literal {t : Token} : t.kind ∈ [.int, .str, .trueKw, .falseKw, .ident] →
      Spells (.primary (.leaf t)) [t]
  | call {name : Token} {trees : List ExprTree} {u : List Token} : name.kind = .ident →
      Spells (.argumentList trees) u → Spells (.primary (.call name trees)) (name :: u)
  | grouped {opening closing : Token} {tree : ExprTree} {u : List Token} :
      opening.kind = .lParen → Spells (Piece.expression tree) u → closing.kind = .rParen →
      Spells (.primary tree) (opening :: (u ++ [closing]))
  | prefixed {operator : Token} {tree : ExprTree} {u : List Token} :
      operator.kind ∈ [.minus, .notKw] → Spells (.unary tree) u →
      Spells (.unary (.unary operator tree)) (operator :: u)
  | primary {tree : ExprTree} {u : List Token} : Spells (.primary tree) u → Spells (.unary tree) u
  | infixed {level : Level} {first : ExprTree} {rest : List (Token × ExprTree)} {u v : List Token} :
      Spells (Piece.operand level first) u → Spells (.operations level rest) v →
      Spells (.infixed level (first.fold rest)) (u ++ v)
  | noOperations {level : Level} : Spells (.operations level []) []
  | moreOperations {level : Level} {operator : Token} {tree : ExprTree}
      {rest : List (Token × ExprTree)} {u v : List Token} : operator.kind ∈ level.operators →
      Spells (Piece.operand level tree) u → Spells (.operations level rest) v →
      Spells (.operations level ((operator, tree) :: rest)) (operator :: (u ++ v))
  | noArguments {opening closing : Token} : opening.kind = .lParen → closing.kind = .rParen →
      Spells (.argumentList []) [opening, closing]
  | argumentList {opening closing : Token} {trees : List ExprTree} {u : List Token} :
      opening.kind = .lParen → Spells (.arguments trees) u → closing.kind = .rParen →
      Spells (.argumentList trees) (opening :: (u ++ [closing]))
  | lastArgument {tree : ExprTree} {u : List Token} : Spells (Piece.expression tree) u →
      Spells (.arguments [tree]) u
  | moreArguments {comma : Token} {tree : ExprTree} {trees : List ExprTree} {u v : List Token} :
      Spells (Piece.expression tree) u → comma.kind = .comma → Spells (.arguments trees) v →
      Spells (.arguments (tree :: trees)) (u ++ comma :: v)

namespace Spells

variable {level : Level} {a b : ExprTree} {rest : List (Token × ExprTree)} {u v : List Token}

theorem operations_snoc {operator : Token} (h : Spells (.operations level rest) u)
    (hop : operator.kind ∈ level.operators) (hb : Spells (Piece.operand level b) v) :
    Spells (.operations level (rest ++ [(operator, b)])) (u ++ operator :: v) := by
  generalize hp : Piece.operations level rest = p at h
  induction h generalizing rest with
  | noOperations =>
    cases hp
    have hlast := Spells.moreOperations hop hb .noOperations
    rwa [List.append_nil] at hlast
  | @moreOperations _ op tree rest u' v' hop' htree _ _ ih =>
    cases hp
    have hmore := Spells.moreOperations hop' htree (ih rfl)
    rwa [← List.append_assoc] at hmore
  | _ => cases hp

/-- An operation of a level has an operation of the level on its left. -/
theorem infixed_snoc {operator : Token} (ha : Spells (.infixed level a) u)
    (hop : operator.kind ∈ level.operators) (hb : Spells (Piece.operand level b) v) :
    Spells (.infixed level (.binary a operator b)) (u ++ operator :: v) := by
  cases ha with
  | @infixed _ first rest u' v' hfirst hrest =>
    have hlonger := Spells.infixed hfirst (hrest.operations_snoc hop hb)
    have hfold : first.fold (rest ++ [(operator, b)]) = .binary (first.fold rest) operator b := by
      simp only [ExprTree.fold, List.foldl_append, List.foldl_cons, List.foldl_nil]
    rwa [hfold, ← List.append_assoc] at hlonger

theorem of_operand (h : Spells (Piece.operand level a) u) : Spells (.infixed level a) u := by
  have hfirst := Spells.infixed h .noOperations
  rwa [List.append_nil] at hfirst

end Spells

/-! ### Spellings are derivations -/

/-- The right-hand side that a piece is a piece of. -/
def Piece.symbol : Piece → Ebnf
  | .infixed level _ => .ref level.symbol
  | .operations level _ =>
    .star (.seq [.oneOf level.operators, (Phrase.operand level default).symbol])
  | .unary _ => .ref .unary
  | .primary _ => .ref .primary
  | .arguments _ => .commaList (.ref .expression)
  | .argumentList _ => .ref .parameterPass

theorem Piece.operand_symbol (level : Level) (t : ExprTree) (n : Node) :
    (Piece.operand level t).symbol = (Phrase.operand level n).symbol := by
  cases level <;> rfl

namespace Derives

variable {e : Ebnf} {es : List Ebnf} {w : List TokenKind}

theorem token {t : Token} {k : TokenKind} (h : t.kind = k) : Derives (.kind k) [t.kind] :=
  h ▸ .kind

theorem last (h : Derives e w) : Derives (.seq [e]) w := by
  have hlast := Derives.cons h .nil
  rwa [List.append_nil] at hlast

/-- A token in front of a row. -/
theorem token_cons {t : Token} {k : TokenKind} (h : t.kind = k) (hw : Derives (.seq es) w) :
    Derives (.seq (.kind k :: es)) (t.kind :: w) :=
  .cons (token h) hw

theorem oneOf {t : Token} {ks : List TokenKind} (h : t.kind ∈ ks) :
    Derives (.oneOf ks) [t.kind] :=
  .alt (List.mem_map_of_mem h) .kind

theorem parens {opening closing : Token} (ho : opening.kind = .lParen) (hw : Derives e w)
    (hc : closing.kind = .rParen) : Derives (.parens e) (opening.kind :: (w ++ [closing.kind])) :=
  token_cons ho (.cons hw (token hc).last)

theorem commaList_last (hw : Derives e w) : Derives (.commaList e) w := by
  have hone := Derives.cons hw (.last (.done (e := .seq [.kind .comma, e])))
  rwa [List.append_nil] at hone

end Derives

/-- **What spells a piece is derivable.** -/
theorem Spells.derives {p : Piece} {u : List Token} (h : Spells p u) :
    Derives p.symbol (u.map (·.kind)) := by
  induction h with
  | @literal t ht =>
    have hliteral : Derives (.kind t.kind) [t.kind] := .kind
    simp only [List.mem_cons, List.not_mem_nil, or_false] at ht
    refine .ref (.alt ?_ hliteral)
    rcases ht with ht | ht | ht | ht | ht <;> rw [ht] <;> simp
  | call hname _ ih => exact .ref (.alt (List.mem_cons_self ..) (.ref (.token_cons hname ih.last)))
  | grouped ho _ hc ih =>
    rw [List.map_cons, List.map_append]
    have hinner : Derives (.ref .expression) _ := .ref ih
    exact .ref (.alt (by simp) (.parens ho hinner hc))
  | prefixed hop _ ih =>
    exact .ref (.alt (List.mem_cons_self ..) (.cons (.oneOf hop) ih.last))
  | primary _ ih => exact .ref (.alt (List.mem_cons_of_mem _ (List.mem_cons_self ..)) ih)
  | @infixed level first rest u v _ _ ih ih' =>
    refine .ref ?_
    rw [level.rule_symbol default, List.map_append]
    rw [Piece.operand_symbol level first default] at ih
    exact .cons ih ih'.last
  | noOperations => exact .done
  | @moreOperations level operator tree rest u v hop _ _ ih ih' =>
    rw [Piece.operand_symbol level tree default] at ih
    rw [List.map_cons, List.map_append]
    exact .more (.cons (.oneOf hop) ih.last) ih'
  | noArguments ho hc => exact .ref (.parens ho .absent hc)
  | argumentList ho _ hc ih =>
    rw [List.map_cons, List.map_append]
    exact .ref (.parens ho (.present ih) hc)
  | lastArgument _ ih => exact .commaList_last (.ref ih)
  | moreArguments _ hcomma _ ih ih' =>
    rw [List.map_append, List.map_cons, hcomma]
    exact .commaList_cons (.ref ih) ih'

/-! ### What is written is spelled -/

/-- How the tokens of a phrase spell its node, if it is a phrase of an expression. -/
def Phrase.Spelled (u : List Token) : Phrase → Prop
  | .binary level n => ∃ t, n.tree? = some t ∧ Spells (.infixed level t) u
  | .unary n => ∃ t, n.tree? = some t ∧ Spells (.unary t) u
  | .primary n => ∃ t, n.tree? = some t ∧ Spells (.primary t) u
  | .arguments ns => ∃ trees, Node.trees? ns = some trees ∧ Spells (.arguments trees) u
  | .argumentList list =>
    ∃ trees, Node.trees? list.arguments = some trees ∧ Spells (.argumentList trees) u
  | .call c => ∃ t, (Node.call c).tree? = some t ∧ Spells (.primary t) u
  | _ => True

theorem Phrase.spelled_operand {level : Level} {n : Node} {u : List Token} :
    (Phrase.operand level n).Spelled u ↔
      ∃ t, n.tree? = some t ∧ Spells (Piece.operand level t) u := by
  cases level <;> exact Iff.rfl

variable {ts : Array Token}

/-- Between two places stands one row of tokens. -/
theorem Place.row_unique {i j : Place ts} {u v : List Token} (hu : i.tokens = u ++ j.tokens)
    (hv : i.tokens = v ++ j.tokens) : u = v :=
  List.append_cancel_right (hu.symm.trans hv)

section

variable {i j k l : Place ts} {kind kind' : TokenKind} {t t' : Token} {u v : List Token}

theorem Place.Takes.tokens_single (h : i.Takes kind t j) : i.tokens = [t] ++ j.tokens := h.tokens_eq

theorem Place.Takes.tokens_cons (h : i.Takes kind t j) (hu : j.tokens = u ++ k.tokens) :
    i.tokens = (t :: u) ++ k.tokens := by
  rw [h.tokens_eq, hu, List.cons_append]

/-- A row between an opening and a closing. -/
theorem Place.Takes.tokens_around (h : i.Takes kind t j) (hu : j.tokens = u ++ k.tokens)
    (h' : k.Takes kind' t' l) : i.tokens = (t :: (u ++ [t'])) ++ l.tokens := by
  rw [h.tokens_eq, hu, h'.tokens_eq]
  simp

/-- Two rows with an operator or a comma between them. -/
theorem Place.Takes.tokens_amid (hu : i.tokens = u ++ j.tokens) (h : j.Takes kind t k)
    (hv : k.tokens = v ++ l.tokens) : i.tokens = (u ++ t :: v) ++ l.tokens := by
  rw [hu, h.tokens_eq, hv]
  simp

end

theorem Written.exists_row {p : Phrase} {i j : Place ts} (h : Written p i j) :
    ∃ u, i.tokens = u ++ j.tokens :=
  Place.exists_append_of_le h.stands.le

/-- **What is written spells its tree.** -/
theorem Written.spelled {p : Phrase} {i j : Place ts} (h : Written p i j) :
    ∀ u, i.tokens = u ++ j.tokens → p.Spelled u := by
  induction h with
  | callValue _ ih => exact ih
  | literal ht hk =>
    intro u hu
    obtain rfl := Place.row_unique hu ht.tokens_single
    exact ⟨_, rfl, .literal hk⟩
  | grouped ht hn ht' ih =>
    intro u hu
    obtain ⟨v, hv⟩ := hn.exists_row
    obtain rfl := Place.row_unique hu (ht.tokens_around hv ht')
    obtain ⟨tree, htree, hspells⟩ := ih v hv
    exact ⟨tree, htree, .grouped ht.kind_eq hspells ht'.kind_eq⟩
  | prefixed hop hk hn ih =>
    intro u hu
    obtain ⟨v, hv⟩ := hn.exists_row
    obtain rfl := Place.row_unique hu (hop.tokens_cons hv)
    obtain ⟨tree, htree, hspells⟩ := ih v hv
    exact ⟨.unary _ tree, by rw [Node.tree?, htree]; rfl, .prefixed hk hspells⟩
  | primaryUnary _ ih =>
    intro u hu
    obtain ⟨tree, htree, hspells⟩ := ih u hu
    exact ⟨tree, htree, .primary hspells⟩
  | operand _ ih =>
    intro u hu
    obtain ⟨tree, htree, hspells⟩ := Phrase.spelled_operand.mp (ih u hu)
    exact ⟨tree, htree, .of_operand hspells⟩
  | operation ha hop hk hb ih ih' =>
    intro u hu
    obtain ⟨v, hv⟩ := ha.exists_row
    obtain ⟨w, hw⟩ := hb.exists_row
    obtain rfl := Place.row_unique hu (hop.tokens_amid hv hw)
    obtain ⟨left, hleft, hspells⟩ := ih v hv
    obtain ⟨right, hright, hspells'⟩ := Phrase.spelled_operand.mp (ih' w hw)
    refine ⟨.binary left _ right, ?_, hspells.infixed_snoc hk hspells'⟩
    rw [Node.tree?, hleft, hright]
  | lastArgument _ ih =>
    intro u hu
    obtain ⟨tree, htree, hspells⟩ := ih u hu
    exact ⟨[tree], by rw [Node.trees?, htree, Node.trees?], .lastArgument hspells⟩
  | moreArguments hn ht hns ih ih' =>
    intro u hu
    obtain ⟨v, hv⟩ := hn.exists_row
    obtain ⟨w, hw⟩ := hns.exists_row
    obtain rfl := Place.row_unique hu (ht.tokens_amid hv hw)
    obtain ⟨tree, htree, hspells⟩ := ih v hv
    obtain ⟨trees, htrees, hspells'⟩ := ih' w hw
    refine ⟨tree :: trees, ?_, .moreArguments hspells ht.kind_eq hspells'⟩
    rw [Node.trees?, htree, htrees]
  | noArguments ht ht' =>
    intro u hu
    obtain rfl := Place.row_unique hu (ht.tokens_cons ht'.tokens_single)
    exact ⟨[], rfl, .noArguments ht.kind_eq ht'.kind_eq⟩
  | argumentList ht hns ht' ih =>
    intro u hu
    obtain ⟨v, hv⟩ := hns.exists_row
    obtain rfl := Place.row_unique hu (ht.tokens_around hv ht')
    obtain ⟨trees, htrees, hspells⟩ := ih v hv
    exact ⟨trees, htrees, .argumentList ht.kind_eq hspells ht'.kind_eq⟩
  | @call i name j list k hname hlist ih =>
    intro u hu
    obtain ⟨v, hv⟩ := hlist.exists_row
    obtain rfl := Place.row_unique hu (hname.tokens_cons hv)
    obtain ⟨trees, htrees, hspells⟩ := ih v hv
    obtain ⟨arguments, span⟩ := list
    exact ⟨.call _ trees, by rw [Node.tree?, htrees]; rfl, .call hname.kind_eq hspells⟩
  -- phrases that are no part of an expression
  | _ => exact fun _ _ => trivial

end TarnLang
