/-
  TarnLang/Proofs/Grammar/Longest.lean
  ====================================
  **The longest expression, and its tree.**  What spells a piece of an expression is read by the
  rule for the piece, with the tree that its spelling gives, as long as nothing ahead could
  continue it (`Spells.read`).  A row of tokens on its own has nothing ahead, so no row has
  two trees.

  The parser reaches every expression that stands at a place, and what it reads is one.  So it
  reads the longest there is, and gives that one's tree.
-/
import Mathlib.Data.List.Forall2
import TarnLang.Proofs.Grammar.ExprTree
import TarnLang.Proofs.Grammar.Reach

namespace TarnLang

open TarnLang.Parser

variable {ts : Array Token}

/-! ### Rows of tokens from a place on -/

namespace Place

variable {i j : Place ts} {t : Token} {u : List Token}

theorem exists_takes_of_cons (h : i.tokens = t :: u) : ∃ j, i.Takes t.kind t j ∧ j.tokens = u := by
  obtain ⟨j, hj⟩ := exists_of_append (u := [t]) h
  refine ⟨j, ⟨?_, rfl⟩, hj⟩
  rw [h, hj]

end Place

theorem Spells.stands {p : Piece} {u : List Token} {i j : Place ts} (h : Spells p u)
    (hu : i.tokens = u ++ j.tokens) : Stands p.symbol i j := by
  refine ⟨_, h.derives, ?_⟩
  rw [Place.kinds, hu, List.map_append]
  rfl

/-! ### What the parser makes of a piece -/

/-- Nodes that show given trees, operation by operation. -/
abbrev Grammar.Shows (xs : List (Token × Node × Span)) (rest : List (Token × ExprTree)) : Prop :=
  List.Forall₂ (fun x y => x.1 = y.1 ∧ x.2.1.tree? = some y.2) xs rest

/-- The rule for a piece reads from one place to another, with the tree of the piece. -/
def Piece.Read (i j : Place ts) : Piece → Prop
  | .infixed level t => ∃ n, level.parse ts i = .ok (n, j) ∧ n.tree? = some t
  | .operations level rest =>
    ∃ xs, Runs (Grammar.operation (level.parseOperand ts) level.tried) i xs j ∧
      Grammar.Shows xs rest
  | .unary t => ∃ n, Grammar.unary (grammar ts) i = .ok (n, j) ∧ n.tree? = some t
  | .primary t => ∃ n, Grammar.primary (grammar ts) i = .ok (n, j) ∧ n.tree? = some t
  | .arguments trees =>
    ∃ ns, SeparatedItems (token .comma) (grammar ts).expression i ns j ∧
      Node.trees? ns = some trees
  | .argumentList trees =>
    ∃ list, Grammar.argumentList (grammar ts) i = .ok (list, j) ∧
      Node.trees? list.arguments = some trees

/-- Kinds that a piece goes on with. -/
def Piece.ahead : Piece → List TokenKind
  | .infixed level _ => level.ahead
  | .operations level _ => level.ahead
  | .unary _ => [.lParen]
  | .primary _ => [.lParen]
  | .arguments _ => .comma :: Level.disjunction.ahead
  | .argumentList _ => []

theorem Piece.ahead_operand (level : Level) (t : ExprTree) :
    (Piece.operand level t).ahead = level.aheadOfOperand := by
  cases level <;> rfl

theorem Piece.read_operand {level : Level} {t : ExprTree} {i j : Place ts} :
    (Piece.operand level t).Read i j ↔
      ∃ n, level.parseOperand ts i = .ok (n, j) ∧ n.tree? = some t := by
  cases level <;> exact Iff.rfl

theorem Grammar.tree?_groupLeft {xs : List (Token × Node × Span)} {rest : List (Token × ExprTree)}
    (hrest : Shows xs rest) {first : Node × Span} {t : ExprTree} (h : first.1.tree? = some t) :
    (groupLeft first xs).tree? = some (t.fold rest) := by
  induction hrest generalizing first t with
  | nil => exact h
  | @cons x y xs rest hx _ ih =>
    obtain ⟨node, span⟩ := first
    obtain ⟨op, right, rightSpan⟩ := x
    obtain ⟨op', tree⟩ := y
    obtain ⟨rfl, hright⟩ := hx
    have hbinary : (Node.binary node op right (span.through rightSpan),
        span.through rightSpan).1.tree? = some (.binary t op tree) := by
      rw [Node.tree?, h, hright]
    exact ih hbinary

/-- Behind an operand stands an operator of its level, or what stands behind them all. -/
theorem Spells.avoids_operations {level : Level} {rest : List (Token × ExprTree)} {v : List Token}
    {k j : Place ts} (h : Spells (.operations level rest) v) (hv : k.tokens = v ++ j.tokens)
    (hj : j.Avoids level.ahead) : k.Avoids level.aheadOfOperand := by
  cases h with
  | noOperations =>
    obtain rfl := Place.tokens_injective hv
    exact hj.mono fun _ hk => List.mem_append_right _ hk
  | moreOperations hop _ _ =>
    obtain ⟨m, ht, -⟩ := Place.exists_takes_of_cons hv
    exact ht.avoids fun hk => level.not_ahead_of_operand _ hk hop

namespace Grammar

variable {i j : Place ts} {n : Node}

/-- A primary expression that is no call. -/
theorem primary_of_fails_call (hcall : ∃ e, call (grammar ts) i = .error e)
    (h : (literal <|> grouped (grammar ts) : Parser ts Node) i = .ok (n, j)) :
    primary (grammar ts) i = .ok (n, j) := by
  obtain ⟨e, he⟩ := hcall
  have herror : (Node.call <$> call (grammar ts)) i = .error e := by
    show Parser.bind (call (grammar ts)) _ i = .error e
    simp only [Parser.bind, he]
  exact named_ok.mpr (orElse_ok.mpr (Or.inr ⟨⟨e, herror⟩, h⟩))

end Grammar

/-- **What spells a piece is read, with its tree.** -/
theorem Spells.read {p : Piece} {u : List Token} (h : Spells p u) :
    ∀ {i j : Place ts}, i.tokens = u ++ j.tokens → j.Avoids p.ahead → p.Read i j := by
  induction h with
  | @literal t ht =>
    intro i j hu hj
    have htakes : i.Takes t.kind t j := ⟨hu, rfl⟩
    have hmem : Ebnf.kind t.kind ∈ ([.kind .int, .kind .str, .kind .trueKw, .kind .falseKw,
        .kind .ident, Ebnf.parens (.ref .expression)] : List Ebnf) :=
      List.mem_append_left [Ebnf.parens (.ref .expression)] (List.mem_map_of_mem ht)
    have hcall : ∃ e, Grammar.call (grammar ts) i = .error e :=
      Grammar.fails_call i j i.left_lt (Stands.alt_iff.mpr ⟨_, hmem, .kind htakes⟩) hj
    have hleaf : Grammar.literal i = .ok (Node.leaf t, j) :=
      map_ok.mpr ⟨t, oneOf_ok.mpr ⟨htakes, ht⟩, rfl⟩
    exact ⟨.leaf t, Grammar.primary_of_fails_call hcall (orElse_ok.mpr (Or.inl hleaf)), rfl⟩
  | @call name trees u hname _ ih =>
    intro i j hu _
    obtain ⟨k, hk, hrest⟩ := Place.exists_takes_of_cons hu
    obtain ⟨⟨arguments, span⟩, hlist, htrees⟩ := ih hrest Place.avoids_nil
    have hcall : Grammar.call (grammar ts) i = .ok (⟨name, ⟨arguments, span⟩, i.spanTo j⟩, j) :=
      withSpan_ok.mpr ⟨_, bind_ok.mpr ⟨name, k, token_ok.mpr (hname ▸ hk),
        bind_ok.mpr ⟨_, j, hlist, rfl⟩⟩, rfl⟩
    refine ⟨_, named_ok.mpr (orElse_ok.mpr (Or.inl (map_ok.mpr ⟨_, hcall, rfl⟩))), ?_⟩
    rw [Node.tree?, htrees]
    rfl
  | @grouped opening closing tree u ho _ hc ih =>
    intro i l hu _
    rw [List.cons_append, List.append_assoc] at hu
    obtain ⟨j, hj, hrest⟩ := Place.exists_takes_of_cons hu
    obtain ⟨k, hk⟩ := Place.exists_of_append hrest
    have hopen : i.Takes .lParen opening j := ho ▸ hj
    have hclose : k.Takes .rParen closing l := ⟨hk, hc⟩
    have hahead : k.Avoids Level.disjunction.ahead := hclose.avoids (by decide)
    obtain ⟨n, hn, htree⟩ := ih (hk ▸ hrest) hahead
    have hgrouped : Grammar.grouped (grammar ts) i = .ok (n, l) :=
      bind_ok.mpr ⟨(opening, n, closing), l, surrounded_ok.mpr ⟨j, k, token_ok.mpr hopen,
        Grammar.expression_ok.mpr hn, token_ok.mpr hclose⟩, rfl⟩
    have hcall : Rejects (Grammar.call (grammar ts)) [.ident] := Grammar.rejects_call
    obtain ⟨e, he, -⟩ := hcall i (hopen.avoids (by decide))
    obtain ⟨e', he', -⟩ := Grammar.rejects_literal i (hopen.avoids (by decide))
    refine ⟨n, Grammar.primary_of_fails_call ⟨e, he⟩ ?_, htree⟩
    exact orElse_ok.mpr (Or.inr ⟨⟨e', he'⟩, hgrouped⟩)
  | @prefixed operator tree u hop _ ih =>
    intro i j hu hj
    obtain ⟨k, hk, hrest⟩ := Place.exists_takes_of_cons hu
    obtain ⟨n, hn, htree⟩ := ih hrest hj
    rw [← Grammar.grammar_unary] at hn
    have hprefixed : Grammar.prefixed (grammar ts) i = .ok (.unary operator n (i.spanTo j), j) :=
      withSpan_ok.mpr ⟨_, bind_ok.mpr ⟨operator, k, oneOf_ok.mpr ⟨hk, hop⟩,
        bind_ok.mpr ⟨n, j, hn, rfl⟩⟩, rfl⟩
    refine ⟨_, orElse_ok.mpr (Or.inl hprefixed), ?_⟩
    rw [Node.tree?, htree]
    rfl
  | @primary tree u hprimary ih =>
    intro i j hu hj
    obtain ⟨n, hn, htree⟩ := ih hu hj
    have hprefixed : Fails (ts.size + 1) (Grammar.prefixed (grammar ts)) (.ref .primary) [] :=
      .of_rejects (Rejects.withSpan Rejects.oneOf.bind) (by decide)
    have herror := hprefixed i j i.left_lt (hprimary.stands hu) Place.avoids_nil
    exact ⟨n, orElse_ok.mpr (Or.inr ⟨herror, hn⟩), htree⟩
  | @infixed level first rest u v _ hrest ih ih' =>
    intro i j hu hj
    rw [List.append_assoc] at hu
    obtain ⟨k, hk⟩ := Place.exists_of_append hu
    have hahead := hrest.avoids_operations hk hj
    rw [← Piece.ahead_operand level first] at hahead
    obtain ⟨n, hn, htree⟩ := Piece.read_operand.mp (ih (hk ▸ hu) hahead)
    obtain ⟨xs, hruns, hshow⟩ := ih' hk hj
    refine ⟨_, Grammar.leftAssoc_ok.mpr ⟨n, k, xs, hn, hruns, rfl⟩, ?_⟩
    exact Grammar.tree?_groupLeft hshow htree
  | @noOperations level =>
    intro i j hu hj
    obtain rfl := Place.tokens_injective hu
    have hoperation : Rejects (Grammar.operation (level.parseOperand ts) level.tried) level.tried :=
      Rejects.oneOf.bind
    obtain ⟨e, he, -⟩ := hoperation i (hj.mono fun _ hk => List.mem_append_left _ hk)
    exact ⟨[], (runs_of_stops (stops_of_error he)).mpr ⟨rfl, rfl⟩, .nil⟩
  | @moreOperations level operator tree rest u v hop _ hrest ih ih' =>
    intro i j hu hj
    rw [List.cons_append, List.append_assoc] at hu
    obtain ⟨k, hk, hbehind⟩ := Place.exists_takes_of_cons hu
    obtain ⟨l, hl⟩ := Place.exists_of_append hbehind
    have hahead := hrest.avoids_operations hl hj
    rw [← Piece.ahead_operand level tree] at hahead
    obtain ⟨n, hn, htree⟩ := Piece.read_operand.mp (ih (hl ▸ hbehind) hahead)
    obtain ⟨xs, hruns, hshow⟩ := ih' hl hj
    have hoperation := Grammar.operation_ok (x := (operator, n, k.spanTo l)).mpr
      ⟨k, hk, level.operators_tried _ hop, hn, rfl⟩
    have hil := Fin.lt_trans hk.lt (Level.lt_of_parseOperand hn)
    exact ⟨_ :: xs, (runs_of_lt hoperation hil).mpr ⟨xs, rfl, hruns⟩, .cons ⟨rfl, htree⟩ hshow⟩
  | @noArguments opening closing ho hc =>
    intro i l hu _
    obtain ⟨j, hj, hrest⟩ := Place.exists_takes_of_cons hu
    have hclose : j.Takes .rParen closing l := ⟨hrest, hc⟩
    have hrejecting : (grammar ts).Rejecting := Rules.rejecting_upTo _
    have hlist : Rejects (separated (token .comma) (grammar ts).expression) _ :=
      hrejecting.expression.separated
    obtain ⟨e, he, hoffset⟩ := hlist j (hclose.avoids (by decide))
    have habsent := optional_ok (x := ([] : List Node)).mpr (Or.inr ⟨e, he, hoffset, rfl, rfl⟩)
    exact ⟨⟨[], i.spanTo l⟩, Grammar.argumentList_ok.mpr
      ⟨opening, j, j, closing, ho ▸ hj, habsent, hclose, rfl⟩, rfl⟩
  | @argumentList opening closing trees u ho _ hc ih =>
    intro i l hu _
    rw [List.cons_append, List.append_assoc] at hu
    obtain ⟨j, hj, hrest⟩ := Place.exists_takes_of_cons hu
    obtain ⟨k, hk⟩ := Place.exists_of_append hrest
    have hclose : k.Takes .rParen closing l := ⟨hk, hc⟩
    have hahead : k.Avoids (.comma :: Level.disjunction.ahead) := hclose.avoids (by decide)
    obtain ⟨ns, hns, htrees⟩ := ih (hk ▸ hrest) hahead
    have hpresent := optional_ok.mpr (Or.inl (separated_of_items hns))
    exact ⟨⟨ns, i.spanTo l⟩, Grammar.argumentList_ok.mpr
      ⟨opening, j, k, closing, ho ▸ hj, hpresent, hclose, rfl⟩, htrees⟩
  | @lastArgument tree u _ ih =>
    intro i j hu hj
    obtain ⟨n, hn, htree⟩ := ih hu (hj.mono fun _ hk => List.mem_cons_of_mem _ hk)
    have hcomma := token_error fun t ht hk => hj t ht (hk ▸ List.mem_cons_self ..)
    refine ⟨[n], .last (separatedTurn_last.mpr ⟨Grammar.expression_ok.mpr hn, _, hcomma⟩), ?_⟩
    rw [Node.trees?, htree, Node.trees?]
  | @moreArguments comma tree trees u v _ hcomma _ ih ih' =>
    intro i j hu hj
    rw [List.append_assoc] at hu
    obtain ⟨k, hk⟩ := Place.exists_of_append hu
    obtain ⟨l, hl, hrest⟩ := Place.exists_takes_of_cons hk
    have hcomma : k.Takes .comma comma l := hcomma ▸ hl
    have hahead : k.Avoids Level.disjunction.ahead := hcomma.avoids (by decide)
    obtain ⟨n, hn, htree⟩ := ih (hk ▸ hu) hahead
    obtain ⟨ns, hns, htrees⟩ := ih' hrest hj
    have hexpression := Grammar.expression_ok.mpr hn
    have hturn := separatedTurn_more.mpr ⟨k, comma, hexpression, token_ok.mpr hcomma⟩
    have hik := Loop.lt_of_item (l := .arguments) hexpression
    refine ⟨n :: ns, .more hturn (Fin.lt_trans hik hcomma.lt) hns, ?_⟩
    rw [Node.trees?, htree, htrees]

/-! ### One tree for each row -/

/-- A row of tokens as a stream of its own: its ends, with nothing behind. -/
theorem exists_end_of_row (u : List Token) :
    ∃ j : Place u.toArray, (Place.first u.toArray).tokens = u ++ j.tokens ∧ j.tokens = [] := by
  have hrow : (Place.first u.toArray).tokens = u ++ [] := by simp [tokens_first]
  obtain ⟨j, hj⟩ := Place.exists_of_append hrow
  exact ⟨j, hj ▸ hrow, hj⟩

theorem Place.avoids_of_tokens_eq_nil {j : Place ts} {ks : List TokenKind} (h : j.tokens = []) :
    j.Avoids ks := by
  intro t ht
  rw [peek?_eq_head?, h] at ht
  cases ht

theorem Spells.unique {t t' : ExprTree} {u : List Token} (h : Spells (Piece.expression t) u)
    (h' : Spells (Piece.expression t') u) : t = t' := by
  obtain ⟨j, hrow, hend⟩ := exists_end_of_row u
  have hj : j.Avoids Level.disjunction.ahead := Place.avoids_of_tokens_eq_nil hend
  obtain ⟨n, hn, htree⟩ := h.read hrow hj
  obtain ⟨n', hn', htree'⟩ := h'.read hrow hj
  rw [hn] at hn'
  obtain ⟨rfl, -⟩ := Prod.mk.inj (Except.ok.inj hn')
  exact Option.some.inj (htree.symm.trans htree')

/-- What the parser reads as an expression spells the tree of its node. -/
theorem Grammar.spells_of_expression {i j : Place ts} {n : Node}
    (h : expression ts i = .ok (n, j)) :
    ∃ u t, i.tokens = u ++ j.tokens ∧ n.tree? = some t ∧ Spells (Piece.expression t) u := by
  have hwritten := (sound_grammar ts).expression h
  obtain ⟨u, hu⟩ := hwritten.exists_row
  obtain ⟨t, htree, hspells⟩ := hwritten.spelled u hu
  exact ⟨u, t, hu, htree, hspells⟩

/-- **The grammar of expressions is unambiguous.**  A row of tokens is derivable when it spells a
    tree, and then it spells only one. -/
theorem derives_expression_iff (u : List Token) :
    Derives (.ref .expression) (u.map (·.kind)) ↔ ∃! t, Spells (Piece.expression t) u := by
  constructor
  · intro hderives
    obtain ⟨j, hrow, hend⟩ := exists_end_of_row u
    have hphrase : Stands (.ref .expression) (Place.first u.toArray) j := by
      refine ⟨_, hderives, ?_⟩
      rw [Place.kinds, hrow, List.map_append]
      rfl
    obtain ⟨n, k, hn, hjk⟩ := Grammar.reaches_expression _ j hphrase
    obtain ⟨v, t, hv, -, hspells⟩ := Grammar.spells_of_expression hn
    obtain ⟨w, hw⟩ := Place.exists_append_of_le hjk
    obtain ⟨rfl, hk⟩ := List.append_eq_nil_iff.mp (hw.symm.trans hend)
    rw [hrow, hend, hk, List.append_nil, List.append_nil] at hv
    exact ⟨t, hv ▸ hspells, fun t' h' => h'.unique (hv ▸ hspells)⟩
  · rintro ⟨t, h, -⟩
    exact .ref h.derives

/-! ### The longest expression -/

/-- **The parser takes the longest expression and builds its tree.**  It succeeds where some
    tokens in a row, and at least one, are derivable; then it takes the longest such row, and
    its node shows the one tree that the row spells. -/
theorem expression_longest (ts : Array Token) (i : Place ts) :
    ((∃ n j, Grammar.expression ts i = .ok (n, j)) ↔
      ∃ u v, i.tokens = u ++ v ∧ u ≠ [] ∧ Derives (.ref .expression) (u.map (·.kind))) ∧
    ∀ n j, Grammar.expression ts i = .ok (n, j) →
      ∃ u t, i.tokens = u ++ j.tokens ∧ u ≠ [] ∧ Derives (.ref .expression) (u.map (·.kind)) ∧
        (∀ u' v', i.tokens = u' ++ v' → Derives (.ref .expression) (u'.map (·.kind)) →
          u'.length ≤ u.length) ∧
        n.tree? = some t ∧ Spells (Piece.expression t) u ∧
        ∀ t', Spells (Piece.expression t') u → t' = t := by
  have hreached {u v : List Token} (hu : i.tokens = u ++ v)
      (hderives : Derives (.ref .expression) (u.map (·.kind))) :
      ∃ n k w, Grammar.expression ts i = .ok (n, k) ∧ v = w ++ k.tokens := by
    obtain ⟨j, rfl⟩ := Place.exists_of_append hu
    have hphrase : Stands (.ref .expression) i j := by
      refine ⟨_, hderives, ?_⟩
      rw [Place.kinds, hu, List.map_append]
      rfl
    obtain ⟨n, k, hn, hjk⟩ := Grammar.reaches_expression i j hphrase
    obtain ⟨w, hw⟩ := Place.exists_append_of_le hjk
    exact ⟨n, k, w, hn, hw⟩
  have hread {n : Node} {j : Place ts} (hn : Grammar.expression ts i = .ok (n, j)) :
      ∃ u t, i.tokens = u ++ j.tokens ∧ u ≠ [] ∧ n.tree? = some t ∧
        Spells (Piece.expression t) u := by
    obtain ⟨u, t, hu, htree, hspells⟩ := Grammar.spells_of_expression hn
    refine ⟨u, t, hu, ?_, htree, hspells⟩
    rintro rfl
    have hnull := (Derives.ref (n := .expression) hspells.derives).nullable rfl
    cases hnull
  constructor
  · constructor
    · rintro ⟨n, j, hn⟩
      obtain ⟨u, t, hu, hne, -, hspells⟩ := hread hn
      exact ⟨u, j.tokens, hu, hne, .ref hspells.derives⟩
    · rintro ⟨u, v, hu, -, hderives⟩
      obtain ⟨n, k, w, hn, -⟩ := hreached hu hderives
      exact ⟨n, k, hn⟩
  · intro n j hn
    obtain ⟨u, t, hu, hne, htree, hspells⟩ := hread hn
    refine ⟨u, t, hu, hne, .ref hspells.derives, ?_, htree, hspells, fun t' h' => h'.unique hspells⟩
    intro u' v' hu' hderives
    obtain ⟨n', k, w, hn', hv'⟩ := hreached hu' hderives
    rw [hn] at hn'
    obtain ⟨rfl, rfl⟩ := Prod.mk.inj (Except.ok.inj hn')
    have hlength := congrArg List.length (hu.symm.trans hu')
    simp only [hv', List.length_append] at hlength
    omega

end TarnLang
