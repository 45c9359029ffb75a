/-
  TarnLang/Proofs/Grammar/Derivation.lean
  =======================================
  **From phrases to derivations.**  `Stands e i j` says that the kinds of the tokens between
  two places are derivable from `e`.  It follows the shape of `e`, place by place, so a
  derivation is taken apart and put together without splitting rows of kinds.

  `Written.stands` forgets the trees: wherever a phrase is written, the grammar derives the
  kinds of its tokens.
-/
import TarnLang.Proofs.Grammar.Ebnf
import TarnLang.Proofs.Grammar.Phrase

namespace TarnLang

variable {ts : Array Token}

/-- The kinds of the tokens between two places are derivable. -/
def Stands (e : Ebnf) (i j : Place ts) : Prop := ∃ w, Derives e w ∧ i.kinds = w ++ j.kinds

/-! ### Places and rows of kinds -/

namespace Place

variable {i j k : Place ts}

theorem kinds_injective : Function.Injective (kinds : Place ts → List TokenKind) := by
  intro i j h
  have hlen := congrArg List.length h
  have hi := i.isLt
  have hj := j.isLt
  simp only [kinds, List.length_map, length_tokens, left] at hlen
  exact Fin.ext (by omega)

/-- Behind the first part of a row of kinds there is a place. -/
theorem exists_of_kinds_append {u v : List TokenKind} (h : i.kinds = u ++ v) :
    ∃ j : Place ts, i.kinds = u ++ j.kinds ∧ j.kinds = v := by
  obtain ⟨j, hj⟩ := exists_of_append (i.tokens.take_append_drop u.length).symm
  have hkinds : j.kinds = v := by
    rw [kinds, hj, List.map_drop]
    show i.kinds.drop u.length = v
    rw [h, List.drop_left]
  exact ⟨j, by rw [h, hkinds], hkinds⟩

theorem lt_of_kinds_append {u : List TokenKind} (h : i.kinds = u ++ j.kinds) (hu : u ≠ []) :
    i < j := by
  have hlen := congrArg List.length h
  have hpos := List.length_pos_iff.mpr hu
  have hi := i.isLt
  have hj := j.isLt
  simp only [kinds, List.length_map, length_tokens, left, List.length_append] at hlen
  show i.val < j.val
  omega

theorem Takes.kinds_eq {k : TokenKind} {t : Token} (h : i.Takes k t j) : i.kinds = k :: j.kinds := by
  rw [kinds, h.tokens_eq, List.map_cons, h.kind_eq]
  rfl

theorem kinds_eq_cons {k : TokenKind} : i.kinds = k :: j.kinds ↔ ∃ t, i.Takes k t j := by
  constructor
  · intro h
    rcases i.eq_end_or_takes with hend | ⟨t, m, ht⟩
    · rw [peek?_eq_head?, List.head?_eq_none_iff] at hend
      rw [kinds, hend] at h
      cases h
    · obtain ⟨hk, hrest⟩ := List.cons.inj (ht.kinds_eq.symm.trans h)
      obtain rfl := kinds_injective hrest
      exact ⟨t, hk ▸ ht⟩
  · rintro ⟨t, h⟩
    exact h.kinds_eq

end Place

/-! ### Taking derivations apart -/

namespace Stands

variable {i j k : Place ts} {e : Ebnf} {es : List Ebnf}

theorem kind_iff {k : TokenKind} : Stands (.kind k) i j ↔ ∃ t, i.Takes k t j := by
  rw [← Place.kinds_eq_cons]
  constructor
  · rintro ⟨w, hw, h⟩
    cases hw
    exact h
  · intro h
    exact ⟨[k], .kind, h⟩

theorem ref_iff {n : Nonterminal} : Stands (.ref n) i j ↔ Stands n.rule i j := by
  constructor
  · rintro ⟨w, hw, h⟩
    cases hw with
    | ref hw => exact ⟨w, hw, h⟩
  · rintro ⟨w, hw, h⟩
    exact ⟨w, .ref hw, h⟩

theorem nil_iff : Stands (.seq []) i j ↔ i = j := by
  constructor
  · rintro ⟨w, hw, h⟩
    cases hw
    exact Place.kinds_injective h
  · rintro rfl
    exact ⟨[], .nil, rfl⟩

theorem cons_iff : Stands (.seq (e :: es)) i k ↔ ∃ j, Stands e i j ∧ Stands (.seq es) j k := by
  constructor
  · rintro ⟨w, hw, h⟩
    cases hw with
    | @cons _ _ u v hu hv =>
      rw [List.append_assoc] at h
      obtain ⟨j, hij, hjk⟩ := Place.exists_of_kinds_append h
      exact ⟨j, ⟨u, hu, hij⟩, v, hv, hjk⟩
  · rintro ⟨j, ⟨u, hu, hij⟩, v, hv, hjk⟩
    exact ⟨u ++ v, .cons hu hv, by rw [hij, hjk, List.append_assoc]⟩

theorem alt_iff : Stands (.alt es) i j ↔ ∃ e ∈ es, Stands e i j := by
  constructor
  · rintro ⟨w, hw, h⟩
    cases hw with
    | alt he hw => exact ⟨_, he, w, hw, h⟩
  · rintro ⟨e, he, w, hw, h⟩
    exact ⟨w, .alt he hw, h⟩

theorem opt_iff : Stands (.opt e) i j ↔ i = j ∨ Stands e i j := by
  constructor
  · rintro ⟨w, hw, h⟩
    cases hw with
    | absent => exact Or.inl (Place.kinds_injective h)
    | present hw => exact Or.inr ⟨w, hw, h⟩
  · rintro (rfl | ⟨w, hw, h⟩)
    · exact ⟨[], .absent, rfl⟩
    · exact ⟨w, .present hw, h⟩

theorem done : Stands (.star e) i i := ⟨[], .done, rfl⟩

theorem more (he : Stands e i j) (hes : Stands (.star e) j k) : Stands (.star e) i k := by
  obtain ⟨u, hu, hij⟩ := he
  obtain ⟨v, hv, hjk⟩ := hes
  exact ⟨u ++ v, .more hu hv, by rw [hij, hjk, List.append_assoc]⟩

/-- A repetition is nothing, or one item and a repetition behind it. -/
theorem star_cases (h : Stands (.star e) i k) :
    i = k ∨ ∃ j, Stands e i j ∧ Stands (.star e) j k := by
  obtain ⟨w, hw, h⟩ := h
  cases hw with
  | done => exact Or.inl (Place.kinds_injective h)
  | @more _ u v hu hv =>
    rw [List.append_assoc] at h
    obtain ⟨j, hij, hjk⟩ := Place.exists_of_kinds_append h
    exact Or.inr ⟨j, ⟨u, hu, hij⟩, v, hv, hjk⟩

/-- A phrase that is not empty reads something. -/
theorem lt (h : Stands e i j) (he : e.nullable = false) : i < j := by
  obtain ⟨w, hw, h⟩ := h
  refine Place.lt_of_kinds_append h ?_
  intro hnil
  rw [hw.nullable hnil] at he
  cases he

theorem le (h : Stands e i j) : i ≤ j := by
  obtain ⟨w, hw, h⟩ := h
  by_cases hnil : w = []
  · rw [hnil] at h
    exact Nat.le_of_eq (congrArg Fin.val (Place.kinds_injective h))
  · exact Nat.le_of_lt (Place.lt_of_kinds_append h hnil)

/-- The tokens between two places are derivable as a row, and no end of file is among them. -/
theorem exists_row (h : Stands e i j) (he : e.mentions .eof = false) :
    ∃ u, i.tokens = u ++ j.tokens ∧ Derives e (u.map (·.kind)) ∧ ∀ t ∈ u, t.kind ≠ .eof := by
  obtain ⟨u, hu⟩ := Place.exists_append_of_le h.le
  obtain ⟨w, hw, hkinds⟩ := h
  have hmap : i.kinds = u.map (·.kind) ++ j.kinds := by
    rw [Place.kinds, hu, List.map_append]
    rfl
  obtain rfl := List.append_cancel_right (hkinds.symm.trans hmap)
  refine ⟨u, hu, hw, ?_⟩
  intro t ht hkind
  have hmem : t.kind ∈ u.map (·.kind) := List.mem_map_of_mem ht
  rw [hkind] at hmem
  exact hw.eof_not_mem he hmem

/-- Repetitions may be extended on the right. -/
theorem snoc (hes : Stands (.star e) i j) (he : Stands e j k) : Stands (.star e) i k := by
  obtain ⟨w, hw, h⟩ := hes
  generalize hs : Ebnf.star e = s at hw
  induction hw generalizing i with
  | done =>
    obtain rfl := Ebnf.star.inj hs
    obtain rfl := Place.kinds_injective h
    exact more he done
  | more hu _ _ ih =>
    obtain rfl := Ebnf.star.inj hs
    rw [List.append_assoc] at h
    obtain ⟨m, him, hmj⟩ := Place.exists_of_kinds_append h
    exact more ⟨_, hu, him⟩ (ih hmj hs)
  | _ => cases hs

end Stands

/-! ### From phrases to derivations -/

/-- The nonterminal of a level. -/
def Level.symbol : Level → Nonterminal
  | disjunction => .disjunction
  | conjunction => .conjunction
  | comparison => .comparison
  | additive => .additive
  | multiplicative => .multiplicative

/-- The nonterminal of a part that may be missing. -/
def OptionalPart.symbol : OptionalPart → Nonterminal
  | value => .expression
  | alternative => .alternative
  | forInit => .forInit
  | assignment => .assignment

/-- The right-hand side that a phrase is a phrase of. -/
def Phrase.symbol : Phrase → Ebnf
  | .binary level _ => .ref level.symbol
  | .unary _ => .ref .unary
  | .primary _ => .ref .primary
  | .arguments _ => .commaList (.ref .expression)
  | .argumentList _ => .ref .parameterPass
  | .call _ => .ref .call
  | .names _ => .commaList (.kind .ident)
  | .parameterList _ => .ref .parameterDef
  | .signature _ => .ref .signature
  | .declaration _ => .ref .global
  | .assignment _ => .ref .assignment
  | .forInit _ => .ref .forInit
  | .alternative _ => .ref .alternative
  | .optional part _ => .opt (.ref part.symbol)
  | .statement _ => .ref .statement
  | .statements _ => .star (.ref .statement)
  | .block _ => .ref .block
  | .caseClause _ => .ref .caseClause
  | .cases _ => .star (.ref .caseClause)
  | .declarations _ => .star (.ref .global)

namespace Stands

variable {i j k l : Place ts} {e : Ebnf}

theorem kind {k : TokenKind} {t : Token} (h : i.Takes k t j) : Stands (.kind k) i j :=
  kind_iff.mpr ⟨t, h⟩

theorem ref {n : Nonterminal} (h : Stands n.rule i j) : Stands (.ref n) i j := ref_iff.mpr h

/-- One of several alternatives, given by its number. -/
theorem alt {es : List Ebnf} (n : Nat) (hn : es[n]? = some e) (h : Stands e i j) :
    Stands (.alt es) i j :=
  alt_iff.mpr ⟨e, List.mem_of_getElem? hn, h⟩

theorem absent : Stands (.opt e) i i := opt_iff.mpr (Or.inl rfl)

theorem present (h : Stands e i j) : Stands (.opt e) i j := opt_iff.mpr (Or.inr h)

theorem cons {es : List Ebnf} (he : Stands e i j) (hes : Stands (.seq es) j k) :
    Stands (.seq (e :: es)) i k :=
  cons_iff.mpr ⟨j, he, hes⟩

theorem last (he : Stands e i j) : Stands (.seq [e]) i j := he.cons (nil_iff.mpr rfl)

theorem oneOf {t : Token} {ks : List TokenKind} (h : i.Takes t.kind t j) (hk : t.kind ∈ ks) :
    Stands (.oneOf ks) i j :=
  alt_iff.mpr ⟨_, List.mem_map_of_mem hk, kind h⟩

theorem parens {t t' : Token} (ht : i.Takes .lParen t j) (he : Stands e j k)
    (ht' : k.Takes .rParen t' l) : Stands (.parens e) i l :=
  (kind ht).cons (he.cons (kind ht').last)

theorem commaList_last (he : Stands e i j) : Stands (.commaList e) i j := he.cons (last done)

/-- A list with commas, longer by an item in front. -/
theorem commaList_cons {t : Token} (he : Stands e i j) (ht : j.Takes .comma t k)
    (hes : Stands (.commaList e) k l) : Stands (.commaList e) i l := by
  obtain ⟨m, hfirst, hrest⟩ := cons_iff.mp hes
  obtain ⟨l', hstar, hnil⟩ := cons_iff.mp hrest
  obtain rfl := nil_iff.mp hnil
  exact he.cons (more ((kind ht).cons hfirst.last) hstar).last

theorem infixed_first {ks : List TokenKind} (he : Stands e i j) : Stands (.infixed e ks) i j :=
  he.cons (last done)

/-- Operands and operators, longer by an operand behind. -/
theorem infixed_snoc {t : Token} {ks : List TokenKind} (hes : Stands (.infixed e ks) i j)
    (ht : j.Takes t.kind t k) (hk : t.kind ∈ ks) (he : Stands e k l) :
    Stands (.infixed e ks) i l := by
  obtain ⟨m, hfirst, hrest⟩ := cons_iff.mp hes
  obtain ⟨j', hstar, hnil⟩ := cons_iff.mp hrest
  obtain rfl := nil_iff.mp hnil
  exact hfirst.cons (hstar.snoc ((oneOf ht hk).cons he.last)).last

end Stands

/-- The right-hand side of a level has operands of the level and its operators. -/
theorem Level.rule_symbol (level : Level) (n : Node) :
    level.symbol.rule = .infixed (Phrase.operand level n).symbol level.operators := by
  cases level <;> rfl

theorem OptionalPart.stands {part : OptionalPart} {n : Node} {i j : Place ts}
    (h : Stands (Phrase.part part n).symbol i j) : Stands (.ref part.symbol) i j := by
  cases part with
  | value => exact .ref h
  | alternative => exact h
  | forInit => exact h
  | assignment => exact h

/-- **A phrase is derivable where it is written.** -/
theorem Written.stands {p : Phrase} {i j : Place ts} (h : Written p i j) : Stands p.symbol i j := by
  induction h with
  | callValue _ ih => exact .ref (.alt 0 rfl ih)
  | @literal _ t _ ht hk =>
    simp only [List.mem_cons, List.not_mem_nil, or_false] at hk
    rcases hk with hk | hk | hk | hk | hk
    · exact .ref (.alt 1 rfl (.kind (hk ▸ ht)))
    · exact .ref (.alt 2 rfl (.kind (hk ▸ ht)))
    · exact .ref (.alt 3 rfl (.kind (hk ▸ ht)))
    · exact .ref (.alt 4 rfl (.kind (hk ▸ ht)))
    · exact .ref (.alt 5 rfl (.kind (hk ▸ ht)))
  | grouped ht _ ht' ih => exact .ref (.alt 6 rfl (.parens ht (.ref ih) ht'))
  | prefixed hop hk _ ih => exact .ref (.alt 0 rfl ((Stands.oneOf hop hk).cons ih.last))
  | primaryUnary _ ih => exact .ref (.alt 1 rfl ih)
  | @operand level n _ _ _ ih =>
    refine .ref ?_
    rw [level.rule_symbol n]
    exact .infixed_first ih
  | @operation level _ _ _ _ _ b _ _ hop hk _ ih ih' =>
    refine .ref ?_
    have ih := Stands.ref_iff.mp ih
    rw [level.rule_symbol b] at ih ⊢
    exact .infixed_snoc ih hop hk ih'
  | lastArgument _ ih => exact .commaList_last (.ref ih)
  | moreArguments _ ht _ ih ih' => exact .commaList_cons (.ref ih) ht ih'
  | noArguments ht ht' => exact .ref (.parens ht .absent ht')
  | argumentList ht _ ht' ih => exact .ref (.parens ht (.present ih) ht')
  | call ht _ ih => exact .ref ((Stands.kind ht).cons ih.last)
  | lastName ht => exact .commaList_last (.kind ht)
  | moreNames ht ht' _ ih => exact .commaList_cons (.kind ht) ht' ih
  | noParameters ht ht' => exact .ref (.parens ht .absent ht')
  | parameterList ht _ ht' ih => exact .ref (.parens ht (.present ih) ht')
  | signature ht _ ih => exact .ref ((Stands.kind ht).cons ih.last)
  | functionDef ht _ _ ih ih' =>
    exact .ref (.alt 0 rfl (.ref ((Stands.kind ht).cons (ih.cons ih'.last))))
  | procedureDef ht _ _ ih ih' =>
    exact .ref (.alt 1 rfl (.ref ((Stands.kind ht).cons (ih.cons ih'.last))))
  | varDecl ht hname ht' =>
    have hseq := (Stands.kind ht).cons ((Stands.kind hname).cons (Stands.kind ht').last)
    exact .ref (.alt 3 rfl (.ref hseq))
  | varInit ht hname ht' _ ht'' ih =>
    have hvalue := (Stands.kind ht').cons ((Stands.ref (n := .expression) ih).cons (Stands.kind ht'').last)
    exact .ref (.alt 2 rfl (.ref ((Stands.kind ht).cons ((Stands.kind hname).cons hvalue))))
  | assignment hname ht _ ih =>
    exact .ref ((Stands.kind hname).cons ((Stands.kind ht).cons (Stands.ref (n := .expression) ih).last))
  | forDeclaration ht hname ht' _ ih =>
    have hvalue := (Stands.kind ht').cons (Stands.ref (n := .expression) ih).last
    exact .ref (.alt 0 rfl ((Stands.kind ht).cons ((Stands.kind hname).cons hvalue)))
  | forAssignment _ ih => exact .ref (.alt 1 rfl ih)
  | elseIf ht ht' ht₁ _ ht₂ _ _ ihn ihb iha =>
    have hrest := (Stands.parens ht₁ (.ref (n := .expression) ihn) ht₂).cons (ihb.cons iha.last)
    exact .ref (.alt 0 rfl ((Stands.kind ht).cons ((Stands.kind ht').cons hrest)))
  | elseClause ht _ ih => exact .ref (.alt 1 rfl ((Stands.kind ht).cons ih.last))
  | absent => exact .absent
  | present _ ih => exact .present (OptionalPart.stands ih)
  | declarationStatement _ ih =>
    obtain ⟨e, he, h⟩ := Stands.alt_iff.mp (Stands.ref_iff.mp ih)
    simp only [List.mem_cons, List.not_mem_nil, or_false] at he
    rcases he with rfl | rfl | rfl | rfl
    · exact .ref (.alt 0 rfl h)
    · exact .ref (.alt 1 rfl h)
    · exact .ref (.alt 2 rfl h)
    · exact .ref (.alt 3 rfl h)
  | assignmentStatement _ ht ih => exact .ref (.alt 4 rfl (ih.cons (Stands.kind ht).last))
  | callStatement _ ht ih => exact .ref (.alt 5 rfl (ih.cons (Stands.kind ht).last))
  | returnStmt ht _ ht' ih =>
    exact .ref (.alt 6 rfl (.ref ((Stands.kind ht).cons (ih.cons (Stands.kind ht').last))))
  | ifStmt ht ht₁ _ ht₂ _ _ ihn ihb iha =>
    have hrest := (Stands.parens ht₁ (.ref (n := .expression) ihn) ht₂).cons (ihb.cons iha.last)
    exact .ref (.alt 7 rfl (.ref ((Stands.kind ht).cons hrest)))
  | forLoop ht ht₁ _ ht₂ _ ht₃ _ ht₄ _ ihi iht ihu ihb =>
    have hupdate := ihu.cons ((Stands.kind ht₄).cons ihb.last)
    have htest := (Stands.kind ht₂).cons (iht.cons ((Stands.kind ht₃).cons hupdate))
    exact .ref (.alt 8 rfl (.ref ((Stands.kind ht).cons ((Stands.kind ht₁).cons (ihi.cons htest)))))
  | whileLoop ht ht₁ _ ht₂ _ ihn ihb =>
    have hrest := (Stands.parens ht₁ (.ref (n := .expression) ihn) ht₂).cons ihb.last
    exact .ref (.alt 9 rfl (.ref ((Stands.kind ht).cons hrest)))
  | switchStmt ht ht₁ _ ht₂ ht₃ _ ht₄ ihn ihc =>
    have hcases := (Stands.kind ht₃).cons (ihc.cons (Stands.kind ht₄).last)
    have hrest := (Stands.parens ht₁ (.ref (n := .expression) ihn) ht₂).cons hcases
    exact .ref (.alt 10 rfl (.ref ((Stands.kind ht).cons hrest)))
  | blockStatement _ ih => exact .ref (.alt 11 rfl ih)
  | noStatements => exact .done
  | moreStatements _ _ ih ih' => exact .more ih ih'
  | block ht _ ht' ih => exact .ref ((Stands.kind ht).cons (ih.cons (Stands.kind ht').last))
  | caseClause ht _ _ ih ih' =>
    exact .ref ((Stands.kind ht).cons ((Stands.ref (n := .expression) ih).cons ih'.last))
  | noCases => exact .done
  | moreCases _ _ ih ih' => exact .more ih ih'
  | noDeclarations => exact .done
  | moreDeclarations _ _ ih ih' => exact .more ih ih'

theorem Written.lt {p : Phrase} {i j : Place ts} (h : Written p i j)
    (hp : p.symbol.nullable = false) : i < j :=
  h.stands.lt hp

theorem Written.lt_operand {level : Level} {n : Node} {i j : Place ts}
    (h : Written (.operand level n) i j) : i < j :=
  h.lt (by cases level <;> rfl)

end TarnLang
