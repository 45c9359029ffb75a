/-
  TarnLang/Proofs/Grammar/Reach.lean
  ==================================
  **The parser of expressions goes as far as any phrase does.**  `Reaches p e` says that wherever
  a phrase of `e` stands, `p` succeeds and reads at least as far, whatever stands behind.

  `Reads` says how far only where nothing ahead could continue a phrase.  That is so for every
  operand but the last one: an operator stands behind it, and no tighter level goes on with
  that.  So the operands before the last are read as the phrase has them, and from the last one
  on it is enough to get as far.
-/
import TarnLang.Proofs.Grammar.Acceptance
import TarnLang.Proofs.Grammar.Termination

namespace TarnLang

open TarnLang.Parser

variable {ts : Array Token} {α : Type}

/-- Wherever a phrase stands, a parser succeeds and reads at least as far. -/
def Parser.Reaches (p : Parser ts α) (e : Ebnf) : Prop :=
  ∀ i j, Stands e i j → ∃ x k, p i = .ok (x, k) ∧ j ≤ k

theorem Place.Takes.le_of_lt {i j k : Place ts} {kind : TokenKind} {t : Token}
    (h : i.Takes kind t j) (hik : i < k) : j ≤ k := by
  have hval := Place.val_eq_add (u := [t]) h.tokens_eq
  have hlt : i.val < k.val := hik
  simp only [List.length_singleton] at hval
  show j.val ≤ k.val
  omega

namespace Parser

variable {e : Ebnf} {F : List TokenKind} {i j : Place ts}

/-- One kind of several that stands somewhere is read there, whatever stands behind it. -/
theorem exists_oneOf {ks ops : List TokenKind} (hks : ∀ k ∈ ops, k ∈ ks)
    (h : Stands (.oneOf ops) i j) : ∃ t, oneOf ks i = .ok (t, j) :=
  Reads.oneOf (n := ts.size + 1) (G := []) hks i j i.left_lt h Place.avoids_nil

/-- A repetition gets as far as phrases in a row do: each one in front of another is read as it
    stands, and the last one is reached. -/
theorem Reaches.exists_runs {item : Parser ts α} (hreach : Reaches item e)
    (hreads : Reads (ts.size + 1) item e F) (he : e.nullable = false) (hF : ∀ k ∈ F, k ∉ e.first)
    (h : Stands (.star e) i j) : ∃ xs k, Runs item i xs k ∧ j ≤ k := by
  induction hleft : i.left using Nat.strongRecOn generalizing i with
  | ind left ih =>
    rcases h.star_cases with rfl | ⟨m, hfirst, hrest⟩
    · obtain ⟨xs, k, hruns⟩ := Parser.exists_runs item i
      exact ⟨xs, k, hruns, hruns.1.le⟩
    · rcases hrest.star_cases with rfl | ⟨m', hsecond, -⟩
      · obtain ⟨x, k, hx, hmk⟩ := hreach i m hfirst
        have hik := Fin.lt_of_lt_of_le (hfirst.lt he) hmk
        obtain ⟨xs, l, hruns⟩ := Parser.exists_runs item k
        exact ⟨x :: xs, l, (runs_of_lt hx hik).mpr ⟨xs, rfl, hruns⟩,
          Fin.le_trans hmk hruns.1.le⟩
      · have hm : m.Avoids F := hsecond.avoids Place.avoids_nil fun k hk =>
          ⟨hF k hk, fun hnull => absurd hnull (by simp [he])⟩
        obtain ⟨x, hx⟩ := hreads i m i.left_lt hfirst hm
        have him := hfirst.lt he
        obtain ⟨xs, k, hruns, hjk⟩ := ih m.left (hleft ▸ Place.left_lt_left him) hrest rfl
        exact ⟨x :: xs, k, (runs_of_lt hx him).mpr ⟨xs, rfl, hruns⟩, hjk⟩

end Parser

namespace Grammar

variable {e : Ebnf} {F : List TokenKind}

theorem reaches_operation {operand : Parser ts Node} {ks ops : List TokenKind}
    (h : Reaches operand e) (hks : ∀ k ∈ ops, k ∈ ks) :
    Reaches (operation operand ks) (.seq [.oneOf ops, e]) := by
  intro i l hphrase
  obtain ⟨j, hop, hrest⟩ := Stands.cons_iff.mp hphrase
  obtain ⟨l', hright, hnil⟩ := Stands.cons_iff.mp hrest
  obtain rfl := Stands.nil_iff.mp hnil
  obtain ⟨op, hop⟩ := exists_oneOf hks hop
  obtain ⟨right, k, hright, hlk⟩ := h j l' hright
  obtain ⟨hop, hmem⟩ := oneOf_ok.mp hop
  exact ⟨(op, right, j.spanTo k), k, operation_ok.mpr ⟨j, hop, hmem, hright, rfl⟩, hlk⟩

theorem reaches_leftAssoc {operand : Parser ts Node} {ks ops : List TokenKind}
    (h : Reaches operand e) (hreads : Reads (ts.size + 1) operand e F) (hks : ∀ k ∈ ops, k ∈ ks)
    (he : (Ebnf.seq [.oneOf ops, e]).nullable = false)
    (hF : ∀ k ∈ F, k ∉ (Ebnf.seq [.oneOf ops, e]).first) :
    Reaches (leftAssoc operand ks) (.infixed e ops) := by
  have hoperation := reaches_operation h hks
  have hexact := reads_operation hreads hks
  intro i l hphrase
  obtain ⟨j, hfirst, hrest⟩ := Stands.cons_iff.mp hphrase
  obtain ⟨l', hstar, hnil⟩ := Stands.cons_iff.mp hrest
  obtain rfl := Stands.nil_iff.mp hnil
  rcases hstar.star_cases with rfl | ⟨m, hsecond, -⟩
  · obtain ⟨first, k, hfirst, hjk⟩ := h i j hfirst
    obtain ⟨rest, l, hruns⟩ := Parser.exists_runs _ k
    exact ⟨_, l, leftAssoc_ok.mpr ⟨first, k, rest, hfirst, hruns, rfl⟩,
      Fin.le_trans hjk hruns.1.le⟩
  · have hj : j.Avoids F := hsecond.avoids Place.avoids_nil fun k hk =>
      ⟨hF k hk, fun hnull => absurd hnull (by simp [he])⟩
    obtain ⟨first, hfirst⟩ := hreads i j i.left_lt hfirst hj
    obtain ⟨rest, l, hruns, hjl⟩ := hoperation.exists_runs hexact he hF hstar
    exact ⟨_, l, leftAssoc_ok.mpr ⟨first, j, rest, hfirst, hruns, rfl⟩, hjl⟩

/-! ### Operands -/

/-- A name may be read as a call, which goes further; all else is read as it stands. -/
theorem reaches_primary : Reaches (primary (grammar ts)) (.ref .primary) := by
  have hcomplete := complete_grammar ts
  have hrejecting : (grammar ts).Rejecting := Rules.rejecting_upTo _
  have hliteral {i j : Place ts} {k : TokenKind} (hk : k ∈ [.int, .str, .trueKw, .falseKw, .ident])
      (h : Stands (.kind k) i j) : ∃ n l, primary (grammar ts) i = .ok (n, l) ∧ j ≤ l := by
    obtain ⟨t, ht⟩ := Stands.kind_iff.mp h
    cases hcall : (Node.call <$> call (grammar ts)) i with
    | ok r =>
      obtain ⟨n, l⟩ := r
      obtain ⟨c, hc, -⟩ := map_ok.mp hcall
      have hil := (written_call (sound_grammar ts) hc).lt rfl
      exact ⟨n, l, named_ok.mpr (orElse_ok.mpr (Or.inl hcall)), ht.le_of_lt hil⟩
    | error err =>
      have hleaf : literal i = .ok (Node.leaf t, j) :=
        map_ok.mpr ⟨t, oneOf_ok.mpr ⟨⟨ht.tokens_eq, rfl⟩, ht.kind_eq ▸ hk⟩, rfl⟩
      have hother := orElse_ok (q := grouped (grammar ts)).mpr (Or.inl hleaf)
      exact ⟨_, j, named_ok.mpr (orElse_ok.mpr (Or.inr ⟨⟨err, hcall⟩, hother⟩)), Fin.le_refl j⟩
  intro i j h
  obtain ⟨e, he, h⟩ := Stands.alt_iff.mp (Stands.ref_iff.mp h)
  simp only [List.mem_cons, List.not_mem_nil, or_false] at he
  rcases he with rfl | rfl | rfl | rfl | rfl | rfl | rfl
  · obtain ⟨n, hn⟩ := (reads_call hcomplete hrejecting).earlier.map (f := Node.call) i j i.left_lt h
      Place.avoids_nil
    exact ⟨n, j, named_ok.mpr (orElse_ok.mpr (Or.inl hn)), Fin.le_refl j⟩
  · exact hliteral (by decide) h
  · exact hliteral (by decide) h
  · exact hliteral (by decide) h
  · exact hliteral (by decide) h
  · exact hliteral (by decide) h
  · have hcall : Fails (ts.size + 1) (Node.call <$> call (grammar ts))
        (.parens (.ref .expression)) [] := .of_rejects rejects_call.map (by decide)
    have hleaf : Fails (ts.size + 1) (literal : Parser ts Node) (.parens (.ref .expression)) [] :=
      .of_rejects rejects_literal (by decide)
    obtain ⟨n, hn⟩ := (reads_grouped hcomplete).earlier i j i.left_lt h Place.avoids_nil
    have hother := orElse_ok.mpr (Or.inr ⟨hleaf i j i.left_lt h Place.avoids_nil, hn⟩)
    have hprimary := orElse_ok.mpr (Or.inr ⟨hcall i j i.left_lt h Place.avoids_nil, hother⟩)
    exact ⟨n, j, named_ok.mpr hprimary, Fin.le_refl j⟩

/-- The recursive rule for prefix operators is the rule itself. -/
theorem grammar_unary : (grammar ts).unary = unary (grammar ts) :=
  congrArg Rules.unary (next_grammar ts).symm

theorem reaches_unary : Reaches (unary (grammar ts)) (.ref .unary) := by
  intro i j h
  induction hleft : i.left using Nat.strongRecOn generalizing i with
  | ind left ih =>
    obtain ⟨e, he, h⟩ := Stands.alt_iff.mp (Stands.ref_iff.mp h)
    simp only [List.mem_cons, List.not_mem_nil, or_false] at he
    rcases he with rfl | rfl
    · obtain ⟨m, hop, hrest⟩ := Stands.cons_iff.mp h
      obtain ⟨j', hoperand, hnil⟩ := Stands.cons_iff.mp hrest
      obtain rfl := Stands.nil_iff.mp hnil
      obtain ⟨op, hop⟩ := exists_oneOf (fun _ hk => hk) hop
      have hlt := Place.left_lt_left (oneOf_ok.mp hop).1.lt
      obtain ⟨n, k, hn, hjk⟩ := ih m.left (hleft ▸ hlt) m hoperand rfl
      have hunary : (grammar ts).unary m = .ok (n, k) := grammar_unary ▸ hn
      have hprefixed : prefixed (grammar ts) i = .ok (.unary op n (i.spanTo k), k) :=
        withSpan_ok.mpr ⟨_, bind_ok.mpr ⟨op, m, hop, bind_ok.mpr ⟨n, k, hunary, rfl⟩⟩, rfl⟩
      exact ⟨_, k, orElse_ok.mpr (Or.inl hprefixed), hjk⟩
    · have hprefixed : Fails (ts.size + 1) (prefixed (grammar ts)) (.ref .primary) [] :=
        .of_rejects (Rejects.withSpan Rejects.oneOf.bind) (by decide)
      obtain ⟨n, k, hn, hjk⟩ := reaches_primary i j h
      have herror := hprefixed i j i.left_lt h Place.avoids_nil
      exact ⟨n, k, orElse_ok.mpr (Or.inr ⟨herror, hn⟩), hjk⟩

end Grammar

/-! ### Levels -/

namespace Level

/-- What reads the operations of a level. -/
def parse (ts : Array Token) (level : Level) : Parser ts Node :=
  Grammar.leftAssoc (level.parseOperand ts) level.tried

/-- Kinds that an operand of a level goes on with. -/
def aheadOfOperand : Level → List TokenKind
  | multiplicative => [.lParen]
  | additive => Grammar.multiplicativeOperators ++ [.lParen]
  | comparison => Grammar.additiveOperators ++ (Grammar.multiplicativeOperators ++ [.lParen])
  | conjunction =>
    Grammar.comparisonOperators ++
      (Grammar.additiveOperators ++ (Grammar.multiplicativeOperators ++ [.lParen]))
  | disjunction =>
    [.andKw] ++ (Grammar.comparisonOperators ++
      (Grammar.additiveOperators ++ (Grammar.multiplicativeOperators ++ [.lParen])))

/-- Kinds that an operation of a level goes on with. -/
def ahead (level : Level) : List TokenKind := level.tried ++ level.aheadOfOperand

/-- The right-hand side of the operands of a level. -/
def operandSymbol (level : Level) : Ebnf := (Phrase.operand level default).symbol

theorem operators_tried (level : Level) : ∀ k ∈ level.operators, k ∈ level.tried := by
  cases level <;> decide

/-- No operator of a level is among what its operands go on with. -/
theorem not_ahead_of_operand (level : Level) : ∀ k ∈ level.aheadOfOperand, k ∉ level.operators := by
  cases level <;> decide

theorem first_operation (level : Level) :
    (Ebnf.seq [.oneOf level.operators, level.operandSymbol]).first = level.operators := by
  cases level <;> rfl

theorem parse_spec (level : Level)
    (hreads : Reads (ts.size + 1) (level.parseOperand ts) level.operandSymbol level.aheadOfOperand)
    (hreach : Reaches (level.parseOperand ts) level.operandSymbol) :
    Reads (ts.size + 1) (level.parse ts) (.ref level.symbol) level.ahead ∧
      Reaches (level.parse ts) (.ref level.symbol) := by
  have hks := level.operators_tried
  have he : (Ebnf.seq [.oneOf level.operators, level.operandSymbol]).nullable = false := by
    cases level <;> rfl
  have hF : ∀ k ∈ level.aheadOfOperand,
      k ∉ (Ebnf.seq [.oneOf level.operators, level.operandSymbol]).first := by
    rw [first_operation]
    exact level.not_ahead_of_operand
  have hrule : level.symbol.rule = .infixed level.operandSymbol level.operators :=
    level.rule_symbol default
  constructor
  · refine .ref ?_
    rw [hrule]
    exact Grammar.reads_leftAssoc hreads hks he hF
  · intro i j h
    have hphrase := Stands.ref_iff.mp h
    rw [hrule] at hphrase
    exact Grammar.reaches_leftAssoc hreach hreads hks he hF i j hphrase

/-- The operands of a level are read as they stand where nothing ahead goes on with them, and
    are reached wherever they stand. -/
theorem parseOperand_spec (level : Level) :
    Reads (ts.size + 1) (level.parseOperand ts) level.operandSymbol level.aheadOfOperand ∧
      Reaches (level.parseOperand ts) level.operandSymbol := by
  have hunary := Grammar.reads_unary (complete_grammar ts) (Rules.rejecting_upTo (ts.size + 1))
  have hproduct := multiplicative.parse_spec hunary.earlier Grammar.reaches_unary
  have hsum := additive.parse_spec hproduct.1 hproduct.2
  have hcomparison := comparison.parse_spec hsum.1 hsum.2
  have hconjunction := conjunction.parse_spec hcomparison.1 hcomparison.2
  cases level with
  | disjunction => exact hconjunction
  | conjunction => exact hcomparison
  | comparison => exact hsum
  | additive => exact hproduct
  | multiplicative => exact ⟨hunary.earlier, Grammar.reaches_unary⟩

end Level

theorem Grammar.expression_ok {i j : Place ts} {n : Node} :
    expression ts i = .ok (n, j) ↔ Level.disjunction.parse ts i = .ok (n, j) := by
  have hexpression : expression ts = expressionRule (grammar ts) :=
    congrArg Rules.expression (next_grammar ts).symm
  rw [hexpression]
  exact named_ok

/-- **Expressions are reached.** -/
theorem Grammar.reaches_expression : Reaches (expression ts) (.ref .expression) := by
  intro i j h
  obtain ⟨hreads, hreach⟩ := @Level.parseOperand_spec ts .disjunction
  obtain ⟨n, k, hn, hjk⟩ := (Level.disjunction.parse_spec hreads hreach).2 i j (Stands.ref_iff.mp h)
  exact ⟨n, k, expression_ok.mpr hn, hjk⟩

end TarnLang
