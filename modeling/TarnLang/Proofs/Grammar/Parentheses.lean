/-
  TarnLang/Proofs/Grammar/Parentheses.lean
  ========================================
  **Phrases close the parentheses that they open.**  `openParens` counts how many parentheses are
  open behind a row of kinds.  For a right-hand side the count can be read off its parts, as long as
  each part that may be chosen, missing or repeated closes its own; that it does, and that each
  nonterminal closes all of its own, is checked rule by rule.

  So the depth of a place in a stream is the same in front of a phrase and behind it.
-/
import TarnLang.Proofs.Grammar.Derivation

namespace TarnLang

/-! ### Open parentheses -/

/-- How many more parentheses are opened in a row of kinds than are closed. -/
def openParens (row : List TokenKind) : Int := row.count .lParen - row.count .rParen

@[simp] theorem openParens_append (u v : List TokenKind) :
    openParens (u ++ v) = openParens u + openParens v := by
  simp only [openParens, List.count_append]
  omega

mutual

/-- How many parentheses a right-hand side leaves open, when the parts that it may leave out or
    repeat leave none. -/
def Ebnf.opens : Ebnf → Int
  | .kind k => openParens [k]
  | .seq es => Ebnf.sumOpens es
  | _ => 0

def Ebnf.sumOpens : List Ebnf → Int
  | [] => 0
  | e :: es => e.opens + Ebnf.sumOpens es

end

mutual

/-- Whether every part that may be chosen, missing or repeated closes its own parentheses. -/
def Ebnf.even : Ebnf → Bool
  | .kind _ => true
  | .ref _ => true
  | .seq es => Ebnf.allEven es
  | .alt es => Ebnf.allClosed es
  | .opt e => e.even && e.opens = 0
  | .star e => e.even && e.opens = 0

def Ebnf.allEven : List Ebnf → Bool
  | [] => true
  | e :: es => e.even && Ebnf.allEven es

def Ebnf.allClosed : List Ebnf → Bool
  | [] => true
  | e :: es => (e.even && e.opens = 0) && Ebnf.allClosed es

end

/-- Whether a right-hand side closes the parentheses that it opens. -/
def Ebnf.closed (e : Ebnf) : Bool := e.even && e.opens = 0

theorem Ebnf.closed_iff {e : Ebnf} : e.closed = true ↔ e.even = true ∧ e.opens = 0 := by
  rw [closed, Bool.and_eq_true, decide_eq_true_iff]

theorem Ebnf.allClosed_iff {es : List Ebnf} :
    Ebnf.allClosed es = true ↔ ∀ e ∈ es, e.closed = true := by
  induction es with
  | nil => simp [Ebnf.allClosed]
  | cons e es ih =>
    rw [Ebnf.allClosed, Bool.and_eq_true, ih, List.forall_mem_cons]
    rfl

theorem Nonterminal.closed_rule (n : Nonterminal) : n.rule.closed = true := by
  cases n <;> decide +kernel

/-- **A derived row leaves open what its right-hand side does.** -/
theorem Derives.openParens_eq {e : Ebnf} {w : List TokenKind} (h : Derives e w)
    (he : e.even = true) : openParens w = e.opens := by
  induction h with
  | kind => rfl
  | @ref n w _ ih =>
    obtain ⟨heven, hopens⟩ := Ebnf.closed_iff.mp n.closed_rule
    exact (ih heven).trans hopens
  | nil => rfl
  | cons _ _ ihe ihes =>
    obtain ⟨hfirst, hrest⟩ := (Bool.and_eq_true ..).mp he
    rw [openParens_append, ihe hfirst, ihes hrest]
    rfl
  | alt hmem _ ih =>
    obtain ⟨heven, hopens⟩ := Ebnf.closed_iff.mp (Ebnf.allClosed_iff.mp he _ hmem)
    exact (ih heven).trans hopens
  | absent => rfl
  | present _ ih =>
    obtain ⟨heven, hopens⟩ := Ebnf.closed_iff.mp he
    exact (ih heven).trans hopens
  | done => rfl
  | more _ _ ihe ihes =>
    obtain ⟨heven, hopens⟩ := Ebnf.closed_iff.mp he
    rw [openParens_append, ihe heven, ihes he, hopens]
    rfl

/-! ### The depth of a place -/

/-- The kinds of the tokens in front of an index. -/
def kindsBefore (ts : Array Token) (n : Nat) : List TokenKind := (ts.toList.take n).map (·.kind)

namespace Place

variable {ts : Array Token} {i j : Place ts} {k : TokenKind} {t : Token}

/-- The kinds of the tokens in front of a place. -/
def before (i : Place ts) : List TokenKind := kindsBefore ts i.val

/-- How many parentheses are open at a place. -/
def depth (i : Place ts) : Int := openParens i.before

theorem before_append_kinds (i : Place ts) : i.before ++ i.kinds = ts.toList.map (·.kind) := by
  rw [before, kindsBefore, kinds, tokens, ← List.map_append, List.take_append_drop]

theorem before_of_kinds_append {u : List TokenKind} (h : i.kinds = u ++ j.kinds) :
    j.before = i.before ++ u := by
  have hall : j.before ++ j.kinds = i.before ++ u ++ j.kinds := by
    rw [before_append_kinds, List.append_assoc, ← h, before_append_kinds]
  exact List.append_cancel_right hall

theorem Takes.before_eq (h : i.Takes k t j) : j.before = i.before ++ [k] :=
  before_of_kinds_append h.kinds_eq

theorem Takes.depth_eq (h : i.Takes k t j) : j.depth = i.depth + openParens [k] := by
  rw [depth, h.before_eq, openParens_append, depth]

/-- Only a closing parenthesis lowers the depth. -/
theorem Takes.depth_le (h : i.Takes k t j) (hk : k ≠ .rParen) : i.depth ≤ j.depth := by
  have hopens : 0 ≤ openParens [k] := by
    revert hk
    cases k <;> decide
  rw [h.depth_eq]
  exact Int.le_add_of_nonneg_right hopens

theorem Takes.depth_lt (h : i.Takes .lParen t j) : i.depth < j.depth := by
  have hopens : openParens [.lParen] = 1 := rfl
  rw [h.depth_eq, hopens]
  exact Int.lt_succ i.depth

theorem Takes.depth_nonneg (h : i.Takes .rParen t j) (hi : 0 < i.depth) : 0 ≤ j.depth := by
  have hopens : openParens [.rParen] = -1 := rfl
  rw [h.depth_eq, hopens]
  exact Int.le_sub_one_of_lt hi

end Place

/-- A phrase that closes its own parentheses ends at the depth at which it starts. -/
theorem Stands.depth_eq {ts : Array Token} {i j : Place ts} {e : Ebnf} (h : Stands e i j)
    (he : e.closed = true) : j.depth = i.depth := by
  obtain ⟨w, hw, hkinds⟩ := h
  obtain ⟨heven, hopens⟩ := Ebnf.closed_iff.mp he
  rw [Place.depth, Place.before_of_kinds_append hkinds, openParens_append,
    hw.openParens_eq heven, hopens, Int.add_zero, Place.depth]

end TarnLang
