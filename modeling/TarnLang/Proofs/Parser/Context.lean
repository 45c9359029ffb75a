/-
  TarnLang/Proofs/Parser/Context.lean
  ===================================
  **What stands in front of a failure.**  Two constructs are expected in few contexts only.  A name
  has to come behind `fn`, `proc` and `let`, and behind a comma between names.  An expression has
  to come inside open parentheses or behind one of the kinds in `valueWanted`, with prefix operators
  in between or not.  `InContext` says that a failure to find one of the two stands in such a
  context.

  A parser keeps to this where its parts do at the places that they are tried at.  An optional part
  and a named one need to keep to it only behind the place where they start: there the first is
  absent, and the second has a name of its own.
-/
import TarnLang.Proofs.Grammar.Parentheses
import TarnLang.Proofs.Parser.Repetition

namespace TarnLang

/-! ### Contexts -/

/-- The kinds that a name has to follow. -/
def nameWanted : List TokenKind := [.comma, .fnKw, .procKw, .letKw]

/-- The kinds that a value may follow outside parentheses. -/
def valueWanted : List TokenKind := [.eq, .caseKw, .returnKw]

def prefixOperators : List TokenKind := [.minus, .notKw]

/-- Behind these kinds a name has to come. -/
def NameMissed (before : List TokenKind) : Prop := ∃ k ∈ nameWanted, before.getLast? = some k

/-- A kind that wants a value, and any number of prefix operators behind it. -/
def EndsInValueWanted (before : List TokenKind) : Prop :=
  ∃ front k operators, before = front ++ k :: operators ∧ k ∈ valueWanted ∧
    ∀ op ∈ operators, op ∈ prefixOperators

/-- Behind these kinds a value has to come: there are open parentheses, or there are none but
    something else wants a value. -/
def ValueMissed (before : List TokenKind) : Prop :=
  0 < openParens before ∨ openParens before = 0 ∧ EndsInValueWanted before

/-- A failure to find a name or an expression stands where one has to come. -/
structure ParseFailure.InContext (ts : Array Token) (f : ParseFailure) : Prop where
  name : f.construct = "a name" → NameMissed (kindsBefore ts f.offset)
  value : f.construct = "an expression" → ValueMissed (kindsBefore ts f.offset)

variable {before : List TokenKind} {k : TokenKind}

theorem nameMissed_snoc (hk : k ∈ nameWanted) : NameMissed (before ++ [k]) :=
  ⟨k, hk, List.getLast?_concat⟩

theorem ValueMissed.openParens_nonneg (h : ValueMissed before) : 0 ≤ openParens before := by
  rcases h with hpos | ⟨hzero, -⟩
  · exact Int.le_of_lt hpos
  · exact Int.le_of_eq hzero.symm

/-- What wants a value is no parenthesis. -/
theorem openParens_snoc (hk : k ∈ valueWanted ∨ k ∈ prefixOperators) :
    openParens (before ++ [k]) = openParens before := by
  have hopens : openParens [k] = 0 := by
    revert hk
    cases k <;> decide
  rw [openParens_append, hopens, Int.add_zero]

/-- A value has to come where one is wanted, inside parentheses or not. -/
theorem valueMissed_snoc (hlevel : 0 ≤ openParens before) (hk : k ∈ valueWanted) :
    ValueMissed (before ++ [k]) := by
  have hsame : openParens (before ++ [k]) = openParens before := openParens_snoc (.inl hk)
  rcases Int.lt_or_eq_of_le hlevel with hpos | hzero
  · exact Or.inl (hsame ▸ hpos)
  · exact Or.inr ⟨hsame.trans hzero.symm, before, k, [], rfl, hk, fun _ hop => nomatch hop⟩

/-- A prefix operator leaves a value missing. -/
theorem ValueMissed.prefixed (h : ValueMissed before) (hk : k ∈ prefixOperators) :
    ValueMissed (before ++ [k]) := by
  have hsame : openParens (before ++ [k]) = openParens before := openParens_snoc (.inr hk)
  rcases h with hpos | ⟨hzero, front, wanted, operators, rfl, hwanted, hoperators⟩
  · exact Or.inl (hsame ▸ hpos)
  · refine Or.inr ⟨hsame.trans hzero, front, wanted, operators ++ [k], by simp, hwanted, ?_⟩
    intro op hop
    rcases List.mem_append.mp hop with hop | hop
    · exact hoperators op hop
    · exact List.mem_singleton.mp hop ▸ hk

variable {ts : Array Token} {i : Place ts}

/-- All other constructs may be missing anywhere. -/
theorem inContext_of_ne {construct : String} (hname : construct ≠ "a name")
    (hvalue : construct ≠ "an expression") (i : Place ts) :
    (i.failure construct).InContext ts :=
  ⟨fun h => absurd h hname, fun h => absurd h hvalue⟩

theorem NameMissed.inContext (hi : NameMissed i.before) : (i.failure "a name").InContext ts := by
  have hne : "a name" ≠ "an expression" := by decide
  exact ⟨fun _ => hi, fun h => absurd h hne⟩

theorem ValueMissed.inContext (hi : ValueMissed i.before) :
    (i.failure "an expression").InContext ts := by
  have hne : "an expression" ≠ "a name" := by decide
  exact ⟨fun h => absurd h hne, fun _ => hi⟩

namespace Parser

variable {α β : Type}

/-- All failures of a parser at a place stand in their context. -/
def FailsInContext (p : Parser ts α) (i : Place ts) : Prop :=
  ∀ f, p i = .error f → f.InContext ts

/-- All failures of a parser at a place stand in their context, but for those right there. -/
def FailsInContextBehind (p : Parser ts α) (i : Place ts) : Prop :=
  ∀ f, p i = .error f → f.offset ≠ i.val → f.InContext ts

theorem FailsInContext.behind {p : Parser ts α} (h : FailsInContext p i) :
    FailsInContextBehind p i := fun f hf _ => h f hf

theorem failsInContext_pure (x : α) (i : Place ts) : FailsInContext (pure x) i :=
  fun _ hf => absurd hf pure_ne_error

/-! ### Single tokens -/

/-- A token is missed where it was tried. -/
theorem failsInContextBehind_token (k : TokenKind) (i : Place ts) :
    FailsInContextBehind (token k) i := by
  intro f hf hne
  obtain rfl := token_error_eq hf
  exact absurd rfl hne

/-- No other kind of token has the name of a construct that needs a context. -/
theorem inContext_failure (hk : k ≠ .ident) (i : Place ts) :
    (i.failure k.displayName).InContext ts := by
  have hnames : k.displayName ≠ "a name" ∧ k.displayName ≠ "an expression" := by
    revert hk
    cases k <;> decide
  exact inContext_of_ne hnames.1 hnames.2 i

theorem failsInContext_token (hk : k ≠ .ident) (i : Place ts) : FailsInContext (token k) i := by
  intro f hf
  rw [token_error_eq hf]
  exact inContext_failure hk i

theorem failsInContext_name (hi : NameMissed i.before) : FailsInContext (token .ident) i := by
  intro f hf
  rw [token_error_eq hf]
  exact hi.inContext

theorem failsInContextBehind_oneOf {ks : List TokenKind} (hks : ks ≠ []) (i : Place ts) :
    FailsInContextBehind (oneOf ks) i := by
  intro f hf hne
  obtain ⟨k, -, rfl⟩ := oneOf_error hf hks
  exact absurd rfl hne

theorem failsInContext_oneOf {ks : List TokenKind} (hks : ks ≠ []) (hident : .ident ∉ ks)
    (i : Place ts) : FailsInContext (oneOf ks) i := by
  intro f hf
  obtain ⟨k, hk, rfl⟩ := oneOf_error hf hks
  refine inContext_failure ?_ i
  rintro rfl
  exact hident hk

namespace FailsInContextBehind

variable {p : Parser ts α}

theorem bind {q : α → Parser ts β} (hp : FailsInContextBehind p i)
    (hq : ∀ x j, p i = .ok (x, j) → FailsInContext (q x) j) :
    FailsInContextBehind (p >>= q) i := by
  intro f hf hne
  rcases bind_error.mp hf with hf | ⟨x, j, hx, hf⟩
  · exact hp f hf hne
  · exact hq x j hx f hf

theorem token_bind {q : Token → Parser ts β}
    (hq : ∀ t j, i.Takes k t j → FailsInContext (q t) j) :
    FailsInContextBehind (Parser.token k >>= q) i :=
  (failsInContextBehind_token k i).bind fun t j ht => hq t j (token_ok.mp ht)

theorem map {g : α → β} (hp : FailsInContextBehind p i) : FailsInContextBehind (g <$> p) i :=
  fun f hf => hp f (map_error.mp hf)

theorem withSpan {p : Parser ts (Span → α)} (hp : FailsInContextBehind p i) :
    FailsInContextBehind (withSpan p) i := fun f hf => hp f (withSpan_error.mp hf)

theorem orElse {q : Parser ts α} (hp : FailsInContextBehind p i) (hq : FailsInContextBehind q i) :
    FailsInContextBehind (p <|> q) i := by
  intro f hf
  rcases orElse_error hf with hf | hf
  · exact hp f hf
  · exact hq f hf

/-- Where an optional part fails at its start it is absent. -/
theorem optional [Absent α] (hp : FailsInContextBehind p i) : FailsInContext (optional p) i := by
  intro f hf
  obtain ⟨hf, hne⟩ := optional_error.mp hf
  exact hp f hf hne

/-- Where a named part fails at its start it fails with that name. -/
theorem named {construct : String} (hp : FailsInContextBehind p i)
    (hi : (i.failure construct).InContext ts) : FailsInContext (named construct p) i := by
  intro f hf
  obtain ⟨e, he, ⟨hstart, rfl⟩ | ⟨hne, rfl⟩⟩ := named_error hf
  · exact ⟨fun h => hstart ▸ hi.name h, fun h => hstart ▸ hi.value h⟩
  · exact hp _ he hne

end FailsInContextBehind

/-- A property that each item hands on to the next holds behind all of them. -/
theorem Items.carries {p : Parser ts α} {P : Place ts → Prop} {xs : List α} {j : Place ts}
    (h : Items p i xs j) (hstep : ∀ x j l, P j → p j = .ok (x, l) → P l) (hi : P i) : P j := by
  induction h with
  | nil => exact hi
  | cons hx _ _ ih => exact ih (hstep _ _ _ hi hx)

namespace FailsInContext

variable {p : Parser ts α} {e : Ebnf}

theorem bind {q : α → Parser ts β} (hp : FailsInContext p i)
    (hq : ∀ x j, p i = .ok (x, j) → FailsInContext (q x) j) : FailsInContext (p >>= q) i := by
  intro f hf
  rcases bind_error.mp hf with hf | ⟨x, j, hx, hf⟩
  · exact hp f hf
  · exact hq x j hx f hf

theorem token_bind {q : Token → Parser ts β} (hk : k ≠ .ident)
    (hq : ∀ t j, i.Takes k t j → FailsInContext (q t) j) :
    FailsInContext (Parser.token k >>= q) i :=
  (failsInContext_token hk i).bind fun t j ht => hq t j (token_ok.mp ht)

theorem name_bind {q : Token → Parser ts β} (hi : NameMissed i.before)
    (hq : ∀ t j, i.Takes .ident t j → FailsInContext (q t) j) :
    FailsInContext (Parser.token .ident >>= q) i :=
  (failsInContext_name hi).bind fun t j ht => hq t j (token_ok.mp ht)

/-- Behind a phrase that closes its own parentheses as many are open as in front of it. -/
theorem phrase_bind {q : α → Parser ts β} (hp : FailsInContext p i) (hkeeps : Keeps p e)
    (he : e.closed = true) (hq : ∀ x j, j.depth = i.depth → FailsInContext (q x) j) :
    FailsInContext (p >>= q) i :=
  hp.bind fun x j hx => hq x j ((hkeeps.stands hx).depth_eq he)

/-- What is made of a part afterwards does not fail. -/
theorem last {q : α → Parser ts β} (hp : FailsInContext p i) (hq : ∀ x, ∃ y, q x = Pure.pure y) :
    FailsInContext (p >>= q) i := by
  refine hp.bind fun x j _ => ?_
  obtain ⟨y, hy⟩ := hq x
  exact hy ▸ failsInContext_pure y j

theorem spanned (hp : FailsInContext p i) : FailsInContext (spanned p) i :=
  fun f hf => hp f (spanned_error.mp hf)

theorem withSpan {p : Parser ts (Span → α)} (hp : FailsInContext p i) :
    FailsInContext (withSpan p) i := fun f hf => hp f (withSpan_error.mp hf)

theorem orElse {q : Parser ts α} (hp : FailsInContext p i) (hq : FailsInContext q i) :
    FailsInContext (p <|> q) i := by
  intro f hf
  rcases orElse_error hf with hf | hf
  · exact hp f hf
  · exact hq f hf

/-- A part in parentheses. -/
theorem parens (hp : ∀ t j, i.Takes .lParen t j → FailsInContext p j) :
    FailsInContext (surrounded (Parser.token .lParen) (Parser.token .rParen) p) i := by
  refine .token_bind (by decide) fun t j ht => (hp t j ht).bind fun x k _ => ?_
  exact (failsInContext_token (by decide) k).last fun _ => ⟨_, rfl⟩

/-! ### Repetitions -/

/-- Phrases up to a token.  Each closes its parentheses, so all are tried at one depth. -/
theorem manyUntil (hk : k ≠ .ident) (hkeeps : Keeps p e) (he : e.closed = true)
    (hitem : ∀ j : Place ts, 0 ≤ j.depth → FailsInContext p j) (hi : 0 ≤ i.depth) :
    FailsInContext (manyUntil p (Parser.token k)) i := by
  intro f hf
  obtain ⟨xs, j, hitems, hf | hf⟩ := manyUntil_error hf
  · have hj : 0 ≤ j.depth := hitems.carries (P := fun j => 0 ≤ j.depth)
      (fun _ _ _ hj hx => (hkeeps.stands hx).depth_eq he ▸ hj) hi
    exact hitem j hj f hf
  · exact failsInContext_token hk j f hf

/-- Items of a list, where an item and the comma behind it hand the property on. -/
theorem separated {P : Place ts → Prop} (hle : ∀ {i j x}, p i = .ok (x, j) → i ≤ j)
    (hitem : ∀ j, P j → FailsInContext p j)
    (hstep : ∀ x t j l m, P j → p j = .ok (x, l) → l.Takes .comma t m → P m) (hi : P i) :
    FailsInContext (separated (Parser.token .comma) p) i := by
  intro f hf
  have hadvances : Advances (Parser.token .comma) p :=
    advances_of_le_of_lt hle fun h => (token_ok.mp h).lt
  obtain ⟨pairs, j, hitems, hf⟩ := (separated_error_iff hadvances).mp hf
  refine hitem j (hitems.carries (fun (x, t) j m hj hpair => ?_) hi) f hf
  obtain ⟨l, hx, ht⟩ := both_ok.mp hpair
  exact hstep x t j l m hj hx (token_ok.mp ht)

end FailsInContext

/-- Names of a list.  The first may be absent, and behind a comma there has to be one. -/
theorem failsInContextBehind_names (i : Place ts) :
    FailsInContextBehind (separated (token .comma) (token .ident)) i := by
  intro f hf hne
  have hadvances : Advances (token .comma : Parser ts Token) (token .ident) :=
    advances_of_le_of_lt (fun h => Fin.le_of_lt (token_ok.mp h).lt) fun h => (token_ok.mp h).lt
  obtain ⟨pairs, j, hitems, hmissing⟩ := (separated_error_iff hadvances).mp hf
  have hj : j = i ∨ NameMissed j.before := by
    refine hitems.carries (P := fun j => j = i ∨ NameMissed j.before)
      (fun (x, t) j m _ hpair => Or.inr ?_) (Or.inl rfl)
    obtain ⟨l, -, ht⟩ := both_ok.mp hpair
    exact (token_ok.mp ht).before_eq ▸ nameMissed_snoc (by decide)
  rcases hj with rfl | hj
  · exact failsInContextBehind_token .ident j f hmissing hne
  · exact failsInContext_name hj f hmissing

end Parser

end TarnLang
