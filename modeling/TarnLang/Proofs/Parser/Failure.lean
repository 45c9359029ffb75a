/-
  TarnLang/Proofs/Parser/Failure.lean
  ===================================
  **What a parser that fails has met.**  For each combinator there is one statement that says
  where its failure comes from: from the first part or from what follows it, from one of two
  alternatives, from the item that ended a repetition or from its terminator.

  `Keeps p e` puts success and failure together: where `p` succeeds it has read a phrase of
  `e`, and where it fails its failure is fair.  A parser that is put together from such
  parsers keeps to the right-hand side that is put together in the same way.
-/
import TarnLang.Proofs.Grammar.Expectation

namespace TarnLang.Parser

variable {ts : Array Token} {α β γ : Type} {i : Place ts} {f : ParseFailure}

/-! ### Where failures come from -/

theorem token_error_eq {k : TokenKind} (h : token k i = .error f) :
    f = i.failure k.displayName := by
  unfold token at h
  split at h
  · split at h
    · cases h
    · exact (Except.error.inj h).symm
  · exact (Except.error.inj h).symm

theorem bind_error {p : Parser ts α} {q : α → Parser ts β} :
    (p >>= q) i = .error f ↔ p i = .error f ∨ ∃ x j, p i = .ok (x, j) ∧ q x j = .error f := by
  show Parser.bind p q i = .error f ↔ _
  unfold Parser.bind
  cases p i with
  | ok r =>
    obtain ⟨x, j⟩ := r
    constructor
    · intro h
      exact Or.inr ⟨x, j, rfl, h⟩
    · rintro (h | ⟨x', j', hx, h⟩)
      · cases h
      · obtain ⟨rfl, rfl⟩ := Prod.mk.inj (Except.ok.inj hx)
        exact h
  | error e => simp

theorem pure_ne_error {x : α} : (pure x : Parser ts α) i ≠ .error f := by
  intro h
  cases h

theorem map_error {g : α → β} {p : Parser ts α} : (g <$> p) i = .error f ↔ p i = .error f := by
  show (p >>= fun x => pure (g x)) i = .error f ↔ _
  rw [bind_error]
  constructor
  · rintro (h | ⟨x, j, -, h⟩)
    · exact h
    · exact absurd h pure_ne_error
  · exact Or.inl

theorem both_error {p : Parser ts α} {q : Parser ts β} :
    both p q i = .error f ↔ p i = .error f ∨ ∃ x j, p i = .ok (x, j) ∧ q j = .error f := by
  unfold both
  rw [bind_error]
  constructor
  · rintro (h | ⟨x, j, hx, h⟩)
    · exact Or.inl h
    · exact Or.inr ⟨x, j, hx, map_error.mp h⟩
  · rintro (h | ⟨x, j, hx, h⟩)
    · exact Or.inl h
    · exact Or.inr ⟨x, j, hx, map_error.mpr h⟩

theorem spanned_error {p : Parser ts α} : spanned p i = .error f ↔ p i = .error f := by
  unfold spanned
  cases p i with
  | ok r => simp
  | error e => simp

theorem withSpan_error {p : Parser ts (Span → α)} : withSpan p i = .error f ↔ p i = .error f := by
  unfold withSpan
  rw [bind_error, spanned_error]
  constructor
  · rintro (h | ⟨x, j, -, h⟩)
    · exact h
    · exact absurd h pure_ne_error
  · exact Or.inl

/-- The failure of a choice is that of one of its alternatives. -/
theorem orElse_error {p q : Parser ts α} (h : (p <|> q) i = .error f) :
    p i = .error f ∨ q i = .error f := by
  change Parser.orElse p q i = .error f at h
  unfold Parser.orElse at h
  cases hp : p i with
  | ok r =>
    rw [hp] at h
    cases h
  | error a =>
    cases hq : q i with
    | ok r =>
      rw [hp, hq] at h
      cases h
    | error b =>
      rw [hp, hq] at h
      obtain rfl := Except.error.inj h
      unfold ParseFailure.furthest
      split
      · exact Or.inr rfl
      · exact Or.inl rfl

/-- Where a token of several kinds is missed, one of the kinds is reported. -/
theorem anyAfter_token_error_eq {ks : List TokenKind} {best : Option ParseFailure}
    (h : anyAfter best (ks.map token) i = .error f) :
    best = some f ∨ (∃ k ∈ ks, f = i.failure k.displayName) ∨ best = none ∧ ks = [] := by
  induction ks generalizing best with
  | nil =>
    cases best with
    | none => exact Or.inr (Or.inr ⟨rfl, rfl⟩)
    | some b =>
      obtain rfl := Except.error.inj h
      exact Or.inl rfl
  | cons k ks ih =>
    rw [List.map_cons, anyAfter] at h
    cases htok : (token k i : Outcome ts Token) with
    | ok r =>
      rw [htok] at h
      cases h
    | error e =>
      rw [htok] at h
      have he := token_error_eq htok
      rcases ih h with hbest | ⟨k', hk', hf⟩ | ⟨hnone, -⟩
      · -- the failure so far is an earlier one or that of this kind
        cases best with
        | none =>
          obtain rfl := Option.some.inj hbest
          exact Or.inr (Or.inl ⟨k, List.mem_cons_self .., he⟩)
        | some b =>
          have hfurthest : b.furthest e = f := Option.some.inj hbest
          unfold ParseFailure.furthest at hfurthest
          split at hfurthest
          · exact Or.inr (Or.inl ⟨k, List.mem_cons_self .., hfurthest ▸ he⟩)
          · exact Or.inl (congrArg some hfurthest)
      · exact Or.inr (Or.inl ⟨k', List.mem_cons_of_mem k hk', hf⟩)
      · cases hnone

theorem oneOf_error {ks : List TokenKind} (h : oneOf ks i = .error f) (hks : ks ≠ []) :
    ∃ k ∈ ks, f = i.failure k.displayName := by
  rcases anyAfter_token_error_eq h with hbest | hmissed | ⟨-, hnil⟩
  · cases hbest
  · exact hmissed
  · exact absurd hnil hks

/-- An optional part fails only behind a token that it has read. -/
theorem optional_error [Absent α] {p : Parser ts α} :
    optional p i = .error f ↔ p i = .error f ∧ f.offset ≠ i.val := by
  unfold optional
  cases p i with
  | ok r => simp
  | error e =>
    by_cases he : e.offset = i.val
    · simp only [if_pos he]
      constructor
      · intro h
        cases h
      · rintro ⟨h, hne⟩
        obtain rfl := Except.error.inj h
        exact absurd he hne
    · simp only [if_neg he]
      constructor
      · intro h
        obtain rfl := Except.error.inj h
        exact ⟨rfl, he⟩
      · exact And.left

/-- A named parser fails where it started, with its own name, or further on. -/
theorem named_error {construct : String} {p : Parser ts α} (h : named construct p i = .error f) :
    ∃ e, p i = .error e ∧
      ((e.offset = i.val ∧ f = { e with construct }) ∨ (e.offset ≠ i.val ∧ f = e)) := by
  unfold named at h
  cases hp : p i with
  | ok r =>
    rw [hp] at h
    cases h
  | error e =>
    rw [hp] at h
    refine ⟨e, rfl, ?_⟩
    by_cases he : e.offset = i.val
    · simp only [if_pos he] at h
      exact Or.inl ⟨he, (Except.error.inj h).symm⟩
    · simp only [if_neg he] at h
      exact Or.inr ⟨he, (Except.error.inj h).symm⟩

/-- A repetition with a terminator fails behind some items, with the failure of the next item or
    of the terminator. -/
theorem manyUntil_error {item : Parser ts α} {terminator : Parser ts β}
    (h : manyUntil item terminator i = .error f) :
    ∃ xs k, Items item i xs k ∧ (item k = .error f ∨ terminator k = .error f) := by
  obtain ⟨xs, k, hruns⟩ := exists_runs item i
  rw [manyUntil_of_runs hruns] at h
  refine ⟨xs, k, hruns.1, ?_⟩
  split at h
  · cases h
  · rename_i missing hmissing
    obtain rfl := Except.error.inj h
    cases hitem : item k with
    | ok r => exact Or.inr hmissing
    | error e =>
      simp only [stopReport, ParseFailure.furthest]
      split
      · exact Or.inr hmissing
      · exact Or.inl rfl

/-- A turn of a list fails where its item does. -/
theorem separatedTurn_error {separator : Parser ts β} {item : Parser ts α}
    (h : separatedTurn separator item i = .error f) : item i = .error f := by
  unfold separatedTurn at h
  split at h
  · split at h
    · cases h
    · cases h
  · rename_i e he
    obtain rfl := Except.error.inj h
    exact he

/-! ### Parsers that keep to a right-hand side -/

/-- A failure of a named parser is fair when those of the parser are. -/
theorem expects_named {p : Parser ts α} {construct : String} {e : Ebnf}
    (hnamed : Ebnf.named? construct = some e)
    (hp : ∀ {i f}, p i = .error f → f.Expects e i) (h : named construct p i = .error f) :
    f.Expects e i := by
  obtain ⟨a, ha, ⟨hstart, rfl⟩ | ⟨-, rfl⟩⟩ := named_error h
  · -- at the first token the failure is that of the whole phrase
    obtain ⟨j, read, next, hj, -⟩ := hp ha
    have hij : j = i := by
      rw [hj] at hstart
      exact Fin.ext hstart
    have heq : { a with construct } = i.failure construct := by
      rw [hj, hij]
      rfl
    rw [heq]
    exact .self hnamed
  · exact hp ha

theorem expects_oneOf {ks : List TokenKind} (h : oneOf ks i = .error f) (hks : ks ≠ [])
    (heof : .eof ∉ ks) : f.Expects (.oneOf ks) i := by
  obtain ⟨k, hk, rfl⟩ := oneOf_error h hks
  have hne : k ≠ .eof := by
    rintro rfl
    exact heof hk
  exact (ParseFailure.Expects.self (Ebnf.named?_displayName hne)).alt (List.mem_map_of_mem hk)

/-- A parser keeps to a right-hand side: what it reads is a phrase of it, and its failures are
    fair. -/
structure Keeps (p : Parser ts α) (e : Ebnf) : Prop where
  stands : ∀ {i j x}, p i = .ok (x, j) → Stands e i j
  expects : ∀ {i f}, p i = .error f → f.Expects e i

namespace Keeps

variable {e : Ebnf} {es : List Ebnf}

theorem token {k : TokenKind} (hk : k ≠ .eof) : Keeps (token k : Parser ts Token) (.kind k) := by
  constructor
  · intro i j t h
    exact .kind (token_ok.mp h)
  · intro i f h
    rw [token_error_eq h]
    exact .self (Ebnf.named?_displayName hk)

/-- A parser that always fails keeps to whatever may start with the construct it names. -/
theorem fail {construct : String} {next : Ebnf} (hnamed : Ebnf.named? construct = some next)
    (hgoes : GoesOn e [] next) : Keeps (Parser.fail construct : Parser ts α) e := by
  constructor
  · intro i j x h
    cases h
  · intro i f h
    obtain rfl := Except.error.inj h
    exact ⟨i, [], next, rfl, rfl, hnamed, hgoes⟩

theorem pure {x : α} : Keeps (pure x : Parser ts α) (.seq []) := by
  constructor
  · intro i j y h
    exact Stands.nil_iff.mpr (pure_ok.mp h).2
  · intro i f h
    exact absurd h pure_ne_error

theorem bind {p : Parser ts α} {q : α → Parser ts β} (hp : Keeps p e)
    (hq : ∀ x, Keeps (q x) (.seq es)) (hes : (Ebnf.seq es).inhabited = true) :
    Keeps (p >>= q) (.seq (e :: es)) := by
  constructor
  · intro i k y h
    obtain ⟨x, j, hx, hy⟩ := bind_ok.mp h
    exact (hp.stands hx).cons ((hq x).stands hy)
  · intro i f h
    rcases bind_error.mp h with hfirst | ⟨x, j, hx, hrest⟩
    · exact (hp.expects hfirst).cons hes
    · exact .behind (hp.stands hx) ((hq x).expects hrest)

/-- A token and the parts behind it. -/
theorem token_bind {k : TokenKind} {q : Token → Parser ts β} (hk : k ≠ .eof)
    (hq : ∀ t, Keeps (q t) (.seq es)) (hes : (Ebnf.seq es).inhabited = true) :
    Keeps (Parser.token k >>= q) (.seq (.kind k :: es)) :=
  bind (token hk) hq hes

/-- A last part. -/
theorem last {p : Parser ts α} {q : α → Parser ts β} (hp : Keeps p e)
    (hq : ∀ x, ∃ y, q x = Pure.pure y) : Keeps (p >>= q) (.seq [e]) := by
  apply bind hp _ rfl
  intro x
  obtain ⟨y, hy⟩ := hq x
  rw [hy]
  exact pure

/-- What is made of a phrase afterwards reads nothing more. -/
theorem bind_pure {p : Parser ts α} {q : α → Parser ts β} (hp : Keeps p e)
    (hq : ∀ x, ∃ y, q x = Pure.pure y) : Keeps (p >>= q) e := by
  constructor
  · intro i k y h
    obtain ⟨x, j, hx, hy⟩ := bind_ok.mp h
    obtain ⟨z, hz⟩ := hq x
    rw [hz, pure_ok] at hy
    obtain ⟨-, rfl⟩ := hy
    exact hp.stands hx
  · intro i f h
    rcases bind_error.mp h with hfirst | ⟨x, j, -, hrest⟩
    · exact hp.expects hfirst
    · obtain ⟨z, hz⟩ := hq x
      rw [hz] at hrest
      exact absurd hrest pure_ne_error

theorem map {p : Parser ts α} {g : α → β} (hp : Keeps p e) : Keeps (g <$> p) e :=
  hp.bind_pure fun x => ⟨g x, rfl⟩

theorem withSpan {p : Parser ts (Span → α)} (hp : Keeps p e) : Keeps (withSpan p) e := by
  constructor
  · intro i j x h
    obtain ⟨make, hmake, -⟩ := withSpan_ok.mp h
    exact hp.stands hmake
  · intro i f h
    exact hp.expects (withSpan_error.mp h)

theorem surrounded (k k' : TokenKind) (hk : k ≠ .eof) (hk' : k' ≠ .eof) {p : Parser ts α}
    (hp : Keeps p e) (he : e.inhabited = true) :
    Keeps (surrounded (Parser.token k) (Parser.token k') p) (.seq [.kind k, e, .kind k']) := by
  have hclosing : (Ebnf.seq [.kind k']).inhabited = true := rfl
  have hrest : (Ebnf.seq [e, .kind k']).inhabited = true := by
    show (e.productive _ && _) = true
    rw [Bool.and_eq_true]
    exact ⟨he, hclosing⟩
  apply bind (token hk) _ hrest
  intro a
  apply bind hp _ hclosing
  intro x
  exact bind (token hk') (fun _ => pure) rfl

/-- A part that may be absent fails only where it is not. -/
theorem optional [Absent α] {p : Parser ts α} (hp : Keeps p e) : Keeps (optional p) (.opt e) := by
  constructor
  · intro i j x h
    rcases optional_ok.mp h with hx | ⟨a, -, -, -, rfl⟩
    · exact .present (hp.stands hx)
    · exact .absent
  · intro i f h
    exact (hp.expects (optional_error.mp h).1).present

theorem ref {p : Parser ts α} {n : Nonterminal} (hp : Keeps p n.rule) : Keeps p (.ref n) := by
  constructor
  · intro i j x h
    exact .ref (hp.stands h)
  · intro i f h
    exact (hp.expects h).ref

/-! ### Choices -/

/-- One of several alternatives, given by its number. -/
theorem alt {p : Parser ts α} (n : Nat) (hn : es[n]? = some e) (hp : Keeps p e) :
    Keeps p (.alt es) := by
  constructor
  · intro i j x h
    exact (hp.stands h).alt n hn
  · intro i f h
    exact (hp.expects h).alt (List.mem_of_getElem? hn)

theorem orElse {p q : Parser ts α} (hp : Keeps p e) (hq : Keeps q e) : Keeps (p <|> q) e := by
  constructor
  · intro i j x h
    rcases orElse_ok.mp h with hx | ⟨-, hx⟩
    · exact hp.stands hx
    · exact hq.stands hx
  · intro i f h
    rcases orElse_error h with hf | hf
    · exact hp.expects hf
    · exact hq.expects hf

/-- A failure at the first token is fair under the name of the whole. -/
theorem named {p : Parser ts α} {construct : String} (hp : Keeps p e)
    (hnamed : Ebnf.named? construct = some e) : Keeps (named construct p) e := by
  constructor
  · intro i j x h
    exact hp.stands (named_ok.mp h)
  · intro i f h
    exact expects_named hnamed hp.expects h

/-! ### Repetitions -/

theorem items {p : Parser ts α} (hp : Keeps p e) {i k : Place ts} {xs : List α}
    (h : Items p i xs k) : Stands (.star e) i k := by
  induction h with
  | nil => exact .done
  | cons hx _ _ ih => exact .more (hp.stands hx) ih

/-- Behind items, a failure is one in a repetition. -/
theorem expects_items {p : Parser ts α} (hp : Keeps p e) {i k : Place ts} {xs : List α}
    (h : Items p i xs k) {f : ParseFailure} (hf : f.Expects (.star e) k) :
    f.Expects (.star e) i := by
  induction h with
  | nil => exact hf
  | cons hx _ _ ih => exact .more (hp.stands hx) (ih hf)

theorem manyUntil {k : TokenKind} (hk : k ≠ .eof) {item : Parser ts α} (hitem : Keeps item e) :
    Keeps (manyUntil item (Parser.token k)) (.seq [.star e, .kind k]) := by
  constructor
  · rintro i l ⟨xs, last⟩ h
    obtain ⟨j, ⟨hitems, -⟩, hlast⟩ := manyUntil_ok.mp h
    exact (hitem.items hitems).cons (Stands.kind (token_ok.mp hlast)).last
  · intro i f h
    obtain ⟨xs, j, hitems, hfailure | hfailure⟩ := manyUntil_error h
    · exact (hitem.expects_items hitems (hitem.expects hfailure).item).cons rfl
    · exact .behind (hitem.items hitems) (((token hk).expects hfailure).cons rfl)

/-- A list with commas.  Behind a comma there has to be an item. -/
theorem separated {item : Parser ts α} (hitem : Keeps item e) :
    Keeps (separated (Parser.token .comma) item) (.commaList e) := by
  have hadvances : Advances (Parser.token .comma) item :=
    advances_of_le_of_lt (fun h => (hitem.stands h).le) fun h => (token_ok.mp h).lt
  constructor
  · intro i l xs h
    have hitems := (separated_ok hadvances).mp h
    clear h
    induction hitems with
    | last hturn =>
      obtain ⟨hx, -⟩ := separatedTurn_last.mp hturn
      exact .commaList_last (hitem.stands hx)
    | more hturn _ _ ih =>
      obtain ⟨j, t, hx, ht⟩ := separatedTurn_more.mp hturn
      exact .commaList_cons (hitem.stands hx) (token_ok.mp ht) ih
  · intro i f h
    fun_induction Parser.separated (Parser.token .comma) item i with
    | case1 i x j hturn => cases h
    | case2 i x k hturn hik ys m hm ih => cases h
    | case3 i x k hturn hik a ha ih =>
      obtain rfl := Except.error.inj h
      obtain ⟨j, t, hx, ht⟩ := separatedTurn_more.mp hturn
      exact .commaList (hitem.stands hx) (token_ok.mp ht) (ih ha)
    | case4 i x k hturn hik =>
      -- an item and a comma have been read, so the place has moved on
      exact absurd (hadvances hturn) hik
    | case5 i a hturn =>
      obtain rfl := Except.error.inj h
      exact (hitem.expects (separatedTurn_error hturn)).cons rfl

end Keeps

end TarnLang.Parser
