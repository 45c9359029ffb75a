/-
  TarnLang/Proofs/Parser/Success.lean
  ===================================
  **What a successful parser has done.**  The tokens from a place on form a list, and a
  parser that goes from one place to another has taken the tokens between them off its
  front.  For every combinator there is one statement that says exactly when it succeeds,
  with which value and at which place; rules of the grammar are opened with these and never
  by their definitions.

  A repetition succeeds along a chain of items, `Items`, that cannot be made longer; a list
  with separators along a chain of its own, `SeparatedItems`.
-/
import TarnLang.Parser.Repetition

namespace TarnLang

/-! ### Places and tokens -/

namespace Place

variable {ts : Array Token}

/-- The tokens from a place on. -/
def tokens (i : Place ts) : List Token := ts.toList.drop i.val

/-- The kinds of the tokens from a place on. -/
def kinds (i : Place ts) : List TokenKind := i.tokens.map (·.kind)

theorem length_tokens (i : Place ts) : i.tokens.length = i.left := by
  simp [tokens, left]

theorem peek?_eq_head? (i : Place ts) : i.peek? = i.tokens.head? := by
  simp [peek?, tokens, List.head?_drop]

/-- A place is behind the tokens that were taken to get there. -/
theorem val_eq_add {i j : Place ts} {u : List Token} (h : i.tokens = u ++ j.tokens) :
    j.val = i.val + u.length := by
  have hlen := congrArg List.length h
  have hi := i.isLt
  have hj := j.isLt
  simp only [List.length_append, length_tokens, left] at hlen
  omega

theorem le_of_append {i j : Place ts} {u : List Token} (h : i.tokens = u ++ j.tokens) : i ≤ j := by
  have hval := val_eq_add h
  show i.val ≤ j.val
  omega

/-- Behind the first part of a row of tokens there is a place. -/
theorem exists_of_append {i : Place ts} {u v : List Token} (h : i.tokens = u ++ v) :
    ∃ j : Place ts, j.tokens = v := by
  have hlen := congrArg List.length h
  have hi := i.isLt
  simp only [length_tokens, left, List.length_append] at hlen
  refine ⟨⟨i.val + u.length, by omega⟩, ?_⟩
  have hdrop : ts.toList.drop (i.val + u.length) = i.tokens.drop u.length := by
    simp [tokens]
  show ts.toList.drop (i.val + u.length) = v
  rw [hdrop, h, List.drop_left]

theorem exists_append_of_le {i j : Place ts} (h : i ≤ j) : ∃ u, i.tokens = u ++ j.tokens := by
  have hij : i.val ≤ j.val := h
  refine ⟨i.tokens.take (j.val - i.val), ?_⟩
  have hdrop : j.tokens = i.tokens.drop (j.val - i.val) := by
    rw [tokens, tokens, List.drop_drop, Nat.add_sub_cancel' hij]
  rw [hdrop, List.take_append_drop]

/-- The tokens that are left tell places apart. -/
theorem tokens_injective : Function.Injective (tokens : Place ts → List Token) := by
  intro i j h
  have hval := val_eq_add (u := []) h
  exact Fin.ext (by simpa using hval.symm)

/-- A token of a kind stands at a place, and the second place is right behind it. -/
structure Takes (kind : TokenKind) (i : Place ts) (t : Token) (j : Place ts) : Prop where
  tokens_eq : i.tokens = t :: j.tokens
  kind_eq : t.kind = kind

namespace Takes

variable {i j j' : Place ts} {t t' : Token} {k k' : TokenKind}

theorem lt (h : Takes k i t j) : i < j := by
  have hval := val_eq_add (u := [t]) h.tokens_eq
  show i.val < j.val
  simp only [List.length_singleton] at hval
  omega

theorem left_lt (h : Takes k i t j) : j.left < i.left := left_lt_left h.lt

theorem peek? (h : Takes k i t j) : i.peek? = some t := by
  simp [peek?_eq_head?, h.tokens_eq]

/-- What stands at a place is one token, with one place behind it. -/
theorem unique (h : Takes k i t j) (h' : Takes k' i t' j') : t = t' ∧ k = k' ∧ j = j' := by
  have heq := h.tokens_eq.symm.trans h'.tokens_eq
  obtain ⟨rfl, hj⟩ := List.cons.inj heq
  exact ⟨rfl, h.kind_eq.symm.trans h'.kind_eq, tokens_injective hj⟩

end Takes

theorem takes_of_lt {i : Place ts} (h : i.val < ts.size) :
    Takes ts[i.val].kind i ts[i.val] ⟨i.val + 1, Nat.succ_lt_succ h⟩ := by
  refine ⟨?_, rfl⟩
  simp only [tokens]
  rw [List.drop_eq_getElem_cons (by simpa using h)]
  simp

/-- A place is at the end of the stream or in front of a token. -/
theorem eq_end_or_takes (i : Place ts) : i.peek? = none ∨ ∃ t j, Takes t.kind i t j := by
  by_cases h : i.val < ts.size
  · exact Or.inr ⟨_, _, takes_of_lt h⟩
  · left
    simpa [peek?] using h

theorem exists_takes_of_lt {i j : Place ts} (h : i < j) : ∃ t k, Takes t.kind i t k := by
  have hi : i.val < ts.size := by
    have := j.isLt
    have : i.val < j.val := h
    omega
  exact ⟨_, _, takes_of_lt hi⟩

theorem exists_takes_before {i j : Place ts} (h : i < j) : ∃ t k, Takes t.kind k t j := by
  have hij : i.val < j.val := h
  have hj := j.isLt
  have hlast := takes_of_lt (i := (⟨j.val - 1, by omega⟩ : Place ts)) (by show j.val - 1 < _; omega)
  have heq : (⟨j.val - 1 + 1, by omega⟩ : Place ts) = j := Fin.ext (by show j.val - 1 + 1 = _; omega)
  simp only [heq] at hlast
  exact ⟨_, _, hlast⟩

/-! ### Spans of rows of tokens -/

theorem spanTo_eq_through {i i' j j' : Place ts} {k k' : TokenKind} {first last : Token}
    (hfirst : Takes k i first i') (hlast : Takes k' j' last j) (hij : i < j) :
    i.spanTo j = first.span.through last.span := by
  have hval := val_eq_add (u := [last]) hlast.tokens_eq
  have hprev : j.val - 1 = j'.val := by
    simp only [List.length_singleton] at hval
    omega
  have hi : ts[i.val]? = some first := hfirst.peek?
  have hj : ts[j.val - 1]? = some last := by
    rw [hprev]
    exact hlast.peek?
  simp only [spanTo, if_pos hij, hi, hj]

/-- The span of a row of tokens starts where its first token does. -/
theorem spanTo_start {i j l : Place ts} {k : TokenKind} {t : Token} (h : Takes k i t j)
    (hl : j ≤ l) : (i.spanTo l).start = t.span.start := by
  have hlt : i < l := Fin.lt_of_lt_of_le h.lt hl
  obtain ⟨last, k', hlast⟩ := exists_takes_before hlt
  rw [spanTo_eq_through h hlast hlt]
  rfl

/-- The span of a row of tokens is put together from the spans of its ends. -/
theorem spanTo_through {i j k l : Place ts} (hij : i < j) (hkl : k < l) (hil : i < l) :
    (i.spanTo j).through (k.spanTo l) = i.spanTo l := by
  obtain ⟨first, i', hfirst⟩ := exists_takes_of_lt hij
  obtain ⟨t, j', ht⟩ := exists_takes_before hij
  obtain ⟨t', k', ht'⟩ := exists_takes_of_lt hkl
  obtain ⟨last, l', hlast⟩ := exists_takes_before hkl
  rw [spanTo_eq_through hfirst ht hij, spanTo_eq_through ht' hlast hkl,
    spanTo_eq_through hfirst hlast hil]
  rfl

end Place

namespace Parser

variable {ts : Array Token} {α β γ : Type}

/-! ### Single steps -/

theorem pure_ok {x y : α} {i j : Place ts} :
    (pure x : Parser ts α) i = .ok (y, j) ↔ x = y ∧ i = j := by
  show Except.ok (x, i) = Except.ok (y, j) ↔ _
  simp

theorem bind_ok {p : Parser ts α} {f : α → Parser ts β} {i k : Place ts} {y : β} :
    (p >>= f) i = .ok (y, k) ↔ ∃ x j, p i = .ok (x, j) ∧ f x j = .ok (y, k) := by
  show Parser.bind p f i = .ok (y, k) ↔ _
  unfold Parser.bind
  cases p i with
  | ok r =>
    obtain ⟨x, j⟩ := r
    constructor
    · intro h
      exact ⟨x, j, rfl, h⟩
    · rintro ⟨x', j', hx, h⟩
      obtain ⟨rfl, rfl⟩ := Prod.mk.inj (Except.ok.inj hx)
      exact h
  | error e => simp

theorem map_ok {f : α → β} {p : Parser ts α} {i j : Place ts} {y : β} :
    (f <$> p) i = .ok (y, j) ↔ ∃ x, p i = .ok (x, j) ∧ f x = y := by
  show (p >>= fun x => pure (f x)) i = .ok (y, j) ↔ _
  simp only [bind_ok, pure_ok]
  constructor
  · rintro ⟨x, k, hp, rfl, rfl⟩
    exact ⟨x, hp, rfl⟩
  · rintro ⟨x, hp, rfl⟩
    exact ⟨x, j, hp, rfl, rfl⟩

theorem both_ok {p : Parser ts α} {q : Parser ts β} {i k : Place ts} {x : α} {y : β} :
    both p q i = .ok ((x, y), k) ↔ ∃ j, p i = .ok (x, j) ∧ q j = .ok (y, k) := by
  unfold both
  simp only [bind_ok, pure_ok]
  constructor
  · rintro ⟨_, j, hx, _, _, hy, heq, rfl⟩
    obtain ⟨rfl, rfl⟩ := Prod.mk.inj heq
    exact ⟨j, hx, hy⟩
  · rintro ⟨j, hx, hy⟩
    exact ⟨x, j, hx, y, k, hy, rfl, rfl⟩

theorem token_ok {k : TokenKind} {i j : Place ts} {t : Token} :
    token k i = .ok (t, j) ↔ i.Takes k t j := by
  unfold token
  constructor
  · intro h
    split at h
    · rename_i hi
      split at h
      · rename_i hk
        obtain ⟨rfl, rfl⟩ := Prod.mk.inj (Except.ok.inj h)
        exact ⟨(Place.takes_of_lt hi).tokens_eq, hk⟩
      · cases h
    · cases h
  · intro h
    have hlt := h.lt
    have hi : i.val < ts.size := by
      have := j.isLt
      have : i.val < j.val := hlt
      omega
    obtain ⟨rfl, hk, rfl⟩ := (Place.takes_of_lt hi).unique h
    rw [dif_pos hi, if_pos hk]

/-- A token of another kind is refused where it stands. -/
theorem token_error {k : TokenKind} {i : Place ts} (h : ∀ t ∈ i.peek?, t.kind ≠ k) :
    token k i = .error (i.failure k.displayName) := by
  unfold token
  split
  · rename_i hi
    rw [if_neg (h _ (Place.takes_of_lt hi).peek?)]
  · rfl

theorem spanned_ok {p : Parser ts α} {i j : Place ts} {r : α × Span} :
    spanned p i = .ok (r, j) ↔ p i = .ok (r.1, j) ∧ r.2 = i.spanTo j := by
  unfold spanned
  cases p i with
  | error e => simp
  | ok q =>
    obtain ⟨x, k⟩ := q
    simp only [Except.ok.injEq, Prod.mk.injEq]
    constructor
    · rintro ⟨rfl, rfl⟩
      exact ⟨⟨rfl, rfl⟩, rfl⟩
    · rintro ⟨⟨rfl, rfl⟩, hs⟩
      exact ⟨Prod.ext rfl hs.symm, rfl⟩

theorem withSpan_ok {p : Parser ts (Span → α)} {i j : Place ts} {x : α} :
    withSpan p i = .ok (x, j) ↔ ∃ make, p i = .ok (make, j) ∧ make (i.spanTo j) = x := by
  unfold withSpan
  simp only [bind_ok, spanned_ok, pure_ok]
  constructor
  · rintro ⟨⟨make, span⟩, k, ⟨hp, rfl⟩, rfl, rfl⟩
    exact ⟨make, hp, rfl⟩
  · rintro ⟨make, hp, rfl⟩
    exact ⟨(make, i.spanTo j), j, ⟨hp, rfl⟩, rfl, rfl⟩

theorem surrounded_ok {opening : Parser ts α} {closing : Parser ts β} {inner : Parser ts γ}
    {i l : Place ts} {r : α × γ × β} :
    surrounded opening closing inner i = .ok (r, l) ↔
      ∃ j k, opening i = .ok (r.1, j) ∧ inner j = .ok (r.2.1, k) ∧ closing k = .ok (r.2.2, l) := by
  unfold surrounded
  simp only [bind_ok, pure_ok]
  constructor
  · rintro ⟨a, j, ha, x, k, hx, b, l', hb, rfl, rfl⟩
    exact ⟨j, k, ha, hx, hb⟩
  · rintro ⟨j, k, ha, hx, hb⟩
    exact ⟨_, j, ha, _, k, hx, _, l, hb, rfl, rfl⟩

/-! ### Choice -/

theorem orElse_ok {p q : Parser ts α} {i : Place ts} {r : α × Place ts} :
    (p <|> q) i = .ok r ↔ p i = .ok r ∨ (∃ e, p i = .error e) ∧ q i = .ok r := by
  show Parser.orElse p q i = .ok r ↔ _
  unfold Parser.orElse
  cases p i with
  | ok s => simp
  | error e =>
    cases q i with
    | ok s => simp
    | error e' => simp

theorem named_ok {construct : String} {p : Parser ts α} {i : Place ts} {r : α × Place ts} :
    named construct p i = .ok r ↔ p i = .ok r := by
  unfold named
  cases p i with
  | ok s => simp
  | error e => simp

theorem optional_ok [Absent α] {p : Parser ts α} {i j : Place ts} {x : α} :
    optional p i = .ok (x, j) ↔
      p i = .ok (x, j) ∨
        ∃ e, p i = .error e ∧ e.offset = i.val ∧ Absent.absent e = x ∧ i = j := by
  unfold optional
  cases p i with
  | ok s => simp
  | error e =>
    by_cases he : e.offset = i.val
    · simp [he]
    · simp [he]

/-- One of several kinds is read where a token of such a kind stands. -/
theorem anyAfter_token_ok {ks : List TokenKind} {best : Option ParseFailure} {i j : Place ts}
    {t : Token} :
    anyAfter best (ks.map token) i = .ok (t, j) ↔ i.Takes t.kind t j ∧ t.kind ∈ ks := by
  induction ks generalizing best with
  | nil => simp [anyAfter]
  | cons k ks ih =>
    simp only [List.map_cons, anyAfter]
    cases htok : (token k i : Outcome ts Token) with
    | ok r =>
      obtain ⟨t', j'⟩ := r
      have htakes := token_ok.mp htok
      constructor
      · intro h
        obtain ⟨rfl, rfl⟩ := Prod.mk.inj (Except.ok.inj h)
        exact ⟨⟨htakes.tokens_eq, rfl⟩, by simp [htakes.kind_eq]⟩
      · rintro ⟨h, -⟩
        obtain ⟨rfl, -, rfl⟩ := htakes.unique h
        rfl
    | error e =>
      rw [ih, List.mem_cons]
      constructor
      · rintro ⟨h, hmem⟩
        exact ⟨h, Or.inr hmem⟩
      · rintro ⟨h, rfl | hmem⟩
        · rw [token_ok.mpr h] at htok
          cases htok
        · exact ⟨h, hmem⟩

theorem oneOf_ok {ks : List TokenKind} {i j : Place ts} {t : Token} :
    oneOf ks i = .ok (t, j) ↔ i.Takes t.kind t j ∧ t.kind ∈ ks :=
  anyAfter_token_ok

/-! ### Repetition -/

/-- Items read one after another, each of them at least one token long. -/
inductive Items (item : Parser ts α) : Place ts → List α → Place ts → Prop
  | nil (i : Place ts) : Items item i [] i
  | cons {i j k : Place ts} {x : α} {xs : List α} :
      item i = .ok (x, j) → i < j → Items item j xs k → Items item i (x :: xs) k

/-- No further item that reads something starts at a place. -/
def Stops (item : Parser ts α) (i : Place ts) : Prop := ∀ x j, item i = .ok (x, j) → ¬ i < j

/-- A chain of items that cannot be made longer. -/
def Runs (item : Parser ts α) (i : Place ts) (xs : List α) (k : Place ts) : Prop :=
  Items item i xs k ∧ Stops item k

theorem stops_of_error {item : Parser ts α} {i : Place ts} {e : ParseFailure}
    (he : item i = .error e) : Stops item i := by
  intro x j hx
  rw [he] at hx
  cases hx

theorem stops_of_not_lt {item : Parser ts α} {i j : Place ts} {x : α}
    (hx : item i = .ok (x, j)) (hij : ¬ i < j) : Stops item i := by
  intro x' j' hx'
  rw [hx] at hx'
  obtain ⟨rfl, rfl⟩ := Prod.mk.inj (Except.ok.inj hx')
  exact hij

/-- Where no item can be read, the chain is empty. -/
theorem runs_of_stops {item : Parser ts α} {i k : Place ts} {xs : List α}
    (hstop : Stops item i) : Runs item i xs k ↔ xs = [] ∧ i = k := by
  constructor
  · rintro ⟨hitems, -⟩
    cases hitems with
    | nil => exact ⟨rfl, rfl⟩
    | cons hx hij _ => exact absurd hij (hstop _ _ hx)
  · rintro ⟨rfl, rfl⟩
    exact ⟨.nil i, hstop⟩

/-- Where an item can be read, it is the first of the chain. -/
theorem runs_of_lt {item : Parser ts α} {i j k : Place ts} {x : α} {xs : List α}
    (hx : item i = .ok (x, j)) (hij : i < j) :
    Runs item i xs k ↔ ∃ ys, xs = x :: ys ∧ Runs item j ys k := by
  constructor
  · rintro ⟨hitems, hstop⟩
    cases hitems with
    | nil => exact absurd hij (hstop x j hx)
    | cons hx' hij' hrest =>
      rw [hx] at hx'
      obtain ⟨rfl, rfl⟩ := Prod.mk.inj (Except.ok.inj hx')
      exact ⟨_, rfl, hrest, hstop⟩
  · rintro ⟨ys, rfl, hrest, hstop⟩
    exact ⟨.cons hx hij hrest, hstop⟩

theorem manyFrom_eq_iff {item : Parser ts α} {i l : Place ts} {xs : List α} :
    manyFrom item i = (xs, l) ↔ Runs item i xs l := by
  fun_induction manyFrom item i generalizing xs with
  | case1 i x j hx hij ys m hm ih =>
    rw [runs_of_lt hx hij]
    constructor
    · intro h
      obtain ⟨rfl, rfl⟩ := Prod.mk.inj h
      exact ⟨ys, rfl, ih.mp hm⟩
    · rintro ⟨zs, rfl, hzs⟩
      obtain ⟨rfl, rfl⟩ := Prod.mk.inj (hm.symm.trans (ih.mpr hzs))
      rfl
  | case2 i x j hx hij =>
    rw [runs_of_stops (stops_of_not_lt hx hij), Prod.mk.injEq, eq_comm]
  | case3 i e he =>
    rw [runs_of_stops (stops_of_error he), Prod.mk.injEq, eq_comm]

/-- A repetition is a chain of items that cannot be made longer. -/
theorem many_ok {item : Parser ts α} {i l : Place ts} {xs : List α} :
    many item i = .ok (xs, l) ↔ Runs item i xs l := by
  unfold many
  rw [← manyFrom_eq_iff, Except.ok.injEq]

theorem exists_runs (item : Parser ts α) (i : Place ts) : ∃ xs k, Runs item i xs k :=
  ⟨_, _, manyFrom_eq_iff.mp rfl⟩

/-- What to report where the terminator of a repetition is missing: its failure or that of the
    item which stopped the repetition, unless this has succeeded. -/
def stopReport (stopped : Outcome ts α) (missing : ParseFailure) : ParseFailure :=
  match stopped with
  | .ok _ => missing
  | .error e => e.furthest missing

/-- A repetition with a terminator reads items as long as it can, and then the terminator. -/
theorem manyUntil_of_runs {item : Parser ts α} {terminator : Parser ts β} {i k : Place ts}
    {xs : List α} (h : Runs item i xs k) :
    manyUntil item terminator i =
      match terminator k with
      | .ok (last, l) => .ok ((xs, last), l)
      | .error missing => .error (stopReport (item k) missing) := by
  obtain ⟨hitems, hstop⟩ := h
  induction hitems with
  | nil i =>
    rw [manyUntil]
    cases hx : item i with
    | ok r =>
      obtain ⟨x, j⟩ := r
      simp only [if_neg (hstop x j hx)]
      rfl
    | error e => rfl
  | @cons i j k x xs hx hij _ ih =>
    rw [manyUntil, hx]
    simp only [if_pos hij, ih hstop]
    cases terminator k <;> rfl

/-- A repetition with a terminator is a chain that cannot be made longer, and the
    terminator behind it. -/
theorem manyUntil_ok {item : Parser ts α} {terminator : Parser ts β} {i l : Place ts}
    {xs : List α} {last : β} :
    manyUntil item terminator i = .ok ((xs, last), l) ↔
      ∃ k, Runs item i xs k ∧ terminator k = .ok (last, l) := by
  constructor
  · intro h
    obtain ⟨ys, k, hruns⟩ := exists_runs item i
    rw [manyUntil_of_runs hruns] at h
    split at h
    · rename_i last' l' hlast
      obtain ⟨hvalue, rfl⟩ := Prod.mk.inj (Except.ok.inj h)
      obtain ⟨rfl, rfl⟩ := Prod.mk.inj hvalue
      exact ⟨k, hruns, hlast⟩
    · cases h
  · rintro ⟨k, hruns, hlast⟩
    rw [manyUntil_of_runs hruns, hlast]

theorem separatedTurn_last {separator : Parser ts β} {item : Parser ts α} {i j : Place ts} {x : α} :
    separatedTurn separator item i = .ok (.last x j) ↔
      item i = .ok (x, j) ∧ ∃ e, separator j = .error e := by
  constructor
  · intro h
    unfold separatedTurn at h
    split at h
    · rename_i x' j' hx
      split at h
      · cases h
      · rename_i e he
        cases h
        exact ⟨hx, e, he⟩
    · cases h
  · rintro ⟨hx, e, he⟩
    simp [separatedTurn, hx, he]

theorem separatedTurn_more {separator : Parser ts β} {item : Parser ts α} {i k : Place ts} {x : α} :
    separatedTurn separator item i = .ok (.more x k) ↔
      ∃ j s, item i = .ok (x, j) ∧ separator j = .ok (s, k) := by
  constructor
  · intro h
    unfold separatedTurn at h
    split at h
    · rename_i x' j' hx
      split at h
      · rename_i s k' hs
        cases h
        exact ⟨j', s, hx, hs⟩
      · cases h
    · cases h
  · rintro ⟨j, s, hx, hs⟩
    simp [separatedTurn, hx, hs]

/-- Items with separators between them.  No separator follows the last item, and every
    turn before it reads something. -/
inductive SeparatedItems (separator : Parser ts β) (item : Parser ts α) :
    Place ts → List α → Place ts → Prop
  | last {i j : Place ts} {x : α} :
      separatedTurn separator item i = .ok (.last x j) → SeparatedItems separator item i [x] j
  | more {i k l : Place ts} {x : α} {xs : List α} :
      separatedTurn separator item i = .ok (.more x k) → i < k →
      SeparatedItems separator item k xs l → SeparatedItems separator item i (x :: xs) l

theorem separated_of_items {separator : Parser ts β} {item : Parser ts α} {i l : Place ts}
    {xs : List α} (h : SeparatedItems separator item i xs l) :
    separated separator item i = .ok (xs, l) := by
  induction h with
  | last hturn =>
    rw [separated, hturn]
  | more hturn hik _ ih =>
    rw [separated, hturn]
    simp [hik, ih]

/-- Every turn that another one follows reads something. -/
def Advances (separator : Parser ts β) (item : Parser ts α) : Prop :=
  ∀ {i k : Place ts} {x : α}, separatedTurn separator item i = .ok (.more x k) → i < k

/-- An item that does not go back and a separator that reads something. -/
theorem advances_of_le_of_lt {separator : Parser ts β} {item : Parser ts α}
    (hitem : ∀ {i j x}, item i = .ok (x, j) → i ≤ j)
    (hseparator : ∀ {i j y}, separator i = .ok (y, j) → i < j) : Advances separator item := by
  intro i k x hturn
  obtain ⟨j, y, hx, hy⟩ := separatedTurn_more.mp hturn
  exact Fin.lt_of_le_of_lt (hitem hx) (hseparator hy)

/-- A list with separators succeeds along such a chain, where its turns advance. -/
theorem separated_ok {separator : Parser ts β} {item : Parser ts α} {i l : Place ts}
    {xs : List α} (hadvances : Advances separator item) :
    separated separator item i = .ok (xs, l) ↔ SeparatedItems separator item i xs l := by
  refine ⟨?_, separated_of_items⟩
  intro h
  fun_induction separated separator item i generalizing xs with
  | case1 i x j hturn =>
    obtain ⟨rfl, rfl⟩ := Prod.mk.inj (Except.ok.inj h)
    exact .last hturn
  | case2 i x k hturn hik ys m hm ih =>
    obtain ⟨rfl, rfl⟩ := Prod.mk.inj (Except.ok.inj h)
    exact .more hturn hik (ih hm)
  | case3 i x k hturn hik e he ih => cases h
  | case4 i x k hturn hik => exact absurd (hadvances hturn) hik
  | case5 i e hturn => cases h

end Parser

end TarnLang
