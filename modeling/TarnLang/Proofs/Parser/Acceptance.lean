/-
  TarnLang/Proofs/Parser/Acceptance.lean
  ======================================
  **What a parser is sure to read.**  `Reads n p e ahead` says that `p` reads every phrase of
  `e` that starts where fewer than `n` tokens are left, to its very end, as long as the token
  behind it is of no kind in `ahead`.  The kinds ahead are those that a greedy parser would
  go on with: operators behind an operand, an opening parenthesis behind a name.

  `Rejects p ks` says that `p` fails without reading anything wherever no token of a kind in
  `ks` stands.  An optional part is absent exactly there.  An alternative of a choice has to
  fail on the phrases of later alternatives, wherever the failure lies: `Fails`.
-/
import TarnLang.Proofs.Grammar.Derivation

namespace TarnLang

variable {ts : Array Token}

/-- The token at a place, if there is one, is of none of the given kinds. -/
def Place.Avoids (i : Place ts) (ks : List TokenKind) : Prop := ∀ t ∈ i.peek?, t.kind ∉ ks

namespace Place

variable {i j : Place ts} {ks ks' : List TokenKind}

theorem avoids_nil : i.Avoids [] := fun _ _ => List.not_mem_nil

theorem Avoids.mono (h : i.Avoids ks) (hks : ∀ k ∈ ks', k ∈ ks) : i.Avoids ks' :=
  fun t ht hk => h t ht (hks _ hk)

theorem Takes.avoids {k : TokenKind} {t : Token} (h : i.Takes k t j) (hk : k ∉ ks) :
    i.Avoids ks := by
  intro t' ht'
  rw [h.peek?] at ht'
  cases ht'
  rw [h.kind_eq]
  exact hk

end Place

/-- What may not follow does not stand at the start either, where it cannot be the first kind of
    the phrase, and where the phrase may be empty it is among what does not stand behind it. -/
theorem Stands.avoids {e : Ebnf} {i j : Place ts} {F G : List TokenKind} (h : Stands e i j)
    (hj : j.Avoids G) (hF : ∀ k ∈ F, k ∉ e.first ∧ (e.nullable = true → k ∈ G)) : i.Avoids F := by
  obtain ⟨w, hw, hkinds⟩ := h
  intro t ht hk
  cases w with
  | nil =>
    obtain rfl := Place.kinds_injective hkinds
    exact hj t ht ((hF _ hk).2 (hw.nullable rfl))
  | cons k' w =>
    have hhead : i.kinds.head? = some t.kind := by
      rw [Place.kinds, List.head?_map, ← Place.peek?_eq_head?, ht]
      rfl
    rw [hkinds] at hhead
    exact (hF _ hk).1 (hw.head_mem_first hhead)

theorem Stands.left_le {e : Ebnf} {i j : Place ts} (h : Stands e i j) : j.left ≤ i.left := by
  have hle : i.val ≤ j.val := h.le
  simp only [Place.left]
  omega

namespace Parser

variable {α β γ : Type} {n : Nat} {e : Ebnf} {es : List Ebnf} {F G ks : List TokenKind}

/-- A parser reads every phrase that starts where fewer than `n` tokens are left. -/
def Reads (n : Nat) (p : Parser ts α) (e : Ebnf) (ahead : List TokenKind) : Prop :=
  ∀ i j, i.left < n → Stands e i j → j.Avoids ahead → ∃ x, p i = .ok (x, j)

/-- A parser fails, without reading anything, where no token of the given kinds stands. -/
def Rejects (p : Parser ts α) (ks : List TokenKind) : Prop :=
  ∀ i, i.Avoids ks → ∃ err, p i = .error err ∧ err.offset = i.val

/-- A parser fails wherever a phrase of `e` starts with fewer than `n` tokens left. -/
def Fails (n : Nat) (p : Parser ts α) (e : Ebnf) (ahead : List TokenKind) : Prop :=
  ∀ i j, i.left < n → Stands e i j → j.Avoids ahead → ∃ err, p i = .error err

/-! ### Rejection -/

theorem furthest_offset {a b : ParseFailure} {o : Nat} (ha : a.offset = o) (hb : b.offset = o) :
    (a.furthest b).offset = o := by
  unfold ParseFailure.furthest
  split
  · exact hb
  · exact ha

/-- Where no token of the wanted kinds stands, each alternative fails on the spot. -/
theorem anyAfter_token_error {i : Place ts} {best : Option ParseFailure} (hi : i.Avoids ks)
    (hbest : ∀ b ∈ best, b.offset = i.val) :
    ∃ err, anyAfter best (ks.map token) i = .error err ∧ err.offset = i.val := by
  induction ks generalizing best with
  | nil =>
    cases best with
    | none => exact ⟨_, rfl, rfl⟩
    | some b => exact ⟨b, rfl, hbest b rfl⟩
  | cons k ks ih =>
    have herr : token k i = .error (i.failure k.displayName) :=
      token_error fun t ht hk => hi t ht (hk ▸ List.mem_cons_self ..)
    simp only [List.map_cons, anyAfter, herr]
    refine ih (hi.mono fun _ hk => List.mem_cons_of_mem _ hk) ?_
    rintro b hb
    cases hb
    cases best with
    | none => rfl
    | some b => exact furthest_offset (hbest b rfl) rfl

namespace Rejects

theorem mono {p : Parser ts α} (h : Rejects p ks) (hks : ∀ k ∈ ks, k ∈ F) : Rejects p F :=
  fun i hi => h i (hi.mono hks)

theorem fail {construct : String} : Rejects (Parser.fail construct : Parser ts α) ks :=
  fun i _ => ⟨i.failure construct, rfl, rfl⟩

theorem token {k : TokenKind} : Rejects (token k : Parser ts Token) [k] := by
  intro i hi
  refine ⟨_, token_error ?_, rfl⟩
  intro t ht hk
  exact hi t ht (List.mem_singleton.mpr hk)

theorem oneOf : Rejects (oneOf ks : Parser ts Token) ks :=
  fun _ hi => anyAfter_token_error hi fun _ hb => nomatch hb

theorem bind {p : Parser ts α} {f : α → Parser ts β} (h : Rejects p ks) : Rejects (p >>= f) ks := by
  intro i hi
  obtain ⟨err, herr, hoffset⟩ := h i hi
  refine ⟨err, ?_, hoffset⟩
  show Parser.bind p f i = .error err
  simp [Parser.bind, herr]

theorem map {p : Parser ts α} {f : α → β} (h : Rejects p ks) : Rejects (f <$> p) ks := h.bind

theorem spanned {p : Parser ts α} (h : Rejects p ks) : Rejects (spanned p) ks := by
  intro i hi
  obtain ⟨err, herr, hoffset⟩ := h i hi
  exact ⟨err, by simp [Parser.spanned, herr], hoffset⟩

theorem withSpan {p : Parser ts (Span → α)} (h : Rejects p ks) : Rejects (withSpan p) ks :=
  h.spanned.bind

theorem named {p : Parser ts α} {construct : String} (h : Rejects p ks) :
    Rejects (named construct p) ks := by
  intro i hi
  obtain ⟨err, herr, hoffset⟩ := h i hi
  exact ⟨{ err with construct }, by simp [Parser.named, herr, hoffset], hoffset⟩

theorem surrounded {p : Parser ts α} {q : Parser ts β} {r : Parser ts γ} (h : Rejects p ks) :
    Rejects (surrounded p q r) ks := h.bind

theorem orElse {p q : Parser ts α} (hp : Rejects p ks) (hq : Rejects q ks) :
    Rejects (p <|> q) ks := by
  intro i hi
  obtain ⟨err, herr, hoffset⟩ := hp i hi
  obtain ⟨err', herr', hoffset'⟩ := hq i hi
  refine ⟨err.furthest err', ?_, ?_⟩
  · show Parser.orElse p q i = _
    simp [Parser.orElse, herr, herr']
  · exact furthest_offset hoffset hoffset'

theorem separated {separator : Parser ts β} {item : Parser ts α} (h : Rejects item ks) :
    Rejects (separated separator item) ks := by
  intro i hi
  obtain ⟨err, herr, hoffset⟩ := h i hi
  refine ⟨err, ?_, hoffset⟩
  rw [Parser.separated]
  simp [separatedTurn, herr]

end Rejects

/-! ### Phrases that are not read -/

namespace Fails

variable {i j : Place ts}

/-- A parser fails on a phrase that starts with none of the tokens it wants. -/
theorem of_rejects {p : Parser ts α} (h : Rejects p ks)
    (hks : ∀ k ∈ ks, k ∉ e.first ∧ (e.nullable = true → k ∈ F)) : Fails n p e F := by
  intro i j _ hphrase hj
  obtain ⟨err, herr, -⟩ := h i (hphrase.avoids hj hks)
  exact ⟨err, herr⟩

theorem anyAhead {p : Parser ts α} (h : Fails n p e []) : Fails n p e F :=
  fun i j hi hphrase _ => h i j hi hphrase Place.avoids_nil

theorem ref {p : Parser ts α} {m : Nonterminal} (h : Fails n p m.rule F) :
    Fails n p (.ref m) F :=
  fun i j hi hphrase hj => h i j hi (Stands.ref_iff.mp hphrase) hj

theorem withSpan {p : Parser ts (Span → α)} (h : Fails n p e F) : Fails n (withSpan p) e F := by
  intro i j hi hphrase hj
  obtain ⟨err, herr⟩ := h i j hi hphrase hj
  refine ⟨err, ?_⟩
  show Parser.bind (Parser.spanned p) _ i = .error err
  simp [Parser.bind, Parser.spanned, herr]

theorem map {p : Parser ts α} {f : α → β} (h : Fails n p e F) : Fails n (f <$> p) e F := by
  intro i j hi hphrase hj
  obtain ⟨err, herr⟩ := h i j hi hphrase hj
  refine ⟨err, ?_⟩
  show Parser.bind p _ i = .error err
  simp [Parser.bind, herr]

/-- A parser that fails on the first part fails on the whole. -/
theorem bind {p : Parser ts α} {f : α → Parser ts β} (h : Fails n p e []) :
    Fails n (p >>= f) (.seq (e :: es)) F := by
  intro i j hi hphrase _
  obtain ⟨m, hfirst, -⟩ := Stands.cons_iff.mp hphrase
  obtain ⟨err, herr⟩ := h i m hi hfirst Place.avoids_nil
  refine ⟨err, ?_⟩
  show Parser.bind p f i = .error err
  simp [Parser.bind, herr]

/-- Behind a token that fits, the failure may lie further on. -/
theorem token {k : TokenKind} {f : Token → Parser ts α} (h : ∀ t, Fails n (f t) (.seq es) F) :
    Fails n (token k >>= f) (.seq (.kind k :: es)) F := by
  intro i j hi hphrase hj
  obtain ⟨m, hfirst, hrest⟩ := Stands.cons_iff.mp hphrase
  obtain ⟨t, ht⟩ := Stands.kind_iff.mp hfirst
  obtain ⟨err, herr⟩ := h t m j (Nat.lt_trans ht.left_lt hi) hrest hj
  refine ⟨err, ?_⟩
  show Parser.bind (Parser.token k) f i = .error err
  simp [Parser.bind, token_ok.mpr ht, herr]

/-- A token alone is not enough where what has to follow it may not stand behind. -/
theorem token_only {k : TokenKind} {f : Token → Parser ts α} (h : ∀ t, Rejects (f t) F) :
    Fails n (Parser.token k >>= f) (.kind k) F := by
  intro i j _ hphrase hj
  obtain ⟨t, ht⟩ := Stands.kind_iff.mp hphrase
  obtain ⟨err, herr, -⟩ := h t j hj
  refine ⟨err, ?_⟩
  show Parser.bind (Parser.token k) f i = .error err
  simp [Parser.bind, token_ok.mpr ht, herr]

theorem nil_alt {p : Parser ts α} : Fails n p (.alt []) F := by
  intro i j _ hphrase
  obtain ⟨e, he, -⟩ := Stands.alt_iff.mp hphrase
  cases he

/-- To fail on a choice is to fail on each of its alternatives. -/
theorem alt {p : Parser ts α} (h : Fails n p e F) (hes : Fails n p (.alt es) F) :
    Fails n p (.alt (e :: es)) F := by
  intro i j hi hphrase hj
  obtain ⟨e', he', hchosen⟩ := Stands.alt_iff.mp hphrase
  rcases List.mem_cons.mp he' with rfl | he'
  · exact h i j hi hchosen hj
  · exact hes i j hi (Stands.alt_iff.mpr ⟨e', he', hchosen⟩) hj

end Fails

/-! ### Phrases that are read -/

namespace Reads

theorem mono {m : Nat} {p : Parser ts α} (h : Reads n p e F) (hm : m ≤ n)
    (hF : ∀ k ∈ F, k ∈ G) : Reads m p e G :=
  fun i j hi hphrase hj => h i j (Nat.lt_of_lt_of_le hi hm) hphrase (hj.mono hF)

theorem anyAhead {p : Parser ts α} (h : Reads n p e []) : Reads n p e F :=
  h.mono (Nat.le_refl n) fun _ hk => nomatch hk

theorem earlier {p : Parser ts α} (h : Reads (n + 1) p e F) : Reads n p e F :=
  h.mono (Nat.le_succ n) fun _ hk => hk

theorem pure {x : α} : Reads n (pure x : Parser ts α) (.seq []) F := by
  intro i j _ hphrase _
  exact ⟨x, pure_ok.mpr ⟨rfl, Stands.nil_iff.mp hphrase⟩⟩

theorem token {k : TokenKind} : Reads n (token k : Parser ts Token) (.kind k) F := by
  intro i j _ hphrase _
  obtain ⟨t, ht⟩ := Stands.kind_iff.mp hphrase
  exact ⟨t, token_ok.mpr ht⟩

theorem oneOf (hks : ∀ k ∈ F, k ∈ ks) : Reads n (oneOf ks : Parser ts Token) (.oneOf F) G := by
  intro i j _ hphrase _
  obtain ⟨e, he, hphrase⟩ := Stands.alt_iff.mp hphrase
  obtain ⟨k, hk, rfl⟩ := List.mem_map.mp he
  obtain ⟨t, ht⟩ := Stands.kind_iff.mp hphrase
  refine ⟨t, oneOf_ok.mpr ⟨⟨ht.tokens_eq, rfl⟩, ?_⟩⟩
  rw [ht.kind_eq]
  exact hks k hk

theorem ref {p : Parser ts α} {m : Nonterminal} (h : Reads n p m.rule F) :
    Reads n p (.ref m) F :=
  fun i j hi hphrase hj => h i j hi (Stands.ref_iff.mp hphrase) hj

theorem spanned {p : Parser ts α} (h : Reads n p e F) : Reads n (spanned p) e F := by
  intro i j hi hphrase hj
  obtain ⟨x, hx⟩ := h i j hi hphrase hj
  exact ⟨(x, i.spanTo j), spanned_ok.mpr ⟨hx, rfl⟩⟩

theorem withSpan {p : Parser ts (Span → α)} (h : Reads n p e F) : Reads n (withSpan p) e F := by
  intro i j hi hphrase hj
  obtain ⟨make, hmake⟩ := h i j hi hphrase hj
  exact ⟨make (i.spanTo j), withSpan_ok.mpr ⟨make, hmake, rfl⟩⟩

theorem map {p : Parser ts α} {f : α → β} (h : Reads n p e F) : Reads n (f <$> p) e F := by
  intro i j hi hphrase hj
  obtain ⟨x, hx⟩ := h i j hi hphrase hj
  exact ⟨f x, map_ok.mpr ⟨x, hx, rfl⟩⟩

theorem named {p : Parser ts α} {construct : String} (h : Reads n p e F) :
    Reads n (named construct p) e F := by
  intro i j hi hphrase hj
  obtain ⟨x, hx⟩ := h i j hi hphrase hj
  exact ⟨x, named_ok.mpr hx⟩

/-- A part and the parts behind it, which may not start with what the first part would go on
    with. -/
theorem bind {p : Parser ts α} {f : α → Parser ts β} (hp : Reads n p e F)
    (hf : ∀ x, Reads n (f x) (.seq es) G)
    (hF : ∀ k ∈ F, k ∉ (Ebnf.seq es).first ∧ ((Ebnf.seq es).nullable = true → k ∈ G)) :
    Reads n (p >>= f) (.seq (e :: es)) G := by
  intro i j hi hphrase hj
  obtain ⟨m, hfirst, hrest⟩ := Stands.cons_iff.mp hphrase
  obtain ⟨x, hx⟩ := hp i m hi hfirst (hrest.avoids hj hF)
  obtain ⟨y, hy⟩ := hf x m j (Nat.lt_of_le_of_lt hfirst.left_le hi) hrest hj
  exact ⟨y, bind_ok.mpr ⟨x, m, hx, hy⟩⟩

/-- What is made of a phrase needs nothing behind it. -/
theorem bind_nil {p : Parser ts α} {f : α → Parser ts β} (hp : Reads n p e F)
    (hf : ∀ x, Reads n (f x) (.seq []) F) : Reads n (p >>= f) e F := by
  intro i j hi hphrase hj
  obtain ⟨x, hx⟩ := hp i j hi hphrase hj
  have hleft := hphrase.left_le
  obtain ⟨y, hy⟩ := hf x j j (by omega) (Stands.nil_iff.mpr rfl) hj
  exact ⟨y, bind_ok.mpr ⟨x, j, hx, hy⟩⟩

/-- Behind a first part that reads something, fewer tokens are left. -/
theorem step {p : Parser ts α} {f : α → Parser ts β} (hp : Reads (n + 1) p e [])
    (he : e.nullable = false) (hf : ∀ x, Reads n (f x) (.seq es) G) :
    Reads (n + 1) (p >>= f) (.seq (e :: es)) G := by
  intro i j hi hphrase hj
  obtain ⟨m, hfirst, hrest⟩ := Stands.cons_iff.mp hphrase
  obtain ⟨x, hx⟩ := hp i m hi hfirst Place.avoids_nil
  have hlt := Place.left_lt_left (hfirst.lt he)
  obtain ⟨y, hy⟩ := hf x m j (by omega) hrest hj
  exact ⟨y, bind_ok.mpr ⟨x, m, hx, hy⟩⟩

theorem keyword {k : TokenKind} {f : Token → Parser ts α} (hf : ∀ t, Reads n (f t) (.seq es) G) :
    Reads (n + 1) (Parser.token k >>= f) (.seq (.kind k :: es)) G :=
  token.step rfl hf

theorem token_bind {k : TokenKind} {f : Token → Parser ts α}
    (hf : ∀ t, Reads n (f t) (.seq es) G) :
    Reads n (Parser.token k >>= f) (.seq (.kind k :: es)) G :=
  bind (F := []) token hf fun _ hk => nomatch hk

/-- A part between two tokens. -/
theorem surrounded {k k' : TokenKind} {p : Parser ts α} (hp : Reads n p e F) (hF : k' ∉ F) :
    Reads (n + 1) (surrounded (Parser.token k) (Parser.token k') p)
      (.seq [.kind k, e, .kind k']) G := by
  refine keyword fun _ => hp.bind (fun _ => token_bind fun _ => pure) ?_
  intro k hk
  refine ⟨fun hmem => ?_, fun h => nomatch h⟩
  rw [List.mem_singleton.mp hmem] at hk
  exact hF hk

theorem optional [Absent α] {p : Parser ts α} (hp : Reads n p e F) (hreject : Rejects p G) :
    Reads n (optional p) (.opt e) (G ++ F) := by
  intro i j hi hphrase hj
  rcases Stands.opt_iff.mp hphrase with rfl | hphrase
  · have hG := hj.mono fun _ hk => List.mem_append_left F hk
    obtain ⟨err, herr, hoffset⟩ := hreject i hG
    exact ⟨Absent.absent err, optional_ok.mpr (Or.inr ⟨err, herr, hoffset, rfl, rfl⟩)⟩
  · obtain ⟨x, hx⟩ := hp i j hi hphrase (hj.mono fun _ hk => List.mem_append_right G hk)
    exact ⟨x, optional_ok.mpr (Or.inl hx)⟩

/-! ### Choices -/

/-- What the first parser is for it reads; on the phrases of the other it fails. -/
theorem orElse {p q : Parser ts α} {l m : List Ebnf} (hp : Reads n p (.alt l) F)
    (hq : Reads n q (.alt m) F) (hfail : Fails n p (.alt m) F) :
    Reads n (p <|> q) (.alt (l ++ m)) F := by
  intro i j hi hphrase hj
  obtain ⟨e, he, hchosen⟩ := Stands.alt_iff.mp hphrase
  rcases List.mem_append.mp he with he | he
  · obtain ⟨x, hx⟩ := hp i j hi (Stands.alt_iff.mpr ⟨e, he, hchosen⟩) hj
    exact ⟨x, orElse_ok.mpr (Or.inl hx)⟩
  · have hlater := Stands.alt_iff.mpr ⟨e, he, hchosen⟩
    obtain ⟨x, hx⟩ := hq i j hi hlater hj
    exact ⟨x, orElse_ok.mpr (Or.inr ⟨hfail i j hi hlater hj, hx⟩)⟩

theorem alt {p : Parser ts α} (h : Reads n p e F) : Reads n p (.alt [e]) F := by
  intro i j hi hphrase hj
  obtain ⟨e', he', hchosen⟩ := Stands.alt_iff.mp hphrase
  obtain rfl := List.mem_singleton.mp he'
  exact h i j hi hchosen hj

/-- A first alternative, with the ones behind it. -/
theorem orElse_cons {p q : Parser ts α} (hp : Reads n p e F) (hq : Reads n q (.alt es) F)
    (hfail : Fails n p (.alt es) F) : Reads n (p <|> q) (.alt (e :: es)) F :=
  orElse (l := [e]) hp.alt hq hfail

end Reads

/-! ### Repetitions -/

/-- A repetition of phrases is a chain of items, and the chain ends where no item starts. -/
theorem Reads.exists_runs {item : Parser ts α} (h : Reads n item e F) (he : e.nullable = false)
    (hF : ∀ k ∈ F, k ∉ e.first) (hreject : Rejects item G) {i j : Place ts} (hi : i.left < n)
    (hphrase : Stands (.star e) i j) (hj : j.Avoids (G ++ F)) : ∃ xs, Runs item i xs j := by
  induction hleft : i.left using Nat.strongRecOn generalizing i with
  | ind left ih =>
    rcases hphrase.star_cases with rfl | ⟨k, hfirst, hrest⟩
    · obtain ⟨err, herr, -⟩ := hreject i (hj.mono fun _ hk => List.mem_append_left F hk)
      exact ⟨[], (runs_of_stops (stops_of_error herr)).mpr ⟨rfl, rfl⟩⟩
    · have hk := hrest.avoids hj fun k hk => ⟨hF k hk, fun _ => List.mem_append_right G hk⟩
      obtain ⟨x, hx⟩ := h i k hi hfirst hk
      have hik := hfirst.lt he
      have hlt := Place.left_lt_left hik
      obtain ⟨xs, hxs⟩ := ih k.left (by omega) (by omega) hrest rfl
      exact ⟨x :: xs, (runs_of_lt hx hik).mpr ⟨xs, rfl, hxs⟩⟩

theorem Reads.many {item : Parser ts α} (h : Reads n item e F) (he : e.nullable = false)
    (hF : ∀ k ∈ F, k ∉ e.first) (hreject : Rejects item G) :
    Reads n (many item) (.star e) (G ++ F) := by
  intro i j hi hphrase hj
  obtain ⟨xs, hruns⟩ := h.exists_runs he hF hreject hi hphrase hj
  exact ⟨xs, many_ok.mpr hruns⟩

/-- A repetition with a token behind it that neither starts an item nor continues one. -/
theorem Reads.untilToken {k : TokenKind} {item : Parser ts α} (h : Reads n item e F)
    (he : e.nullable = false) (hF : ∀ k ∈ F, k ∉ e.first) (hreject : Rejects item G)
    (hk : k ∉ G ++ F) :
    Reads n (manyUntil item (Parser.token k)) (.seq [.star e, .kind k]) [] := by
  intro i l hi hphrase _
  obtain ⟨j, hitems, hrest⟩ := Stands.cons_iff.mp hphrase
  obtain ⟨l', hlast, hnil⟩ := Stands.cons_iff.mp hrest
  obtain rfl := Stands.nil_iff.mp hnil
  obtain ⟨t, ht⟩ := Stands.kind_iff.mp hlast
  obtain ⟨xs, hruns⟩ := h.exists_runs he hF hreject hi hitems (ht.avoids hk)
  exact ⟨(xs, t), manyUntil_ok.mpr ⟨j, hruns, token_ok.mpr ht⟩⟩

/-- A list with separators ends where no separator follows. -/
theorem Reads.separated {item : Parser ts α} (h : Reads n item e F) (he : e.nullable = false)
    (hF : .comma ∉ F) : Reads n (separated (Parser.token .comma) item) (.commaList e) (.comma :: F) := by
  intro i l hi hphrase hl
  suffices hitems : ∃ xs, SeparatedItems (Parser.token .comma) item i xs l by
    obtain ⟨xs, hxs⟩ := hitems
    exact ⟨xs, separated_of_items hxs⟩
  induction hleft : i.left using Nat.strongRecOn generalizing i with
  | ind left ih =>
    obtain ⟨j, hfirst, hrest⟩ := Stands.cons_iff.mp hphrase
    obtain ⟨l', hstar, hnil⟩ := Stands.cons_iff.mp hrest
    obtain rfl := Stands.nil_iff.mp hnil
    have hij := Place.left_lt_left (hfirst.lt he)
    rcases hstar.star_cases with rfl | ⟨m, hitem, hstar⟩
    · obtain ⟨x, hx⟩ := h i j hi hfirst (hl.mono fun _ hk => List.mem_cons_of_mem _ hk)
      have hcomma := token_error fun t ht hk => hl t ht (hk ▸ List.mem_cons_self ..)
      exact ⟨[x], .last (separatedTurn_last.mpr ⟨hx, _, hcomma⟩)⟩
    · obtain ⟨k, hcomma, hbehind⟩ := Stands.cons_iff.mp hitem
      obtain ⟨t, ht⟩ := Stands.kind_iff.mp hcomma
      obtain ⟨x, hx⟩ := h i j hi hfirst (ht.avoids hF)
      obtain ⟨m', hsecond, hnil⟩ := Stands.cons_iff.mp hbehind
      obtain rfl := Stands.nil_iff.mp hnil
      have hjk := ht.left_lt
      have hitems := Stands.cons hsecond (Stands.last hstar)
      obtain ⟨xs, hxs⟩ := ih k.left (by omega) k (by omega) hitems rfl
      have hik : i < k := Fin.lt_trans (hfirst.lt he) ht.lt
      exact ⟨x :: xs, .more (separatedTurn_more.mpr ⟨j, t, hx, token_ok.mpr ht⟩) hik hxs⟩

end Parser

end TarnLang
