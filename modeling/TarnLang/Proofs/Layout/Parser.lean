/-
  TarnLang/Proofs/Layout/Parser.lean
  ==================================
  **Parsers do not look at positions.**  Next to a stream stands the stream with its tokens
  relocated, and next to each place of the one the same place of the other.  `Matches` relates
  a parser on the first to a parser on the second: from matching places both succeed, up to
  matching places and with related values, or both fail, with the same failure but for the
  position of the token found.

  Combinators keep to this.  Values are mostly related by a function, which says what the
  relocated value is; only a value that waits for its span needs a relation.
-/
import TarnLang.Proofs.Layout.Relocation
import TarnLang.Proofs.Parser.Failure

namespace TarnLang

variable {ts : Array Token} {g : Position → Position}

/-! ### Places -/

namespace Place

/-- The same place of the relocated stream. -/
def relocate (g : Position → Position) (i : Place ts) : Place (ts.map (Token.relocate g)) :=
  ⟨i.val, by rw [Array.size_map]; exact i.isLt⟩

theorem relocate_lt {i j : Place ts} : i.relocate g < j.relocate g ↔ i < j := Iff.rfl

theorem getElem?_relocate (n : Nat) :
    (ts.map (Token.relocate g))[n]? = ts[n]?.map (Token.relocate g) := Array.getElem?_map

/-- The token to report is the relocated one. -/
theorem found_relocate (horigin : g .origin = .origin) (i : Place ts) :
    (i.relocate g).found = i.found.relocate g := by
  have hempty : Token.emptyEof.relocate g = Token.emptyEof := by
    simp [Token.relocate, Token.emptyEof, Span.relocate, Span.point, horigin]
  have hpeek : (i.relocate g).peek? = i.peek?.map (Token.relocate g) := getElem?_relocate i.val
  rw [found, found, hpeek, Array.back?_map]
  cases i.peek? with
  | some t => rfl
  | none =>
    cases ts.back? with
    | some t => rfl
    | none => exact hempty.symm

theorem failure_relocate (horigin : g .origin = .origin) (construct : String) (i : Place ts) :
    (i.relocate g).failure construct = (i.failure construct).relocate g := by
  rw [failure, found_relocate horigin]
  rfl

theorem spanTo_relocate (horigin : g .origin = .origin) (i j : Place ts) :
    (i.relocate g).spanTo (j.relocate g) = (i.spanTo j).relocate g := by
  have hfirst : (ts.map (Token.relocate g))[(i.relocate g).val]? =
      ts[i.val]?.map (Token.relocate g) := getElem?_relocate i.val
  have hlast : (ts.map (Token.relocate g))[(j.relocate g).val - 1]? =
      ts[j.val - 1]?.map (Token.relocate g) := getElem?_relocate (j.val - 1)
  rw [spanTo, spanTo, hfirst, hlast, found_relocate horigin]
  by_cases h : i < j
  · rw [if_pos h, if_pos (relocate_lt.mpr h)]
    cases ts[i.val]? with
    | none => rfl
    | some first =>
      cases ts[j.val - 1]? with
      | none => rfl
      | some last => rfl
  · rw [if_neg h, if_neg (mt relocate_lt.mp h)]
    rfl

end Place

theorem ParseFailure.furthest_relocate (e e' : ParseFailure) :
    (e.relocate g).furthest (e'.relocate g) = (e.furthest e').relocate g := by
  by_cases h : e.offset ≤ e'.offset
  · simp [furthest, relocate, h]
  · simp [furthest, relocate, h]

/-- The same outcome for the relocated stream, with another value. -/
def Outcome.relocate {α β : Type} (g : Position → Position) (m : α → β) :
    Outcome ts α → Outcome (ts.map (Token.relocate g)) β
  | .ok (x, j) => .ok (m x, j.relocate g)
  | .error e => .error (e.relocate g)

namespace Parser

variable {α β γ δ : Type}

/-! ### Matching parsers -/

/-- From matching places both parsers succeed alike, with values related by `R`, or both fail
    alike. -/
def Matches (g : Position → Position) (R : α → β → Prop) (p : Parser ts α)
    (p' : Parser (ts.map (Token.relocate g)) β) : Prop :=
  ∀ i, (∃ x y j, p i = .ok (x, j) ∧ p' (i.relocate g) = .ok (y, j.relocate g) ∧ R x y) ∨
    ∃ e, p i = .error e ∧ p' (i.relocate g) = .error (e.relocate g)

/-- Matching parsers with a function that gives the second value. -/
def Carries (g : Position → Position) (m : α → β) (p : Parser ts α)
    (p' : Parser (ts.map (Token.relocate g)) β) : Prop :=
  Matches g (fun x y => y = m x) p p'

variable {R : α → β → Prop} {S : γ → δ → Prop} {m : α → β}

namespace Matches

theorem pure {x : α} {y : β} (h : R x y) :
    Matches g R (Pure.pure x : Parser ts α) (Pure.pure y) := by
  intro i
  exact Or.inl ⟨x, y, i, rfl, rfl, h⟩

theorem bind {p : Parser ts α} {p' : Parser (ts.map (Token.relocate g)) β}
    {f : α → Parser ts γ} {f' : β → Parser (ts.map (Token.relocate g)) δ}
    (hp : Matches g R p p') (hf : ∀ x y, R x y → Matches g S (f x) (f' y)) :
    Matches g S (p >>= f) (p' >>= f') := by
  intro i
  rcases hp i with ⟨x, y, j, hx, hy, hxy⟩ | ⟨e, he, he'⟩
  · rcases hf x y hxy j with ⟨u, v, k, hu, hv, huv⟩ | ⟨e, he, he'⟩
    · exact Or.inl ⟨u, v, k, bind_ok.mpr ⟨x, j, hx, hu⟩, bind_ok.mpr ⟨y, _, hy, hv⟩, huv⟩
    · right
      exact ⟨e, bind_error.mpr (Or.inr ⟨x, j, hx, he⟩), bind_error.mpr (Or.inr ⟨y, _, hy, he'⟩)⟩
  · exact Or.inr ⟨e, bind_error.mpr (Or.inl he), bind_error.mpr (Or.inl he')⟩

/-- A first attempt and a second one, from the same place. -/
theorem orElse {p q : Parser ts α} {p' q' : Parser (ts.map (Token.relocate g)) β}
    (hp : Matches g R p p') (hq : Matches g R q q') : Matches g R (p <|> q) (p' <|> q') := by
  intro i
  show (∃ x y j, Parser.orElse p q i = _ ∧ Parser.orElse p' q' _ = _ ∧ _) ∨
    ∃ e, Parser.orElse p q i = _ ∧ Parser.orElse p' q' _ = _
  rcases hp i with ⟨x, y, j, hx, hy, hxy⟩ | ⟨e, he, he'⟩
  · simp only [Parser.orElse, hx, hy]
    exact Or.inl ⟨x, y, j, rfl, rfl, hxy⟩
  · rcases hq i with ⟨x, y, j, hx, hy, hxy⟩ | ⟨f, hf, hf'⟩
    · simp only [Parser.orElse, he, he', hx, hy]
      exact Or.inl ⟨x, y, j, rfl, rfl, hxy⟩
    · simp only [Parser.orElse, he, he', hf, hf']
      exact Or.inr ⟨e.furthest f, rfl, congrArg _ (ParseFailure.furthest_relocate e f)⟩

theorem named {p : Parser ts α} {p' : Parser (ts.map (Token.relocate g)) β}
    (construct : String) (hp : Matches g R p p') :
    Matches g R (named construct p) (named construct p') := by
  intro i
  rcases hp i with ⟨x, y, j, hx, hy, hxy⟩ | ⟨e, he, he'⟩
  · simp only [Parser.named, hx, hy]
    exact Or.inl ⟨x, y, j, rfl, rfl, hxy⟩
  · simp only [Parser.named, he, he']
    refine Or.inr ⟨_, rfl, ?_⟩
    by_cases hoffset : e.offset = i.val
    · rw [if_pos hoffset]
      exact congrArg Except.error (if_pos hoffset)
    · rw [if_neg hoffset]
      exact congrArg Except.error (if_neg hoffset)

/-- A part may be absent in both streams. -/
theorem optional [Absent α] [Absent β] {p : Parser ts α}
    {p' : Parser (ts.map (Token.relocate g)) β} (hp : Matches g R p p')
    (habsent : ∀ e : ParseFailure, R (Absent.absent e) (Absent.absent (e.relocate g))) :
    Matches g R (optional p) (optional p') := by
  intro i
  rcases hp i with ⟨x, y, j, hx, hy, hxy⟩ | ⟨e, he, he'⟩
  · exact Or.inl ⟨x, y, j, optional_ok.mpr (Or.inl hx), optional_ok.mpr (Or.inl hy), hxy⟩
  · by_cases hoffset : e.offset = i.val
    · left
      refine ⟨Absent.absent e, Absent.absent (e.relocate g), i, ?_, ?_, habsent e⟩
      · exact optional_ok.mpr (Or.inr ⟨e, he, hoffset, rfl, rfl⟩)
      · exact optional_ok.mpr (Or.inr ⟨e.relocate g, he', hoffset, rfl, rfl⟩)
    · exact Or.inr ⟨e, optional_error.mpr ⟨he, hoffset⟩, optional_error.mpr ⟨he', hoffset⟩⟩

end Matches

/-! ### Values that a function carries over -/

namespace Carries

theorem map {p : Parser ts α} {p' : Parser (ts.map (Token.relocate g)) β} {f : α → γ}
    {f' : β → δ} {n : γ → δ} (hp : Carries g m p p') (hf : ∀ x, f' (m x) = n (f x)) :
    Carries g n (f <$> p) (f' <$> p') := by
  intro i
  rcases hp i with ⟨x, y, j, hx, hy, rfl⟩ | ⟨e, he, he'⟩
  · exact Or.inl ⟨f x, f' (m x), j, map_ok.mpr ⟨x, hx, rfl⟩, map_ok.mpr ⟨_, hy, rfl⟩, hf x⟩
  · exact Or.inr ⟨e, map_error.mpr he, map_error.mpr he'⟩

/-- What follows a parser whose second value is given by a function. -/
theorem bind {p : Parser ts α} {p' : Parser (ts.map (Token.relocate g)) β}
    {f : α → Parser ts γ} {f' : β → Parser (ts.map (Token.relocate g)) δ}
    (hp : Carries g m p p') (hf : ∀ x, Matches g S (f x) (f' (m x))) :
    Matches g S (p >>= f) (p' >>= f') := by
  apply Matches.bind hp
  rintro x y rfl
  exact hf x

theorem surrounded {α' β' γ' : Type} {opening : Parser ts α} {closing : Parser ts β}
    {inner : Parser ts γ} {opening' : Parser (ts.map (Token.relocate g)) α'}
    {closing' : Parser (ts.map (Token.relocate g)) β'}
    {inner' : Parser (ts.map (Token.relocate g)) γ'} {l : α → α'} {r : β → β'} {n : γ → γ'}
    (hopening : Carries g l opening opening') (hclosing : Carries g r closing closing')
    (hinner : Carries g n inner inner') :
    Carries g (Prod.map l (Prod.map n r)) (surrounded opening closing inner)
      (surrounded opening' closing' inner') := by
  apply hopening.bind
  intro a
  apply hinner.bind
  intro x
  apply hclosing.bind
  intro b
  exact Matches.pure rfl

theorem of_eq {p : Parser ts α} {p' : Parser (ts.map (Token.relocate g)) β}
    (h : ∀ i, p' (i.relocate g) = Outcome.relocate g m (p i)) : Carries g m p p' := by
  intro i
  rw [h]
  cases p i with
  | ok r => exact Or.inl ⟨r.1, m r.1, r.2, rfl, rfl, rfl⟩
  | error e => exact Or.inr ⟨e, rfl, rfl⟩

theorem eq {p : Parser ts α} {p' : Parser (ts.map (Token.relocate g)) β} (h : Carries g m p p')
    (i : Place ts) : p' (i.relocate g) = Outcome.relocate g m (p i) := by
  rcases h i with ⟨x, y, j, hx, hy, rfl⟩ | ⟨e, he, he'⟩
  · rw [hx, hy]
    rfl
  · rw [he, he']
    rfl

/-! ### Repetition -/

section

variable {item : Parser ts α} {item' : Parser (ts.map (Token.relocate g)) β}

theorem manyFrom_relocate (h : Carries g m item item') (i : Place ts) :
    manyFrom item' (i.relocate g) =
      ((manyFrom item i).1.map m, (manyFrom item i).2.relocate g) := by
  fun_induction manyFrom item i with
  | case1 i x j hx hij xs k hk ih =>
    rw [manyFrom, h.eq, hx]
    simp only [Outcome.relocate, Place.relocate_lt, hij, if_true, ih, hk, List.map_cons]
  | case2 i x j hx hij =>
    rw [manyFrom, h.eq, hx]
    simp only [Outcome.relocate, Place.relocate_lt, hij, if_false, List.map_nil]
  | case3 i e he =>
    rw [manyFrom, h.eq, he]
    rfl

theorem many (h : Carries g m item item') : Carries g (List.map m) (many item) (many item') := by
  apply of_eq
  intro i
  rw [Parser.many, h.manyFrom_relocate]
  rfl

theorem manyUntil {terminator : Parser ts γ}
    {terminator' : Parser (ts.map (Token.relocate g)) δ} {n : γ → δ} (h : Carries g m item item')
    (hterminator : Carries g n terminator terminator') :
    Carries g (Prod.map (List.map m) n) (manyUntil item terminator)
      (manyUntil item' terminator') := by
  apply of_eq
  intro i
  fun_induction Parser.manyUntil item terminator i with
  | case1 i x j hx hij xs last k hk ih =>
    rw [Parser.manyUntil, h.eq, hx]
    simp only [Outcome.relocate, Place.relocate_lt, hij, if_true, ih, hk]
    rfl
  | case2 i x j hx hij e he ih =>
    rw [Parser.manyUntil, h.eq, hx]
    simp only [Outcome.relocate, Place.relocate_lt, hij, if_true, ih, he]
  | case3 i x j hx hij last k hk =>
    rw [Parser.manyUntil, h.eq, hx]
    simp only [Outcome.relocate, Place.relocate_lt, hij, if_false, hterminator.eq, hk]
    rfl
  | case4 i x j hx hij e he =>
    rw [Parser.manyUntil, h.eq, hx]
    simp only [Outcome.relocate, Place.relocate_lt, hij, if_false, hterminator.eq, he]
  | case5 i e he last k hk =>
    rw [Parser.manyUntil, h.eq, he]
    simp only [Outcome.relocate, hterminator.eq, hk]
    rfl
  | case6 i e he e' he' =>
    rw [Parser.manyUntil, h.eq, he]
    simp only [Outcome.relocate, hterminator.eq, he', ParseFailure.furthest_relocate]

theorem separated {separator : Parser ts γ} {separator' : Parser (ts.map (Token.relocate g)) δ}
    {n : γ → δ} (h : Carries g m item item') (hseparator : Carries g n separator separator')
    (hadvances : Advances separator item) :
    Carries g (List.map m) (separated separator item) (separated separator' item') := by
  have hlast : ∀ {i x j}, separatedTurn separator item i = .ok (.last x j) →
      separatedTurn separator' item' (i.relocate g) = .ok (.last (m x) (j.relocate g)) := by
    intro i x j hturn
    obtain ⟨hx, e, he⟩ := separatedTurn_last.mp hturn
    apply separatedTurn_last.mpr
    rw [h.eq, hx, hseparator.eq, he]
    exact ⟨rfl, _, rfl⟩
  have hmore : ∀ {i x k}, separatedTurn separator item i = .ok (.more x k) →
      separatedTurn separator' item' (i.relocate g) = .ok (.more (m x) (k.relocate g)) := by
    intro i x k hturn
    obtain ⟨j, s, hx, hs⟩ := separatedTurn_more.mp hturn
    apply separatedTurn_more.mpr
    refine ⟨j.relocate g, n s, ?_, ?_⟩
    · rw [h.eq, hx]
      rfl
    · rw [hseparator.eq, hs]
      rfl
  have herror : ∀ {i e}, separatedTurn separator item i = .error e →
      separatedTurn separator' item' (i.relocate g) = .error (e.relocate g) := by
    intro i e hturn
    rw [separatedTurn, h.eq, separatedTurn_error hturn]
    rfl
  apply of_eq
  intro i
  fun_induction Parser.separated separator item i with
  | case1 i x j hturn =>
    rw [Parser.separated, hlast hturn]
    rfl
  | case2 i x k hturn hik xs j hj ih =>
    rw [Parser.separated, hmore hturn]
    simp only [Place.relocate_lt, hik, if_true, ih, hj]
    rfl
  | case3 i x k hturn hik e he ih =>
    rw [Parser.separated, hmore hturn]
    simp only [Place.relocate_lt, hik, if_true, ih, he]
    rfl
  | case4 i x k hturn hik => exact absurd (hadvances hturn) hik
  | case5 i e hturn =>
    rw [Parser.separated, herror hturn]
    rfl

end

end Carries

/-! ### Tokens and spans -/

section

variable (horigin : g .origin = .origin)
include horigin

theorem carries_fail (construct : String) :
    Carries g m (fail construct : Parser ts α) (fail construct) := by
  apply Carries.of_eq
  intro i
  exact congrArg Except.error (Place.failure_relocate horigin construct i)

theorem carries_token (k : TokenKind) :
    Carries g (Token.relocate g) (token k : Parser ts Token) (token k) := by
  apply Carries.of_eq
  intro i
  have hval : (i.relocate g).val = i.val := rfl
  have hfailure := Place.failure_relocate horigin k.displayName i
  unfold token
  by_cases hi : i.val < ts.size
  · have hi' : (i.relocate g).val < (ts.map (Token.relocate g)).size := by
      rw [hval, Array.size_map]
      exact hi
    have hkind : (ts.map (Token.relocate g))[(i.relocate g).val].kind = ts[i.val].kind := by
      simp [hval, Token.relocate]
    rw [dif_pos hi, dif_pos hi', hkind, hfailure]
    by_cases hk : ts[i.val].kind = k
    · rw [if_pos hk, if_pos hk]
      simp [Outcome.relocate, Place.relocate]
    · rw [if_neg hk, if_neg hk]
      rfl
  · have hi' : ¬ (i.relocate g).val < (ts.map (Token.relocate g)).size := by
      rw [hval, Array.size_map]
      exact hi
    rw [dif_neg hi, dif_neg hi', hfailure]
    rfl

theorem carries_oneOf (ks : List TokenKind) :
    Carries g (Token.relocate g) (oneOf ks : Parser ts Token) (oneOf ks) := by
  have hafter : ∀ (ks : List TokenKind) (best : Option ParseFailure) (i : Place ts),
      anyAfter (best.map (ParseFailure.relocate g)) (ks.map token) (i.relocate g) =
        Outcome.relocate g (Token.relocate g) (anyAfter best (ks.map token) i) := by
    intro ks
    induction ks with
    | nil =>
      intro best i
      cases best with
      | none => exact congrArg Except.error (Place.failure_relocate horigin _ i)
      | some b => rfl
    | cons k ks ih =>
      intro best i
      rw [List.map_cons, List.map_cons, anyAfter, anyAfter, (carries_token horigin k).eq]
      cases token k i with
      | ok r => rfl
      | error e =>
        cases best with
        | none => exact ih (some e) i
        | some b =>
          simp only [Outcome.relocate, Option.map_some, ParseFailure.furthest_relocate]
          exact ih (some (b.furthest e)) i
  apply Carries.of_eq
  exact hafter ks none

theorem Carries.spanned {p : Parser ts α} {p' : Parser (ts.map (Token.relocate g)) β}
    (h : Carries g m p p') : Carries g (Prod.map m (Span.relocate g)) (spanned p) (spanned p') := by
  apply of_eq
  intro i
  rw [Parser.spanned, Parser.spanned, h.eq]
  cases p i with
  | ok r =>
    simp only [Outcome.relocate, Place.spanTo_relocate horigin]
    rfl
  | error e => rfl

theorem Matches.withSpan {p : Parser ts (Span → α)}
    {p' : Parser (ts.map (Token.relocate g)) (Span → β)}
    (h : Matches g (fun make make' => ∀ s, make' (s.relocate g) = m (make s)) p p') :
    Carries g m (withSpan p) (withSpan p') := by
  intro i
  rcases h i with ⟨make, make', j, hmake, hmake', hvalue⟩ | ⟨e, he, he'⟩
  · left
    refine ⟨make (i.spanTo j), m (make (i.spanTo j)), j, ?_, ?_, rfl⟩
    · exact withSpan_ok.mpr ⟨make, hmake, rfl⟩
    · rw [← hvalue, ← Place.spanTo_relocate horigin]
      exact withSpan_ok.mpr ⟨make', hmake', rfl⟩
  · exact Or.inr ⟨e, withSpan_error.mpr he, withSpan_error.mpr he'⟩

end

end Parser

end TarnLang
