/-
  TarnLang/Proofs/Layout/Verdict.lean
  ===================================
  **Layout never changes the verdict.**  Two texts whose tokens have the same kinds and texts
  differ only in where the tokens stand.  Both streams come from a third one, which has a line
  for each token, by relocation: there no two positions coincide, so every position of the
  third stream can be sent to the start or stop of the token with the same number.

  Parsing and scoping do not look at positions, and scopes never have ambiguous names in
  either text.  So both verdicts are the one that is read off the third stream, although
  names of scopes are written with positions and differ from text to text.
-/
import TarnLang.Proofs.Grammar.Leaves
import TarnLang.Proofs.Layout.Grammar
import TarnLang.Proofs.Layout.Outline
import TarnLang.Proofs.Resolution.Errors

namespace TarnLang

/-! ### Verdicts -/

/-- Number of a token of a stream.  The tokens of a text all differ, see `nodup_tokens`. -/
def tokenIndex (ts : Array Token) (t : Token) : Nat := ts.toList.idxOf t

/-- What becomes of a stream, apart from positions: the construct that was missed and the number
    of the token found instead, or the tree without positions and the outline of its resolution. -/
def verdict (ts : Array Token) : Except (String × Nat) (Program × ResolutionOutline) :=
  match parse ts with
  | .error e => .error (e.construct, e.offset)
  | .ok p => .ok (p.erase, (resolve p).outline (tokenIndex ts))

/-! ### One token a line -/

/-- What a token says, wherever it stands. -/
def Token.content (t : Token) : TokenKind × String := (t.kind, t.text)

/-- Tokens with the given contents, each on a line of its own. -/
def oneALine (contents : Array (TokenKind × String)) : Array Token :=
  -- nothing starts or stops in column 1, where the origin is: relocation must leave it alone
  contents.mapIdx fun i c => ⟨c.1, c.2, ⟨⟨i.toUInt32, 0⟩, ⟨i.toUInt32, 2⟩⟩⟩

/-- Where the positions of the stream with one token a line go in a stream. -/
def placeIn (ts : Array Token) (p : Position) : Position :=
  if p.column = 0 then (ts[p.line.toNat]?.map (·.span.start)).getD p
  else if p.column = 2 then (ts[p.line.toNat]?.map (·.span.stop)).getD p
  else p

theorem placeIn_origin (ts : Array Token) : placeIn ts .origin = .origin := rfl

/-- **Every stream is relocated from the one with its tokens in lines.** -/
theorem relocate_oneALine (ts : Array Token) (hsize : ts.size ≤ 2 ^ 32) :
    (oneALine (ts.map Token.content)).map (Token.relocate (placeIn ts)) = ts := by
  apply Array.ext
  · simp [oneALine]
  · intro i hi hi'
    have hfits : i < 2 ^ 32 := Nat.lt_of_lt_of_le hi' hsize
    have hline : i.toUInt32.toNat = i := UInt32.toNat_ofNat_of_lt' hfits
    have hstart : placeIn ts ⟨i.toUInt32, 0⟩ = ts[i].span.start := by
      simp [placeIn, hline, hi']
    have hstop : placeIn ts ⟨i.toUInt32, 2⟩ = ts[i].span.stop := by
      simp [placeIn, hline, hi']
    simp only [oneALine, Array.getElem_map, Array.getElem_mapIdx, Token.relocate, Span.relocate,
      hstart, hstop]
    rfl

/-! ### Numbers of tokens -/

theorem idxOf_map {α β : Type} [DecidableEq α] [DecidableEq β] {f : α → β} {l : List α} {a : α}
    (hnodup : (l.map f).Nodup) (ha : a ∈ l) : (l.map f).idxOf (f a) = l.idxOf a := by
  induction l with
  | nil => cases ha
  | cons b l ih =>
    obtain ⟨hb, hrest⟩ := List.nodup_cons.mp hnodup
    by_cases hab : b = a
    · subst hab
      simp
    · have ha' : a ∈ l := (List.mem_cons.mp ha).resolve_left (Ne.symm hab)
      have hne : f b ≠ f a := by
        intro heq
        apply hb
        rw [heq]
        exact List.mem_map_of_mem ha'
      rw [List.map_cons, List.idxOf_cons_ne _ hne, List.idxOf_cons_ne _ hab, ih hrest ha']

/-! ### Verdicts of relocated streams -/

/-- Names of events are tokens of the stream. -/
theorem names_subset_of_parse {ts : Array Token} {p : Program} (hp : parse ts = .ok p) :
    names p.events ⊆ ts.toList := by
  intro t ht
  have hleaf := p.names_events ht
  rw [leaves_of_parse hp] at hleaf
  have hbefore := (List.mem_filter.mp hleaf).1
  exact (List.takeWhile_sublist _).subset hbefore

/-- The outline that the events of a program give its resolution. -/
def outlineOf (index : Token → Nat) (es : List Event) : ResolutionOutline where
  scopes := openings es
  symbols := (firsts es).map fun d => ⟨index d.name, d.kind, d.scope⟩
  errors := (scopingErrors (Declared.symbol .fresh) es).map (SemanticError.outline index)

variable {g : Position → Position}

theorem outline_resolve {index index' : Token → Nat} {p : Program}
    (hfit : Fit (p.relocate g).events)
    (hindex : ∀ t ∈ names p.events, index' (t.relocate g) = index t) :
    (resolve (p.relocate g)).outline index' = outlineOf index p.events := by
  obtain ⟨hscopes, hsymbols⟩ := resolve_records hfit
  have herrors := (Walk.follows_program hfit).finish_errors
  rw [Program.events_relocate] at hscopes hsymbols herrors
  rw [Resolution.outline, outlineOf, hscopes, hsymbols, openings_relocate, firsts_relocate]
  congr 1
  · rw [List.map_map, List.map_map]
    apply List.map_congr_left
    intro d hd
    obtain ⟨e, he, hdeclared⟩ := exists_of_mem_firsts hd
    exact symbol_outline (t := .fresh) (hindex d.name (name_mem_names he hdeclared))
  · exact (congrArg _ herrors).trans (scopingErrors_outline hindex)

/-- The verdict on a relocated stream. -/
theorem verdict_relocate (ts : Array Token) (horigin : g .origin = .origin)
    (hnodup : (ts.map (Token.relocate g)).toList.Nodup)
    (hfit : ∀ p, parse (ts.map (Token.relocate g)) = .ok p → Fit p.events) :
    verdict (ts.map (Token.relocate g)) =
      match parse ts with
      | .error e => .error (e.construct, e.offset)
      | .ok p => .ok (p.erase, outlineOf (tokenIndex ts) p.events) := by
  have hparse := parse_relocate horigin ts
  cases hp : parse ts with
  | error e =>
    rw [hp] at hparse
    rw [verdict, hparse]
    rfl
  | ok p =>
    rw [hp] at hparse
    have hparse : parse (ts.map (Token.relocate g)) = .ok (p.relocate g) := hparse
    have hindex : ∀ t ∈ names p.events,
        tokenIndex (ts.map (Token.relocate g)) (t.relocate g) = tokenIndex ts t := by
      intro t ht
      rw [Array.toList_map] at hnodup
      rw [tokenIndex, Array.toList_map]
      exact idxOf_map hnodup (names_subset_of_parse hp ht)
    rw [verdict, hparse]
    show Except.ok ((p.relocate g).erase, _) = _
    rw [Program.erase_relocate, outline_resolve (hfit _ hparse) hindex]

/-- **Layout never changes the verdict.**  When the tokens of two texts have the same kinds and
    texts, parsing both fails on the same construct at the same token, or gives trees that
    differ only in positions; and then scopes have the same parents and kinds, the same tokens
    declare the same symbols, and errors are the same, about the same tokens and symbols. -/
theorem verdict_eq_of_content {a b : String} (ha : a.utf8ByteSize ≤ 2 ^ 32 - 2)
    (hb : b.utf8ByteSize ≤ 2 ^ 32 - 2)
    (hcontent : (tokenize a).tokens.map Token.content = (tokenize b).tokens.map Token.content) :
    verdict (tokenize a).tokens = verdict (tokenize b).tokens := by
  have hverdict : ∀ {source : String}, source.utf8ByteSize ≤ 2 ^ 32 - 2 →
      verdict (tokenize source).tokens =
        match parse (oneALine ((tokenize source).tokens.map Token.content)) with
        | .error e => .error (e.construct, e.offset)
        | .ok p => .ok (p.erase,
          outlineOf (tokenIndex (oneALine ((tokenize source).tokens.map Token.content)))
            p.events) := by
    intro source hsize
    have hbound := size_tokens_le source
    have hlines := relocate_oneALine (tokenize source).tokens (by omega)
    have hnodup : (tokenize source).tokens.toList.Nodup := nodup_tokens (by omega)
    have hfit : ∀ p, parse (tokenize source).tokens = .ok p → Fit p.events :=
      fun p hp => fit_of_parse hsize hp
    have hrelocated := verdict_relocate (oneALine ((tokenize source).tokens.map Token.content))
      (placeIn_origin (tokenize source).tokens)
    rw [hlines] at hrelocated
    exact hrelocated hnodup hfit
  rw [hverdict ha, hverdict hb, hcontent]

/-- A callable is defined twice, and in each layout the scope of the second definition has its
    own name. -/
theorem verdict_eq_of_redefinition :
    "fn f()\x7b\x7dfn f(x)\x7bx=f();\x7d".utf8ByteSize ≤ 2 ^ 32 - 2 ∧
      "fn f() \x7b\x7d\n/* again */ fn f(x)\n  \x7b x = f(); \x7d // once".utf8ByteSize ≤
        2 ^ 32 - 2 ∧
      verdict (tokenize "fn f()\x7b\x7dfn f(x)\x7bx=f();\x7d").tokens =
        verdict
          (tokenize
            "fn f() \x7b\x7d\n/* again */ fn f(x)\n  \x7b x = f(); \x7d // once").tokens := by
  have hdense : "fn f()\x7b\x7dfn f(x)\x7bx=f();\x7d".utf8ByteSize ≤ 2 ^ 32 - 2 := by decide
  have hwide : "fn f() \x7b\x7d\n/* again */ fn f(x)\n  \x7b x = f(); \x7d // once".utf8ByteSize ≤
      2 ^ 32 - 2 := by
    decide
  have hcontent : (tokenize "fn f()\x7b\x7dfn f(x)\x7bx=f();\x7d").tokens.map Token.content =
      (tokenize "fn f() \x7b\x7d\n/* again */ fn f(x)\n  \x7b x = f(); \x7d // once").tokens.map
        Token.content := by
    decide +kernel
  exact ⟨hdense, hwide, verdict_eq_of_content hdense hwide hcontent⟩

end TarnLang
