/-
  TarnLang/Proofs/Text/Coverage.lean
  ==================================
  **Nothing of a text gets lost.**  What stands between lexemes is filler: blanks, line
  comments and closed comments, as `Skipped` and `CommentRest` spell them out without the
  reading functions.  A text is tiled by its lexemes with filler before each one, so
  tokens and errors together account for everything else.

  `CommentRest` follows the nesting of comments the way a grammar would, and `commentEnd`
  finds the end of what it describes, as long as its depth fits a word: `mostOpen` is how far
  that goes for a text, and it takes a text of four gigabytes to go too far.  A line comment
  is only filler when it goes on up to a line feed or the end of the text; that is why filler
  knows what stands behind it.
-/
import TarnLang.Proofs.Text.Lexer

namespace TarnLang

/-! ### Filler -/

/-- What follows the opening of a comment that has `enclosing` open comments around it, up to
    the close that leaves no comment open. -/
inductive CommentRest : Nat → List Char → Prop
  | close : CommentRest 0 ['*', '/']
  | closeInner {enclosing cs} (h : CommentRest enclosing cs) :
    CommentRest (enclosing + 1) ('*' :: '/' :: cs)
  | openInner {enclosing cs} (h : CommentRest (enclosing + 1) cs) :
    CommentRest enclosing ('/' :: '*' :: cs)
  | other {enclosing c cs} (hopen : ¬ (c = '/' ∧ cs.head? = some '*'))
    (hclose : ¬ (c = '*' ∧ cs.head? = some '/')) (h : CommentRest enclosing cs) :
    CommentRest enclosing (c :: cs)

/-- The largest number of comments that are open at once when `depth` are open and the text is read
    until none is. -/
def mostOpen : Nat → List Char → Nat
  | 0, _ => 0
  | depth + 1, [] => depth + 1
  | depth + 1, '/' :: '*' :: cs => mostOpen (depth + 2) cs
  | depth + 1, '*' :: '/' :: cs => max (depth + 1) (mostOpen depth cs)
  | depth + 1, _ :: cs => mostOpen (depth + 1) cs

/-- A stretch of text that means nothing when `behind` follows it. -/
inductive Skipped (behind : List Char) : List Char → Prop
  | blank {c} (hc : isBlank c = true) : Skipped behind [c]
  | lineComment {body} (hbody : '\n' ∉ body) (hend : ∀ c ∈ behind.head?, c = '\n') :
    Skipped behind ('/' :: '/' :: body)
  | comment {body} (hbody : CommentRest 0 body) : Skipped behind ('/' :: '*' :: body)

/-- A row of stretches that mean nothing, with `behind` after them. -/
inductive Filler (behind : List Char) : List Char → Prop
  | nil : Filler behind []
  | cons {stretch cs} (hstretch : Skipped (cs ++ behind) stretch) (h : Filler behind cs) :
    Filler behind (stretch ++ cs)

/-! ### What is skipped -/

/-- A comment is opened by a slash and what follows it. -/
theorem pairPattern?_comment {c : Char} {cs : List Char} {p : Pattern}
    (h : pairPattern? c cs = some p) (hp : p = .lineComment ∨ p = .commentOpen) :
    c = '/' ∧ ∃ d rest, cs = d :: rest ∧
      (d = '/' ∧ p = .lineComment ∨ d = '*' ∧ p = .commentOpen) := by
  obtain ⟨d, hd, hlookup⟩ := Option.bind_eq_some_iff.mp h
  obtain ⟨rest, rfl⟩ := List.head?_eq_some_iff.mp hd
  have hmem := pair_mem_of_lookup hlookup
  rcases hp with rfl | rfl
  · simp only [pairPatterns, List.mem_cons, List.not_mem_nil, Prod.mk.injEq, reduceCtorEq,
      and_false, false_or, or_false, and_true] at hmem
    exact ⟨hmem.1, d, rest, rfl, Or.inl ⟨hmem.2, rfl⟩⟩
  · simp only [pairPatterns, List.mem_cons, List.not_mem_nil, Prod.mk.injEq, reduceCtorEq,
      and_false, false_or, or_false, and_true] at hmem
    exact ⟨hmem.1, d, rest, rfl, Or.inr ⟨hmem.2, rfl⟩⟩

theorem munch_lineComment {c : Char} {cs : List Char} {n : Nat}
    (h : munch c cs = some (.lineComment, n)) :
    c = '/' ∧ (∃ rest, cs = '/' :: rest) ∧ n = (cs.takeWhile (· ≠ '\n')).length := by
  unfold munch at h
  split at h
  · cases h
  · split at h
    · cases h
    · split at h
      · split at h
        · cases h
        · cases h
      · split at h
        · rename_i hpair
          obtain ⟨hc, d, rest, rfl, ⟨rfl, -⟩ | ⟨-, hp⟩⟩ := pairPattern?_comment hpair (Or.inl rfl)
          · cases h
            exact ⟨hc, ⟨rest, rfl⟩, rfl⟩
          · cases hp
        · rename_i hother hpair
          cases h
          exact absurd rfl hother
        · obtain ⟨kind, -, heq⟩ := Option.map_eq_some_iff.mp h
          cases heq

theorem munch_commentOpen {c : Char} {cs : List Char} {n : Nat}
    (h : munch c cs = some (.commentOpen, n)) : c = '/' ∧ (∃ rest, cs = '*' :: rest) ∧ n = 1 := by
  unfold munch at h
  split at h
  · cases h
  · split at h
    · cases h
    · split at h
      · split at h
        · cases h
        · cases h
      · split at h
        · cases h
        · rename_i hpair
          cases h
          obtain ⟨hc, d, rest, rfl, ⟨-, hp⟩ | ⟨rfl, -⟩⟩ := pairPattern?_comment hpair (Or.inr rfl)
          · cases hp
          · exact ⟨hc, ⟨rest, rfl⟩, rfl⟩
        · obtain ⟨kind, -, heq⟩ := Option.map_eq_some_iff.mp h
          cases heq

section CommentEnd

variable {depth : Int32} {read : Nat} {c : Char} {cs : List Char}

theorem commentEnd_of_not_pos (h : ¬ 0 < depth) : commentEnd depth read cs = some read := by
  rw [commentEnd.eq_def, if_neg h]

theorem commentEnd_nil (h : 0 < depth) : commentEnd depth read [] = none := by
  rw [commentEnd, if_pos h]

theorem commentEnd_opening (h : 0 < depth) :
    commentEnd depth read ('/' :: '*' :: cs) = commentEnd (depth + 1) (read + 2) cs := by
  rw [commentEnd, if_pos h]

theorem commentEnd_close (h : 0 < depth) :
    commentEnd depth read ('*' :: '/' :: cs) = commentEnd (depth - 1) (read + 2) cs := by
  rw [commentEnd, if_pos h]

theorem commentEnd_other (h : 0 < depth) (hopen : ∀ tail, c = '/' → cs = '*' :: tail → False)
    (hclose : ∀ tail, c = '*' → cs = '/' :: tail → False) :
    commentEnd depth read (c :: cs) = commentEnd depth (read + 1) cs := by
  rw [commentEnd, if_pos h]
  · exact hopen
  · exact hclose

end CommentEnd

theorem le_mostOpen (k : Nat) (cs : List Char) : k ≤ mostOpen k cs := by
  fun_induction mostOpen k cs with
  | case1 => exact Nat.le_refl 0
  | case2 => exact Nat.le_refl _
  | case3 depth cs ih => exact Nat.le_of_succ_le ih
  | case4 => exact Nat.le_max_left ..
  | case5 depth c cs hopen hclose ih => exact ih

/-- Every comment that is opened takes two characters. -/
theorem mostOpen_le (k : Nat) (cs : List Char) : mostOpen k cs ≤ k + cs.length / 2 := by
  fun_induction mostOpen k cs with
  | case1 => exact Nat.zero_le _
  | case2 => exact Nat.le_add_right _ _
  | case3 depth cs ih =>
    rw [List.length_cons, List.length_cons]
    omega
  | case4 depth cs ih =>
    rw [List.length_cons, List.length_cons]
    omega
  | case5 depth c cs hopen hclose ih =>
    rw [List.length_cons]
    omega

/-! The depth is a number of open comments as long as that number fits the word; one more and one
    less are taken without a look at the sign. -/

theorem zero_lt_ofNat_succ {k : Nat} (h : k + 1 < 2 ^ 31) : 0 < Int32.ofNat (k + 1) := by
  rw [Int32.lt_iff_toInt_lt, Int32.toInt_ofNat_of_lt h]
  exact Int.natCast_pos.mpr k.succ_pos

theorem not_zero_lt_ofNat_zero : ¬ 0 < Int32.ofNat 0 := by decide

theorem ofNat_add_one (k : Nat) : Int32.ofNat k + 1 = Int32.ofNat (k + 1) :=
  (Int32.ofNat_add k 1).symm

theorem ofNat_succ_sub_one (k : Nat) : Int32.ofNat (k + 1) - 1 = Int32.ofNat k := by
  rw [Int32.ofNat_add]
  exact Int32.add_sub_cancel _ _

/-- The end that is found for a comment is the end of what follows its opening, as long as the depth
    can count the comments that are open. -/
theorem commentRest_of_commentEnd {depth : Int32} {enclosing read m : Nat} {cs : List Char}
    (hdepth : depth = Int32.ofNat (enclosing + 1)) (hroom : mostOpen (enclosing + 1) cs < 2 ^ 31)
    (h : commentEnd depth read cs = some m) :
    ∃ n, m = read + n ∧ CommentRest enclosing (cs.take n) := by
  fun_induction commentEnd depth read cs generalizing enclosing with
  | case1 => cases h
  | case2 depth read hpos cs ih =>
    subst hdepth
    obtain ⟨n, rfl, hrest⟩ := ih (ofNat_add_one _) hroom h
    exact ⟨n + 2, by omega, .openInner hrest⟩
  | case3 depth read hpos cs ih =>
    subst hdepth
    rw [ofNat_succ_sub_one] at h ih
    cases enclosing with
    | zero =>
      rw [commentEnd_of_not_pos not_zero_lt_ofNat_zero] at h
      cases h
      exact ⟨2, rfl, .close⟩
    | succ outer =>
      have hroom' : mostOpen (outer + 1) cs < 2 ^ 31 :=
        Nat.lt_of_le_of_lt (Nat.le_max_right ..) hroom
      obtain ⟨n, rfl, hrest⟩ := ih rfl hroom' h
      exact ⟨n + 2, by omega, .closeInner hrest⟩
  | case4 depth read hpos c cs hopen hclose ih =>
    rw [mostOpen.eq_5 _ _ _ hopen hclose] at hroom
    obtain ⟨n, rfl, hrest⟩ := ih hdepth hroom h
    have hhead : ∀ d, (cs.take n).head? = some d → ∃ tail, cs = d :: tail := by
      intro d hd
      rw [List.head?_take] at hd
      split at hd
      · cases hd
      · exact List.head?_eq_some_iff.mp hd
    refine ⟨n + 1, by omega, .other ?_ ?_ hrest⟩
    · rintro ⟨rfl, hd⟩
      obtain ⟨tail, rfl⟩ := hhead _ hd
      exact hopen tail rfl rfl
    · rintro ⟨rfl, hd⟩
      obtain ⟨tail, rfl⟩ := hhead _ hd
      exact hclose tail rfl rfl
  | case5 cs depth read hclosed =>
    subst hdepth
    exact absurd (zero_lt_ofNat_succ (Nat.lt_of_le_of_lt (le_mostOpen ..) hroom)) hclosed

theorem not_mem_takeWhile {p : Char → Bool} {c : Char} (hc : p c = false) (cs : List Char) :
    c ∉ cs.takeWhile p := by
  intro hmem
  have hholds := List.all_eq_true.mp List.all_takeWhile c hmem
  rw [hc] at hholds
  cases hholds

/-- What stands behind the rest of a line starts with a line feed, if there is anything. -/
theorem lineFeed_behind (cs : List Char) :
    ∀ c ∈ (cs.drop (cs.takeWhile (· ≠ '\n')).length).head?, c = '\n' := by
  induction cs with
  | nil =>
    intro c hc
    cases hc
  | cons d cs ih =>
    by_cases hd : d = '\n'
    · intro c hc
      simp [hd] at hc
      exact hc.symm
    · simpa [hd] using ih

/-- **Only blanks and comments are skipped.** -/
theorem skipped_of_readLexeme {c : Char} {cs : List Char} {n : Nat}
    (hroom : cs.length < 2 ^ 32 - 1) (h : readLexeme c cs = (.skip, n)) :
    Skipped (cs.drop n) (c :: cs.take n) := by
  unfold readLexeme at h
  split at h
  · rename_i hblank
    cases h
    exact .blank hblank
  · split at h
    · cases h
    · rename_i hline
      cases h
      obtain ⟨rfl, ⟨rest, rfl⟩, rfl⟩ := munch_lineComment hline
      have htake : ('/' :: rest).take (('/' :: rest).takeWhile (· ≠ '\n')).length =
          '/' :: rest.takeWhile (· ≠ '\n') :=
        (List.prefix_iff_eq_take.mp (List.takeWhile_prefix _)).symm
      rw [htake]
      refine .lineComment (not_mem_takeWhile (by decide) rest) ?_
      exact lineFeed_behind ('/' :: rest)
    · rename_i hopen
      obtain ⟨rfl, ⟨rest, rfl⟩, rfl⟩ := munch_commentOpen hopen
      split at h
      · rename_i m hend
        cases h
        have hopen : mostOpen (0 + 1) rest < 2 ^ 31 := by
          have hle := mostOpen_le (0 + 1) rest
          rw [List.length_cons] at hroom
          omega
        obtain ⟨n, rfl, hrest⟩ := commentRest_of_commentEnd rfl hopen hend
        have htake : ('*' :: rest).take (1 + (0 + n)) = '*' :: rest.take n := by
          rw [Nat.zero_add, Nat.add_comm, List.take_succ_cons]
        rw [htake]
        exact .comment hrest
      · cases h
    · split at h
      · cases h
      · cases h
    · split at h
      · cases h
      · cases h
    · cases h
    · split at h
      · cases h
      · cases h

/-! ### Tilings -/

/-- The lexemes stand in `text` one behind the other, with nothing but filler before each;
    `front` is the text before them, and `rest` what is left after the last. -/
inductive Tiles : List Char → List Lexeme → List Char → List Char → Prop
  | nil {front rest} : Tiles front [] rest rest
  | cons {front gap l ls text rest} (hgap : Filler (l.text ++ text) gap) (hne : l.text ≠ [])
    (hstart : l.start = utf8Length (front ++ gap))
    (h : Tiles (front ++ gap ++ l.text) ls text rest) :
    Tiles front (l :: ls) (gap ++ (l.text ++ text)) rest

namespace Tiles

variable {front text rest : List Char} {ls : List Lexeme}

/-- A stretch that is skipped makes the first gap wider. -/
theorem skip {stretch : List Char} (hstretch : Skipped text stretch)
    (h : Tiles (front ++ stretch) ls text rest) (hrest : Filler [] rest) :
    ∃ rest', Filler [] rest' ∧ Tiles front ls (stretch ++ text) rest' := by
  cases h with
  | nil =>
    rw [← List.append_nil text] at hstretch
    exact ⟨stretch ++ text, .cons hstretch hrest, .nil⟩
  | cons hgap hne hstart h =>
    rw [List.append_assoc] at hstart
    rw [List.append_assoc front] at h
    refine ⟨rest, hrest, ?_⟩
    rw [← List.append_assoc]
    exact .cons (.cons hstretch hgap) hne hstart h

/-- A first part of the lexemes tiles the text as well, with more of it left. -/
theorem of_append {read unread : List Lexeme} (h : Tiles front (read ++ unread) text rest) :
    ∃ rest', Tiles front read text rest' ∧ (unread = [] → rest' = rest) := by
  induction read generalizing front text with
  | nil =>
    refine ⟨text, .nil, ?_⟩
    rintro rfl
    cases h
    rfl
  | cons l read ih =>
    cases h with
    | cons hgap hne hstart h =>
      obtain ⟨rest', htiles, hall⟩ := ih h
      exact ⟨rest', .cons hgap hne hstart htiles, hall⟩

end Tiles

/-- **The lexemes of a text tile it**, and what is left after the last is filler. -/
theorem tiles_lexemesFrom {offset : Nat} {front text : List Char}
    (hoffset : offset = utf8Length front) (hroom : text.length < 2 ^ 32) :
    ∃ rest, Filler [] rest ∧ Tiles front (lexemesFrom offset text) text rest := by
  fun_induction lexemesFrom offset text generalizing front with
  | case1 => exact ⟨[], .nil, .nil⟩
  | case2 offset c cs n hread lexeme later =>
    rename_i ih
    have hstop : lexeme.stop = utf8Length (front ++ c :: cs.take n) := Lexeme.stop_eq hoffset
    rw [List.length_cons] at hroom
    obtain ⟨rest, hrest, htiles⟩ := ih hstop (by rw [List.length_drop]; omega)
    have hskip := htiles.skip (skipped_of_readLexeme (by omega) hread) hrest
    rw [List.cons_append, List.take_append_drop] at hskip
    exact hskip
  | case3 offset c cs verdict n hread lexeme later hkept =>
    rename_i ih
    have hstop : lexeme.stop = utf8Length (front ++ c :: cs.take n) := Lexeme.stop_eq hoffset
    rw [List.length_cons] at hroom
    obtain ⟨rest, hrest, htiles⟩ := ih hstop (by rw [List.length_drop]; omega)
    have hstart : lexeme.start = utf8Length (front ++ []) := by
      rw [List.append_nil]
      exact hoffset
    have hcons : Tiles front (lexeme :: later) ([] ++ (lexeme.text ++ cs.drop n)) rest := by
      refine .cons .nil (List.cons_ne_nil _ _) hstart ?_
      rw [List.append_nil]
      exact htiles
    have hwhole : [] ++ (lexeme.text ++ cs.drop n) = c :: cs :=
      append_take_append_drop [] c cs n
    rw [hwhole] at hcons
    exact ⟨rest, hrest, hcons⟩

/-! ### What is not skipped -/

theorem verdict_ne_skip {offset : Nat} {text : List Char} {l : Lexeme}
    (hl : l ∈ lexemesFrom offset text) : l.verdict ≠ .skip := by
  fun_induction lexemesFrom offset text with
  | case1 => cases hl
  | case2 offset c cs n hread lexeme later ih => exact ih hl
  | case3 offset c cs verdict n hread lexeme later hkept ih =>
    rcases List.mem_cons.mp hl with rfl | hl
    · exact hkept
    · exact ih hl

theorem keyword?_ne_eof {word : String} : TokenKind.keyword? word ≠ some .eof := by
  intro h
  exact absurd (mem_of_lookup h) (by decide)

/-- No lexeme is read as an end of file. -/
theorem kind_ne_eof {c : Char} {cs : List Char} {kind : TokenKind} {n : Nat}
    (h : readLexeme c cs = (.token kind, n)) : kind ≠ .eof := by
  rintro rfl
  unfold readLexeme at h
  split at h
  · cases h
  · split at h
    · rename_i hsign
      cases h
      exact absurd rfl (kind_of_sign hsign).2
    · cases h
    · split at h
      · cases h
      · cases h
    · split at h
      · cases h
      · cases h
    · split at h
      · cases h
      · cases h
    · obtain ⟨hkind, -⟩ := Prod.mk.inj h
      cases hword : TokenKind.keyword? (String.ofList (c :: cs.take _)) with
      | none =>
        rw [hword] at hkind
        cases hkind
      | some kind =>
        rw [hword] at hkind
        cases hkind
        exact keyword?_ne_eof hword
    · split at h
      · cases h
      · cases h

theorem token?_kind_ne_eof {text : List Char} {lx : Lexer} {l : Lexeme} {t : Token}
    (hl : l ∈ scan text) (ht : lx.token? l = some t) : t.kind ≠ .eof := by
  rw [scan_eq] at hl
  have hstart : 0 = utf8Length [] := rfl
  obtain ⟨front, c, cs, n, hat, -⟩ := exists_readAt hstart hl
  unfold Lexer.token? at ht
  split at ht
  · rename_i kind hverdict
    have hread := hat.read
    rw [hverdict] at hread
    cases ht
    exact kind_ne_eof hread
  · cases ht

/-! ### Runs -/

/-- What a run of the lexer has to answer for: `read` are the lexemes that it made tokens and
    errors of, and `rest` is the text behind the last of them. -/
structure Account (source : String) (read : List Lexeme) (rest : List Char) : Prop where
  /-- The lexemes tile the text, with nothing but filler before each one. -/
  tiles : Tiles [] read source.toList rest
  /-- Each lexeme is the slice of the text that its byte offsets bound, and not an empty one. -/
  piece : ∀ l ∈ read, l.start < l.stop ∧ ∃ front behind, l.Piece source.toList front behind
  /-- Byte offsets only go up. -/
  apart : read.Pairwise fun a b => a.stop ≤ b.start
  /-- A run ends before the last lexeme only at the limit, and otherwise leaves filler. -/
  finished : ∃ unread, scan source.toList = read ++ unread ∧ (unread = [] → Filler [] rest) ∧
    (unread ≠ [] → (tokenize source).errors.size = maxErrors)
  /-- A lexeme becomes a token or an error, not nothing. -/
  kept : ∀ l ∈ read, l.verdict ≠ .skip
  /-- The tokens are those of the lexemes, in order, and one end of file. -/
  tokens_eq : (tokenize source).tokens.toList =
    read.filterMap (Lexer.ofText source.toList).token? ++
      [⟨.eof, "", Span.point (positionAfter source.toList)⟩]
  /-- The errors are those of the lexemes, in order. -/
  errors_eq : (tokenize source).errors.toList =
    read.filterMap (Lexer.ofText source.toList).error?
  /-- No lexeme becomes an end of file. -/
  ne_eof : ∀ t ∈ read.filterMap (Lexer.ofText source.toList).token?, t.kind ≠ .eof
  /-- Spans of tokens precede one another. -/
  precedes : (tokenize source).tokens.toList.Pairwise fun a b => a.span.precedes b.span = true

theorem Lexeme.Piece.start_lt_stop {l : Lexeme} {text front behind : List Char}
    (h : l.Piece text front behind) : l.start < l.stop := by
  have hpos := List.length_pos_iff.mpr h.ne_nil
  have hbytes := length_le_utf8Length l.text
  rw [Lexeme.stop]
  omega

theorem eofToken_ofText {text : List Char} (hlength : utf8Length text < 2 ^ 32) :
    (Lexer.ofText text).eofToken = ⟨.eof, "", Span.point (positionAfter text)⟩ := by
  have hend := LineMap.position_utf8Length (a := text) (b := [])
  rw [List.append_nil] at hend
  simp only [Lexer.eofToken, Lexer.ofText, LineMap.span, hend hlength, Span.point]

/-- **The lexer loses nothing and invents nothing.**  Lexemes tile the text with only blanks and
    comments around them, each one becomes one token or one error with its own text and the
    span of its bytes, and one end of file closes the tokens. -/
theorem exists_account {source : String} (hlength : source.utf8ByteSize < 2 ^ 32 - 1) :
    ∃ read rest, Account source read rest := by
  obtain ⟨read, unread, hscan, htokens, herrors, -, hlimit⟩ := exists_sorted source
  have hstart : 0 = utf8Length [] := rfl
  have hroom : source.toList.length < 2 ^ 32 := by
    have hbytes := length_le_utf8Length source.toList
    rw [utf8Length_toList] at hbytes
    omega
  obtain ⟨rest, hfiller, htiles⟩ :
      ∃ rest, Filler [] rest ∧ Tiles [] (lexemesFrom 0 source.toList) source.toList rest :=
    tiles_lexemesFrom hstart hroom
  rw [← scan_eq, hscan] at htiles
  obtain ⟨rest', hread, hall⟩ := htiles.of_append
  have hmem : ∀ l ∈ read, l ∈ scan source.toList := by
    intro l hl
    rw [hscan]
    exact List.mem_append_left unread hl
  refine ⟨read, rest', hread, ?_, ?_, ⟨unread, hscan, ?_, hlimit⟩, ?_, ?_, herrors, ?_, ?_⟩
  · intro l hl
    obtain ⟨front, behind, hpiece⟩ := exists_piece (hmem l hl)
    exact ⟨hpiece.start_lt_stop, front, behind, hpiece⟩
  · have hapart := lexemesFrom_pairwise 0 source.toList
    rw [← scan_eq, hscan] at hapart
    exact (List.pairwise_append.mp hapart).1
  · intro hnone
    rw [hall hnone]
    exact hfiller
  · intro l hl
    have hl := hmem l hl
    rw [scan_eq] at hl
    exact verdict_ne_skip hl
  · rw [← utf8Length_toList] at hlength
    rw [htokens, eofToken_ofText (by omega)]
  · intro t ht
    obtain ⟨l, hl, hsome⟩ := List.mem_filterMap.mp ht
    exact token?_kind_ne_eof (hmem l hl) hsome
  · refine (inOrder_tokenize hlength).apart.imp ?_
    rintro a b ⟨-, hbehind⟩
    exact decide_eq_true hbehind

/-- A text with a comment inside a comment and a string that is left open: the error is far from
    the limit, so all of the text is accounted for. -/
theorem account_of_open_string :
    "a /* b /* c */ */ + \"d\\\n// e\n1".utf8ByteSize < 2 ^ 32 - 1 ∧
      ∃ read rest, Account "a /* b /* c */ */ + \"d\\\n// e\n1" read rest ∧ Filler [] rest := by
  have hlength : "a /* b /* c */ */ + \"d\\\n// e\n1".utf8ByteSize < 2 ^ 32 - 1 := by decide
  have herrors : (tokenize "a /* b /* c */ */ + \"d\\\n// e\n1").errors.size = 2 := by
    decide +kernel
  refine ⟨hlength, ?_⟩
  obtain ⟨read, rest, haccount⟩ := exists_account hlength
  refine ⟨read, rest, haccount, ?_⟩
  obtain ⟨unread, -, hfiller, hlimit⟩ := haccount.finished
  apply hfiller
  cases unread with
  | nil => rfl
  | cons l unread =>
    have hfull := hlimit (List.cons_ne_nil l unread)
    rw [herrors] at hfull
    exact absurd hfull (by decide)

end TarnLang
