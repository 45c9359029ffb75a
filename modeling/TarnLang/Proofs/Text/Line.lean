/-
  TarnLang/Proofs/Text/Line.lean
  ==============================
  **Spans lie in the lines of their text.**  The line of a position can be looked up again: it
  is made of the characters behind the last line feed in front of the position, and of those
  up to the next one behind it.  So the span of any piece of a text starts in a line that is
  there, at most one past its last character, and a piece without a line feed ends in it.

  No lexeme takes a line feed with it but a comment that is left open.  Spans of tokens, of
  the end of file and of all other errors are therefore spans of a single line.
-/
import TarnLang.Proofs.Text.LineBreak

namespace TarnLang

/-! ### Lines looked up -/

theorem lineFeed_not_mem_lastLine (a : List Char) : '\n' ∉ lastLine a := by
  rw [lastLine, List.mem_reverse]
  exact not_mem_takeWhile (by decide) a.reverse

/-- The line that holds the boundary between two pieces. -/
def lineAround (a b : List Char) : String := String.ofList (lastLine a ++ b.takeWhile (· ≠ '\n'))

theorem length_lineAround (a b : List Char) :
    (lineAround a b).length = (lastLine a).length + (b.takeWhile (· ≠ '\n')).length := by
  rw [lineAround, String.length_ofList, List.length_append]

namespace LineMap

/-- The line of a position is the one around it. -/
theorem lineText_positionAfter {a b : List Char} (hlength : utf8Length (a ++ b) < 2 ^ 32 - 1) :
    (ofText (a ++ b)).lineText (positionAfter a).line = some (lineAround a b) := by
  have hbytes := utf8Length_append a b
  have hsize := size_starts (a ++ b)
  rw [List.count_append] at hsize
  have hlt : a.count '\n' < (ofText (a ++ b)).starts.size := by omega
  obtain ⟨front, hfront⟩ := starts_splits (Array.getElem?_eq_getElem hlt)
  obtain ⟨-, hrest⟩ := hfront.eq_append_lastLine
  rw [lineText, toNat_line_positionAfter (by omega)]
  simp only [Array.getElem?_eq_getElem hlt, Option.map_some, hrest]
  rw [takeWhile_append_of_not_mem (lineFeed_not_mem_lastLine a), lineAround]

theorem line_positionAfter_le {a b : List Char} (hlength : utf8Length (a ++ b) < 2 ^ 32 - 1) :
    (positionAfter a).line ≤ (ofText (a ++ b)).lineCount := by
  have hbytes := utf8Length_append a b
  have hall := toNat_line_positionAfter hlength
  have hcount : (ofText (a ++ b)).lineCount = (positionAfter (a ++ b)).line :=
    congrArg Nat.toUInt32 (size_starts (a ++ b))
  rw [hcount, UInt32.le_iff_toNat_le, hall, toNat_line_positionAfter (by omega), List.count_append]
  omega

end LineMap

/-! ### Spans on lines -/

/-- A span that starts on a line of a text, or behind its last character, and runs forwards.
    If it ends on that line too, it ends no more than one past the last character. -/
structure Span.On (s : Span) (lines : LineMap) (text : String) : Prop where
  lineText_eq : lines.lineText s.start.line = some text
  one_le_line : 1 ≤ s.start.line
  line_le : s.start.line ≤ lines.lineCount
  one_le_column : 1 ≤ s.start.column
  column_le : s.start.column.toNat ≤ text.length + 1
  start_le_stop : s.start ≤ s.stop
  stop_le : s.stop.line = s.start.line → s.stop.column.toNat ≤ text.length + 1

section Pieces

variable {a m b : List Char}

/-- A piece that ends on the line where it starts holds no line feed. -/
theorem lineFeed_not_mem_of_line (hlength : utf8Length (a ++ m) < 2 ^ 32 - 1)
    (h : (positionAfter (a ++ m)).line = (positionAfter a).line) : '\n' ∉ m := by
  have hbytes := utf8Length_append a m
  have hcounts := congrArg UInt32.toNat h
  rw [toNat_line_positionAfter hlength, toNat_line_positionAfter (by omega),
    List.count_append] at hcounts
  exact List.count_eq_zero.mp (by omega)

theorem line_positionAfter_append (hm : '\n' ∉ m) :
    (positionAfter (a ++ m)).line = (positionAfter a).line := by
  show ((a ++ m).count '\n' + 1).toUInt32 = (a.count '\n' + 1).toUInt32
  rw [List.count_append, List.count_eq_zero.mpr hm, Nat.add_zero]

theorem positionAfter_le (hlength : utf8Length (a ++ m) < 2 ^ 32 - 1) :
    positionAfter a ≤ positionAfter (a ++ m) := by
  by_cases hm : m = []
  · rw [hm, List.append_nil]
    exact Position.le_refl _
  · exact Position.le_of_lt (positionAfter_lt hm hlength)

/-- **The span of a piece starts on a line of the text.** -/
theorem on_positionAfter (hlength : utf8Length (a ++ m ++ b) < 2 ^ 32 - 1) :
    Span.On ⟨positionAfter a, positionAfter (a ++ m)⟩ (.ofText (a ++ m ++ b))
      (lineAround a (m ++ b)) := by
  have hpiece : utf8Length (a ++ m) < 2 ^ 32 - 1 := by
    rw [utf8Length_append] at hlength
    omega
  have hfront : utf8Length a < 2 ^ 32 - 1 := by
    rw [utf8Length_append] at hpiece
    omega
  have hcolumn := toNat_column_positionAfter hfront
  constructor
  case lineText_eq =>
    rw [List.append_assoc] at hlength ⊢
    exact LineMap.lineText_positionAfter hlength
  case one_le_line =>
    rw [UInt32.le_iff_toNat_le, toNat_line_positionAfter hfront]
    exact Nat.le_add_left _ _
  case line_le =>
    rw [List.append_assoc] at hlength ⊢
    exact LineMap.line_positionAfter_le hlength
  case one_le_column =>
    rw [UInt32.le_iff_toNat_le, hcolumn]
    exact Nat.le_add_left _ _
  case column_le =>
    rw [hcolumn, length_lineAround]
    omega
  case start_le_stop => exact positionAfter_le hpiece
  case stop_le =>
    intro hsame
    -- the line goes on behind `a` with the whole piece
    have hm := lineFeed_not_mem_of_line hpiece hsame
    rw [toNat_column_positionAfter hpiece, lastLine_append hm, length_lineAround,
      takeWhile_append_of_not_mem hm]
    simp only [List.length_append]
    omega

end Pieces

/-! ### Lexemes of one line -/

section Reading

variable {c : Char} {cs : List Char} {n : Nat}

/-- A quoted string is read up to a line feed at most. -/
theorem lineFeed_not_mem_quote (read : Nat) (cs : List Char) :
    ∃ n, (quoteEnd read cs).length = read + n ∧ '\n' ∉ cs.take n := by
  fun_induction quoteEnd read cs with
  | case1 read => exact ⟨0, rfl, List.not_mem_nil⟩
  | case2 read cs => exact ⟨1, rfl, by simp⟩
  | case3 read cs => exact ⟨0, rfl, List.not_mem_nil⟩
  | case4 read => exact ⟨0, rfl, List.not_mem_nil⟩
  | case5 read cs => exact ⟨0, rfl, List.not_mem_nil⟩
  | case6 read c cs hc ih =>
    obtain ⟨n, hlength, hn⟩ := ih
    refine ⟨n + 2, by omega, ?_⟩
    have hfeed : '\n' ≠ c := fun h => hc h.symm
    simp [hfeed, hn]
  | case7 read c cs hquote hfeed hend hbefore hescape ih =>
    obtain ⟨n, hlength, hn⟩ := ih
    refine ⟨n + 1, by omega, ?_⟩
    have hne : '\n' ≠ c := fun h => hfeed h.symm
    simp [hne, hn]

theorem lineFeed_not_mem_take_quoteEnd : '\n' ∉ cs.take (quoteEnd 0 cs).length := by
  obtain ⟨n, hlength, hn⟩ := lineFeed_not_mem_quote 0 cs
  rw [hlength, Nat.zero_add]
  exact hn

theorem lineFeed_not_mem_take_takeWhile {p : Char → Bool} (hp : p '\n' = false) :
    '\n' ∉ cs.take (cs.takeWhile p).length := by
  rw [← List.prefix_iff_eq_take.mp (List.takeWhile_prefix p)]
  exact not_mem_takeWhile hp cs

/-- No pattern matches beyond a line feed. -/
theorem lineFeed_not_mem_munch {p : Pattern} (h : munch c cs = some (p, n)) : '\n' ∉ cs.take n := by
  unfold munch at h
  split at h
  · cases h
    exact lineFeed_not_mem_take_takeWhile (by decide)
  · split at h
    · cases h
      exact lineFeed_not_mem_take_takeWhile (by decide)
    · split at h
      · split at h
        · rename_i hclosed
          cases h
          have hquote : '\n' ∉ cs.take (quoteEnd 0 cs).length := lineFeed_not_mem_take_quoteEnd
          rw [hclosed] at hquote
          exact hquote
        · cases h
      · split at h
        · cases h
          exact lineFeed_not_mem_take_takeWhile (by decide)
        · rename_i hpair
          cases h
          obtain ⟨d, hd, hlookup⟩ := Option.bind_eq_some_iff.mp hpair
          obtain ⟨rest, rfl⟩ := List.head?_eq_some_iff.mp hd
          have hmem := pair_mem_of_lookup hlookup
          rw [List.take_succ_cons, List.take_zero, List.mem_singleton]
          rintro rfl
          simp [pairPatterns] at hmem
        · obtain ⟨kind, -, heq⟩ := Option.map_eq_some_iff.mp h
          cases heq
          exact List.not_mem_nil

/-- **Only comments go on behind a line feed**: what becomes a token, or an error that is not an
    open comment, takes none with it. -/
theorem lineFeed_not_mem_readLexeme {verdict : Verdict} (h : readLexeme c cs = (verdict, n))
    (hkept : verdict ≠ .skip) (hclosed : verdict ≠ .fault .unterminatedComment) :
    '\n' ∉ c :: cs.take n := by
  unfold readLexeme at h
  split at h
  · cases h
    exact absurd rfl hkept
  · rename_i hblank
    have hc : '\n' ≠ c := by
      rintro rfl
      exact hblank (by decide)
    rw [List.mem_cons, not_or]
    refine ⟨hc, ?_⟩
    split at h
    · rename_i hmunch
      cases h
      exact lineFeed_not_mem_munch hmunch
    · cases h
      exact absurd rfl hkept
    · split at h
      · cases h
        exact absurd rfl hkept
      · cases h
        exact absurd rfl hclosed
    · rename_i hmunch
      split at h
      · cases h
        exact lineFeed_not_mem_munch hmunch
      · cases h
        exact lineFeed_not_mem_munch hmunch
    · rename_i hmunch
      split at h
      · cases h
        exact lineFeed_not_mem_munch hmunch
      · cases h
        exact lineFeed_not_mem_munch hmunch
    · rename_i hmunch
      obtain ⟨-, rfl⟩ := Prod.mk.inj h
      exact lineFeed_not_mem_munch hmunch
    · split at h
      · cases h
        exact lineFeed_not_mem_take_quoteEnd
      · cases h
        exact List.not_mem_nil

end Reading

theorem lineFeed_not_mem_lexeme {text : List Char} {l : Lexeme} (hl : l ∈ scan text)
    (hclosed : l.verdict ≠ .fault .unterminatedComment) : '\n' ∉ l.text := by
  rw [scan_eq] at hl
  have hkept := verdict_ne_skip hl
  have hstart : 0 = utf8Length [] := rfl
  obtain ⟨front, c, cs, n, hat, -⟩ := exists_readAt hstart hl
  rw [hat.text_eq]
  exact lineFeed_not_mem_readLexeme hat.read hkept hclosed

/-! ### Spans of tokens and errors -/

/-- **The span of a lexeme lies in the text**, and on one line unless the lexeme is a comment that
    is left open. -/
theorem Lexer.spanOf_on {text : List Char} {l : Lexeme} (hlength : utf8Length text < 2 ^ 32 - 1)
    (hl : l ∈ scan text) :
    (∃ line, ((Lexer.ofText text).spanOf l).On (.ofText text) line) ∧
      (l.verdict ≠ .fault .unterminatedComment →
        ((Lexer.ofText text).spanOf l).stop.line = ((Lexer.ofText text).spanOf l).start.line) := by
  obtain ⟨front, rest, hpiece⟩ := exists_piece hl
  rw [hpiece.spanOf_eq (by omega)]
  constructor
  · have htext := hpiece.text_eq
    subst htext
    exact ⟨_, on_positionAfter hlength⟩
  · intro hclosed
    exact line_positionAfter_append (lineFeed_not_mem_lexeme hl hclosed)

variable {source : String}

theorem utf8Length_of_size (hsize : source.utf8ByteSize ≤ 2 ^ 32 - 2) :
    utf8Length source.toList < 2 ^ 32 - 1 := by
  rw [utf8Length_toList]
  omega

/-- Every token lies on one line of its text, the end of file too. -/
theorem Token.span_on (hsize : source.utf8ByteSize ≤ 2 ^ 32 - 2) {t : Token}
    (ht : t ∈ (tokenize source).tokens) :
    (∃ line, t.span.On (.ofString source) line) ∧ t.span.stop.line = t.span.start.line := by
  have hlength := utf8Length_of_size hsize
  obtain ⟨read, hread, htokens⟩ := exists_read source
  have hmem := Array.mem_def.mp ht
  rw [htokens] at hmem
  rcases List.mem_append.mp hmem with hmem | hmem
  · obtain ⟨l, hl, hsome⟩ := List.mem_filterMap.mp hmem
    obtain ⟨hon, hline⟩ := Lexer.spanOf_on hlength (hread.subset hl)
    have hclosed : l.verdict ≠ .fault .unterminatedComment := by
      intro hverdict
      simp [Lexer.token?, hverdict] at hsome
    rw [Lexer.token?_span hsome]
    exact ⟨hon, hline hclosed⟩
  · rw [List.mem_singleton.mp hmem, eofToken_ofText (by omega)]
    refine ⟨?_, rfl⟩
    have hend := on_positionAfter (a := source.toList) (m := []) (b := [])
    simp only [List.append_nil] at hend
    exact ⟨_, hend hlength⟩

/-- Every error of the lexer lies in its text, and on one line unless it is an open comment. -/
theorem LexError.span_on (hsize : source.utf8ByteSize ≤ 2 ^ 32 - 2) {e : LexError}
    (he : e ∈ (tokenize source).errors) :
    (∃ line, e.span.On (.ofString source) line) ∧
      (e.fault ≠ .unterminatedComment → e.span.stop.line = e.span.start.line) := by
  have hlength := utf8Length_of_size hsize
  obtain ⟨read, unread, hscan, -, herrors, -⟩ := exists_sorted source
  have hmem := Array.mem_def.mp he
  rw [herrors] at hmem
  obtain ⟨l, hl, hsome⟩ := List.mem_filterMap.mp hmem
  have hl : l ∈ scan source.toList := by
    rw [hscan]
    exact List.mem_append_left unread hl
  obtain ⟨hon, hline⟩ := Lexer.spanOf_on hlength hl
  rw [Lexer.error?_span hsome]
  refine ⟨hon, fun hfault => hline ?_⟩
  intro hverdict
  simp only [Lexer.error?, hverdict, Option.some.injEq] at hsome
  rw [← hsome] at hfault
  exact hfault rfl

end TarnLang
