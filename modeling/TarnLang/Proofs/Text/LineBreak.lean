/-
  TarnLang/Proofs/Text/LineBreak.lean
  ===================================
  **A line feed cuts a text in two.**  What `readLexeme` measures at some place stays the same
  when the text goes on with a line feed after what was its end, because every pattern that
  looks ahead treats a line feed as it treats the end of the text.  The one exception is a
  comment that is still open there, which goes on.

  So without an open comment the lexemes of `a ++ "\n" ++ b` are those of `a` and those of `b`,
  with bytes counted from the start of `a`.  Positions of `b` move down by the lines of `a`,
  and below the limit of errors tokens and errors of the two texts stand one after the other.
-/
import Mathlib.Data.List.Basic
import TarnLang.Proofs.Text.Coverage

namespace TarnLang

/-! ### Measuring up to a line feed -/

section Reading

variable {c : Char} {cs b : List Char} {n : Nat}

theorem takeWhile_append_lineFeed {p : Char → Bool} (hp : p '\n' = false) (cs b : List Char) :
    (cs ++ '\n' :: b).takeWhile p = cs.takeWhile p := by
  induction cs with
  | nil => simp [hp]
  | cons c cs ih =>
    by_cases hc : p c = true
    · simp [hc, ih]
    · simp [hc]

/-- In the last case of `quoteEnd` there is no backslash, which an earlier case would have met. -/
theorem ne_backslash (hend : c = '\\' → cs = [] → False)
    (hescape : ∀ d rest, c = '\\' → cs = d :: rest → False) : c ≠ '\\' := by
  intro hc
  cases cs with
  | nil => exact hend hc rfl
  | cons d rest => exact hescape d rest hc rfl

/-- A character that stands for itself is passed over. -/
theorem quoteEnd_cons (hquote : c ≠ '"') (hslash : c ≠ '\\') (hfeed : c ≠ '\n') (read : Nat)
    (cs : List Char) : quoteEnd read (c :: cs) = quoteEnd (read + 1) cs := by
  rw [quoteEnd]
  · exact hquote
  · exact hfeed
  · exact fun h _ => hslash h
  · exact fun _ h _ => hslash h
  · exact fun _ _ h _ => hslash h

theorem quoteEnd_append_lineFeed (read : Nat) (cs b : List Char) :
    quoteEnd read (cs ++ '\n' :: b) = quoteEnd read cs := by
  fun_induction quoteEnd read cs with
  | case1 => simp [quoteEnd]
  | case2 => simp [quoteEnd]
  | case3 => simp [quoteEnd]
  | case4 => simp [quoteEnd]
  | case5 => simp [quoteEnd]
  | case6 read c cs hc ih => simp [quoteEnd, ih]
  | case7 read c cs hquote hfeed hend hbefore hescape ih =>
    rw [List.cons_append, quoteEnd_cons hquote (ne_backslash hend hescape) hfeed, ih]

/-- A close that has been found stays where it is. -/
theorem commentEnd_append {depth : Int32} {read m : Nat} {cs : List Char}
    (h : commentEnd depth read cs = some m) (b : List Char) :
    commentEnd depth read (cs ++ b) = some m := by
  fun_induction commentEnd depth read cs with
  | case1 => cases h
  | case2 depth read hpos cs ih => exact (commentEnd_opening hpos).trans (ih h)
  | case3 depth read hpos cs ih => exact (commentEnd_close hpos).trans (ih h)
  | case4 depth read hpos c cs hopen hclose ih =>
    cases cs with
    | nil =>
      rw [commentEnd_nil hpos] at h
      cases h
    | cons d cs =>
      refine (commentEnd_other hpos ?_ ?_).trans (ih h)
      · intro tail hc htail
        cases htail
        exact hopen cs hc rfl
      · intro tail hc htail
        cases htail
        exact hclose cs hc rfl
  | case5 cs depth read hclosed => rwa [commentEnd_of_not_pos hclosed]

theorem pairPattern?_append_lineFeed (c : Char) (cs b : List Char) :
    pairPattern? c (cs ++ '\n' :: b) = pairPattern? c cs := by
  cases cs with
  | nil =>
    cases h : pairPattern? c ('\n' :: b) with
    | none => exact h
    | some p =>
      have hmem := pair_mem_of_lookup h
      simp [pairPatterns] at hmem
  | cons d cs => rfl

theorem munch_append_lineFeed (c : Char) (cs b : List Char) :
    munch c (cs ++ '\n' :: b) = munch c cs := by
  have hdigit : Char.isDigit '\n' = false := by decide
  have hword : isWordRest '\n' = false := by decide
  have hfeed : decide ('\n' ≠ '\n') = false := by decide
  simp only [munch, takeWhile_append_lineFeed hdigit, takeWhile_append_lineFeed hword,
    takeWhile_append_lineFeed (p := (· ≠ '\n')) hfeed, quoteEnd_append_lineFeed,
    pairPattern?_append_lineFeed]

theorem quoteEnd_le (read : Nat) (cs : List Char) :
    (quoteEnd read cs).length ≤ read + cs.length := by
  fun_induction quoteEnd read cs with
  | case1 => exact Nat.le_refl _
  | case2 read cs => simp [QuoteEnd.length]
  | case3 => exact Nat.le_add_right _ _
  | case4 => exact Nat.le_add_right _ _
  | case5 => exact Nat.le_add_right _ _
  | case6 read c cs hc ih =>
    rw [List.length_cons, List.length_cons]
    omega
  | case7 read c cs hquote hfeed hend hbefore hescape ih =>
    rw [List.length_cons]
    omega

theorem commentEnd_le {depth : Int32} {read m : Nat} {cs : List Char}
    (h : commentEnd depth read cs = some m) : m ≤ read + cs.length := by
  fun_induction commentEnd depth read cs with
  | case1 => cases h
  | case2 depth read hpos cs ih =>
    have hle := ih h
    rw [List.length_cons, List.length_cons]
    omega
  | case3 depth read hpos cs ih =>
    have hle := ih h
    rw [List.length_cons, List.length_cons]
    omega
  | case4 depth read hpos c cs hopen hclose ih =>
    have hle := ih h
    rw [List.length_cons]
    omega
  | case5 =>
    cases h
    exact Nat.le_add_right _ _

theorem munch_le {p : Pattern} (h : munch c cs = some (p, n)) : n ≤ cs.length := by
  unfold munch at h
  split at h
  · cases h
    exact (List.takeWhile_sublist _).length_le
  · split at h
    · cases h
      exact (List.takeWhile_sublist _).length_le
    · split at h
      · split at h
        · rename_i hclosed
          cases h
          have hle := quoteEnd_le 0 cs
          rw [hclosed, Nat.zero_add] at hle
          exact hle
        · cases h
      · split at h
        · cases h
          exact (List.takeWhile_sublist _).length_le
        · rename_i hpair
          cases h
          obtain ⟨d, hd, -⟩ := Option.bind_eq_some_iff.mp hpair
          obtain ⟨rest, rfl⟩ := List.head?_eq_some_iff.mp hd
          exact Nat.succ_le_succ (Nat.zero_le _)
        · obtain ⟨kind, -, heq⟩ := Option.map_eq_some_iff.mp h
          cases heq
          exact Nat.zero_le _

/-- **A lexeme ends before a line feed as it ends before the end of the text**, unless it is a
    comment that is still open. -/
theorem readLexeme_append_lineFeed
    (hclosed : (readLexeme c cs).1 ≠ .fault .unterminatedComment) (b : List Char) :
    readLexeme c (cs ++ '\n' :: b) = readLexeme c cs := by
  by_cases hblank : isBlank c = true
  · rw [readLexeme, if_pos hblank, readLexeme, if_pos hblank]
  · cases hmunch : munch c cs with
    | none =>
      simp only [readLexeme, munch_append_lineFeed, hmunch, quoteEnd_append_lineFeed]
    | some found =>
      obtain ⟨p, n⟩ := found
      have hn := munch_le hmunch
      have htake : (cs ++ '\n' :: b).take n = cs.take n := List.take_append_of_le_length hn
      have hbody : (cs ++ '\n' :: b).take (n - 1) = cs.take (n - 1) :=
        List.take_append_of_le_length (by omega)
      have hdrop : (cs ++ '\n' :: b).drop n = cs.drop n ++ '\n' :: b :=
        List.drop_append_of_le_length hn
      cases p with
      | sign kind => simp only [readLexeme, munch_append_lineFeed, hmunch]
      | lineComment => simp only [readLexeme, munch_append_lineFeed, hmunch]
      | commentOpen =>
        cases hend : commentEnd 1 0 (cs.drop n) with
        | none => simp [readLexeme, hblank, hmunch, hend] at hclosed
        | some m =>
          simp only [readLexeme, munch_append_lineFeed, hmunch, hdrop, commentEnd_append hend, hend]
      | digits => simp only [readLexeme, munch_append_lineFeed, hmunch, htake]
      | quoted => simp only [readLexeme, munch_append_lineFeed, hmunch, hbody]
      | word => simp only [readLexeme, munch_append_lineFeed, hmunch, htake]

/-- A lexeme takes no more characters than there are. -/
theorem readLexeme_le {verdict : Verdict} (h : readLexeme c cs = (verdict, n)) : n ≤ cs.length := by
  unfold readLexeme at h
  split at h
  · cases h
    exact Nat.zero_le _
  · split at h
    · rename_i hmunch
      cases h
      exact munch_le hmunch
    · rename_i hmunch
      cases h
      exact munch_le hmunch
    · rename_i k hmunch
      have hk := munch_le hmunch
      split at h
      · rename_i m hend
        cases h
        have hm := commentEnd_le hend
        rw [List.length_drop] at hm
        omega
      · cases h
        exact Nat.le_refl _
    · rename_i hmunch
      have hk := munch_le hmunch
      split at h
      · cases h
        exact hk
      · cases h
        exact hk
    · rename_i hmunch
      have hk := munch_le hmunch
      split at h
      · cases h
        exact hk
      · cases h
        exact hk
    · rename_i hmunch
      obtain ⟨-, rfl⟩ := Prod.mk.inj h
      exact munch_le hmunch
    · split at h
      · cases h
        have hle := quoteEnd_le 0 cs
        rw [Nat.zero_add] at hle
        exact hle
      · cases h
        exact Nat.zero_le _

end Reading

/-! ### Lexemes of two texts -/

section Lexemes

variable {c : Char} {cs : List Char} {n : Nat}

theorem lexemesFrom_skip (offset : Nat) (h : readLexeme c cs = (.skip, n)) :
    lexemesFrom offset (c :: cs) =
      lexemesFrom (offset + utf8Length (c :: cs.take n)) (cs.drop n) := by
  rw [lexemesFrom, h]
  exact if_pos rfl

theorem lexemesFrom_keep {verdict : Verdict} (offset : Nat) (h : readLexeme c cs = (verdict, n))
    (hkept : verdict ≠ .skip) :
    lexemesFrom offset (c :: cs) = ⟨verdict, c :: cs.take n, offset⟩ ::
      lexemesFrom (offset + utf8Length (c :: cs.take n)) (cs.drop n) := by
  rw [lexemesFrom, h]
  exact if_neg hkept

/-- A lexeme `bytes` bytes further on. -/
def Lexeme.shift (bytes : Nat) (l : Lexeme) : Lexeme := { l with start := bytes + l.start }

@[simp] theorem Lexeme.shift_verdict (bytes : Nat) (l : Lexeme) :
    (l.shift bytes).verdict = l.verdict := rfl

@[simp] theorem Lexeme.shift_text (bytes : Nat) (l : Lexeme) : (l.shift bytes).text = l.text := rfl

theorem lexemesFrom_shift (bytes offset : Nat) (text : List Char) :
    lexemesFrom (bytes + offset) text = (lexemesFrom offset text).map (Lexeme.shift bytes) := by
  fun_induction lexemesFrom offset text with
  | case1 => simp [lexemesFrom]
  | case2 offset c cs n hread lexeme later ih =>
    rw [lexemesFrom_skip _ hread, Nat.add_assoc]
    exact ih
  | case3 offset c cs verdict n hread lexeme later hkept ih =>
    rw [lexemesFrom_keep _ hread hkept, List.map_cons, Nat.add_assoc]
    exact congrArg _ ih

/-- What is read in front of a line feed, the rest of the text and the bytes up to the line feed. -/
theorem readLexeme_front {verdict : Verdict} (hread : readLexeme c cs = (verdict, n))
    (hclosed : verdict ≠ .fault .unterminatedComment) (b : List Char) :
    readLexeme c (cs ++ '\n' :: b) = (verdict, n) ∧
      (cs ++ '\n' :: b).take n = cs.take n ∧
      (cs ++ '\n' :: b).drop n = cs.drop n ++ '\n' :: b ∧
      utf8Length (c :: cs.take n) + utf8Length (cs.drop n) = utf8Length (c :: cs) := by
  have hn := readLexeme_le hread
  refine ⟨?_, List.take_append_of_le_length hn, List.drop_append_of_le_length hn, ?_⟩
  · rw [readLexeme_append_lineFeed (by rw [hread]; exact hclosed), hread]
  · rw [← utf8Length_append, List.cons_append, List.take_append_drop]

/-- **The lexemes of a text that a line feed cuts in two are those of the parts.** -/
theorem lexemesFrom_append {offset : Nat} {a : List Char}
    (hclosed : ∀ l ∈ lexemesFrom offset a, l.verdict ≠ .fault .unterminatedComment)
    (b : List Char) :
    lexemesFrom offset (a ++ '\n' :: b) =
      lexemesFrom offset a ++ lexemesFrom (offset + (utf8Length a + 1)) b := by
  fun_induction lexemesFrom offset a with
  | case1 offset =>
    have hread : readLexeme '\n' b = (.skip, 0) := by simp [readLexeme, isBlank]
    rw [List.nil_append, List.nil_append, lexemesFrom_skip offset hread]
    rfl
  | case2 offset c cs n hread lexeme later ih =>
    have hskip : Verdict.skip ≠ .fault .unterminatedComment := by decide
    obtain ⟨hread', htake, hdrop, hbytes⟩ := readLexeme_front hread hskip b
    rw [List.cons_append, lexemesFrom_skip offset hread', htake, hdrop, ← hbytes, Nat.add_assoc,
      ← Nat.add_assoc offset]
    exact ih hclosed
  | case3 offset c cs verdict n hread lexeme later hkept ih =>
    have hverdict := hclosed lexeme List.mem_cons_self
    obtain ⟨hread', htake, hdrop, hbytes⟩ := readLexeme_front hread hverdict b
    have hlater := ih fun l hl => hclosed l (List.mem_cons_of_mem lexeme hl)
    rw [List.cons_append, lexemesFrom_keep offset hread' hkept, htake, hdrop, List.cons_append,
      ← hbytes, Nat.add_assoc, ← Nat.add_assoc offset]
    exact congrArg _ hlater

end Lexemes

/-! ### Positions below a line feed -/

/-- A position `lines` lines further down. -/
def Position.down (lines : Nat) (p : Position) : Position := ⟨p.line + lines.toUInt32, p.column⟩

def LexError.relocate (g : Position → Position) (e : LexError) : LexError :=
  { e with span := e.span.relocate g }

theorem lastLine_append_lineFeed (a b : List Char) : lastLine (a ++ '\n' :: b) = lastLine b := by
  have hfeed : decide ('\n' ≠ '\n') = false := by decide
  rw [lastLine, List.reverse_append, List.reverse_cons, List.append_assoc, List.singleton_append,
    takeWhile_append_lineFeed (p := (· ≠ '\n')) hfeed]
  rfl

/-- Behind a line feed lines are counted on and columns start again. -/
theorem positionAfter_append_lineFeed (a b : List Char) :
    positionAfter (a ++ '\n' :: b) = (positionAfter b).down (a.count '\n' + 1) := by
  have hcount : (a ++ '\n' :: b).count '\n' + 1 = b.count '\n' + 1 + (a.count '\n' + 1) := by
    rw [List.count_append, List.count_cons_self]
    omega
  rw [positionAfter, lastLine_append_lineFeed, hcount, Nat.toUInt32, UInt32.ofNat_add]
  rfl

/-- A span that can be moved down without its line numbers wrapping around. -/
def Span.Fits (lines : Nat) (s : Span) : Prop :=
  s.start.line.toNat + lines < 2 ^ 32 ∧ s.stop.line.toNat + lines < 2 ^ 32

theorem line_positionAfter {a b front : List Char} (hfront : front <+: b)
    (hlength : utf8Length a + utf8Length b < 2 ^ 32 - 2) :
    (positionAfter front).line.toNat + (a.count '\n' + 1) < 2 ^ 32 := by
  obtain ⟨rest, rfl⟩ := hfront
  rw [utf8Length_append] at hlength
  have ha := List.count_le_length (a := '\n') (l := a)
  have hcount := List.count_le_length (a := '\n') (l := front)
  have hbytes_a := length_le_utf8Length a
  have hbytes := length_le_utf8Length front
  rw [toNat_line_positionAfter (by omega)]
  omega

namespace Lexeme.Piece

variable {l : Lexeme} {text front rest : List Char}

/-- The span of a piece runs between the positions behind what is in front of it and behind it. -/
theorem spanOf_eq (h : l.Piece text front rest) (hlength : utf8Length text < 2 ^ 32) :
    (Lexer.ofText text).spanOf l = ⟨positionAfter front, positionAfter (front ++ l.text)⟩ := by
  have hstop := Lexeme.stop_eq h.start_eq
  have htext := h.text_eq
  subst htext
  have hstart : (LineMap.ofText (front ++ l.text ++ rest)).position (utf8Length front) =
      positionAfter front := by
    rw [List.append_assoc] at hlength ⊢
    exact LineMap.position_utf8Length hlength
  show Span.mk ((LineMap.ofText _).position l.start) ((LineMap.ofText _).position l.stop) = _
  rw [h.start_eq, hstop, hstart, LineMap.position_utf8Length hlength]

/-- A piece of a text is one of a longer text. -/
theorem append (h : l.Piece text front rest) (b : List Char) :
    l.Piece (text ++ b) front (rest ++ b) := by
  refine ⟨?_, h.start_eq, h.ne_nil⟩
  rw [h.text_eq, List.append_assoc _ rest]

/-- A piece of a text stands further on when more text comes before it. -/
theorem shift (h : l.Piece text front rest) (a : List Char) :
    (l.shift (utf8Length a)).Piece (a ++ text) (a ++ front) rest := by
  refine ⟨?_, ?_, h.ne_nil⟩
  · rw [h.text_eq]
    simp [Lexeme.shift]
  · rw [utf8Length_append, ← h.start_eq]
    rfl

end Lexeme.Piece

namespace Lexer

variable {lx lx' : Lexer} {l l' : Lexeme} {lines : Nat}

theorem token?_congr (h : lx'.spanOf l = lx.spanOf l) : lx'.token? l = lx.token? l := by
  simp only [token?, h]

theorem error?_congr (h : lx'.spanOf l = lx.spanOf l) : lx'.error? l = lx.error? l := by
  simp only [error?, h]

theorem token?_shift {bytes : Nat}
    (h : lx'.spanOf (l.shift bytes) = (lx.spanOf l).relocate (.down lines)) :
    lx'.token? (l.shift bytes) = (lx.token? l).map (Token.relocate (.down lines)) := by
  simp only [token?, h, Lexeme.shift_verdict, Lexeme.shift_text]
  cases l.verdict with
  | skip => rfl
  | token kind => rfl
  | fault fault => rfl

theorem error?_shift {bytes : Nat}
    (h : lx'.spanOf (l.shift bytes) = (lx.spanOf l).relocate (.down lines)) :
    lx'.error? (l.shift bytes) = (lx.error? l).map (LexError.relocate (.down lines)) := by
  simp only [error?, h, Lexeme.shift_verdict]
  cases l.verdict with
  | skip => rfl
  | token kind => rfl
  | fault fault => rfl

/-- Text after a lexeme does not change its span. -/
theorem spanOf_append {a : List Char} (hl : l ∈ scan a) (b : List Char)
    (hlength : utf8Length (a ++ b) < 2 ^ 32) :
    (ofText (a ++ b)).spanOf l = (ofText a).spanOf l := by
  obtain ⟨front, rest, hpiece⟩ := exists_piece hl
  have hshorter : utf8Length a < 2 ^ 32 := by
    rw [utf8Length_append] at hlength
    omega
  rw [(hpiece.append b).spanOf_eq hlength, hpiece.spanOf_eq hshorter]

/-- Lines before a lexeme move its span down. -/
theorem spanOf_shift {b : List Char} (hl : l ∈ scan b) (a : List Char)
    (hlength : utf8Length (a ++ '\n' :: b) < 2 ^ 32) :
    (ofText (a ++ '\n' :: b)).spanOf (l.shift (utf8Length a + 1)) =
      ((ofText b).spanOf l).relocate (.down (a.count '\n' + 1)) := by
  obtain ⟨front, rest, hpiece⟩ := exists_piece hl
  have hshorter : utf8Length b < 2 ^ 32 := by
    rw [utf8Length_append, utf8Length] at hlength
    omega
  have hwhole := hpiece.shift (a ++ ['\n'])
  have hbytes : utf8Length (a ++ ['\n']) = utf8Length a + 1 := utf8Length_append a ['\n']
  rw [hbytes, List.append_assoc, List.append_assoc, List.singleton_append,
    List.singleton_append] at hwhole
  rw [hwhole.spanOf_eq hlength, hpiece.spanOf_eq hshorter, List.append_assoc, List.cons_append,
    positionAfter_append_lineFeed, positionAfter_append_lineFeed]
  rfl

end Lexer

/-! ### Runs below the limit of errors -/

/-- A run whose errors stay below the limit reads all lexemes. -/
theorem tokenize_of_room {source : String} (hroom : (tokenize source).errors.size < maxErrors) :
    (tokenize source).tokens.toList =
        (scan source.toList).filterMap (Lexer.ofText source.toList).token? ++
          [(Lexer.ofText source.toList).eofToken] ∧
      (tokenize source).errors.toList =
        (scan source.toList).filterMap (Lexer.ofText source.toList).error? := by
  obtain ⟨read, unread, hscan, htokens, herrors, -, hlimit⟩ := exists_sorted source
  cases unread with
  | nil =>
    rw [List.append_nil] at hscan
    rw [hscan]
    exact ⟨htokens, herrors⟩
  | cons l unread =>
    have hfull := hlimit (List.cons_ne_nil l unread)
    exact absurd hfull (Nat.ne_of_lt hroom)

/-- Errors stay below the limit when there are fewer of them among the lexemes. -/
theorem room_of_length {source : String}
    (h : ((scan source.toList).filterMap (Lexer.ofText source.toList).error?).length < maxErrors) :
    (tokenize source).errors.size < maxErrors := by
  obtain ⟨read, unread, hscan, -, herrors, -⟩ := exists_sorted source
  rw [hscan, List.filterMap_append, List.length_append, ← herrors, Array.length_toList] at h
  omega

theorem toList_append_lineFeed (a b : String) :
    (a ++ "\n" ++ b).toList = a.toList ++ '\n' :: b.toList := by
  simp

section Joined

variable {a b : List Char}

theorem scan_append (hclosed : ∀ l ∈ scan a, l.verdict ≠ .fault .unterminatedComment) :
    scan (a ++ '\n' :: b) = scan a ++ (scan b).map (Lexeme.shift (utf8Length a + 1)) := by
  rw [scan_eq] at hclosed
  have hshift := lexemesFrom_shift (utf8Length a + 1) 0 b
  rw [Nat.add_zero] at hshift
  rw [scan_eq, scan_eq, scan_eq, lexemesFrom_append hclosed, Nat.zero_add, hshift]

/-- What becomes of the lexemes of the joined text, when the texts alone say what becomes of theirs
    and what comes from below the line feed is moved down by `down`. -/
theorem filterMap_scan_append {α : Type} {f : Lexer → Lexeme → Option α} {down : α → α}
    (hclosed : ∀ l ∈ scan a, l.verdict ≠ .fault .unterminatedComment)
    (habove : ∀ l ∈ scan a, f (.ofText (a ++ '\n' :: b)) l = f (.ofText a) l)
    (hbelow : ∀ l ∈ scan b, f (.ofText (a ++ '\n' :: b)) (l.shift (utf8Length a + 1)) =
      (f (.ofText b) l).map down) :
    (scan (a ++ '\n' :: b)).filterMap (f (.ofText (a ++ '\n' :: b))) =
      (scan a).filterMap (f (.ofText a)) ++ ((scan b).filterMap (f (.ofText b))).map down := by
  rw [scan_append hclosed, List.filterMap_append, List.filterMap_map, List.map_filterMap]
  congr 1
  · exact List.filterMap_congr habove
  · exact List.filterMap_congr hbelow

theorem tokens_scan_append (hclosed : ∀ l ∈ scan a, l.verdict ≠ .fault .unterminatedComment)
    (hlength : utf8Length (a ++ '\n' :: b) < 2 ^ 32) :
    (scan (a ++ '\n' :: b)).filterMap (Lexer.ofText (a ++ '\n' :: b)).token? =
      (scan a).filterMap (Lexer.ofText a).token? ++
        ((scan b).filterMap (Lexer.ofText b).token?).map
          (Token.relocate (.down (a.count '\n' + 1))) := by
  apply filterMap_scan_append hclosed
  · intro l hl
    exact Lexer.token?_congr (Lexer.spanOf_append hl _ hlength)
  · intro l hl
    exact Lexer.token?_shift (Lexer.spanOf_shift hl a hlength)

theorem errors_scan_append (hclosed : ∀ l ∈ scan a, l.verdict ≠ .fault .unterminatedComment)
    (hlength : utf8Length (a ++ '\n' :: b) < 2 ^ 32) :
    (scan (a ++ '\n' :: b)).filterMap (Lexer.ofText (a ++ '\n' :: b)).error? =
      (scan a).filterMap (Lexer.ofText a).error? ++
        ((scan b).filterMap (Lexer.ofText b).error?).map
          (LexError.relocate (.down (a.count '\n' + 1))) := by
  apply filterMap_scan_append hclosed
  · intro l hl
    exact Lexer.error?_congr (Lexer.spanOf_append hl _ hlength)
  · intro l hl
    exact Lexer.error?_shift (Lexer.spanOf_shift hl a hlength)

theorem eofToken_append (hlength : utf8Length (a ++ '\n' :: b) < 2 ^ 32) :
    (Lexer.ofText (a ++ '\n' :: b)).eofToken =
      (Lexer.ofText b).eofToken.relocate (.down (a.count '\n' + 1)) := by
  have hshorter : utf8Length b < 2 ^ 32 := by
    rw [utf8Length_append, utf8Length] at hlength
    omega
  rw [eofToken_ofText hlength, eofToken_ofText hshorter, positionAfter_append_lineFeed]
  rfl

/-- Spans of the text below have room for the lines above. -/
theorem spanOf_fits {l : Lexeme} (hl : l ∈ scan b)
    (hlength : utf8Length a + utf8Length b < 2 ^ 32 - 2) :
    ((Lexer.ofText b).spanOf l).Fits (a.count '\n' + 1) := by
  obtain ⟨front, rest, hpiece⟩ := exists_piece hl
  have hstop : front ++ l.text <+: b := ⟨rest, hpiece.text_eq.symm⟩
  rw [hpiece.spanOf_eq (by omega)]
  exact ⟨line_positionAfter ((List.prefix_append front l.text).trans hstop) hlength,
    line_positionAfter hstop hlength⟩

theorem eofToken_fits (hlength : utf8Length a + utf8Length b < 2 ^ 32 - 2) :
    (Lexer.ofText b).eofToken.span.Fits (a.count '\n' + 1) := by
  rw [eofToken_ofText (by omega)]
  exact ⟨line_positionAfter List.prefix_rfl hlength, line_positionAfter List.prefix_rfl hlength⟩

end Joined

/-- A run that records no open comment has read none. -/
theorem closed_of_errors {source : String} (hroom : (tokenize source).errors.size < maxErrors)
    (hclosed : ∀ e ∈ (tokenize source).errors, e.fault ≠ .unterminatedComment) :
    ∀ l ∈ scan source.toList, l.verdict ≠ .fault .unterminatedComment := by
  intro l hl hverdict
  have herror : (Lexer.ofText source.toList).error? l =
      some ⟨.unterminatedComment, (Lexer.ofText source.toList).spanOf l⟩ := by
    simp [Lexer.error?, hverdict]
  have hmem := List.mem_filterMap.mpr ⟨l, hl, herror⟩
  rw [← (tokenize_of_room hroom).2] at hmem
  exact hclosed _ (Array.mem_def.mpr hmem) rfl

/-- **Lexing cuts at line breaks.**  When the text above a line feed leaves no comment open and the
    errors stay below the limit, the joined text has the tokens and errors of the text above,
    except its end of file, and then those of the text below, moved down by the lines above
    and the same in everything else; no line number wraps around. -/
theorem tokenize_append_lineFeed {a b : String}
    (hlength : a.utf8ByteSize + b.utf8ByteSize < 2 ^ 32 - 2)
    (hclosed : ∀ e ∈ (tokenize a).errors, e.fault ≠ .unterminatedComment)
    (hfew : (tokenize a).errors.size + (tokenize b).errors.size < maxErrors) :
    (tokenize (a ++ "\n" ++ b)).tokens.toList =
        (tokenize a).tokens.toList.dropLast ++
          (tokenize b).tokens.toList.map (Token.relocate (.down (a.toList.count '\n' + 1))) ∧
      (tokenize (a ++ "\n" ++ b)).errors.toList =
        (tokenize a).errors.toList ++
          (tokenize b).errors.toList.map (LexError.relocate (.down (a.toList.count '\n' + 1))) ∧
      (∀ t ∈ (tokenize b).tokens.toList, t.span.Fits (a.toList.count '\n' + 1)) ∧
      ∀ e ∈ (tokenize b).errors.toList, e.span.Fits (a.toList.count '\n' + 1) := by
  have hroom_a : (tokenize a).errors.size < maxErrors := by omega
  have hroom_b : (tokenize b).errors.size < maxErrors := by omega
  obtain ⟨htokens_a, herrors_a⟩ := tokenize_of_room hroom_a
  obtain ⟨htokens_b, herrors_b⟩ := tokenize_of_room hroom_b
  have hscan := closed_of_errors hroom_a hclosed
  have hbytes : utf8Length (a.toList ++ '\n' :: b.toList) < 2 ^ 32 := by
    have hfeed : utf8Length ('\n' :: b.toList) = 1 + utf8Length b.toList := rfl
    rw [utf8Length_append, hfeed, utf8Length_toList, utf8Length_toList]
    omega
  have herrors := errors_scan_append hscan hbytes
  have hroom : (tokenize (a ++ "\n" ++ b)).errors.size < maxErrors := by
    apply room_of_length
    rw [toList_append_lineFeed, herrors, ← herrors_a, ← herrors_b, List.length_append,
      List.length_map, Array.length_toList, Array.length_toList]
    exact hfew
  obtain ⟨htokens, herrors'⟩ := tokenize_of_room hroom
  rw [toList_append_lineFeed] at htokens herrors'
  rw [← utf8Length_toList, ← utf8Length_toList] at hlength
  refine ⟨?_, ?_, ?_, ?_⟩
  · rw [htokens, tokens_scan_append hscan hbytes, eofToken_append hbytes, htokens_a, htokens_b,
      List.dropLast_concat, List.map_append, List.append_assoc]
    rfl
  · rw [herrors', herrors, herrors_a, herrors_b]
  · intro t ht
    rw [htokens_b] at ht
    rcases List.mem_append.mp ht with ht | ht
    · obtain ⟨l, hl, hsome⟩ := List.mem_filterMap.mp ht
      rw [Lexer.token?_span hsome]
      exact spanOf_fits hl hlength
    · rw [List.mem_singleton.mp ht]
      exact eofToken_fits hlength
  · intro e he
    rw [herrors_b] at he
    obtain ⟨l, hl, hsome⟩ := List.mem_filterMap.mp he
    rw [Lexer.error?_span hsome]
    exact spanOf_fits hl hlength

/-- A string and a backslash are left open at the end of the line above: the name below is read as
    a name, on the second line. -/
theorem tokenize_below_open_string :
    (tokenize "x \"\\").errors.size = 2 ∧
      (tokenize ("x \"\\" ++ "\n" ++ "y $")).tokens.toList =
        [⟨.ident, "x", Span.ofWords 1 1 1 2⟩, ⟨.ident, "y", Span.ofWords 2 1 2 2⟩,
          ⟨.eof, "", Span.ofWords 2 4 2 4⟩] ∧
      (tokenize ("x \"\\" ++ "\n" ++ "y $")).errors.toList =
        [⟨.unterminatedString, Span.ofWords 1 3 1 4⟩, ⟨.unexpectedChar '\\', Span.ofWords 1 4 1 5⟩,
          ⟨.unexpectedChar '$', Span.ofWords 2 3 2 4⟩] := by
  have hlength : "x \"\\".utf8ByteSize + "y $".utf8ByteSize < 2 ^ 32 - 2 := by decide
  have hclosed : ∀ e ∈ (tokenize "x \"\\").errors, e.fault ≠ .unterminatedComment := by
    decide +kernel
  have hfew : (tokenize "x \"\\").errors.size + (tokenize "y $").errors.size < maxErrors := by
    decide +kernel
  obtain ⟨htokens, herrors, -⟩ := tokenize_append_lineFeed hlength hclosed hfew
  refine ⟨by decide +kernel, ?_, ?_⟩
  · rw [htokens]
    decide +kernel
  · rw [herrors]
    decide +kernel

end TarnLang
