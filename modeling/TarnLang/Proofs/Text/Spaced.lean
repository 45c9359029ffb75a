/-
  TarnLang/Proofs/Text/Spaced.lean
  ================================
  **Texts of tokens read back.**  `TokenKind.texts` says how each kind of token is written: a
  number is a row of digits of bounded value, a string has nothing but valid escapes, a name is
  no keyword.  A token is cut out of whatever stands around it in a text, and always is a text
  of its kind.  Conversely a text of a kind is read as one token of this kind whenever a blank
  or nothing follows it, so the tokens of any text come out again when only single spaces
  separate them.
-/
import TarnLang.Proofs.Text.Pattern

namespace TarnLang

open scoped Computability

/-! ### How kinds are written -/

/-- What may stand between the quotes of a string without faults: a character that stands for
    itself, or one of the four escapes. -/
def escapedPart : Language Char :=
  charIn InQuotes + {['\\']} * charIn (· ∈ ['n', 't', '\\', '"'])

/-- Strings without faults. -/
def stringTexts : Language Char := {['"']} * escapedPart∗ * {['"']}

/-- The number that a row of decimal digits stands for. -/
def decimalValue (digits : List Char) : Nat :=
  Nat.ofDigits 10 (digits.reverse.map fun c => c.toNat - '0'.toNat)

/-- How tokens of a kind are written. -/
inductive TokenKind.WrittenAs : TokenKind → List Char → Prop
  | sign {kind w} (h : (kind, w) ∈ signTexts) : kind.WrittenAs w
  | int {w} (h : w ∈ Pattern.digits.language) (hvalue : decimalValue w ≤ 2 ^ 63 - 1) :
    WrittenAs .int w
  | str {w} (h : w ∈ stringTexts) : WrittenAs .str w
  | keyword {kind w} (h : (String.ofList w, kind) ∈ TokenKind.keywords) : kind.WrittenAs w
  | name {w} (h : w ∈ Pattern.word.language)
    (hname : TokenKind.keyword? (String.ofList w) = none) : WrittenAs .ident w

theorem digitsValue_eq (digits : List Char) : digitsValue digits = decimalValue digits := by
  rw [decimalValue, Nat.ofDigits_eq_foldr, List.map_reverse, List.foldr_reverse, List.foldl_map,
    digitsValue]
  congr 1
  funext n c
  exact Nat.add_comm _ _

theorem mem_escapedPart {w : List Char} :
    w ∈ escapedPart ↔ (∃ c, InQuotes c ∧ w = [c]) ∨ ∃ c, isEscape c = true ∧ w = ['\\', c] := by
  have hescape : ∀ c, c ∈ ['n', 't', '\\', '"'] ↔ isEscape c = true := by
    intro c
    simp [isEscape, or_assoc]
  simp only [← hescape]
  exact mem_plain_or_escaped

theorem escapesValid_plain {c : Char} (hc : c ≠ '\\') (cs : List Char) :
    escapesValid (c :: cs) = escapesValid cs := by
  rw [escapesValid]
  · exact fun h _ => hc h
  · exact fun _ _ h _ => hc h

/-- The check of escapes leaves exactly the strings without faults. -/
theorem mem_star_escapedPart {body : List Char} :
    body ∈ escapedPart∗ ↔ body ∈ quotedPart∗ ∧ escapesValid body = true := by
  constructor
  · rintro ⟨parts, rfl, hparts⟩
    induction parts with
    | nil => exact ⟨Language.nil_mem_kstar _, rfl⟩
    | cons part parts ih =>
      obtain ⟨hquoted, hvalid⟩ := ih fun p hp => hparts p (List.mem_cons_of_mem part hp)
      rcases mem_escapedPart.mp (hparts part List.mem_cons_self) with ⟨c, hc, rfl⟩ | ⟨c, hc, rfl⟩
      · have hpart : [c] ∈ quotedPart := mem_quotedPart.mpr (Or.inl ⟨c, hc, rfl⟩)
        exact ⟨append_mem_star hpart hquoted, (escapesValid_plain hc.2.1 _).trans hvalid⟩
      · have hfeed : c ≠ '\n' := by
          rintro rfl
          exact absurd hc (by decide)
        have hpart : ['\\', c] ∈ quotedPart := mem_quotedPart.mpr (Or.inr ⟨c, hfeed, rfl⟩)
        exact ⟨append_mem_star hpart hquoted, Bool.and_eq_true_iff.mpr ⟨hc, hvalid⟩⟩
  · rintro ⟨⟨parts, rfl, hparts⟩, hvalid⟩
    induction parts with
    | nil => exact Language.nil_mem_kstar _
    | cons part parts ih =>
      have hlater := ih fun p hp => hparts p (List.mem_cons_of_mem part hp)
      rcases mem_quotedPart.mp (hparts part List.mem_cons_self) with ⟨c, hc, rfl⟩ | ⟨c, hc, rfl⟩
      · have hpart : [c] ∈ escapedPart := mem_escapedPart.mpr (Or.inl ⟨c, hc, rfl⟩)
        exact append_mem_star hpart (hlater ((escapesValid_plain hc.2.1 _).symm.trans hvalid))
      · obtain ⟨hescape, hrest⟩ := Bool.and_eq_true_iff.mp hvalid
        have hpart : ['\\', c] ∈ escapedPart := mem_escapedPart.mpr (Or.inr ⟨c, hescape, rfl⟩)
        exact append_mem_star hpart (hlater hrest)

theorem mem_stringTexts {w : List Char} :
    w ∈ stringTexts ↔ ∃ body ∈ escapedPart∗, w = '"' :: (body ++ ['"']) :=
  mem_between_quotes

/-- Strings without faults are the words of the pattern for strings in which the escapes are
    valid. -/
theorem mem_stringTexts_iff {w : List Char} :
    w ∈ stringTexts ↔ w ∈ Pattern.quoted.language ∧ escapesValid w.tail.dropLast = true := by
  have hbody : ∀ body : List Char, ('"' :: (body ++ ['"'])).tail.dropLast = body := by
    intro body
    rw [List.tail_cons, List.dropLast_concat]
  rw [mem_stringTexts, Pattern.mem_quoted]
  constructor
  · rintro ⟨body, hmem, rfl⟩
    obtain ⟨hquoted, hvalid⟩ := mem_star_escapedPart.mp hmem
    refine ⟨⟨body, hquoted, rfl⟩, ?_⟩
    rw [hbody]
    exact hvalid
  · rintro ⟨⟨body, hquoted, rfl⟩, hvalid⟩
    rw [hbody] at hvalid
    exact ⟨body, mem_star_escapedPart.mpr ⟨hquoted, hvalid⟩, rfl⟩

/-- Keywords are words. -/
theorem word_of_keyword {kind : TokenKind} {w : List Char}
    (h : (String.ofList w, kind) ∈ TokenKind.keywords) :
    w ∈ Pattern.word.language ∧ TokenKind.keyword? (String.ofList w) = some kind := by
  have hlookup : ∀ e ∈ TokenKind.keywords, TokenKind.keyword? e.1 = some e.2 := by decide
  have hword : ∀ e ∈ TokenKind.keywords,
      e.1.toList.head?.any isWordStart = true ∧ e.1.toList.tail.all isWordRest = true := by decide
  obtain ⟨hstart, hrest⟩ := hword _ h
  rw [String.toList_ofList] at hstart hrest
  obtain ⟨c, hhead, hc⟩ := (Option.any_eq_true ..).mp hstart
  obtain ⟨cs, rfl⟩ := List.head?_eq_some_iff.mp hhead
  refine ⟨Pattern.mem_word.mpr ⟨c, cs, rfl, (isWordStart_iff c).mp hc, ?_⟩, hlookup _ h⟩
  exact fun d hd => (isWordRest_iff d).mp (List.all_eq_true.mp hrest d hd)

/-- **Tokens are written as the words that some pattern turns into tokens.** -/
theorem written_iff {kind : TokenKind} {w : List Char} :
    kind.WrittenAs w ↔
      ∃ p : Pattern, w ∈ p.language ∧ ∀ behind, p.verdict w behind = .token kind := by
  constructor
  · intro h
    cases h with
    | sign h => exact ⟨.sign kind, h, fun behind => rfl⟩
    | int h hvalue =>
      rw [← digitsValue_eq] at hvalue
      exact ⟨.digits, h, fun behind => if_pos hvalue⟩
    | str h =>
      obtain ⟨hquoted, hvalid⟩ := mem_stringTexts_iff.mp h
      exact ⟨.quoted, hquoted, fun behind => if_pos hvalid⟩
    | keyword h =>
      obtain ⟨hword, hlookup⟩ := word_of_keyword h
      refine ⟨.word, hword, fun behind => ?_⟩
      rw [Pattern.verdict, hlookup]
      rfl
    | name h hname =>
      refine ⟨.word, h, fun behind => ?_⟩
      rw [Pattern.verdict, hname]
      rfl
  · rintro ⟨p, hmem, hverdict⟩
    have h := hverdict []
    cases p with
    | sign kind' =>
      cases h
      exact .sign hmem
    | lineComment => cases h
    | commentOpen => cases h
    | digits =>
      rw [Pattern.verdict] at h
      split at h
      · rename_i hvalue
        cases h
        rw [digitsValue_eq] at hvalue
        exact .int hmem hvalue
      · cases h
    | quoted =>
      rw [Pattern.verdict] at h
      split at h
      · rename_i hvalid
        cases h
        exact .str (mem_stringTexts_iff.mpr ⟨hmem, hvalid⟩)
      · cases h
    | word =>
      rw [Pattern.verdict] at h
      cases hword : TokenKind.keyword? (String.ofList w) with
      | none =>
        rw [hword] at h
        cases h
        exact .name hmem hword
      | some kind' =>
        rw [hword] at h
        cases h
        exact .keyword (pair_mem_of_lookup hword)

/-! ### Reading back -/

section Reading

variable {kind : TokenKind} {p : Pattern} {c : Char} {cs w rest : List Char} {n : Nat}

/-- Only comments depend on what stands behind them. -/
theorem verdict_behind {behind : List Char} (h : p.verdict w behind = .token kind)
    (behind' : List Char) : p.verdict w behind' = .token kind ∧ p.reach behind' = 0 := by
  cases p with
  | commentOpen =>
    rw [Pattern.verdict] at h
    split at h
    · cases h
    · cases h
  | _ => exact ⟨h, rfl⟩

/-- **What is read as a token is written as one.** -/
theorem written_of_readLexeme (h : readLexeme c cs = (.token kind, n)) :
    kind.WrittenAs (c :: cs.take n) := by
  have hblank : isBlank c = false := by
    rw [← Bool.not_eq_true]
    intro hblank
    rw [readLexeme, if_pos hblank] at h
    cases h
  cases hmunch : munch c cs with
  | none =>
    have hfault := readLexeme_of_munch_none hblank hmunch
    rw [h] at hfault
    cases hfault
  | some found =>
    obtain ⟨p, m⟩ := found
    obtain ⟨hverdict, hn⟩ := Prod.mk.inj (h.symm.trans (readLexeme_of_munch hblank hmunch))
    rw [(verdict_behind hverdict.symm _).2, Nat.add_zero] at hn
    rw [hn]
    refine written_iff.mpr ⟨p, mem_language_of_munch hmunch, fun behind => ?_⟩
    exact (verdict_behind hverdict.symm behind).1

/-- A text that does not go on with what stands in front of it: it starts with a space, if it has
    any characters. -/
def Apart (rest : List Char) : Prop := ∀ c ∈ rest.head?, c = ' '

theorem takeWhile_append_apart {q : Char → Bool} (hq : q ' ' = false) (hall : ∀ d ∈ w, q d = true)
    (hrest : Apart rest) : (w ++ rest).takeWhile q = w := by
  rw [List.takeWhile_append_of_pos hall]
  cases rest with
  | nil => simp
  | cons d rest => simp [hrest d rfl, hq]

theorem pairPattern?_apart (hrest : Apart rest) : pairPattern? c rest = none := by
  cases rest with
  | nil => rfl
  | cons d rest =>
    cases h : pairPattern? c (d :: rest) with
    | none => rfl
    | some p =>
      have hmem := pair_mem_of_lookup h
      rw [hrest d rfl] at hmem
      simp [pairPatterns] at hmem

/-- Words end before a space, but for comments that go on to the end of a line. -/
theorem munch_apart (hmem : c :: w ∈ p.language) (hp : p ≠ .lineComment) (hrest : Apart rest) :
    munch c (w ++ rest) = some (p, w.length) := by
  cases p with
  | sign kind =>
    rcases sign_lookup hmem with ⟨a, hw, hlookup⟩ | ⟨a, b, hw, hlookup⟩
    · cases hw
      exact munch_single (pairPattern?_apart hrest) hlookup
    · cases hw
      have hpair : pairPattern? c ([b] ++ rest) = some (.sign kind) := hlookup
      exact munch_pair hpair hp
  | lineComment => exact absurd rfl hp
  | commentOpen =>
    cases mem_single.mp hmem
    exact munch_pair rfl hp
  | digits =>
    obtain ⟨d, ds, hw, hd, hds⟩ := Pattern.mem_digits.mp hmem
    cases hw
    have hall : ∀ e ∈ w, e.isDigit = true := fun e he => (isDigit_iff e).mpr (hds e he)
    rw [munch_of_isDigit ((isDigit_iff c).mpr hd), takeWhile_append_apart (by decide) hall hrest]
  | quoted =>
    obtain ⟨body, hbody, hw⟩ := Pattern.mem_quoted.mp hmem
    cases hw
    have hclosed := quoteEnd_of_mem hbody 0 rest
    rw [List.append_cons] at hclosed
    rw [munch_quote, hclosed, Nat.zero_add, List.length_append, List.length_singleton]
  | word =>
    obtain ⟨d, ds, hw, hd, hds⟩ := Pattern.mem_word.mp hmem
    cases hw
    have hall : ∀ e ∈ w, isWordRest e = true := fun e he => (isWordRest_iff e).mpr (hds e he)
    rw [munch_of_isWordStart ((isWordStart_iff c).mpr hd),
      takeWhile_append_apart (by decide) hall hrest]

/-- **What is written as a token is read as it**, whatever comes after a space. -/
theorem lexemesFrom_written (h : kind.WrittenAs w) (hrest : Apart rest) (offset : Nat) :
    lexemesFrom offset (w ++ rest) =
      ⟨.token kind, w, offset⟩ :: lexemesFrom (offset + utf8Length w) rest := by
  obtain ⟨p, hmem, hverdict⟩ := written_iff.mp h
  have hp : p ≠ .lineComment := by
    rintro rfl
    cases hverdict []
  obtain ⟨c, cs, rfl, hblank⟩ := Pattern.exists_first hmem
  have hread := readLexeme_of_munch hblank (munch_apart hmem hp hrest)
  rw [List.take_left, List.drop_left, hverdict, (verdict_behind (hverdict rest) rest).2,
    Nat.add_zero] at hread
  have hkept : Verdict.token kind ≠ .skip := nofun
  rw [List.cons_append, lexemesFrom_keep offset hread hkept, List.take_left, List.drop_left]

end Reading

/-! ### Rows of tokens -/

/-- What a token is without its place. -/
def Token.entry (t : Token) : TokenKind × String := (t.kind, t.text)

/-- The token that a lexeme becomes, without its place. -/
def Lexeme.entry? (l : Lexeme) : Option (TokenKind × String) :=
  match l.verdict with
  | .token kind => some (kind, String.ofList l.text)
  | _ => none

theorem Lexer.map_entry_token? (lx : Lexer) (l : Lexeme) :
    (lx.token? l).map Token.entry = l.entry? := by
  rw [Lexer.token?, Lexeme.entry?]
  cases l.verdict with
  | token kind => rfl
  | _ => rfl

theorem Lexer.error?_of_entry? {lx : Lexer} {l : Lexeme} {entry : TokenKind × String}
    (h : l.entry? = some entry) : lx.error? l = none := by
  rw [Lexeme.entry?] at h
  rw [Lexer.error?]
  split at h
  · rename_i hverdict
    rw [hverdict]
  · cases h

/-- A text has no errors, and these tokens before its end of file. -/
structure Yields (source : String) (entries : List (TokenKind × String)) : Prop where
  errors : (tokenize source).errors = #[]
  tokens : (tokenize source).tokens.toList.map Token.entry = entries ++ [(.eof, "")]

theorem yields_of_scan {source : String} {entries : List (TokenKind × String)}
    (h : (scan source.toList).map Lexeme.entry? = entries.map some) : Yields source entries := by
  have hnone : (scan source.toList).filterMap (Lexer.ofText source.toList).error? = [] := by
    refine List.filterMap_eq_nil_iff.mpr fun l hl => ?_
    have hmem := List.mem_map_of_mem (f := Lexeme.entry?) hl
    rw [h] at hmem
    obtain ⟨entry, -, hentry⟩ := List.mem_map.mp hmem
    exact Lexer.error?_of_entry? hentry.symm
  have hroom : (tokenize source).errors.size < maxErrors := by
    refine room_of_length ?_
    rw [hnone]
    decide
  obtain ⟨htokens, herrors⟩ := tokenize_of_room hroom
  constructor
  · rw [← Array.toList_inj, herrors, hnone]
  · rw [htokens, List.map_append, List.map_filterMap]
    have hentries : (scan source.toList).filterMap Lexeme.entry? = entries := by
      have hid := congrArg (List.filterMap id) h
      simpa [List.filterMap_map] using hid
    simp only [Lexer.map_entry_token?, hentries]
    rfl

/-- Tokens with single spaces between them are read one by one. -/
theorem entries_lexemesFrom {entries : List (TokenKind × String)}
    (hwritten : ∀ e ∈ entries, e.1.WrittenAs e.2.toList) (offset : Nat) :
    (lexemesFrom offset ([' '].intercalate (entries.map (·.2.toList)))).map Lexeme.entry? =
      entries.map some := by
  induction entries generalizing offset with
  | nil => simp [lexemesFrom]
  | cons e entries ih =>
    obtain ⟨he, hlater⟩ := List.forall_mem_cons.mp hwritten
    have hentry : Lexeme.entry? ⟨.token e.1, e.2.toList, offset⟩ = some e := by
      simp [Lexeme.entry?]
    cases entries with
    | nil =>
      have hend : Apart [] := by
        intro c hc
        cases hc
      have hread := lexemesFrom_written he hend offset
      rw [List.append_nil] at hread
      rw [List.map_singleton, List.intercalate_singleton, hread]
      simp [hentry, lexemesFrom]
    | cons e' entries =>
      have hspace : ∀ rest, readLexeme ' ' rest = (.skip, 0) := fun rest => rfl
      have hrest : ∀ rest, Apart (' ' :: rest) := by
        rintro rest c ⟨⟩
        rfl
      rw [List.map_cons, List.map_cons, List.intercalate_cons_cons, List.append_assoc,
        List.singleton_append, lexemesFrom_written he (hrest _),
        lexemesFrom_skip _ (hspace _), List.map_cons, hentry, List.map_cons]
      exact congrArg _ (ih hlater _)

/-- **A row of written tokens is read back from its texts with single spaces between them.** -/
theorem yields_intercalate {entries : List (TokenKind × String)}
    (hwritten : ∀ e ∈ entries, e.1.WrittenAs e.2.toList) :
    Yields (String.intercalate " " (entries.map (·.2))) entries := by
  refine yields_of_scan ?_
  rw [scan_eq, String.toList_intercalate, List.map_map]
  exact entries_lexemesFrom hwritten 0

/-! ### Tokens of a text -/

/-- Tokens of a text without the end of file. -/
def survivors (source : String) : List Token :=
  (tokenize source).tokens.toList.filter (·.kind ≠ .eof)

theorem survivors_eq {source : String} {read : List Lexeme} (hread : read <+: scan source.toList)
    (htokens : (tokenize source).tokens.toList =
      read.filterMap (Lexer.ofText source.toList).token? ++
        [(Lexer.ofText source.toList).eofToken]) :
    survivors source = read.filterMap (Lexer.ofText source.toList).token? := by
  have hall : ∀ t ∈ read.filterMap (Lexer.ofText source.toList).token?,
      decide (t.kind ≠ .eof) = true := by
    intro t ht
    obtain ⟨l, hl, hsome⟩ := List.mem_filterMap.mp ht
    exact decide_eq_true (token?_kind_ne_eof (hread.subset hl) hsome)
  rw [survivors, htokens, List.filter_append, List.filter_eq_self.mpr hall]
  exact List.append_nil _

/-- Wherever a token comes from, it is written as one. -/
theorem written_of_survivor {source : String} {t : Token} (ht : t ∈ survivors source) :
    t.kind.WrittenAs t.text.toList := by
  obtain ⟨read, hread, htokens⟩ := exists_read source
  rw [survivors_eq hread htokens] at ht
  obtain ⟨l, hl, hsome⟩ := List.mem_filterMap.mp ht
  have hscan := hread.subset hl
  rw [scan_eq] at hscan
  obtain ⟨front, c, cs, n, hat, -⟩ := exists_readAt (show 0 = utf8Length [] from rfl) hscan
  unfold Lexer.token? at hsome
  split at hsome
  · rename_i kind hverdict
    cases hsome
    rw [String.toList_ofList, hat.text_eq]
    exact written_of_readLexeme (hverdict ▸ hat.read)
  · cases hsome

/-- A token that is the same in any text: it is read back from its own text alone; a name is no
    keyword, a number fits in 63 bits, and a string has no faults. -/
structure Token.Settled (t : Token) : Prop where
  alone : Yields t.text [t.entry]
  ident : t.kind = .ident → TokenKind.keyword? t.text = none
  int : t.kind = .int →
    t.text.toList ∈ Pattern.digits.language ∧ decimalValue t.text.toList ≤ 2 ^ 63 - 1
  str : t.kind = .str → t.text.toList ∈ stringTexts

theorem TokenKind.WrittenAs.settled {t : Token} (h : t.kind.WrittenAs t.text.toList) :
    t.Settled := by
  have hsigns : ∀ e ∈ signTexts, e.1 ≠ .int ∧ e.1 ≠ .str ∧ e.1 ≠ .ident := by decide
  have hkeywords : ∀ e ∈ TokenKind.keywords, e.2 ≠ .int ∧ e.2 ≠ .str ∧ e.2 ≠ .ident := by decide
  have hentry : ∀ e ∈ [t.entry], e.1.WrittenAs e.2.toList := List.forall_mem_singleton.mpr h
  obtain ⟨kind, text, span⟩ := t
  refine ⟨yields_intercalate hentry, ?_, ?_, ?_⟩
  · rintro rfl
    cases h with
    | sign h => exact absurd rfl (hsigns _ h).2.2
    | keyword h => exact absurd rfl (hkeywords _ h).2.2
    | name h hname =>
      rw [String.ofList_toList] at hname
      exact hname
  · rintro rfl
    cases h with
    | sign h => exact absurd rfl (hsigns _ h).1
    | keyword h => exact absurd rfl (hkeywords _ h).1
    | int h hvalue => exact ⟨h, hvalue⟩
  · rintro rfl
    cases h with
    | sign h => exact absurd rfl (hsigns _ h).2.1
    | keyword h => exact absurd rfl (hkeywords _ h).2.1
    | str h => exact h

/-- **Texts of tokens read back.**  The texts of the tokens of a text, with or without errors in
    it, with single spaces between them, have no errors and the same tokens; and each token is
    what it is in any text. -/
theorem survivors_read_back (source : String) :
    Yields (String.intercalate " " ((survivors source).map Token.text))
        ((survivors source).map Token.entry) ∧
      ∀ t ∈ survivors source, t.Settled := by
  constructor
  · have hwritten : ∀ e ∈ (survivors source).map Token.entry, e.1.WrittenAs e.2.toList :=
      List.forall_mem_map.mpr fun t ht => written_of_survivor ht
    have hyields := yields_intercalate hwritten
    rw [List.map_map] at hyields
    exact hyields
  · exact fun t ht => (written_of_survivor ht).settled

/-- Tokens that stood close together, behind a comment and around a fault. -/
example : (survivors "1a/*\"*/==!=\"//\\\"\"@").map Token.entry =
    [(.int, "1"), (.ident, "a"), (.eqEq, "=="), (.bangEq, "!="), (.str, "\"//\\\"\"")] := by
  decide +kernel

end TarnLang
