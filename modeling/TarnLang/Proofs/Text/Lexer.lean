/-
  TarnLang/Proofs/Text/Lexer.lean
  ===============================
  **Tokens stand one behind the other.**  `lexemesFrom` lists what `scanFrom` collects.  Each
  lexeme is a piece of the text that `readLexeme` has measured where it starts, and the
  next one starts no earlier than it stops.  Byte offsets become positions by the line map,
  which keeps their order, so the spans of tokens are in order too, and the end of file is
  behind them all.
-/
import TarnLang.Lexer
import TarnLang.Proofs.Text.LineMap

namespace TarnLang

/-! ### Lexemes -/

/-- Lexemes of a text that begins at byte `offset`, without those that are skipped. -/
def lexemesFrom (offset : Nat) : List Char → List Lexeme
  | [] => []
  | c :: cs =>
    let (verdict, n) := readLexeme c cs
    let lexeme : Lexeme := ⟨verdict, c :: cs.take n, offset⟩
    let later := lexemesFrom lexeme.stop (cs.drop n)
    if verdict = .skip then later else lexeme :: later
termination_by cs => cs.length

theorem toList_scanFrom (offset : Nat) (found : Array Lexeme) (cs : List Char) :
    (scanFrom offset found cs).toList = found.toList ++ lexemesFrom offset cs := by
  fun_induction scanFrom offset found cs with
  | case1 offset found => simp [lexemesFrom]
  | case2 offset found c cs verdict n hread lexeme ih =>
    rw [dite_eq_ite] at ih
    rw [ih, lexemesFrom, hread]
    by_cases hskip : verdict = .skip
    · simp [hskip, lexeme]
    · simp [hskip, lexeme]

theorem scan_eq (text : List Char) : scan text = lexemesFrom 0 text := by
  simp [scan, toList_scanFrom]

/-- A lexeme is what was read at some place of a text. -/
structure Lexeme.ReadAt (l : Lexeme) (front : List Char) (c : Char) (cs : List Char) (n : Nat) :
    Prop where
  read : readLexeme c cs = (l.verdict, n)
  text_eq : l.text = c :: cs.take n
  start_eq : l.start = utf8Length front

theorem Lexeme.stop_eq {l : Lexeme} {front : List Char} (h : l.start = utf8Length front) :
    l.stop = utf8Length (front ++ l.text) := by
  rw [Lexeme.stop, h, utf8Length_append]

theorem append_take_append_drop (front : List Char) (c : Char) (cs : List Char) (n : Nat) :
    front ++ c :: cs.take n ++ cs.drop n = front ++ c :: cs := by
  rw [List.append_assoc, List.cons_append, List.take_append_drop]

/-- Every lexeme was read somewhere in the text. -/
theorem exists_readAt {offset : Nat} {front text : List Char} {l : Lexeme}
    (hoffset : offset = utf8Length front) (hl : l ∈ lexemesFrom offset text) :
    ∃ front' c cs n, l.ReadAt front' c cs n ∧ front ++ text = front' ++ c :: cs := by
  fun_induction lexemesFrom offset text generalizing front with
  | case1 => cases hl
  | case2 offset c cs n hread lexeme later =>
    rename_i ih
    have hstop : lexeme.stop = utf8Length (front ++ c :: cs.take n) := Lexeme.stop_eq hoffset
    obtain ⟨front', c', cs', n', hat, htext⟩ := ih hstop hl
    exact ⟨front', c', cs', n', hat, (append_take_append_drop front c cs n).symm.trans htext⟩
  | case3 offset c cs verdict n hread lexeme later hkept =>
    rename_i ih
    rcases List.mem_cons.mp hl with rfl | hl
    · exact ⟨front, c, cs, n, ⟨hread, rfl, hoffset⟩, rfl⟩
    · have hstop : lexeme.stop = utf8Length (front ++ c :: cs.take n) := Lexeme.stop_eq hoffset
      obtain ⟨front', c', cs', n', hat, htext⟩ := ih hstop hl
      exact ⟨front', c', cs', n', hat, (append_take_append_drop front c cs n).symm.trans htext⟩

theorem le_start_of_mem {offset : Nat} {text : List Char} {l : Lexeme}
    (hl : l ∈ lexemesFrom offset text) : offset ≤ l.start := by
  fun_induction lexemesFrom offset text with
  | case1 => cases hl
  | case2 offset c cs n hread lexeme later ih => exact Nat.le_trans (Nat.le_add_right _ _) (ih hl)
  | case3 offset c cs verdict n hread lexeme later hkept ih =>
    rcases List.mem_cons.mp hl with rfl | hl
    · exact Nat.le_refl _
    · exact Nat.le_trans (Nat.le_add_right _ _) (ih hl)

theorem lexemesFrom_pairwise (offset : Nat) (text : List Char) :
    (lexemesFrom offset text).Pairwise fun a b => a.stop ≤ b.start := by
  fun_induction lexemesFrom offset text with
  | case1 => exact .nil
  | case2 offset c cs n hread lexeme later ih => exact ih
  | case3 offset c cs verdict n hread lexeme later hkept ih =>
    exact .cons (fun _ hl => le_start_of_mem hl) ih

/-- Each lexeme takes at least one character. -/
theorem length_lexemesFrom_le (offset : Nat) (text : List Char) :
    (lexemesFrom offset text).length ≤ text.length := by
  fun_induction lexemesFrom offset text with
  | case1 => exact Nat.le_refl _
  | case2 offset c cs n hread lexeme later ih =>
    have hrest : (cs.drop n).length ≤ cs.length := by simp
    exact Nat.le_succ_of_le (Nat.le_trans ih hrest)
  | case3 offset c cs verdict n hread lexeme later hkept ih =>
    have hrest : (cs.drop n).length ≤ cs.length := by simp
    exact Nat.succ_le_succ (Nat.le_trans ih hrest)

/-! ### Spans -/

namespace LineMap

/-- Positions of boundaries are ordered as the boundaries are. -/
theorem position_le {text a b u v : List Char} (ha : text = a ++ u) (hb : text = b ++ v)
    (hlength : utf8Length text < 2 ^ 32 - 1) (hle : utf8Length a ≤ utf8Length b) :
    (ofText text).position (utf8Length a) ≤ (ofText text).position (utf8Length b) := by
  obtain ⟨m, rfl⟩ := prefix_of_utf8Length_le (ha.symm.trans hb) hle
  subst hb
  by_cases hm : m = []
  · rw [hm, List.append_nil]
    exact Position.le_refl _
  · exact Position.le_of_lt (position_lt hm hlength)

end LineMap

/-- A lexeme is a piece of a text, not an empty one. -/
structure Lexeme.Piece (l : Lexeme) (text front rest : List Char) : Prop where
  text_eq : text = front ++ l.text ++ rest
  start_eq : l.start = utf8Length front
  ne_nil : l.text ≠ []

theorem exists_piece {text : List Char} {l : Lexeme} (hl : l ∈ scan text) :
    ∃ front rest, l.Piece text front rest := by
  rw [scan_eq] at hl
  have hstart : 0 = utf8Length [] := rfl
  obtain ⟨front, c, cs, n, hat, htext⟩ := exists_readAt hstart hl
  refine ⟨front, cs.drop n, ?_, hat.start_eq, ?_⟩
  · rw [hat.text_eq, append_take_append_drop, ← htext, List.nil_append]
  · rw [hat.text_eq]
    exact List.cons_ne_nil _ _

namespace Lexer

variable {text : List Char} {l l' : Lexeme}

theorem spanOf_start_lt_stop (hlength : utf8Length text < 2 ^ 32 - 1) (hl : l ∈ scan text) :
    ((ofText text).spanOf l).start < ((ofText text).spanOf l).stop := by
  obtain ⟨front, rest, hpiece⟩ := exists_piece hl
  show (LineMap.ofText text).position l.start < (LineMap.ofText text).position l.stop
  rw [Lexeme.stop_eq hpiece.start_eq, hpiece.start_eq]
  have htext := hpiece.text_eq
  subst htext
  exact LineMap.position_lt hpiece.ne_nil hlength

/-- A lexeme that starts where another one has stopped, or later, lies behind it. -/
theorem spanOf_stop_le_start (hlength : utf8Length text < 2 ^ 32 - 1) (hl : l ∈ scan text)
    (hl' : l' ∈ scan text) (hle : l.stop ≤ l'.start) :
    ((ofText text).spanOf l).stop ≤ ((ofText text).spanOf l').start := by
  obtain ⟨front, rest, hpiece⟩ := exists_piece hl
  obtain ⟨front', rest', hpiece'⟩ := exists_piece hl'
  have htext' : text = front' ++ (l'.text ++ rest') := by
    rw [hpiece'.text_eq, List.append_assoc]
  show (LineMap.ofText text).position l.stop ≤ (LineMap.ofText text).position l'.start
  rw [Lexeme.stop_eq hpiece.start_eq, hpiece'.start_eq] at hle ⊢
  exact LineMap.position_le hpiece.text_eq htext' hlength hle

/-- Every lexeme ends at or before the end of the text. -/
theorem spanOf_stop_le_eof (hlength : utf8Length text < 2 ^ 32 - 1) (hl : l ∈ scan text) :
    ((ofText text).spanOf l).stop ≤ (ofText text).eofToken.span.start := by
  obtain ⟨front, rest, hpiece⟩ := exists_piece hl
  have hle : utf8Length (front ++ l.text) ≤ utf8Length text := by
    rw [hpiece.text_eq, utf8Length_append _ rest]
    exact Nat.le_add_right _ _
  show (LineMap.ofText text).position l.stop ≤ (LineMap.ofText text).position (utf8Length text)
  rw [Lexeme.stop_eq hpiece.start_eq]
  exact LineMap.position_le hpiece.text_eq (List.append_nil text).symm hlength hle

/-! ### Tokens -/

/-- The token that a lexeme becomes, if it becomes one. -/
def token? (lx : Lexer) (l : Lexeme) : Option Token :=
  match l.verdict with
  | .token kind => some ⟨kind, String.ofList l.text, lx.spanOf l⟩
  | _ => none

/-- The error that a lexeme becomes, if it becomes one. -/
def error? (lx : Lexer) (l : Lexeme) : Option LexError :=
  match l.verdict with
  | .fault fault => some ⟨fault, lx.spanOf l⟩
  | _ => none

/-- Tokens and errors gathered are those of a first part of the lexemes, which is all of them
    unless the errors have reached the limit. -/
theorem gather_read (lx : Lexer) (tokens : Array Token) (errors : Array LexError)
    (ls : List Lexeme) (hroom : errors.size ≤ maxErrors) :
    ∃ read unread, ls = read ++ unread ∧
      (lx.gather tokens errors ls).1.toList = tokens.toList ++ read.filterMap lx.token? ∧
      (lx.gather tokens errors ls).2.toList = errors.toList ++ read.filterMap lx.error? ∧
      (lx.gather tokens errors ls).2.size ≤ maxErrors ∧
      (unread ≠ [] → (lx.gather tokens errors ls).2.size = maxErrors) := by
  fun_induction gather lx tokens errors ls with
  | case1 tokens errors => exact ⟨[], [], rfl, by simp, by simp, hroom, fun h => absurd rfl h⟩
  | case2 tokens errors l ls hfull =>
    exact ⟨[], l :: ls, rfl, by simp, by simp, hroom, fun _ => Nat.le_antisymm hroom hfull⟩
  | case3 tokens errors l ls hleft hverdict ih =>
    obtain ⟨read, unread, rfl, htokens, herrors, hlimit⟩ := ih hroom
    have htoken : lx.token? l = none := by simp [token?, hverdict]
    have herror : lx.error? l = none := by simp [error?, hverdict]
    refine ⟨l :: read, unread, rfl, ?_, ?_, hlimit⟩
    · rw [htokens, List.filterMap_cons_none htoken]
    · rw [herrors, List.filterMap_cons_none herror]
  | case4 tokens errors l ls hleft kind hverdict ih =>
    obtain ⟨read, unread, rfl, htokens, herrors, hlimit⟩ := ih hroom
    have htoken : lx.token? l = some ⟨kind, String.ofList l.text, lx.spanOf l⟩ := by
      simp [token?, hverdict]
    have herror : lx.error? l = none := by simp [error?, hverdict]
    refine ⟨l :: read, unread, rfl, ?_, ?_, hlimit⟩
    · rw [htokens, List.filterMap_cons_some htoken, Array.toList_push, List.append_assoc]
      rfl
    · rw [herrors, List.filterMap_cons_none herror]
  | case5 tokens errors l ls hleft fault hverdict ih =>
    have hpushed : (errors.push ⟨fault, lx.spanOf l⟩).size ≤ maxErrors := by
      rw [Array.size_push]
      exact Nat.lt_of_not_le hleft
    obtain ⟨read, unread, rfl, htokens, herrors, hlimit⟩ := ih hpushed
    have htoken : lx.token? l = none := by simp [token?, hverdict]
    have herror : lx.error? l = some ⟨fault, lx.spanOf l⟩ := by simp [error?, hverdict]
    refine ⟨l :: read, unread, rfl, ?_, ?_, hlimit⟩
    · rw [htokens, List.filterMap_cons_none htoken]
    · rw [herrors, List.filterMap_cons_some herror, Array.toList_push, List.append_assoc]
      rfl

theorem token?_span {lx : Lexer} {t : Token} (h : lx.token? l = some t) : t.span = lx.spanOf l := by
  unfold token? at h
  split at h
  · rw [← Option.some.inj h]
  · cases h

theorem error?_span {lx : Lexer} {e : LexError} (h : lx.error? l = some e) :
    e.span = lx.spanOf l := by
  unfold error? at h
  split at h
  · rw [← Option.some.inj h]
  · cases h

end Lexer

/-- A run sorts a first part of the lexemes of a text, and leaves lexemes unread only when the
    errors have reached the limit. -/
theorem exists_sorted (source : String) :
    ∃ read unread, scan source.toList = read ++ unread ∧
      (tokenize source).tokens.toList =
        read.filterMap (Lexer.ofText source.toList).token? ++
          [(Lexer.ofText source.toList).eofToken] ∧
      (tokenize source).errors.toList = read.filterMap (Lexer.ofText source.toList).error? ∧
      (tokenize source).errors.size ≤ maxErrors ∧
      (unread ≠ [] → (tokenize source).errors.size = maxErrors) := by
  obtain ⟨read, unread, hscan, htokens, herrors, hlimit⟩ :=
    (Lexer.ofText source.toList).gather_read #[] #[] (scan source.toList) (Nat.zero_le maxErrors)
  refine ⟨read, unread, hscan, ?_, herrors.trans (List.nil_append _), hlimit⟩
  show (Array.push _ _).toList = _
  rw [Array.toList_push]
  exact congrArg (· ++ _) (htokens.trans (List.nil_append _))

/-- The tokens of a text are those of a first part of its lexemes, and an end of file. -/
theorem exists_read (source : String) :
    ∃ read, read <+: scan source.toList ∧
      (tokenize source).tokens.toList =
        read.filterMap (Lexer.ofText source.toList).token? ++
          [(Lexer.ofText source.toList).eofToken] := by
  obtain ⟨read, unread, hscan, htokens, -⟩ := exists_sorted source
  exact ⟨read, ⟨unread, hscan.symm⟩, htokens⟩

/-- There is at most one token for each character, and an end of file. -/
theorem size_tokens_le (source : String) :
    (tokenize source).tokens.size ≤ source.utf8ByteSize + 1 := by
  obtain ⟨read, hread, htokens⟩ := exists_read source
  have hlexemes := length_lexemesFrom_le 0 source.toList
  have hbytes := length_le_utf8Length source.toList
  have hsorted := List.length_filterMap_le (Lexer.ofText source.toList).token? read
  have hscan := hread.length_le
  rw [scan_eq] at hscan
  rw [utf8Length_toList] at hbytes
  rw [← Array.length_toList, htokens, List.length_append, List.length_singleton]
  omega

/-- Tokens with spans that run forwards, one behind the other. -/
structure InOrder (tokens : List Token) : Prop where
  forward : ∀ t ∈ tokens, t.span.start ≤ t.span.stop
  apart : tokens.Pairwise fun a b => a.span.start < b.span.start ∧ a.span.stop ≤ b.span.start

/-- **The tokens of a text stand in order.** -/
theorem inOrder_tokenize {source : String} (hlength : source.utf8ByteSize < 2 ^ 32 - 1) :
    InOrder (tokenize source).tokens.toList := by
  obtain ⟨read, hread, htokens⟩ := exists_read source
  rw [← utf8Length_toList] at hlength
  have hscan : ∀ l ∈ read, l ∈ scan source.toList := fun l hl => hread.subset hl
  have hapart : read.Pairwise fun a b => a.stop ≤ b.start := by
    have hall := lexemesFrom_pairwise 0 source.toList
    rw [← scan_eq] at hall
    exact hall.sublist hread.sublist
  rw [htokens]
  constructor
  · intro t ht
    rcases List.mem_append.mp ht with ht | ht
    · obtain ⟨l, hl, hsome⟩ := List.mem_filterMap.mp ht
      rw [Lexer.token?_span hsome]
      exact Position.le_of_lt (Lexer.spanOf_start_lt_stop hlength (hscan l hl))
    · rw [List.mem_singleton.mp ht]
      exact Position.le_refl _
  · refine List.pairwise_append.mpr ⟨?_, List.pairwise_singleton _ _, ?_⟩
    · refine List.pairwise_filterMap.mpr (hapart.imp_of_mem ?_)
      intro a b ha hb hle t ht t' ht'
      have hlt := Lexer.spanOf_start_lt_stop hlength (hscan a ha)
      have hbehind := Lexer.spanOf_stop_le_start hlength (hscan a ha) (hscan b hb) hle
      rw [Lexer.token?_span ht, Lexer.token?_span ht']
      exact ⟨Position.lt_of_lt_of_le hlt hbehind, hbehind⟩
    · intro t ht eof heof
      obtain ⟨l, hl, hsome⟩ := List.mem_filterMap.mp ht
      have hlt := Lexer.spanOf_start_lt_stop hlength (hscan l hl)
      have hbehind := Lexer.spanOf_stop_le_eof hlength (hscan l hl)
      rw [Lexer.token?_span hsome, List.mem_singleton.mp heof]
      exact ⟨Position.lt_of_lt_of_le hlt hbehind, hbehind⟩

/-- The tokens of a text differ, because they start at different places. -/
theorem nodup_tokens {source : String} (hlength : source.utf8ByteSize < 2 ^ 32 - 1) :
    (tokenize source).tokens.toList.Nodup := by
  apply (inOrder_tokenize hlength).apart.imp
  rintro a b ⟨hstart, -⟩ rfl
  exact Position.lt_irrefl _ hstart

/-! ### Names -/

theorem pair_mem_of_lookup {α β : Type} [BEq α] [LawfulBEq α] {l : List (α × β)} {a : α} {b : β}
    (h : l.lookup a = some b) : (a, b) ∈ l := by
  obtain ⟨l₁, l₂, rfl, -⟩ := List.lookup_eq_some_iff.mp h
  simp

theorem mem_of_lookup {α β : Type} [BEq α] [LawfulBEq α] {l : List (α × β)} {a : α} {b : β}
    (h : l.lookup a = some b) : b ∈ l.map (·.2) :=
  List.mem_map_of_mem (pair_mem_of_lookup h)

theorem mem_of_pairPattern? {c : Char} {cs : List Char} {p : Pattern}
    (h : pairPattern? c cs = some p) : p ∈ pairPatterns.map (·.2) := by
  obtain ⟨d, -, hd⟩ := Option.bind_eq_some_iff.mp h
  exact mem_of_lookup hd

/-- Which patterns match, and how much of the text a word takes. -/
theorem munch_cases {c : Char} {cs : List Char} {p : Pattern} {n : Nat}
    (h : munch c cs = some (p, n)) :
    p = .digits ∨ p = .quoted ∨
      (p = .word ∧ isWordStart c = true ∧ n = (cs.takeWhile isWordRest).length) ∨
      p ∈ pairPatterns.map (·.2) ∨ ∃ kind ∈ singleSigns.map (·.2), p = .sign kind := by
  unfold munch at h
  split at h
  · cases h
    exact Or.inl rfl
  · split at h
    · rename_i hstart
      cases h
      exact Or.inr (Or.inr (Or.inl ⟨rfl, hstart, rfl⟩))
    · split at h
      · split at h
        · cases h
          exact Or.inr (Or.inl rfl)
        · cases h
      · right; right; right
        split at h
        · rename_i hpair
          cases h
          exact Or.inl (mem_of_pairPattern? hpair)
        · rename_i hpair
          cases h
          exact Or.inl (mem_of_pairPattern? hpair)
        · obtain ⟨kind, hkind, heq⟩ := Option.map_eq_some_iff.mp h
          cases heq
          exact Or.inr ⟨kind, mem_of_lookup hkind, rfl⟩

/-- A sign is neither a name nor an end of file. -/
theorem kind_of_sign {c : Char} {cs : List Char} {kind : TokenKind} {n : Nat}
    (h : munch c cs = some (.sign kind, n)) : kind ≠ .ident ∧ kind ≠ .eof := by
  rcases munch_cases h with heq | heq | ⟨heq, -⟩ | hmem | ⟨kind, hmem, heq⟩
  · cases heq
  · cases heq
  · cases heq
  · constructor
    · rintro rfl
      exact absurd hmem (by decide)
    · rintro rfl
      exact absurd hmem (by decide)
  · cases heq
    constructor
    · rintro rfl
      exact absurd hmem (by decide)
    · rintro rfl
      exact absurd hmem (by decide)

/-- What is read as a name is matched as a word. -/
theorem munch_of_ident {c : Char} {cs : List Char} {n : Nat}
    (h : readLexeme c cs = (.token .ident, n)) : munch c cs = some (.word, n) := by
  unfold readLexeme at h
  split at h
  · cases h
  · split at h
    · rename_i hsign
      cases h
      exact absurd rfl (kind_of_sign hsign).1
    · cases h
    · split at h
      · cases h
      · cases h
    · split at h
      · cases h
      · cases h
    · split at h
      · cases h
      · cases h
    · rename_i hword
      obtain ⟨-, rfl⟩ := Prod.mk.inj h
      exact hword
    · split at h
      · cases h
      · cases h

theorem isWordRest_of_isWordStart {c : Char} (h : isWordStart c = true) : isWordRest c = true := by
  simp only [isWordStart, isWordRest, Char.isAlphanum, Bool.or_eq_true] at h ⊢
  rcases h with h | h
  · exact Or.inl (Or.inl h)
  · exact Or.inr h

/-- Names are letters, digits and underscores. -/
theorem isWordRest_of_ident {source : String} {t : Token} (ht : t ∈ (tokenize source).tokens)
    (hkind : t.kind = .ident) : ∀ c ∈ t.text.toList, isWordRest c = true := by
  obtain ⟨read, hread, htokens⟩ := exists_read source
  have hmem := Array.mem_def.mp ht
  rw [htokens] at hmem
  rcases List.mem_append.mp hmem with hmem | hmem
  · obtain ⟨l, hl, hsome⟩ := List.mem_filterMap.mp hmem
    have hscan := hread.subset hl
    rw [scan_eq] at hscan
    have hstart : 0 = utf8Length [] := rfl
    obtain ⟨front, c, cs, n, hat, -⟩ := exists_readAt hstart hscan
    unfold Lexer.token? at hsome
    split at hsome
    · rename_i kind hverdict
      cases hsome
      have hread := hat.read
      rw [hverdict, show kind = .ident from hkind] at hread
      rcases munch_cases (munch_of_ident hread) with heq | heq | ⟨-, hc, hn⟩ | hmem | ⟨_, _, heq⟩
      · cases heq
      · cases heq
      · have htake : cs.take n = cs.takeWhile isWordRest := by
          rw [hn]
          exact (List.prefix_iff_eq_take.mp (List.takeWhile_prefix isWordRest)).symm
        intro x hx
        rw [String.toList_ofList, hat.text_eq, htake] at hx
        rcases List.mem_cons.mp hx with rfl | hx
        · exact isWordRest_of_isWordStart hc
        · exact List.all_eq_true.mp List.all_takeWhile x hx
      · exact absurd hmem (by decide)
      · cases heq
    · cases hsome
  · rw [List.mem_singleton.mp hmem] at hkind
    cases hkind

end TarnLang
