/-
  TarnLang/Proofs/Text/Pattern.lean
  =================================
  **A lexeme is the longest match.**  `Pattern.language` says which words a pattern stands for,
  in the algebra of languages and without a word on how a text is read: operators and
  delimiters are single words, the other patterns are built from classes of characters.

  `munch` decides by the first characters of a text and a fixed order of cases, while the
  patterns overlap: a slash opens both kinds of comment, an equals sign may be two signs, and a
  quote may or may not be closed.  It comes out the same.  At every place where a scan
  starts a lexeme, the lexeme is the longest word of any pattern, and only one pattern has that
  word; where no pattern has one, and only there, the scan reports an unexpected character
  or an open string.
-/
import Mathlib
import TarnLang.Proofs.Text.LineBreak

namespace TarnLang

open scoped Computability

/-! ### Classes of characters -/

def InDigits (c : Char) : Prop := '0' ≤ c ∧ c ≤ '9'

def InWordStart (c : Char) : Prop := 'a' ≤ c ∧ c ≤ 'z' ∨ 'A' ≤ c ∧ c ≤ 'Z' ∨ c = '_'

def InWordRest (c : Char) : Prop := InWordStart c ∨ InDigits c

/-- Characters that stand for themselves between quotes. -/
def InQuotes (c : Char) : Prop := c ≠ '"' ∧ c ≠ '\\' ∧ c ≠ '\n'

theorem isDigit_iff (c : Char) : c.isDigit = true ↔ InDigits c := by
  rw [Char.isDigit, Bool.and_eq_true, decide_eq_true_iff, decide_eq_true_iff]
  rfl

theorem isWordStart_iff (c : Char) : isWordStart c = true ↔ InWordStart c := by
  simp only [isWordStart, Char.isAlpha, Char.isUpper, Char.isLower, Bool.or_eq_true,
    Bool.and_eq_true, decide_eq_true_iff, InWordStart]
  rw [or_right_comm, or_comm]
  rfl

theorem isWordRest_iff (c : Char) : isWordRest c = true ↔ InWordRest c := by
  rw [InWordRest, ← isWordStart_iff, ← isDigit_iff]
  simp only [isWordRest, isWordStart, Char.isAlphanum, Bool.or_eq_true]
  rw [or_right_comm]

/-! ### Languages -/

/-- Words of one character of a class. -/
def charIn (p : Char → Prop) : Language Char := {w | ∃ c, p c ∧ w = [c]}

/-- Operators and delimiters as they are written. -/
def signTexts : List (TokenKind × List Char) :=
  [(.eqEq, ['=', '=']), (.bangEq, ['!', '=']), (.ltEq, ['<', '=']), (.gtEq, ['>', '=']),
    (.plus, ['+']), (.minus, ['-']), (.star, ['*']), (.slash, ['/']), (.percent, ['%']),
    (.eq, ['=']), (.lt, ['<']), (.gt, ['>']), (.lParen, ['(']), (.rParen, [')']),
    (.lBrace, ['\x7b']), (.rBrace, ['\x7d']), (.comma, [',']), (.semi, [';'])]

/-- What may stand between quotes: a character that stands for itself, or a backslash with a
    character behind it. -/
def quotedPart : Language Char := charIn InQuotes + {['\\']} * charIn (· ≠ '\n')

/-- The words that a pattern stands for. -/
def Pattern.language : Pattern → Language Char
  | .sign kind => {w | (kind, w) ∈ signTexts}
  | .lineComment => {['/', '/']} * (charIn (· ≠ '\n'))∗
  | .commentOpen => {['/', '*']}
  | .digits => charIn InDigits * (charIn InDigits)∗
  | .quoted => {['"']} * quotedPart∗ * {['"']}
  | .word => charIn InWordStart * (charIn InWordRest)∗

theorem mem_charIn {p : Char → Prop} {w : List Char} : w ∈ charIn p ↔ ∃ c, p c ∧ w = [c] := Iff.rfl

theorem mem_single {v w : List Char} : w ∈ ({v} : Language Char) ↔ w = v := Iff.rfl

/-- Any number of characters of a class. -/
theorem mem_star_charIn {p : Char → Prop} {w : List Char} : w ∈ (charIn p)∗ ↔ ∀ c ∈ w, p c := by
  constructor
  · rintro ⟨parts, rfl, hparts⟩ c hc
    obtain ⟨part, hpart, hc⟩ := List.mem_flatten.mp hc
    obtain ⟨d, hd, rfl⟩ := hparts part hpart
    rw [List.mem_singleton.mp hc]
    exact hd
  · intro hw
    refine ⟨w.map fun c => [c], (List.flatMap_singleton' w).symm, ?_⟩
    intro part hpart
    obtain ⟨c, hc, rfl⟩ := List.mem_map.mp hpart
    exact ⟨c, hw c hc, rfl⟩

/-- One part more in front of any number of parts. -/
theorem append_mem_star {l : Language Char} {v w : List Char} (hv : v ∈ l) (hw : w ∈ l∗) :
    v ++ w ∈ l∗ := by
  obtain ⟨parts, rfl, hparts⟩ := hw
  exact ⟨v :: parts, rfl, List.forall_mem_cons.mpr ⟨hv, hparts⟩⟩

/-- A character of one class, and any number of characters of another. -/
theorem mem_charIn_mul_star {p q : Char → Prop} {w : List Char} :
    w ∈ charIn p * (charIn q)∗ ↔ ∃ c cs, w = c :: cs ∧ p c ∧ ∀ d ∈ cs, q d := by
  rw [Language.mem_mul]
  constructor
  · rintro ⟨-, ⟨c, hc, rfl⟩, cs, hcs, rfl⟩
    exact ⟨c, cs, rfl, hc, mem_star_charIn.mp hcs⟩
  · rintro ⟨c, cs, rfl, hc, hcs⟩
    exact ⟨[c], ⟨c, hc, rfl⟩, cs, mem_star_charIn.mpr hcs, rfl⟩

/-- A character of one class, or a backslash with a character of another behind it. -/
theorem mem_plain_or_escaped {p q : Char → Prop} {w : List Char} :
    w ∈ charIn p + {['\\']} * charIn q ↔
      (∃ c, p c ∧ w = [c]) ∨ ∃ c, q c ∧ w = ['\\', c] := by
  rw [Language.mem_add, mem_charIn, Language.mem_mul]
  refine or_congr_right ?_
  constructor
  · rintro ⟨-, rfl, -, ⟨c, hc, rfl⟩, rfl⟩
    exact ⟨c, hc, rfl⟩
  · rintro ⟨c, hc, rfl⟩
    exact ⟨['\\'], rfl, [c], ⟨c, hc, rfl⟩, rfl⟩

theorem mem_quotedPart {w : List Char} :
    w ∈ quotedPart ↔ (∃ c, InQuotes c ∧ w = [c]) ∨ ∃ c, c ≠ '\n' ∧ w = ['\\', c] :=
  mem_plain_or_escaped

/-- Any number of parts between quotes. -/
theorem mem_between_quotes {l : Language Char} {w : List Char} :
    w ∈ ({['"']} * l∗ * {['"']} : Language Char) ↔
      ∃ body ∈ l∗, w = '"' :: (body ++ ['"']) := by
  rw [Language.mem_mul]
  constructor
  · rintro ⟨opened, hopened, -, rfl, rfl⟩
    obtain ⟨-, rfl, body, hbody, rfl⟩ := Language.mem_mul.mp hopened
    exact ⟨body, hbody, rfl⟩
  · rintro ⟨body, hbody, rfl⟩
    exact ⟨'"' :: body, Language.mem_mul.mpr ⟨['"'], rfl, body, hbody, rfl⟩, ['"'], rfl, rfl⟩

namespace Pattern

theorem mem_digits {w : List Char} :
    w ∈ digits.language ↔ ∃ c cs, w = c :: cs ∧ InDigits c ∧ ∀ d ∈ cs, InDigits d :=
  mem_charIn_mul_star

theorem mem_word {w : List Char} :
    w ∈ word.language ↔ ∃ c cs, w = c :: cs ∧ InWordStart c ∧ ∀ d ∈ cs, InWordRest d :=
  mem_charIn_mul_star

theorem mem_lineComment {w : List Char} :
    w ∈ lineComment.language ↔ ∃ body, w = '/' :: '/' :: body ∧ '\n' ∉ body := by
  rw [language, Language.mem_mul]
  constructor
  · rintro ⟨-, rfl, body, hbody, rfl⟩
    exact ⟨body, rfl, fun hfeed => mem_star_charIn.mp hbody '\n' hfeed rfl⟩
  · rintro ⟨body, rfl, hbody⟩
    refine ⟨['/', '/'], rfl, body, mem_star_charIn.mpr ?_, rfl⟩
    rintro c hc rfl
    exact hbody hc

theorem mem_quoted {w : List Char} :
    w ∈ quoted.language ↔ ∃ body ∈ quotedPart∗, w = '"' :: (body ++ ['"']) :=
  mem_between_quotes

end Pattern

/-! ### Strings up to their closing quote -/

theorem quoteEnd_escape {c : Char} (hc : c ≠ '\n') (read : Nat) (cs : List Char) :
    quoteEnd read ('\\' :: c :: cs) = quoteEnd (read + 2) cs := by
  rw [quoteEnd]
  exact hc

/-- A quote behind what may stand between quotes closes the string. -/
theorem quoteEnd_of_mem {body : List Char} (hbody : body ∈ quotedPart∗) (read : Nat)
    (rest : List Char) :
    quoteEnd read (body ++ '"' :: rest) = .closed (read + (body.length + 1)) := by
  obtain ⟨parts, rfl, hparts⟩ := hbody
  induction parts generalizing read with
  | nil => simp [quoteEnd]
  | cons part parts ih =>
    have hlater := fun read => ih read fun p hp => hparts p (List.mem_cons_of_mem part hp)
    rcases mem_quotedPart.mp (hparts part List.mem_cons_self) with ⟨c, hc, rfl⟩ | ⟨c, hc, rfl⟩
    · show quoteEnd read (c :: (parts.flatten ++ '"' :: rest)) = _
      rw [quoteEnd_cons hc.1 hc.2.1 hc.2.2, hlater, List.flatten_cons, List.singleton_append,
        List.length_cons]
      congr 1
      omega
    · show quoteEnd read ('\\' :: c :: (parts.flatten ++ '"' :: rest)) = _
      rw [quoteEnd_escape hc, hlater]
      simp only [List.flatten_cons, List.length_append, List.length_cons, List.length_nil]
      congr 1
      omega

/-- The closing quote that is found stands behind what may stand between quotes. -/
theorem exists_body_of_closed {read m : Nat} {cs : List Char}
    (h : quoteEnd read cs = .closed m) :
    ∃ body ∈ quotedPart∗, ∃ rest, cs = body ++ '"' :: rest ∧ m = read + (body.length + 1) := by
  fun_induction quoteEnd read cs with
  | case1 => cases h
  | case2 read cs =>
    cases h
    exact ⟨[], Language.nil_mem_kstar _, cs, rfl, rfl⟩
  | case3 => cases h
  | case4 => cases h
  | case5 => cases h
  | case6 read c cs hc ih =>
    obtain ⟨body, hbody, rest, rfl, rfl⟩ := ih h
    have hpart : ['\\', c] ∈ quotedPart := mem_quotedPart.mpr (Or.inr ⟨c, hc, rfl⟩)
    refine ⟨'\\' :: c :: body, append_mem_star hpart hbody, rest, rfl, ?_⟩
    simp only [List.length_cons]
    omega
  | case7 read c cs hquote hfeed hend hbefore hescape ih =>
    obtain ⟨body, hbody, rest, rfl, rfl⟩ := ih h
    have hslash := ne_backslash hend hescape
    have hpart : [c] ∈ quotedPart := mem_quotedPart.mpr (Or.inl ⟨c, ⟨hquote, hslash, hfeed⟩, rfl⟩)
    refine ⟨c :: body, append_mem_star hpart hbody, rest, rfl, ?_⟩
    simp only [List.length_cons]
    omega

/-! ### Which pattern is read -/

section Reading

variable {c : Char} {cs w : List Char} {p : Pattern} {n : Nat}

theorem take_length_takeWhile (q : Char → Bool) (cs : List Char) :
    cs.take (cs.takeWhile q).length = cs.takeWhile q :=
  (List.prefix_iff_eq_take.mp (List.takeWhile_prefix q)).symm

/-- A front of a text whose characters all belong to a class is no longer than the longest. -/
theorem length_le_takeWhile {q : Char → Bool} (hall : ∀ d ∈ w, q d = true) (hfront : w <+: cs) :
    w.length ≤ (cs.takeWhile q).length := by
  obtain ⟨rest, rfl⟩ := hfront
  rw [List.takeWhile_append_of_pos hall, List.length_append]
  exact Nat.le_add_right _ _

theorem not_isDigit_of_isWordStart (hc : isWordStart c = true) : c.isDigit = false := by
  rw [← Bool.not_eq_true, isDigit_iff]
  rintro ⟨hlow, hhigh⟩
  rw [Char.le_def, UInt32.le_iff_toNat_le] at hlow hhigh
  rcases (isWordStart_iff c).mp hc with ⟨h, -⟩ | ⟨h, -⟩ | rfl
  · exact absurd (Nat.le_trans (Char.le_def.mp h) hhigh) (by decide)
  · exact absurd (Nat.le_trans (Char.le_def.mp h) hhigh) (by decide)
  · exact absurd hhigh (by decide)

theorem munch_of_isDigit (hc : c.isDigit = true) :
    munch c cs = some (.digits, (cs.takeWhile Char.isDigit).length) := by
  rw [munch, if_pos hc]

theorem munch_of_isWordStart (hc : isWordStart c = true) :
    munch c cs = some (.word, (cs.takeWhile isWordRest).length) := by
  have hdigit : ¬ c.isDigit = true := by simp [not_isDigit_of_isWordStart hc]
  rw [munch, if_neg hdigit, if_pos hc]

theorem munch_quote (cs : List Char) :
    munch '"' cs = match quoteEnd 0 cs with
      | .closed n => some (.quoted, n)
      | .unclosed _ => none := rfl

/-- Operators, delimiters and comments open with no character that opens another pattern. -/
theorem pair_first {d : Char} (h : ((c, d), p) ∈ pairPatterns) :
    ¬ c.isDigit = true ∧ ¬ isWordStart c = true ∧ c ≠ '"' := by
  have hall : ∀ e ∈ pairPatterns,
      ¬ e.1.1.isDigit = true ∧ ¬ isWordStart e.1.1 = true ∧ e.1.1 ≠ '"' := by decide
  exact hall _ h

theorem single_first {kind : TokenKind} (h : (c, kind) ∈ singleSigns) :
    ¬ c.isDigit = true ∧ ¬ isWordStart c = true ∧ c ≠ '"' := by
  have hall : ∀ e ∈ singleSigns,
      ¬ e.1.isDigit = true ∧ ¬ isWordStart e.1 = true ∧ e.1 ≠ '"' := by decide
  exact hall _ h

theorem exists_pair (h : pairPattern? c cs = some p) :
    ∃ d rest, cs = d :: rest ∧ ((c, d), p) ∈ pairPatterns := by
  obtain ⟨d, hd, hlookup⟩ := Option.bind_eq_some_iff.mp h
  obtain ⟨rest, rfl⟩ := List.head?_eq_some_iff.mp hd
  exact ⟨d, rest, rfl, pair_mem_of_lookup hlookup⟩

theorem munch_pair (h : pairPattern? c cs = some p) (hp : p ≠ .lineComment) :
    munch c cs = some (p, 1) := by
  obtain ⟨d, rest, -, hmem⟩ := exists_pair h
  obtain ⟨hdigit, hstart, hquote⟩ := pair_first hmem
  rw [munch, if_neg hdigit, if_neg hstart, if_neg hquote, h]
  cases p with
  | lineComment => exact absurd rfl hp
  | _ => rfl

theorem munch_line (h : pairPattern? c cs = some .lineComment) :
    munch c cs = some (.lineComment, (cs.takeWhile (· ≠ '\n')).length) := by
  obtain ⟨d, rest, -, hmem⟩ := exists_pair h
  obtain ⟨hdigit, hstart, hquote⟩ := pair_first hmem
  rw [munch, if_neg hdigit, if_neg hstart, if_neg hquote, h]

theorem munch_single {kind : TokenKind} (hpair : pairPattern? c cs = none)
    (h : singleSigns.lookup c = some kind) : munch c cs = some (.sign kind, 0) := by
  obtain ⟨hdigit, hstart, hquote⟩ := single_first (pair_mem_of_lookup h)
  rw [munch, if_neg hdigit, if_neg hstart, if_neg hquote, hpair, h]
  rfl

/-- What two characters select, but for line comments, is what they are a word of. -/
theorem pair_mem_language {d : Char} (h : ((c, d), p) ∈ pairPatterns) (hp : p ≠ .lineComment) :
    [c, d] ∈ p.language := by
  have hsign : ∀ e ∈ signTexts, e.2 ∈ (Pattern.sign e.1).language := fun _ he => he
  simp only [pairPatterns, List.mem_cons, Prod.mk.injEq, List.not_mem_nil, or_false] at h
  rcases h with ⟨⟨rfl, rfl⟩, rfl⟩ | ⟨⟨rfl, rfl⟩, rfl⟩ | ⟨⟨rfl, rfl⟩, rfl⟩ | ⟨⟨rfl, rfl⟩, rfl⟩ |
    ⟨-, rfl⟩ | ⟨⟨rfl, rfl⟩, rfl⟩
  · exact hsign (.eqEq, _) (by decide)
  · exact hsign (.bangEq, _) (by decide)
  · exact hsign (.ltEq, _) (by decide)
  · exact hsign (.gtEq, _) (by decide)
  · exact absurd rfl hp
  · exact mem_single.mpr rfl

/-- **What is read is a word of the pattern.** -/
theorem mem_language_of_munch (h : munch c cs = some (p, n)) : c :: cs.take n ∈ p.language := by
  unfold munch at h
  split at h
  case isTrue hc =>
    cases h
    rw [take_length_takeWhile]
    refine Pattern.mem_digits.mpr ⟨c, _, rfl, (isDigit_iff c).mp hc, fun d hd => ?_⟩
    exact (isDigit_iff d).mp (List.all_eq_true.mp List.all_takeWhile d hd)
  case isFalse =>
    split at h
    case isTrue hc =>
      cases h
      rw [take_length_takeWhile]
      refine Pattern.mem_word.mpr ⟨c, _, rfl, (isWordStart_iff c).mp hc, fun d hd => ?_⟩
      exact (isWordRest_iff d).mp (List.all_eq_true.mp List.all_takeWhile d hd)
    case isFalse =>
      split at h
      case isTrue hc =>
        split at h
        · rename_i hclosed
          cases h
          obtain ⟨body, hbody, rest, rfl, rfl⟩ := exists_body_of_closed hclosed
          refine Pattern.mem_quoted.mpr ⟨body, hbody, ?_⟩
          rw [hc, Nat.zero_add]
          simp [List.take_append]
        · cases h
      case isFalse =>
        split at h
        · rename_i hpair
          cases h
          obtain ⟨rfl, d, rest, rfl, ⟨rfl, -⟩ | ⟨-, hp⟩⟩ := pairPattern?_comment hpair (Or.inl rfl)
          · rw [take_length_takeWhile]
            exact Pattern.mem_lineComment.mpr ⟨_, rfl, not_mem_takeWhile (by decide) rest⟩
          · cases hp
        · rename_i hline hpair
          cases h
          obtain ⟨d, rest, rfl, hmem⟩ := exists_pair hpair
          exact pair_mem_language hmem fun hp => hline (hp ▸ rfl)
        · obtain ⟨kind, hkind, heq⟩ := Option.map_eq_some_iff.mp h
          cases heq
          have hall : ∀ e ∈ singleSigns, (e.2, [e.1]) ∈ signTexts := by decide
          exact hall _ (pair_mem_of_lookup hkind)

/-- Two characters that select a pattern are both read. -/
theorem exists_munch_of_pair (h : pairPattern? c cs = some p) :
    ∃ n, munch c cs = some (p, n) ∧ 1 ≤ n := by
  by_cases hp : p = .lineComment
  · subst hp
    obtain ⟨-, d, rest, rfl, ⟨rfl, -⟩ | ⟨-, hother⟩⟩ := pairPattern?_comment h (Or.inl rfl)
    · have hslash : ∀ d ∈ ['/'], decide (d ≠ '\n') = true :=
        List.forall_mem_singleton.mpr (by decide)
      exact ⟨_, munch_line h, length_le_takeWhile hslash (List.prefix_append _ _)⟩
    · cases hother
  · exact ⟨1, munch_pair h hp, Nat.le_refl 1⟩

/-- Whether the text of a sign is found under it. -/
def signFound (kind : TokenKind) : List Char → Bool
  | [a] => singleSigns.lookup a == some kind
  | [a, b] => pairPatterns.lookup (a, b) == some (.sign kind)
  | _ => false

/-- A sign is looked for by its one or two characters. -/
theorem sign_lookup {kind : TokenKind} (h : (kind, w) ∈ signTexts) :
    (∃ a, w = [a] ∧ singleSigns.lookup a = some kind) ∨
      ∃ a b, w = [a, b] ∧ pairPatterns.lookup (a, b) = some (.sign kind) := by
  have hall : ∀ e ∈ signTexts, signFound e.1 e.2 = true := by decide
  have hlookup : signFound kind w = true := hall _ h
  unfold signFound at hlookup
  split at hlookup
  · exact Or.inl ⟨_, rfl, beq_iff_eq.mp hlookup⟩
  · exact Or.inr ⟨_, _, rfl, beq_iff_eq.mp hlookup⟩
  · cases hlookup

/-- **A word of a pattern at the front of a text is read, or a longer one is**: as many characters
    are read, and if no more are, then by that pattern. -/
theorem munch_of_mem (hmem : w ∈ p.language) (hfront : w <+: c :: cs) :
    ∃ q n, munch c cs = some (q, n) ∧ w.length ≤ n + 1 ∧ (w.length = n + 1 → q = p) := by
  cases p with
  | sign kind =>
    rcases sign_lookup hmem with ⟨a, rfl, hlookup⟩ | ⟨a, b, rfl, hlookup⟩
    · obtain ⟨rfl, -⟩ := List.cons_prefix_cons.mp hfront
      cases hpair : pairPattern? a cs with
      | some q =>
        obtain ⟨n, hmunch, hn⟩ := exists_munch_of_pair hpair
        refine ⟨q, n, hmunch, Nat.le_add_left 1 n, fun hlength => ?_⟩
        have hzero : n = 0 := (Nat.succ.inj hlength).symm
        omega
      | none => exact ⟨_, 0, munch_single hpair hlookup, Nat.le_refl 1, fun _ => rfl⟩
    · obtain ⟨rfl, rest, rfl⟩ := List.cons_prefix_cons.mp hfront
      have hpair : pairPattern? a ([b] ++ rest) = some (.sign kind) := hlookup
      exact ⟨_, 1, munch_pair hpair (fun h => by cases h), Nat.le_refl 2, fun _ => rfl⟩
  | lineComment =>
    obtain ⟨body, rfl, hbody⟩ := Pattern.mem_lineComment.mp hmem
    obtain ⟨rfl, hrest⟩ := List.cons_prefix_cons.mp hfront
    have hplain : ∀ d ∈ '/' :: body, decide (d ≠ '\n') = true := by
      intro d hd
      rcases List.mem_cons.mp hd with rfl | hd
      · decide
      · exact decide_eq_true fun hfeed => hbody (hfeed ▸ hd)
    have hlength := length_le_takeWhile hplain hrest
    obtain ⟨rest, rfl⟩ := hrest
    exact ⟨_, _, munch_line rfl, Nat.succ_le_succ hlength, fun _ => rfl⟩
  | commentOpen =>
    obtain rfl := mem_single.mp hmem
    obtain ⟨rfl, rest, rfl⟩ := List.cons_prefix_cons.mp hfront
    exact ⟨_, 1, munch_pair rfl (fun h => by cases h), Nat.le_refl 2, fun _ => rfl⟩
  | digits =>
    obtain ⟨d, ds, rfl, hd, hds⟩ := Pattern.mem_digits.mp hmem
    obtain ⟨rfl, hrest⟩ := List.cons_prefix_cons.mp hfront
    have hlength := length_le_takeWhile (fun e he => (isDigit_iff e).mpr (hds e he)) hrest
    exact ⟨_, _, munch_of_isDigit ((isDigit_iff d).mpr hd), Nat.succ_le_succ hlength, fun _ => rfl⟩
  | quoted =>
    obtain ⟨body, hbody, rfl⟩ := Pattern.mem_quoted.mp hmem
    obtain ⟨rfl, rest, rfl⟩ := List.cons_prefix_cons.mp hfront
    have hclosed := quoteEnd_of_mem hbody 0 rest
    rw [List.append_cons] at hclosed
    refine ⟨.quoted, body.length + 1, ?_, ?_, fun _ => rfl⟩
    · rw [munch_quote, hclosed, Nat.zero_add]
    · simp
  | word =>
    obtain ⟨d, ds, rfl, hd, hds⟩ := Pattern.mem_word.mp hmem
    obtain ⟨rfl, hrest⟩ := List.cons_prefix_cons.mp hfront
    have hlength := length_le_takeWhile (fun e he => (isWordRest_iff e).mpr (hds e he)) hrest
    exact ⟨_, _, munch_of_isWordStart ((isWordStart_iff d).mpr hd), Nat.succ_le_succ hlength,
      fun _ => rfl⟩

end Reading

/-! ### The longest match -/

namespace Pattern

/-- `w` is the longest word of any pattern at the front of a text, and a word of no pattern but
    this one. -/
structure Longest (p : Pattern) (w text : List Char) : Prop where
  mem : w ∈ p.language
  front : w <+: text
  longest : ∀ (q : Pattern) (v : List Char), v ∈ q.language → v <+: text → v.length ≤ w.length
  only : ∀ q : Pattern, w ∈ q.language → q = p

/-- Some pattern has a word at the front of a text, and not the empty one. -/
def Matches (text : List Char) : Prop := ∃ p : Pattern, ∃ w ∈ p.language, w ≠ [] ∧ w <+: text

variable {p : Pattern} {c : Char} {cs : List Char} {n : Nat}

/-- **What is read is the longest match.** -/
theorem longest_of_munch (h : munch c cs = some (p, n)) : p.Longest (c :: cs.take n) (c :: cs) := by
  have hlength : (c :: cs.take n).length = n + 1 := by
    rw [List.length_cons, List.length_take, Nat.min_eq_left (munch_le h)]
  have hfront : c :: cs.take n <+: c :: cs :=
    List.cons_prefix_cons.mpr ⟨rfl, List.take_prefix n cs⟩
  refine ⟨mem_language_of_munch h, hfront, fun q v hv hv' => ?_, fun q hq => ?_⟩
  · obtain ⟨q', n', hmunch, hle, -⟩ := munch_of_mem hv hv'
    obtain ⟨rfl, rfl⟩ := Prod.mk.inj (Option.some.inj (h.symm.trans hmunch))
    rw [hlength]
    exact hle
  · obtain ⟨q', n', hmunch, -, honly⟩ := munch_of_mem hq hfront
    obtain ⟨rfl, rfl⟩ := Prod.mk.inj (Option.some.inj (h.symm.trans hmunch))
    exact (honly hlength).symm

/-- Nothing is read exactly where no pattern matches. -/
theorem munch_eq_none_iff : munch c cs = none ↔ ¬ Matches (c :: cs) := by
  constructor
  · rintro h ⟨p, w, hw, -, hfront⟩
    obtain ⟨q, n, hmunch, -⟩ := munch_of_mem hw hfront
    rw [h] at hmunch
    cases hmunch
  · intro h
    rw [Option.eq_none_iff_forall_not_mem]
    rintro ⟨p, n⟩ hmunch
    have hlongest := longest_of_munch hmunch
    exact h ⟨p, _, hlongest.mem, List.cons_ne_nil _ _, hlongest.front⟩

/-- Words have a first character, and it is not blank. -/
theorem exists_first {w : List Char} (h : w ∈ p.language) :
    ∃ c cs, w = c :: cs ∧ isBlank c = false := by
  have hplain : ∀ c, c.isDigit = true ∨ isWordStart c = true → isBlank c = false := by
    have hblanks : [' ', '\t', '\r', '\n', '\x0c'].all fun c =>
        !(c.isDigit || isWordStart c) := by decide
    intro c hc
    rw [← Bool.not_eq_true]
    intro hblank
    have hmem : c ∈ [' ', '\t', '\r', '\n', '\x0c'] := by simpa [isBlank, or_assoc] using hblank
    have hneither := List.all_eq_true.mp hblanks c hmem
    rw [Bool.not_eq_true', ← Bool.not_eq_true, Bool.or_eq_true] at hneither
    exact hneither hc
  cases p with
  | sign kind =>
    have hall : ∀ e ∈ signTexts, (e.2.head?.any fun c => !isBlank c) = true := by decide
    obtain ⟨c, hc, hplain⟩ := (Option.any_eq_true ..).mp (hall _ h)
    obtain ⟨cs, hw⟩ := List.head?_eq_some_iff.mp hc
    exact ⟨c, cs, hw, by simpa using hplain⟩
  | lineComment =>
    obtain ⟨body, rfl, -⟩ := mem_lineComment.mp h
    exact ⟨_, _, rfl, by decide⟩
  | commentOpen =>
    obtain rfl := mem_single.mp h
    exact ⟨_, _, rfl, by decide⟩
  | digits =>
    obtain ⟨c, cs, rfl, hc, -⟩ := mem_digits.mp h
    exact ⟨c, cs, rfl, hplain c (Or.inl ((isDigit_iff c).mpr hc))⟩
  | quoted =>
    obtain ⟨body, -, rfl⟩ := mem_quoted.mp h
    exact ⟨_, _, rfl, by decide⟩
  | word =>
    obtain ⟨c, cs, rfl, hc, -⟩ := mem_word.mp h
    exact ⟨c, cs, rfl, hplain c (Or.inr ((isWordStart_iff c).mpr hc))⟩

/-- What becomes of a word of a pattern with `behind` after it. -/
def verdict (p : Pattern) (w behind : List Char) : Verdict :=
  match p with
  | .sign kind => .token kind
  | .lineComment => .skip
  | .commentOpen =>
    if (commentEnd 1 0 behind).isSome then .skip else .fault .unterminatedComment
  | .digits => if digitsValue w ≤ maxNumber then .token .int else .fault .invalidNumber
  | .quoted =>
    if escapesValid w.tail.dropLast then .token .str else .fault .invalidEscape
  | .word => .token ((TokenKind.keyword? (String.ofList w)).getD .ident)

/-- How many characters a lexeme takes behind the word that opens it.  Only comments that nest take
    any: up to their close, or up to the end of the text. -/
def reach (p : Pattern) (behind : List Char) : Nat :=
  match p with
  | .commentOpen => (commentEnd 1 0 behind).getD behind.length
  | _ => 0

end Pattern

section Verdict

variable {p : Pattern} {c : Char} {cs : List Char} {n : Nat}

/-- The pattern that matches classifies the lexeme. -/
theorem readLexeme_of_munch (hblank : isBlank c = false) (h : munch c cs = some (p, n)) :
    readLexeme c cs = (p.verdict (c :: cs.take n) (cs.drop n), n + p.reach (cs.drop n)) := by
  have hblank' : ¬ isBlank c = true := by simp [hblank]
  have hn := munch_le h
  rw [readLexeme, if_neg hblank', h]
  cases p with
  | sign kind => rfl
  | lineComment => rfl
  | commentOpen =>
    cases hend : commentEnd 1 0 (cs.drop n) with
    | some m => simp [Pattern.verdict, Pattern.reach, hend]
    | none => simp [Pattern.verdict, Pattern.reach, hend, Nat.add_sub_cancel' hn]
  | digits =>
    simp only [Pattern.verdict, Pattern.reach]
    split <;> rfl
  | quoted =>
    have hbody : (c :: cs.take n).tail.dropLast = cs.take (n - 1) := by
      rw [List.tail_cons, List.dropLast_eq_take, List.length_take, Nat.min_eq_left hn,
        List.take_take, Nat.min_eq_left (Nat.sub_le n 1)]
    simp only [Pattern.verdict, Pattern.reach, hbody]
    split <;> rfl
  | word => rfl

/-- Where no pattern matches, the lexeme is an open string or an unexpected character. -/
theorem readLexeme_of_munch_none (hblank : isBlank c = false) (h : munch c cs = none) :
    (readLexeme c cs).1 = .fault (if c = '"' then .unterminatedString else .unexpectedChar c) := by
  have hblank' : ¬ isBlank c = true := by simp [hblank]
  rw [readLexeme, if_neg hblank', h]
  by_cases hquote : c = '"'
  · simp [hquote]
  · simp [hquote]

theorem verdict_ne_unmatched (p : Pattern) (w behind : List Char) (d : Char) :
    p.verdict w behind ≠ .fault .unterminatedString ∧
      p.verdict w behind ≠ .fault (.unexpectedChar d) := by
  cases p with
  | sign kind => exact ⟨nofun, nofun⟩
  | lineComment => exact ⟨nofun, nofun⟩
  | commentOpen =>
    rw [Pattern.verdict]
    split <;> exact ⟨nofun, nofun⟩
  | digits =>
    rw [Pattern.verdict]
    split <;> exact ⟨nofun, nofun⟩
  | quoted =>
    rw [Pattern.verdict]
    split <;> exact ⟨nofun, nofun⟩
  | word => exact ⟨nofun, nofun⟩

end Verdict

/-! ### Scans -/

/-- The places that a scan of `text` comes to: `front` lies behind it and `rest` ahead. -/
inductive Arrives (text : List Char) : List Char → List Char → Prop
  | start : Arrives text [] text
  | next {front c cs verdict n} (h : Arrives text front (c :: cs))
    (hread : readLexeme c cs = (verdict, n)) :
    Arrives text (front ++ c :: cs.take n) (cs.drop n)

namespace Arrives

variable {text front rest : List Char}

theorem append_eq (h : Arrives text front rest) : front ++ rest = text := by
  induction h with
  | start => rfl
  | next h hread ih => rw [append_take_append_drop, ih]

/-- From a place that it comes to, a scan goes on as if the text ahead were all there is. -/
theorem exists_scan_eq (h : Arrives text front rest) :
    ∃ before, scan text = before ++ lexemesFrom (utf8Length front) rest := by
  induction h with
  | start => exact ⟨[], scan_eq text⟩
  | @next front c cs verdict n h hread ih =>
    obtain ⟨before, hscan⟩ := ih
    rw [utf8Length_append]
    by_cases hkept : verdict = .skip
    · rw [lexemesFrom_skip _ (hkept ▸ hread)] at hscan
      exact ⟨before, hscan⟩
    · rw [lexemesFrom_keep _ hread hkept, List.append_cons] at hscan
      exact ⟨_, hscan⟩

/-- Every lexeme that a scan gives was read at a place that the scan came to. -/
theorem exists_readAt {l : Lexeme} (h : Arrives text front rest)
    (hl : l ∈ lexemesFrom (utf8Length front) rest) :
    ∃ front' c cs n, Arrives text front' (c :: cs) ∧ l.ReadAt front' c cs n := by
  generalize hoffset : utf8Length front = offset at hl
  fun_induction lexemesFrom offset rest generalizing front with
  | case1 => cases hl
  | case2 offset c cs n hread lexeme later =>
    rename_i ih
    have hstop := Lexeme.stop_eq (l := lexeme) hoffset.symm
    exact ih (h.next hread) hstop.symm hl
  | case3 offset c cs verdict n hread lexeme later hkept =>
    rename_i ih
    rcases List.mem_cons.mp hl with rfl | hl
    · exact ⟨front, c, cs, n, h, ⟨hread, rfl, hoffset.symm⟩⟩
    · have hstop := Lexeme.stop_eq (l := lexeme) hoffset.symm
      exact ih (h.next hread) hstop.symm hl

end Arrives

/-- What a scan takes in front of `rest`: the longest match and what belongs to it, in the
    meaning of the pattern that matches; an open string or an unexpected character, if no
    pattern does.  The lexemes of the scan are those that are not skipped, and the scan goes on
    behind each. -/
structure Lexeme.TakenAt (l : Lexeme) (text front rest : List Char) : Prop where
  text_eq : front ++ rest = text
  start_eq : l.start = utf8Length front
  scanned : l ∈ scan text ↔ l.verdict ≠ .skip
  goes_on : ∃ behind, rest = l.text ++ behind ∧ Arrives text (front ++ l.text) behind
  matched : Pattern.Matches rest →
    ∃ (p : Pattern) (w behind : List Char), p.Longest w rest ∧ rest = w ++ behind ∧
      l.verdict = p.verdict w behind ∧ l.text = w ++ behind.take (p.reach behind)
  unmatched : ¬ Pattern.Matches rest ↔ l.verdict = .fault .unterminatedString ∨
    ∃ c, l.verdict = .fault (.unexpectedChar c)

theorem Lexeme.ReadAt.takenAt {l : Lexeme} {text front : List Char} {c : Char} {cs : List Char}
    {n : Nat} (h : l.ReadAt front c cs n) (harrives : Arrives text front (c :: cs))
    (hblank : isBlank c = false) : l.TakenAt text front (c :: cs) := by
  refine ⟨harrives.append_eq, h.start_eq, ⟨fun hl => ?_, fun hkept => ?_⟩, ?_,
    fun hmatches => ?_, ?_⟩
  · rw [scan_eq] at hl
    exact verdict_ne_skip hl
  · obtain ⟨before, hscan⟩ := harrives.exists_scan_eq
    rw [lexemesFrom_keep _ h.read hkept, ← h.text_eq, ← h.start_eq] at hscan
    rw [hscan]
    exact List.mem_append_right before List.mem_cons_self
  · refine ⟨cs.drop n, ?_, ?_⟩
    · rw [h.text_eq, List.cons_append, List.take_append_drop]
    · rw [h.text_eq]
      exact harrives.next h.read
  · cases hmunch : munch c cs with
    | none => exact absurd hmatches (Pattern.munch_eq_none_iff.mp hmunch)
    | some found =>
      obtain ⟨p, m⟩ := found
      obtain ⟨hverdict, rfl⟩ := Prod.mk.inj (h.read.symm.trans (readLexeme_of_munch hblank hmunch))
      refine ⟨p, _, cs.drop m, Pattern.longest_of_munch hmunch, ?_, hverdict, ?_⟩
      · rw [List.cons_append, List.take_append_drop]
      · rw [h.text_eq, List.take_add, List.cons_append]
  · rw [← Pattern.munch_eq_none_iff]
    constructor
    · intro hmunch
      have hfault := readLexeme_of_munch_none hblank hmunch
      rw [h.read] at hfault
      by_cases hquote : c = '"'
      · rw [if_pos hquote] at hfault
        exact Or.inl hfault
      · rw [if_neg hquote] at hfault
        exact Or.inr ⟨c, hfault⟩
    · intro hfault
      cases hmunch : munch c cs with
      | none => rfl
      | some found =>
        obtain ⟨p, m⟩ := found
        obtain ⟨hverdict, -⟩ := Prod.mk.inj (h.read.symm.trans (readLexeme_of_munch hblank hmunch))
        rw [hverdict] at hfault
        rcases hfault with hfault | ⟨d, hfault⟩
        · exact absurd hfault (verdict_ne_unmatched p _ _ c).1
        · exact absurd hfault (verdict_ne_unmatched p _ _ d).2

/-- **Lexemes are longest matches.**  Wherever a scan comes to something that is not blank it takes
    the longest word of any pattern there, with the meaning of the one pattern that has that
    word; it reports an open string or an unexpected character only where no pattern has a
    word.  Every lexeme of a scan is taken so. -/
theorem scan_takes_longest (text : List Char) :
    (∀ front c cs, Arrives text front (c :: cs) → isBlank c = false →
      ∃ l : Lexeme, l.TakenAt text front (c :: cs)) ∧
      ∀ l ∈ scan text, ∃ front c cs,
        Arrives text front (c :: cs) ∧ isBlank c = false ∧ l.TakenAt text front (c :: cs) := by
  constructor
  · intro front c cs harrives hblank
    have hread : (⟨(readLexeme c cs).1, c :: cs.take (readLexeme c cs).2, utf8Length front⟩ :
        Lexeme).ReadAt front c cs (readLexeme c cs).2 := ⟨rfl, rfl, rfl⟩
    exact ⟨_, hread.takenAt harrives hblank⟩
  · intro l hl
    rw [scan_eq] at hl
    obtain ⟨front, c, cs, n, harrives, hread⟩ := Arrives.start.exists_readAt hl
    have hblank : isBlank c = false := by
      rw [← Bool.not_eq_true]
      intro hblank
      have hskip := hread.read
      rw [readLexeme, if_pos hblank] at hskip
      exact verdict_ne_skip hl (Prod.mk.inj hskip).1.symm
    exact ⟨front, c, cs, harrives, hblank, hread.takenAt harrives hblank⟩

/-- Behind a name the scan takes the first of three equals signs together with the second. -/
theorem exists_takenAt_signs :
    Arrives "a===".toList ['a'] ['=', '=', '='] ∧ isBlank '=' = false ∧
      ∃ l : Lexeme, l.TakenAt "a===".toList ['a'] ['=', '=', '='] := by
  have hread : readLexeme 'a' ['=', '=', '='] = (.token .ident, 0) := by decide
  have harrives : Arrives "a===".toList ['a'] ['=', '=', '='] := Arrives.start.next hread
  have hblank : isBlank '=' = false := by decide
  refine ⟨harrives, hblank, ?_⟩
  exact (scan_takes_longest "a===".toList).1 ['a'] '=' ['=', '='] harrives hblank

end TarnLang
