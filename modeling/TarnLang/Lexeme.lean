/-
  TarnLang/Lexeme.lean
  ====================
  **Lexemes.**  How a text falls apart into lexemes, before positions and limits
  come into it.  `munch` takes the longest prefix that some pattern of the lexical
  grammar matches; `readLexeme` says what becomes of it: skipped, a token, or a
  fault.  `scan` repeats this to the end of the text.

  A lexeme always has a first character, so lengths count the characters after it.
  Comments that open with `/*` nest and are measured by `commentEnd`; a quoted
  string is measured by `quoteEnd`, which also says how far an unclosed one goes.
-/
import TarnLang.LineMap
import TarnLang.Token

namespace TarnLang

/-! ### Character classes -/

/-- Characters between lexemes that mean nothing: space, tab, carriage return, line
    feed and form feed. -/
def isBlank (c : Char) : Bool :=
  c = ' ' || c = '\t' || c = '\r' || c = '\n' || c = '\x0c'

/-- Characters that a name or keyword may start with. -/
def isWordStart (c : Char) : Bool := c.isAlpha || c = '_'

/-- Characters that a name or keyword may go on with. -/
def isWordRest (c : Char) : Bool := c.isAlphanum || c = '_'

/-! ### Patterns -/

/-- The patterns of the lexical grammar.  A sign is an operator or a delimiter. -/
inductive Pattern
  | sign (kind : TokenKind)
  | lineComment
  | commentOpen
  | digits
  | quoted
  | word
deriving DecidableEq, Repr

def pairPatterns : List ((Char × Char) × Pattern) :=
  [(('=', '='), .sign .eqEq), (('!', '='), .sign .bangEq), (('<', '='), .sign .ltEq),
    (('>', '='), .sign .gtEq), (('/', '/'), .lineComment), (('/', '*'), .commentOpen)]

def singleSigns : List (Char × TokenKind) :=
  [('+', .plus), ('-', .minus), ('*', .star), ('/', .slash), ('%', .percent), ('=', .eq),
    ('<', .lt), ('>', .gt), ('(', .lParen), (')', .rParen), ('\x7b', .lBrace), ('\x7d', .rBrace),
    (',', .comma), (';', .semi)]

/-- Pattern that the first two characters of a text select. -/
def pairPattern? (c : Char) (cs : List Char) : Option Pattern :=
  cs.head?.bind fun d => pairPatterns.lookup (c, d)

inductive QuoteEnd
  | closed (length : Nat)
  | unclosed (length : Nat)
deriving DecidableEq, Repr

/-- Number of characters up to where a quoted string stops. -/
def QuoteEnd.length : QuoteEnd → Nat
  | closed n => n
  | unclosed n => n

/-- Reads a quoted string after its opening quote, `read` characters in.  A backslash
    takes the next character with it.  The string is closed by the first other quote,
    whose end is counted; it is unclosed when a line feed, the end of the text, or a
    backslash before one of them comes first. -/
def quoteEnd (read : Nat) : List Char → QuoteEnd
  | [] => .unclosed read
  | '"' :: _ => .closed (read + 1)
  | '\n' :: _ => .unclosed read
  | '\\' :: [] => .unclosed read
  | '\\' :: '\n' :: _ => .unclosed read
  | '\\' :: _ :: cs => quoteEnd (read + 2) cs
  | _ :: cs => quoteEnd (read + 1) cs

/-- Reads a comment after its opening, `read` characters in and with `depth` comments open.
    Gives the number of characters up to where none is open any more, if there is such a
    place.  The depth is a signed word: an opening too many makes it negative, and then no
    comment counts as open. -/
def commentEnd (depth : Int32) (read : Nat) (cs : List Char) : Option Nat :=
  if 0 < depth then
    match cs with
    | [] => none
    | '/' :: '*' :: cs => commentEnd (depth + 1) (read + 2) cs
    | '*' :: '/' :: cs => commentEnd (depth - 1) (read + 2) cs
    | _ :: cs => commentEnd depth (read + 1) cs
  else some read

/-- The longest prefix of the text `c :: cs` that a pattern matches: the pattern, and
    how many characters after the first belong to it. -/
def munch (c : Char) (cs : List Char) : Option (Pattern × Nat) :=
  if c.isDigit then some (.digits, (cs.takeWhile Char.isDigit).length)
  else if isWordStart c then some (.word, (cs.takeWhile isWordRest).length)
  else if c = '"' then
    match quoteEnd 0 cs with
    | .closed n => some (.quoted, n)
    | .unclosed _ => none
  else
    match pairPattern? c cs with
    | some .lineComment => some (.lineComment, (cs.takeWhile (· ≠ '\n')).length)
    | some pattern => some (pattern, 1)
    | none => (singleSigns.lookup c).map fun kind => (.sign kind, 0)

/-! ### What a lexeme means -/

inductive LexFault
  | unexpectedChar (c : Char)
  | unterminatedString
  | unterminatedComment
  | invalidEscape
  | invalidNumber
deriving DecidableEq, Repr

inductive Verdict
  | skip
  | token (kind : TokenKind)
  | fault (fault : LexFault)
deriving DecidableEq, Repr

/-- The largest number that can be written, one less than 2 to the power of 63. -/
def maxNumber : Nat := 9223372036854775807

def digitsValue (digits : List Char) : Nat :=
  digits.foldl (fun n c => 10 * n + (c.toNat - '0'.toNat)) 0

/-- Characters that may follow a backslash in a string. -/
def isEscape (c : Char) : Bool := c = 'n' || c = 't' || c = '\\' || c = '"'

/-- Whether every backslash in the body of a string is followed by a character that
    may follow it. -/
def escapesValid : List Char → Bool
  | [] => true
  | '\\' :: [] => false
  | '\\' :: c :: cs => isEscape c && escapesValid cs
  | _ :: cs => escapesValid cs

/-- Reads the lexeme at the start of the text `c :: cs`: what becomes of it, and how
    many characters after the first belong to it. -/
def readLexeme (c : Char) (cs : List Char) : Verdict × Nat :=
  if isBlank c then (.skip, 0)
  else
    match munch c cs with
    | some (.sign kind, n) => (.token kind, n)
    | some (.lineComment, n) => (.skip, n)
    | some (.commentOpen, n) =>
      match commentEnd 1 0 (cs.drop n) with
      | some m => (.skip, n + m)
      | none => (.fault .unterminatedComment, cs.length)
    | some (.digits, n) =>
      if digitsValue (c :: cs.take n) ≤ maxNumber then (.token .int, n)
      else (.fault .invalidNumber, n)
    | some (.quoted, n) =>
      if escapesValid (cs.take (n - 1)) then (.token .str, n) else (.fault .invalidEscape, n)
    | some (.word, n) =>
      (.token ((TokenKind.keyword? (String.ofList (c :: cs.take n))).getD .ident), n)
    | none =>
      if c = '"' then (.fault .unterminatedString, (quoteEnd 0 cs).length)
      else (.fault (.unexpectedChar c), 0)

/-! ### Scanning -/

/-- A lexeme that was not skipped: what becomes of it, its text, and the byte offset
    where it starts. -/
structure Lexeme where
  verdict : Verdict
  text : List Char
  start : Nat
deriving DecidableEq, Repr

def Lexeme.stop (l : Lexeme) : Nat := l.start + utf8Length l.text

/-- Lexemes of a text that begins at byte `offset`, after the lexemes already found. -/
def scanFrom (offset : Nat) (found : Array Lexeme) : List Char → Array Lexeme
  | [] => found
  | c :: cs =>
    let (verdict, n) := readLexeme c cs
    let lexeme : Lexeme := ⟨verdict, c :: cs.take n, offset⟩
    scanFrom lexeme.stop (if verdict = .skip then found else found.push lexeme) (cs.drop n)
termination_by cs => cs.length

/-- All lexemes of a text that are not skipped, in order. -/
def scan (text : List Char) : List Lexeme := (scanFrom 0 #[] text).toList

end TarnLang
