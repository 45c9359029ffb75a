/-
  TarnLang/Token.lean
  ===================
  **Tokens.**  A token is a kind, the text it was written as, and its span.  Every
  kind has a name for messages; names and literals are described with their text.
  The fifteen keywords are the words that are never names.
-/
import TarnLang.Span

namespace TarnLang

inductive TokenKind
  | int | str | ident
  | letKw | fnKw | procKw | returnKw | ifKw | elseKw | forKw | whileKw | switchKw | caseKw
  | andKw | orKw | notKw | trueKw | falseKw
  | plus | minus | star | slash | percent
  | eq | eqEq | bangEq | lt | gt | ltEq | gtEq
  | lParen | rParen | lBrace | rBrace | comma | semi
  | eof
deriving DecidableEq, Repr, Inhabited

namespace TokenKind

def displayName : TokenKind → String
  | int => "a number"
  | str => "a string"
  | ident => "a name"
  | letKw => "'let'"
  | fnKw => "'fn'"
  | procKw => "'proc'"
  | returnKw => "'return'"
  | ifKw => "'if'"
  | elseKw => "'else'"
  | forKw => "'for'"
  | whileKw => "'while'"
  | switchKw => "'switch'"
  | caseKw => "'case'"
  | andKw => "'and'"
  | orKw => "'or'"
  | notKw => "'not'"
  | trueKw => "'true'"
  | falseKw => "'false'"
  | plus => "'+'"
  | minus => "'-'"
  | star => "'*'"
  | slash => "'/'"
  | percent => "'%'"
  | eq => "'='"
  | eqEq => "'=='"
  | bangEq => "'!='"
  | lt => "'<'"
  | gt => "'>'"
  | ltEq => "'<='"
  | gtEq => "'>='"
  | lParen => "'('"
  | rParen => "')'"
  | lBrace => "'\x7b'"
  | rBrace => "'\x7d'"
  | comma => "','"
  | semi => "';'"
  | eof => "end of file"

/-- Short name of a kind, as listings and printed trees show it. -/
def label : TokenKind → String
  | int => "Int"
  | str => "Str"
  | ident => "Ident"
  | letKw => "Let"
  | fnKw => "Fn"
  | procKw => "Proc"
  | returnKw => "Return"
  | ifKw => "If"
  | elseKw => "Else"
  | forKw => "For"
  | whileKw => "While"
  | switchKw => "Switch"
  | caseKw => "Case"
  | andKw => "And"
  | orKw => "Or"
  | notKw => "Not"
  | trueKw => "True"
  | falseKw => "False"
  | plus => "Plus"
  | minus => "Minus"
  | star => "Star"
  | slash => "Slash"
  | percent => "Percent"
  | eq => "Eq"
  | eqEq => "EqEq"
  | bangEq => "BangEq"
  | lt => "Lt"
  | gt => "Gt"
  | ltEq => "LtEq"
  | gtEq => "GtEq"
  | lParen => "LParen"
  | rParen => "RParen"
  | lBrace => "LBrace"
  | rBrace => "RBrace"
  | comma => "Comma"
  | semi => "Semi"
  | eof => "Eof"

/-- All kinds, in the order of their declaration. -/
def all : List TokenKind :=
  [int, str, ident, letKw, fnKw, procKw, returnKw, ifKw, elseKw, forKw, whileKw, switchKw, caseKw,
    andKw, orKw, notKw, trueKw, falseKw, plus, minus, star, slash, percent, eq, eqEq, bangEq, lt, gt,
    ltEq, gtEq, lParen, rParen, lBrace, rBrace, comma, semi, eof]

def ofLabel? (name : String) : Option TokenKind := all.find? (·.label = name)

def keywords : List (String × TokenKind) :=
  [("let", letKw), ("fn", fnKw), ("proc", procKw), ("return", returnKw), ("if", ifKw),
    ("else", elseKw), ("for", forKw), ("while", whileKw), ("switch", switchKw), ("case", caseKw),
    ("and", andKw), ("or", orKw), ("not", notKw), ("true", trueKw), ("false", falseKw)]

def keyword? (word : String) : Option TokenKind := keywords.lookup word

def isKeyword (kind : TokenKind) : Bool := keywords.any (·.2 = kind)

end TokenKind

/-- A token: its kind, its text and where it stands.  The end-of-file token has no
    text. -/
structure Token where
  kind : TokenKind
  text : String
  span : Span
deriving DecidableEq, Repr, Inhabited

namespace Token

/-- Description of a token in messages: names and literals are quoted, other tokens
    are named by their kind. -/
def describe (t : Token) : String :=
  match t.kind with
  | .ident => "identifier '" ++ t.text ++ "'"
  | .int => "number '" ++ t.text ++ "'"
  | .str => "string " ++ t.text
  | kind => kind.displayName

/-- The token that stands for an end of file where there are no tokens at all. -/
def emptyEof : Token := ⟨.eof, "", Span.point Position.origin⟩

end Token

end TarnLang
